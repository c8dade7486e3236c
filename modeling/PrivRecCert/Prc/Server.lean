import PrivRecCert.Prc.Client
import PrivRecCert.Prc.Db
import PrivRecCert.Prc.Mpc

/-! The server: retrieval of a record bit from shares of its index, and certification of the bit by
a signed commitment. The message handler is the server's connection to the network. -/
namespace PrivRecCert.Prc
open CorRnd SimdArray Rounds

structure PRCServer (SK VK : Type) where
  id : ℕ
  config : SystemConfig
  db : PRCDatabase
  pk : VK
  mpcProvider : MpcProvider
  sk : SK

namespace PRCServer
variable {SK VK Sig : Type} {G : Type}

/-- Party 0 adds the constants. The signing key comes from the operating system. -/
def newWithMessageHandler [Ed25519 SK VK Sig] (chacha : ChaCha8Rng.Keystream) (id : ℕ) (config : SystemConfig)
    (expectedQueryNum : ℕ) (sk : SK) : Option (PRCServer SK VK) := do
  let db ← PRCDatabase.fromConfig chacha config.dbConfig
  let (beaver, dabit) ← config.initSeededCorrelatedRandomness chacha id expectedQueryNum
  let mpcProvider := MpcProvider.new (id = 0) beaver dabit
  some ⟨id, config, db, Ed25519.verifyingKey sk, mpcProvider, sk⟩

/-- A share of the record bit. The layers of the second run are not cleared. -/
def recRetrieve (S : PRCServer SK VK) (l1IdxShare l2IdxShare : BooleanValue) :
    Party G (Bool × PRCServer SK VK) := do
  let (l1OheSrc, mpc) ← .lift (S.mpcProvider.oheVec l1IdxShare)
  let (l2OheSrc, mpc) ← .lift (mpc.oheVec l2IdxShare)
  let mpc ← mpc.run
  let l1Ohe ← .lift (mpc.getOutput l1OheSrc)
  let l2Ohe ← .lift (mpc.getOutput l2OheSrc)
  let mpc := mpc.clear
  let l1PirAns ← .lift (S.db.lvl1PirRetrieve l1Ohe)
  if l1PirAns.bitSize = l2Ohe.bitSize then do
    let (p2AnsSrc, mpc) ← .lift (mpc.and l1PirAns.bitSize (.input l1PirAns) (.input l2Ohe))
    let mpc ← mpc.run
    let p2Ans ← .lift (mpc.getOutput p2AnsSrc)
    let parity ← .lift p2Ans.parity
    return (parity, { S with mpcProvider := mpc })
  else .fail

def convB2A (S : PRCServer SK VK) (binaries : List BooleanValue) : Party G (List ArithValueT × PRCServer SK VK) := do
  let (arith, mpc) ← S.mpcProvider.runConvB2A binaries
  return (arith, { S with mpcProvider := mpc })

variable [AddCommGroup G] [Module Scalar G] [Ristretto G] [Ed25519 SK VK Sig]

/-- `prc_protocol` after the retrieval: the index and the bit are converted and committed to, and the
constant party signs the sum of all commitments. -/
def certify (S : PRCServer SK VK) (query : PRCQuery) (recordShare : Bool) :
    Party G (Option (PRCToken G Sig) × PRCServer SK VK) := do
  let joined ← .lift (joinBoolean query.l1Bss query.l2Bss)
  let record ← .lift (BooleanValue.new 1 (BitVec.ofNat 32 recordShare.toNat))
  let (arith, S) ← S.convB2A [joined, record]
  let opening : Opening := ⟨query.rndAss, ← .lift arith[0]?, ← .lift arith[1]?⟩
  let peerCommit : Commitment G := .commit opening
  let aggCommit ← S.mpcProvider.aggregateCommitments peerCommit
  return (aggCommit.map fun commit => ⟨none, Ed25519.sign S.sk commit.serialize⟩, S)

/-- `prc_protocol`, with the record share that it computes on the way. -/
def prcProtocolShare (S : PRCServer SK VK) (query : PRCQuery) :
    Party G ((Bool × Option (PRCToken G Sig)) × PRCServer SK VK) := do
  let (recordShare, S) ← S.recRetrieve query.l1Bss query.l2Bss
  let (token, S) ← S.certify query recordShare
  return ((recordShare, token), S)

def prcProtocol (S : PRCServer SK VK) (query : PRCQuery) : Party G (Option (PRCToken G Sig) × PRCServer SK VK) := do
  let ((_, token), S) ← S.prcProtocolShare query
  return (token, S)

/-- Queries one after the other, with the record shares and the tokens. -/
def serve (S : PRCServer SK VK) :
    List PRCQuery → Party G (List (Bool × Option (PRCToken G Sig)) × PRCServer SK VK)
  | [] => return ([], S)
  | query :: queries => do
    let (out, S) ← S.prcProtocolShare query
    let (outs, S) ← S.serve queries
    return (out :: outs, S)

end PRCServer
end PrivRecCert.Prc
