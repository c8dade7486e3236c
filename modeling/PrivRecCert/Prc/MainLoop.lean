import PrivRecCert.Prc.Server

/-! The server program. All servers of a system are given the same arguments but for their number, and the client that
each of them runs beside itself starts from one seed, so that they agree on what is asked for. -/
namespace PrivRecCert.Prc
open CorRnd Rounds

namespace SystemConfig

def getPeerInfo (c : SystemConfig) (id : ℕ) : Option PeerInfo := c.peers.find? fun peer => peer.id = id

def getPeerIdx (c : SystemConfig) (id : ℕ) : Option ℕ := c.peers.findIdx? fun peer => peer.id = id

end SystemConfig

/-- The peer number `i`. The addition of the ports is one of `u16`. -/
def localhostPeer (basePort i : ℕ) : Option PeerInfo :=
  if basePort + i % 2^16 < 2^16 then some ⟨i, .replicate 32 (BitVec.ofNat 8 (100+i))⟩ else none

def localhostPeerConfig (partyNum basePort : ℕ) : Option (List PeerInfo) :=
  (List.range partyNum).mapM (localhostPeer basePort)

namespace PRCClient
variable {R : Type} [ScalarRng R]

def totalDbSize (c : PRCClient) : ℕ := c.dbConf.getMaxSize

/-- The query for the server with this number. -/
def querySingleServer (c : PRCClient) (idx serverId : ℕ) (rng : R) : Option ((PRCClientSt × PRCQuery) × R) := do
  let ((st, queries), rng) ← c.queryAllServers idx rng
  let peerIdx ← c.sysConf.getPeerIdx serverId
  some ((st, ← queries[peerIdx]?), rng)

/-- The index of the next record, a word modulo the size of the database. -/
def nextIdx (c : PRCClient) (rng : R) : Option (ℕ × R) :=
  let (word, rng) := ScalarRng.nextU32 rng
  if c.totalDbSize = 0 then none else some (word.toNat % c.totalDbSize, rng)

end PRCClient

/-- Triples and daBits since the last report. -/
def MpcProvider.getPreprocStat (p : MpcProvider) : Option ((ℕ × ℕ) × MpcProvider) := do
  let (bt, beaverProvider) ← p.beaverProvider.reportBeaverUsageThenReset
  let (dabit, dabitProvider) ← p.dabitProvider.reportDabitUsageThenReset
  some ((bt, dabit), { p with beaverProvider := beaverProvider, dabitProvider := dabitProvider })

/-- What is kept of one repetition. `checks` are the checks of a token, for record value 0 and for record value 1. -/
structure Repetition where
  idx : ℕ
  checks : Option (Bool × Bool)
  btUsed : ℕ
  dabitUse : ℕ

/-- What a server carries from one repetition to the next. -/
structure RunState (SK VK R : Type) where
  server : PRCServer SK VK
  rng : R
  log : List Repetition

section Run
variable {SK VK Sig G R : Type} [AddCommGroup G] [Module Scalar G] [Ristretto G] [Ed25519 SK VK Sig] [ScalarRng R]

/-- One of the checks has to have set the commitment. -/
def PRCToken.checkBoth (SK : Type) [Ed25519 SK VK Sig] (token : PRCToken G Sig) (st : PRCClientSt) (pk : VK) :
    Option (Bool × Bool) :=
  let (checkRec0, token) := token.checkForRecVal SK st 0 pk
  let (checkRec1, token) := token.checkForRecVal SK st 1 pk
  match token.verify SK pk with
  | .ok _ => some (checkRec0, checkRec1)
  | .error _ => none

/-- One repetition of the main loop. The source reports the traffic before `get_preproc_stat` and the checks, and here
it is reported when the repetition is over: neither of them sends or receives anything. -/
def RunState.repetition (G Sig : Type) [AddCommGroup G] [Module Scalar G] [Ristretto G] [Ed25519 SK VK Sig]
    (client : PRCClient) (s : RunState SK VK R) : Party G (RunState SK VK R) := do
  let (idx, rng) ← .lift (client.nextIdx s.rng)
  let ((st, query), rng) ← .lift (client.querySingleServer idx s.server.id rng)
  let ((resp : Option (PRCToken G Sig)), server) ← s.server.prcProtocol query
  let ((btUsed, dabitUse), mpcProvider) ← .lift server.mpcProvider.getPreprocStat
  let checks ← .lift (resp.mapM fun token => token.checkBoth SK st server.pk)
  return ⟨{ server with mpcProvider := mpcProvider }, rng, s.log ++ [⟨idx, checks, btUsed, dabitUse⟩]⟩

end Run

/-- The arguments of the program. -/
structure Cli where
  id : ℕ
  partyNum : ℕ
  dbL1 : ℕ
  dbL2 : ℕ
  repNum : ℕ
  basePort : ℕ

namespace Cli

/-- The configuration of the servers. The port is cast to a `u16`. -/
def config (args : Cli) : Option SystemConfig := do
  some ⟨← localhostPeerConfig args.partyNum (args.basePort % 2^16),
    ⟨1, args.dbL1, args.dbL2, some (.replicate 32 42)⟩⟩

/-- The client knows the shape of the database only. -/
def client (args : Cli) (config : SystemConfig) : PRCClient :=
  ⟨args.partyNum, ⟨1, args.dbL1, args.dbL2, none⟩, config⟩

/-- A server before its first repetition. -/
def start {SK VK Sig : Type} [Ed25519 SK VK Sig] (chacha : ChaCha8Rng.Keystream) (args : Cli) (sk : SK) :
    Option (RunState SK VK ChaCha8Rng) := do
  let config ← args.config
  let _ ← config.getPeerInfo args.id
  let server ← PRCServer.newWithMessageHandler chacha args.id config args.repNum sk
  some ⟨server, .fromSeed chacha (.replicate 32 13), []⟩

end Cli
end PrivRecCert.Prc
