import PrivRecCert.Prc.Config
import PrivRecCert.Prc.Commitment
import PrivRecCert.Prc.Util

/-! The client: queries for all servers, and the check of the token that a server returns. -/
namespace PrivRecCert.Prc
open CorRnd

/-- What `ed25519_dalek` provides. `verifyStrict` says whether the verification succeeds. -/
class Ed25519 (SK : Type) (VK Sig : outParam Type) where
  verifyingKey : SK → VK
  sign : SK → List U8 → Sig
  verifyStrict : VK → List U8 → Sig → Bool

/-- The documented behaviour of signatures, for the commitments that are signed here: what was signed under a key
verifies under it, and it verifies for no other commitment. -/
class LawfulEd25519 (G SK : Type) {VK Sig : Type} [AddCommGroup G] [Module Scalar G] [Ristretto G] [Ed25519 SK VK Sig] :
    Prop where
  verifyStrict_sign : ∀ (sk : SK) (a b : Commitment G),
    Ed25519.verifyStrict SK (Ed25519.verifyingKey sk) b.serialize (Ed25519.sign sk a.serialize) = true ↔
      b.serialize = a.serialize

/-- Signatures that consist of the key and the message. -/
instance : Ed25519 Scalar Scalar (Scalar × List U8) where
  verifyingKey sk := sk
  sign sk m := (sk, m)
  verifyStrict pk m sig := decide (sig = (pk, m))

instance {G : Type} [AddCommGroup G] [Module Scalar G] [Ristretto G] : LawfulEd25519 G Scalar where
  verifyStrict_sign sk a b := by
    change decide ((sk, a.serialize) = (sk, b.serialize)) = true ↔ b.serialize = a.serialize
    simp [eq_comm]

/-- `usize::trailing_zeros`. -/
def trailingZeros (n : ℕ) : ℕ := ((List.range 64).takeWhile fun i => !n.testBit i).length

theorem trailingZeros_two_pow {m : ℕ} (hm : m < 64) : trailingZeros (2^m) = m := by
  have hsplit : List.range 64 = List.range m ++ (List.range (64-m)).map (m + ·) := by
    rw [← List.range_add]
    exact congrArg _ (by omega)
  obtain ⟨j, hj⟩ : ∃ j, 64 - m = j+1 := ⟨63-m, by omega⟩
  have hall : ∀ i ∈ List.range m, (!(2^m).testBit i) = true := fun i hi => by
    rw [Nat.testBit_two_pow_of_ne (by have := List.mem_range.mp hi; omega)]
    rfl
  rw [trailingZeros, hsplit, List.takeWhile_append_of_pos hall, hj, List.range_succ_eq_map, List.map_cons,
    List.takeWhile_cons, Nat.add_zero, Nat.testBit_two_pow_self]
  simp

structure PRCClientSt where
  idx : Scalar
  crnd : Scalar

structure PRCQuery where
  l1Bss : BooleanValue
  l2Bss : BooleanValue
  rndAss : ArithValueT

structure PRCToken (G Sig : Type) where
  commitment : Option (Commitment G)
  sig : Sig

structure PRCClient where
  partyNum : ℕ
  dbConf : DBConfig
  sysConf : SystemConfig

section Token
variable {G SK VK Sig : Type} [AddCommGroup G] [Module Scalar G] [Ristretto G] [Ed25519 SK VK Sig]

def PRCClientSt.getCommitment (st : PRCClientSt) (recValue : U32) : Commitment G :=
  .commit ⟨st.crnd, st.idx, ArithValueT.fromU32 recValue⟩

/-- Keeps the commitment if the token is one for it. -/
def PRCToken.checkForRecVal (SK : Type) [Ed25519 SK VK Sig] (token : PRCToken G Sig) (st : PRCClientSt)
    (recVal : U32) (serverPk : VK) : Bool × PRCToken G Sig :=
  let commit : Commitment G := st.getCommitment recVal
  if Ed25519.verifyStrict SK serverPk commit.serialize token.sig then
    (true, { token with commitment := some commit })
  else (false, token)

inductive VerifyError : Type
  | missingValue
  | signature
  deriving DecidableEq

def PRCToken.verify (SK : Type) [Ed25519 SK VK Sig] (token : PRCToken G Sig) (serverPk : VK) :
    Except VerifyError Unit :=
  match token.commitment with
  | none => .error .missingValue
  | some commitment =>
    if Ed25519.verifyStrict SK serverPk commitment.serialize token.sig then .ok () else .error .signature

end Token

namespace PRCClient
variable {R : Type} [ScalarRng R]

/-- Both as `u8`. -/
def getLogdim (c : PRCClient) : ℕ × ℕ := (trailingZeros c.dbConf.l1Dim, trailingZeros c.dbConf.l2Dim)

def idxTo2dim (c : PRCClient) (idx : ℕ) : Option (ℕ × ℕ) :=
  if idx < c.dbConf.getMaxSize then some (idx % c.dbConf.l1Dim, idx / c.dbConf.l1Dim) else none

/-- Shares of both halves of the index. -/
def queryIndex (c : PRCClient) (idx : ℕ) (rng : R) : Option ((List BooleanValue × List BooleanValue) × R) := do
  let (dim1, dim2) := c.getLogdim
  let (l1, l2) ← c.idxTo2dim idx
  let l1 ← BooleanValue.new dim1 (BitVec.ofNat 32 l1)
  let l2 ← BooleanValue.new dim2 (BitVec.ofNat 32 l2)
  let (l1Shares, rng) ← secretShareBoolean l1 c.partyNum rng
  let (l2Shares, rng) ← secretShareBoolean l2 c.partyNum rng
  some ((l1Shares, l2Shares), rng)

/-- The randomness of the commitment, and its shares. -/
def queryCommitRnd (c : PRCClient) (rng : R) : Option ((ArithValueT × List ArithValueT) × R) := do
  let (rnd, rng) := ArithValueT.random rng
  let (rndShares, rng) ← secretShareArith rnd c.partyNum rng
  some ((rnd, rndShares), rng)

def queryAllServers (c : PRCClient) (idx : ℕ) (rng : R) : Option ((PRCClientSt × List PRCQuery) × R) := do
  let ((l1, l2), rng) ← c.queryIndex idx rng
  let ((rnd, rndShares), rng) ← c.queryCommitRnd rng
  let st : PRCClientSt := { crnd := rnd, idx := ArithValueT.fromU32 (BitVec.ofNat 32 idx) }
  let queries ← (List.range c.sysConf.getPartyNum).mapM fun i => do
    some (PRCQuery.mk (← l1[i]?) (← l2[i]?) (← rndShares[i]?))
  some ((st, queries), rng)

end PRCClient
end PrivRecCert.Prc
