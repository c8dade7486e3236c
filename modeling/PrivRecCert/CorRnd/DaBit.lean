import PrivRecCert.CorRnd.Sharing

/-! daBits: one random bit, shared both as a bit and as a scalar. -/
namespace PrivRecCert.CorRnd

structure DaBit where
  rZ2 : Bool
  rZp : ArithValueT
  deriving DecidableEq

namespace DaBit
variable {R : Type} [ScalarRng R]

/-- One share: a word whose lowest bit is used, then a scalar. -/
def randomDabit (rng : R) : DaBit × R :=
  let (word, rng) := ScalarRng.nextU32 rng
  let (scalar, rng) := ArithValueT.random rng
  (⟨decide (word.toNat % 2 = 1), scalar⟩, rng)

def randomDabits : ℕ → R → List DaBit × R
  | 0, rng => ([], rng)
  | bitNum+1, rng =>
    let (dabit, rng) := randomDabit rng
    let (dabits, rng) := randomDabits bitNum rng
    (dabit :: dabits, rng)

/-- A random bit, in both domains. -/
def initSingleBit (rng : R) : DaBit × R :=
  let (word, rng) := ScalarRng.nextU32 rng
  let val := word.toNat % 2
  (⟨decide (val = 1), ArithValueT.fromU32 (BitVec.ofNat 32 val)⟩, rng)

def sub (self da : DaBit) : DaBit := ⟨self.rZ2 ^^ da.rZ2, self.rZp - da.rZp⟩

end DaBit

structure DaBitProvider where
  daBitStorage : Option (List DaBit)
  used : ℕ
  lastReport : ℕ

namespace DaBitProvider

def new : DaBitProvider := ⟨none, 0, 0⟩

def generateWithSeed (chacha : ChaCha8Rng.Keystream) (bitNum : ℕ) (seed : Seed) : DaBitProvider :=
  ⟨some (DaBit.randomDabits bitNum (ChaCha8Rng.fromSeed chacha seed)).1, 0, 0⟩

/-- The dealer's entries from entry `i` on: a fresh bit minus the other parties' entries `i`. -/
def dealerDabits (otherShares : List (List DaBit)) : ℕ → ℕ → ChaCha8Rng → Option (List DaBit)
  | 0, _, _ => some []
  | count+1, i, dealerRng => do
    let (acc, dealerRng) := DaBit.initSingleBit dealerRng
    let acc ← otherShares.foldlM (fun acc otherShare => do some (acc.sub (← otherShare[i]?))) acc
    some (acc :: (← dealerDabits otherShares count (i+1) dealerRng))

def generateAsDealer (chacha : ChaCha8Rng.Keystream) (bitNum : ℕ) (seed : Seed)
    (otherPartySeeds : List Seed) : Option DaBitProvider := do
  let otherShares := otherPartySeeds.map fun otherSeed =>
    (DaBit.randomDabits bitNum (ChaCha8Rng.fromSeed chacha otherSeed)).1
  let dealerDabit ← dealerDabits otherShares bitNum 0 (ChaCha8Rng.fromSeed chacha seed)
  some ⟨some dealerDabit, 0, 0⟩

/-- The next `reqSize` daBits. -/
def take (p : DaBitProvider) (reqSize : ℕ) : Option (List DaBit × DaBitProvider) := do
  let storage ← p.daBitStorage
  if p.used + reqSize ≤ storage.length then
    some ((storage.drop p.used).take reqSize, { p with used := p.used + reqSize })
  else none

def reportDabitUsageThenReset (p : DaBitProvider) : Option (ℕ × DaBitProvider) :=
  if p.lastReport ≤ p.used then some (p.used - p.lastReport, { p with lastReport := p.used })
  else none

/-- The provider holds the daBits `l`, and has handed out the first `u` of them. -/
structure Holds (p : DaBitProvider) (l : List DaBit) (u : ℕ) : Prop where
  storage : p.daBitStorage = some l
  used_eq : p.used = u

variable {p : DaBitProvider} {l : List DaBit} {u m : ℕ}

theorem take_eq (hp : p.Holds l u) (hle : u + m ≤ l.length) :
    ∃ p', p.take m = some ((l.drop u).take m, p') ∧ p'.Holds l (u+m) := by
  refine ⟨{ p with used := p.used + m }, ?_, hp.storage, congrArg (· + m) hp.used_eq⟩
  simp [take, hp.storage, hp.used_eq, hle]

theorem take_none (hp : p.Holds l u) (hlt : l.length < u + m) : p.take m = none := by
  have hn : ¬ u + m ≤ l.length := by omega
  simp [take, hp.storage, hp.used_eq, hn]

end DaBitProvider
end PrivRecCert.CorRnd
