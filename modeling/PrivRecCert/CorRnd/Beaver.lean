import PrivRecCert.SimdArray.D2BitArray

/-! `BeaverProvider`: shares of Beaver triples, generated from seeds and handed out bytewise. -/
namespace PrivRecCert.CorRnd
open SimdArray

structure BeaverProvider where
  beaverStorage : Option D2BitArray
  used : ℕ
  lastReport : ℕ

namespace BeaverProvider

def new : BeaverProvider := ⟨none, 0, 0⟩

def generateWithSeed (chacha : ChaCha8Rng.Keystream) (p : BeaverProvider) (bitNum : ℕ) (seed : Seed) :
    Option BeaverProvider := do
  some { p with beaverStorage := some (← D2BitArray.fromSeed chacha 3 bitNum seed) }

/-- The dealer draws the sums of `a` and `b` to its own shares, replays the other parties'
shares, and takes the share of `c` that completes the triples. -/
def generateAsDealer (chacha : ChaCha8Rng.Keystream) (p : BeaverProvider) (bitNum : ℕ) (seed : Seed)
    (otherPartySeeds : List Seed) : Option BeaverProvider := do
  let dealerTriplets ← D2BitArray.fromSeed chacha 2 bitNum seed
  let dealerTriplets := dealerTriplets.push (← BitArray.new bitNum)
  let recuns ← dealerTriplets.clone
  let otherShares ← otherPartySeeds.mapM fun otherSeed => D2BitArray.fromSeed chacha 3 bitNum otherSeed
  let recuns ← recuns.inplaceReconstruct otherShares
  let c ← dealerTriplets.getArray 2
  let c ← c.mutAnd (← recuns.getArray 0) (← recuns.getArray 1)
  let c ← c.inplaceXor (← recuns.getArray 2)
  some { p with beaverStorage := some (dealerTriplets.setArray 2 c) }

/-- The next `reqSize` bytes of every array. -/
def take (p : BeaverProvider) (reqSize : ℕ) : Option (D2BitArray × BeaverProvider) := do
  let storage ← p.beaverStorage
  if p.used + reqSize ≤ storage.innerByteSize then
    let result ← storage.toSlice p.used (p.used+reqSize)
    some (result, { p with used := p.used + reqSize })
  else none

def reportBeaverUsageThenReset (p : BeaverProvider) : Option (ℕ × BeaverProvider) :=
  if p.lastReport ≤ p.used then some ((p.used - p.lastReport)*8, { p with lastReport := p.used })
  else none

/-- The provider holds triples of `s` bits with streams `fs`, and has handed out `u` bytes. -/
structure Holds (p : BeaverProvider) (s : ℕ) (fs : List (ℕ → Bool)) (u : ℕ) : Prop where
  storage : ∃ d, p.beaverStorage = some d ∧ d.Represents s fs
  used_eq : p.used = u

variable {p : BeaverProvider} {s u m : ℕ} {fs : List (ℕ → Bool)}

/-- `m` bytes of a stream from byte `u` on. -/
def slice (f : ℕ → Bool) (u m k : ℕ) : Bool := if k < 8*m then f (k + 8*u) else false

theorem take_eq (hp : p.Holds s fs u) (hfs : fs ≠ []) (hle : u + m ≤ (s+7)/8) :
    ∃ d p', p.take m = some (d, p') ∧ d.Represents (8*m) (fs.map fun f => slice f u m) ∧
      p'.Holds s fs (u+m) := by
  obtain ⟨d, hd, hdr⟩ := hp.storage
  obtain ⟨e, he, her⟩ := D2BitArray.toSlice_eq hdr (Nat.le_add_right u m) hle
  have hsize := D2BitArray.innerByteSize_eq hdr hfs
  rw [Nat.add_sub_cancel_left] at her
  refine ⟨e, { p with used := p.used + m }, ?_, her, ⟨⟨d, hd, hdr⟩, ?_⟩⟩
  · simp [take, hd, hp.used_eq, hsize, hle, he]
  · exact congrArg (· + m) hp.used_eq

theorem take_none (hp : p.Holds s fs u) (hfs : fs ≠ []) (hlt : (s+7)/8 < u + m) :
    p.take m = none := by
  obtain ⟨d, hd, hdr⟩ := hp.storage
  have hsize := D2BitArray.innerByteSize_eq hdr hfs
  have hn : ¬ u + m ≤ (s+7)/8 := by omega
  simp [take, hd, hp.used_eq, hsize, hn]

end BeaverProvider
end PrivRecCert.CorRnd
