import PrivRecCert.Prc.Config
import PrivRecCert.SimdArray.D2BitArray

/-! The database: one two-dimensional bit array for each bit of a record. Record `idx` is bit
`idx % l1_dim` of array `idx / l1_dim`. -/
namespace PrivRecCert.Prc
open SimdArray
open scoped BigOperators

/-- `usize::is_power_of_two`. -/
def isPowerOfTwo (n : ℕ) : Prop := 2^(Nat.log 2 n) = n

instance (n : ℕ) : Decidable (isPowerOfTwo n) := inferInstanceAs (Decidable (_ = _))

theorem isPowerOfTwo_iff {n : ℕ} : isPowerOfTwo n ↔ ∃ m, n = 2^m :=
  ⟨fun h => ⟨_, h.symm⟩, fun ⟨m, hm⟩ => by rw [isPowerOfTwo, hm, Nat.log_pow (by decide)]⟩

structure PRCDatabase where
  bitDbs : List D2BitArray
  recordSize : ℕ
  l2Dim : ℕ
  l1Dim : ℕ

namespace PRCDatabase

/-- The bit planes, drawn one after the other. -/
def randomPlanes {R : Type} [RngCore R] (l2Dim l1Dim : ℕ) : ℕ → R → Option (List D2BitArray × R)
  | 0, rng => some ([], rng)
  | recordSize+1, rng => do
    let (plane, rng) ← D2BitArray.random l2Dim l1Dim rng
    let (planes, rng) ← randomPlanes l2Dim l1Dim recordSize rng
    some (plane :: planes, rng)

def fromSeed (chacha : ChaCha8Rng.Keystream) (recordSize l2Dim l1Dim : ℕ) (seed : Seed) : Option PRCDatabase :=
  if isPowerOfTwo l1Dim ∧ isPowerOfTwo l2Dim ∧ l1Dim ≥ l2Dim ∧ l1Dim ≥ 8 ∧ recordSize ≤ 32 then do
    let (bitDbs, _) ← randomPlanes l2Dim l1Dim recordSize (ChaCha8Rng.fromSeed chacha seed)
    some ⟨bitDbs, recordSize, l2Dim, l1Dim⟩
  else none

def fromConfig (chacha : ChaCha8Rng.Keystream) (config : DBConfig) : Option PRCDatabase := do
  fromSeed chacha config.dbRecordSize config.l2Dim config.l1Dim (← config.dbSeed)

def totalSize (db : PRCDatabase) : ℕ := db.l1Dim * db.l2Dim

def idxTo2dim (db : PRCDatabase) (idx : ℕ) : Option (ℕ × ℕ) :=
  if idx < db.totalSize then some (idx % db.l1Dim, idx / db.l1Dim) else none

def getRecordBit (db : PRCDatabase) (idx bitChoice : ℕ) : Option Bool :=
  if idx < db.totalSize ∧ bitChoice < db.recordSize then do
    let (l1, l2) ← db.idxTo2dim idx
    (← (← db.bitDbs[bitChoice]?).getArray l2).get l1
  else none

/-- The inner product of the encoded index with every row of the first bit plane. -/
def lvl1PirRetrieve (db : PRCDatabase) (ohe : BitArray) : Option BitArray :=
  if db.recordSize > 1 then none
  else if ohe.bitSize ≠ db.l1Dim then none
  else do
    let out ← BitArray.new db.l2Dim
    (List.range db.l2Dim).foldlM (fun out i => do
      let res ← BitArray.innerProd ohe (← (← db.bitDbs[0]?).getArray i)
      out.setBit i res) out

/-- Bit `idxLv1` of every row of the first bit plane. -/
def lvl1PlainIdx (db : PRCDatabase) (idxLv1 : ℕ) : Option BitArray := do
  let out ← BitArray.new db.l2Dim
  (List.range db.l2Dim).foldlM (fun out i => do
    out.setBit i (← (← (← db.bitDbs[0]?).getArray i).get idxLv1)) out

/-- The database consists of `recordSize` bit planes of `l2` rows of `l1` bits; bit `k` of row `i` of
plane `b` is `cell b i k`. -/
structure Holds (db : PRCDatabase) (recordSize l2 l1 : ℕ) (cell : ℕ → ℕ → ℕ → Bool) : Prop where
  recordSize_eq : db.recordSize = recordSize
  l2Dim_eq : db.l2Dim = l2
  l1Dim_eq : db.l1Dim = l1
  row : ∀ b < recordSize, ∃ d, db.bitDbs[b]? = some d ∧ ∀ i < l2, ∃ a, d.getArray i = some a ∧
    a.Represents l1 (cell b i)
  clear : ∀ b i k, l1 ≤ k → cell b i k = false

theorem randomPlanes_eq {R : Type} [RngCore R] {l1 : ℕ} (hl1 : 0 < l1) (hbyte : l1 % 8 = 0) (l2 recordSize : ℕ)
    (rng : R) : ∃ planes rng', randomPlanes l2 l1 recordSize rng = some (planes, rng') ∧
      ∃ cell : ℕ → ℕ → ℕ → Bool, (∀ b < recordSize, ∃ d, planes[b]? = some d ∧ ∀ i < l2, ∃ a,
        d.getArray i = some a ∧ a.Represents l1 (cell b i)) ∧ ∀ b i k, l1 ≤ k → cell b i k = false := by
  induction recordSize generalizing rng with
  | zero => exact ⟨[], rng, rfl, fun _ _ _ => false, fun b hb => absurd hb (Nat.not_lt_zero b), fun _ _ _ _ => rfl⟩
  | succ recordSize ih =>
    obtain ⟨d, rng₁, hd, hdr⟩ := D2BitArray.random_eq hl1 l2 rng
    obtain ⟨planes, rng₂, hplanes, cell, hrow, hclear⟩ := ih rng₁
    let fs := BitArray.fillStreams ((l1+7)/8) l2 rng
    have hlen : fs.length = l2 := BitArray.fillStreams_length _ _ _
    refine ⟨d :: planes, rng₂, by simp [randomPlanes, hd, hplanes],
      fun b i => if b = 0 then fs.getD i (fun _ => false) else cell (b-1) i, fun b hb => ?_, fun b i k hk => ?_⟩
    · cases b with
      | zero =>
        refine ⟨d, rfl, fun i hi => ?_⟩
        have hget : fs[i]? = some (fs.getD i fun _ => false) := by
          simp [List.getD_eq_getElem?_getD, hlen, hi]
        exact D2BitArray.getArray_eq hdr hget
      | succ b => exact hrow b (by omega)
    · by_cases hb : b = 0
      · simp only [hb, if_true]
        by_cases hi : i < fs.length
        · rw [List.getD_eq_getElem _ _ hi]
          exact BitArray.fillStreams_of_le _ (List.getElem_mem hi) k (by omega)
        · rw [List.getD_eq_default _ _ (by omega)]
      · simp only [hb, if_false]
        exact hclear (b-1) i k hk

/-- What the constructor checks. -/
structure Admissible (recordSize l2 l1 : ℕ) : Prop where
  l1_pow : isPowerOfTwo l1
  l2_pow : isPowerOfTwo l2
  le : l2 ≤ l1
  eight : 8 ≤ l1
  record_le : recordSize ≤ 32

theorem Admissible.mod_eight {recordSize l2 l1 : ℕ} (h : Admissible recordSize l2 l1) : l1 % 8 = 0 := by
  obtain ⟨m, rfl⟩ := isPowerOfTwo_iff.mp h.l1_pow
  have hm : 3 ≤ m := by
    by_contra hlt
    have hpow : 2^m < 2^3 := Nat.pow_lt_pow_right (by decide) (by omega)
    have height := h.eight
    omega
  obtain ⟨j, rfl⟩ := Nat.exists_eq_add_of_le hm
  rw [pow_add]
  exact Nat.mul_mod_right _ _

theorem Admissible.l2_pos {recordSize l2 l1 : ℕ} (h : Admissible recordSize l2 l1) : 0 < l2 := by
  obtain ⟨m, rfl⟩ := isPowerOfTwo_iff.mp h.l2_pow
  exact Nat.two_pow_pos m

/-- The constructor accepts exactly the admissible shapes. -/
theorem fromSeed_eq_none_iff (chacha : ChaCha8Rng.Keystream) (recordSize l2 l1 : ℕ) (seed : Seed) :
    fromSeed chacha recordSize l2 l1 seed = none ↔ ¬ Admissible recordSize l2 l1 := by
  constructor
  · intro h had
    obtain ⟨planes, rng', hplanes, -⟩ := randomPlanes_eq (by have := had.eight; omega) had.mod_eight l2 recordSize
      (ChaCha8Rng.fromSeed chacha seed)
    rw [fromSeed, if_pos ⟨had.l1_pow, had.l2_pow, had.le, had.eight, had.record_le⟩, hplanes] at h
    exact nomatch h
  · intro h
    rw [fromSeed, if_neg fun hc => h ⟨hc.1, hc.2.1, hc.2.2.1, hc.2.2.2.1, hc.2.2.2.2⟩]

/-- The rows of a database that was made from a seed. -/
theorem fromSeed_holds {chacha : ChaCha8Rng.Keystream} {recordSize l2 l1 : ℕ} {seed : Seed} {db : PRCDatabase}
    (h : fromSeed chacha recordSize l2 l1 seed = some db) :
    Admissible recordSize l2 l1 ∧ ∃ cell, db.Holds recordSize l2 l1 cell := by
  have had : Admissible recordSize l2 l1 := by
    by_contra hn
    rw [(fromSeed_eq_none_iff chacha recordSize l2 l1 seed).mpr hn] at h
    exact nomatch h
  obtain ⟨planes, rng', hplanes, cell, hrow, hclear⟩ := randomPlanes_eq (by have := had.eight; omega) had.mod_eight
    l2 recordSize (ChaCha8Rng.fromSeed chacha seed)
  rw [fromSeed, if_pos ⟨had.l1_pow, had.l2_pow, had.le, had.eight, had.record_le⟩, hplanes] at h
  obtain rfl := Option.some.inj h
  exact ⟨had, cell, rfl, rfl, rfl, hrow, hclear⟩

end PRCDatabase
end PrivRecCert.Prc
