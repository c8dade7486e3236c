import PrivRecCert.Prc.Retrieval

/-! Whole records. The loop over the bits keeps a power of two beside the sum, and doubles it once more
after the last bit. -/
namespace PrivRecCert.Prc
open SimdArray

/-- A word, unless the arithmetic overflows. -/
def checkedU32 (n : ℕ) : Option U32 := if n < 2^32 then some (BitVec.ofNat 32 n) else none

theorem checkedU32_eq {n : ℕ} (h : n < 2^32) : ∃ v, checkedU32 n = some v ∧ v.toNat = n :=
  ⟨BitVec.ofNat 32 n, if_pos h, by rw [BitVec.toNat_ofNat, Nat.mod_eq_of_lt h]⟩

theorem checkedU32_eq_none {n : ℕ} (h : 2^32 ≤ n) : checkedU32 n = none := if_neg (by omega)

namespace PRCDatabase

/-- One pass of the loop: the sum of the bits so far, and the power of two of the next bit. -/
def recordStep (db : PRCDatabase) (idx : ℕ) (acc : U32 × U32) (i : ℕ) : Option (U32 × U32) := do
  let (out, pw) := acc
  let out ← checkedU32 (out.toNat + (← checkedU32 (pw.toNat * (← db.getRecordBit idx i).toNat)).toNat)
  let pw ← checkedU32 (pw.toNat * 2)
  some (out, pw)

def getRecord (db : PRCDatabase) (idx : ℕ) : Option U32 := do
  let (out, _) ← (List.range db.recordSize).foldlM (db.recordStep idx) (0, 1)
  some out

/-- The loop has read the lowest `n` bits `f`. -/
structure Reading (f : ℕ → Bool) (n : ℕ) (acc : U32 × U32) : Prop where
  power : acc.2.toNat = 2^n
  lt : acc.1.toNat < 2^n
  bits : ∀ i < n, acc.1.getLsbD i = f i

theorem Reading.zero (f : ℕ → Bool) : Reading f 0 (0, 1) :=
  ⟨rfl, Nat.zero_lt_one, fun i hi => absurd hi (Nat.not_lt_zero i)⟩

variable {db : PRCDatabase} {idx n : ℕ} {f : ℕ → Bool} {acc : U32 × U32}

/-- The next bit is added, and the power is doubled: as long as it fits a word. -/
theorem Reading.step (h : Reading f n acc) (hbit : db.getRecordBit idx n = some (f n)) (hn : n < 31) :
    ∃ acc', db.recordStep idx acc n = some acc' ∧ Reading f (n+1) acc' := by
  obtain ⟨out, pw⟩ := acc
  obtain ⟨hpower, hlt, hbits⟩ := h
  simp only at hpower hlt hbits
  have hpow : 2^(n+1) ≤ 2^31 := Nat.pow_le_pow_right (by decide) (by omega)
  have hdouble : 2^(n+1) = 2^n*2 := pow_succ 2 n
  have hterm : 2^n * (f n).toNat ≤ 2^n := mul_le_of_le_one_right (Nat.zero_le _) (Nat.le_of_lt_succ (f n).toNat_lt)
  obtain ⟨term, hterm', htermv⟩ := checkedU32_eq (n := 2^n * (f n).toNat) (by omega)
  obtain ⟨out', hout, houtv⟩ := checkedU32_eq (n := out.toNat + 2^n * (f n).toNat) (by omega)
  obtain ⟨pw', hpw, hpwv⟩ := checkedU32_eq (n := 2^n * 2) (by omega)
  refine ⟨(out', pw'), ?_, by rw [hpwv, hdouble], ?_, fun i hi => ?_⟩
  · rw [recordStep]
    simp only [hbit, hpower, Option.bind_eq_bind, Option.bind_some, hterm', htermv, hout, hpw]
  · change out'.toNat < _
    omega
  · change out'.toNat.testBit i = f i
    rw [houtv, Nat.add_comm, Nat.testBit_two_pow_mul_add _ hlt]
    split_ifs with hlow
    · exact hbits i hlow
    · obtain rfl : i = n := by omega
      rw [Nat.sub_self]
      cases f i <;> rfl

/-- After the last of 32 bits the doubled power does not fit a word. -/
theorem Reading.step_last (h : Reading f 31 acc) : db.recordStep idx acc 31 = none := by
  obtain ⟨out, pw⟩ := acc
  have hpower : pw.toNat = 2^31 := h.power
  rw [recordStep]
  simp only [hpower, checkedU32_eq_none (n := 2^31*2) (by decide), Option.bind_eq_bind, Option.bind_none,
    Option.bind_fun_none]

/-- The loop over up to 31 bits. -/
theorem Reading.run (hbit : ∀ i < n, db.getRecordBit idx i = some (f i)) (hn : n ≤ 31) :
    ∃ acc, (List.range n).foldlM (db.recordStep idx) (0, 1) = some acc ∧ Reading f n acc := by
  induction n with
  | zero => exact ⟨_, rfl, .zero f⟩
  | succ n ih =>
    obtain ⟨acc, hacc, hread⟩ := ih (fun i hi => hbit i (by omega)) (by omega)
    obtain ⟨acc', hstep, hread'⟩ := hread.step (hbit n (by omega)) (by omega)
    refine ⟨acc', ?_, hread'⟩
    rw [List.range_succ, List.foldlM_append, hacc]
    simpa using hstep

/-- A record that is read without overflow: a number of `recordSize` bits, the bits being those that
are stored. -/
def ReadsRecord (db : PRCDatabase) (idx : ℕ) : Prop :=
  ∃ v, db.getRecord idx = some v ∧ v.toNat < 2^db.recordSize ∧
    ∀ i < db.recordSize, db.getRecordBit idx i = some (v.getLsbD i)

/-- Bit `k` of row `i` of plane `b`. -/
def storedBit (db : PRCDatabase) (b i k : ℕ) : Option Bool := do
  (← (← db.bitDbs[b]?).getArray i).get k

/-- All rows agree on the positions that belong to records. -/
def SameRows (db db' : PRCDatabase) : Prop :=
  ∀ b < db.recordSize, ∀ i < db.l2Dim, ∀ k < db.l1Dim, db.storedBit b i k = db'.storedBit b i k

section Stored
variable {db' : PRCDatabase} {recordSize l2 l1 : ℕ} {cell cell' : ℕ → ℕ → ℕ → Bool}

theorem Holds.storedBit (h : db.Holds recordSize l2 l1 cell) {b i k : ℕ} (hb : b < recordSize) (hi : i < l2)
    (hk : k < l1) : db.storedBit b i k = some (cell b i k) := by
  obtain ⟨d, hd, hrow⟩ := h.row b hb
  obtain ⟨a, ha, har⟩ := hrow i hi
  simp [PRCDatabase.storedBit, hd, ha, BitArray.get_eq har hk]

theorem Holds.totalSize_eq (h : db.Holds recordSize l2 l1 cell) : db.totalSize = l1*l2 := by
  rw [totalSize, h.l1Dim_eq, h.l2Dim_eq]

/-- Index `idx` stands for one cell of every plane. -/
theorem Holds.recordBit (h : db.Holds recordSize l2 l1 cell) {b : ℕ} (hb : b < recordSize) (hidx : idx < l1*l2) :
    db.getRecordBit idx b = some (cell b (idx/l1) (idx%l1)) := by
  have hpos : 0 < l1 := Nat.pos_of_mul_pos_right (Nat.zero_lt_of_lt hidx)
  have hbit := getRecordBit_eq h hb (Nat.div_lt_of_lt_mul hidx) (Nat.mod_lt idx hpos)
  rwa [Nat.mul_comm, Nat.div_add_mod] at hbit

/-- Records of up to 31 bits are read as they are stored. -/
theorem Holds.readsRecord (h : db.Holds recordSize l2 l1 cell) (hsize : recordSize ≤ 31) (hidx : idx < l1*l2) :
    db.ReadsRecord idx := by
  have hbit : ∀ b < recordSize, db.getRecordBit idx b = some ((fun b => cell b (idx/l1) (idx%l1)) b) :=
    fun _ hb => h.recordBit hb hidx
  obtain ⟨⟨out, pw⟩, hrun, hread⟩ := Reading.run hbit hsize
  rw [ReadsRecord, h.recordSize_eq]
  refine ⟨out, ?_, hread.lt, fun i hi => ?_⟩
  · rw [getRecord, h.recordSize_eq, hrun]
    rfl
  · rw [h.recordBit hi hidx, ← hread.bits i hi]

/-- Reading a record of 32 bits overflows, whatever it holds. -/
theorem Holds.getRecord_overflow (h : db.Holds 32 l2 l1 cell) (hidx : idx < l1*l2) : db.getRecord idx = none := by
  have hbit : ∀ b < 31, db.getRecordBit idx b = some ((fun b => cell b (idx/l1) (idx%l1)) b) :=
    fun _ hb => h.recordBit (hb.trans (by decide)) hidx
  obtain ⟨acc, hrun, hread⟩ := Reading.run hbit le_rfl
  rw [getRecord, h.recordSize_eq, List.range_succ, List.foldlM_append, hrun]
  simp [hread.step_last]

/-- The split of an index is a bijection between the indices and the cells of a plane. -/
theorem sameRows_iff (h : db.Holds recordSize l2 l1 cell) (h' : db'.Holds recordSize l2 l1 cell') :
    db.SameRows db' ↔ ∀ idx < l1*l2, ∀ b < recordSize, db.getRecordBit idx b = db'.getRecordBit idx b := by
  rw [SameRows, h.recordSize_eq, h.l2Dim_eq, h.l1Dim_eq]
  constructor
  · intro hrows idx hidx b hb
    have hpos : 0 < l1 := Nat.pos_of_mul_pos_right (Nat.zero_lt_of_lt hidx)
    have hi : idx/l1 < l2 := Nat.div_lt_of_lt_mul hidx
    have hk : idx%l1 < l1 := Nat.mod_lt idx hpos
    rw [h.recordBit hb hidx, h'.recordBit hb hidx, ← h.storedBit hb hi hk, ← h'.storedBit hb hi hk]
    exact hrows b hb _ hi _ hk
  · intro hbits b hb i hi k hk
    have hidx : i*l1 + k < l1*l2 := by
      have hrows : (i+1)*l1 ≤ l2*l1 := Nat.mul_le_mul_right l1 hi
      rw [Nat.succ_mul, Nat.mul_comm l2] at hrows
      omega
    rw [h.storedBit hb hi hk, h'.storedBit hb hi hk, ← getRecordBit_eq h hb hi hk, ← getRecordBit_eq h' hb hi hk]
    exact hbits _ hidx b hb

/-- Two records are equal when their bits are. -/
theorem ReadsRecord.eq_iff (hsize : db.recordSize = db'.recordSize) (h : db.ReadsRecord idx)
    (h' : db'.ReadsRecord idx) : db.getRecord idx = db'.getRecord idx ↔
      ∀ b < db.recordSize, db.getRecordBit idx b = db'.getRecordBit idx b := by
  obtain ⟨v, hv, hlt, hbits⟩ := h
  obtain ⟨v', hv', hlt', hbits'⟩ := h'
  rw [← hsize] at hlt' hbits'
  rw [hv, hv', Option.some.injEq]
  constructor
  · rintro rfl b hb
    rw [hbits b hb, hbits' b hb]
  · intro hall
    apply BitVec.eq_of_toNat_eq
    apply Nat.eq_of_testBit_eq
    intro i
    by_cases hi : i < db.recordSize
    · have hbit := hall i hi
      rw [hbits i hi, hbits' i hi] at hbit
      exact Option.some.inj hbit
    · have hpow : 2^db.recordSize ≤ 2^i := Nat.pow_le_pow_right (by decide) (by omega)
      rw [Nat.testBit_lt_two_pow (by omega), Nat.testBit_lt_two_pow (by omega)]

end Stored

section Seeded
variable {chacha : ChaCha8Rng.Keystream} {recordSize l2 l1 : ℕ} {seed seed' : Seed} {db' : PRCDatabase}

/-- In two databases of one shape whole records are read as they are stored, and tell the databases
apart, exactly when they have at most 31 bits: the doubling after the last of 32 bits overflows. -/
theorem getRecord_correct_iff (h : fromSeed chacha recordSize l2 l1 seed = some db)
    (h' : fromSeed chacha recordSize l2 l1 seed' = some db') :
    ((∀ idx < db.totalSize, db.ReadsRecord idx ∧ db'.ReadsRecord idx) ∧
      ((∀ idx < db.totalSize, db.getRecord idx = db'.getRecord idx) ↔ db.SameRows db')) ↔ recordSize ≤ 31 := by
  obtain ⟨had, cell, hdb⟩ := fromSeed_holds h
  obtain ⟨-, cell', hdb'⟩ := fromSeed_holds h'
  rw [hdb.totalSize_eq]
  constructor
  · rintro ⟨hreads, -⟩
    by_contra hsize
    obtain rfl : recordSize = 32 := by
      have hle := had.record_le
      omega
    have hpos : 0 < l1*l2 := Nat.mul_pos (by have := had.eight; omega) had.l2_pos
    obtain ⟨v, hv, -⟩ := (hreads 0 hpos).1
    rw [hdb.getRecord_overflow hpos] at hv
    cases hv
  · intro hsize
    have hreads : ∀ idx < l1*l2, db.ReadsRecord idx ∧ db'.ReadsRecord idx := fun idx hidx =>
      ⟨hdb.readsRecord hsize hidx, hdb'.readsRecord hsize hidx⟩
    refine ⟨hreads, ?_⟩
    rw [sameRows_iff hdb hdb']
    apply forall₂_congr
    intro idx hidx
    rw [(hreads idx hidx).1.eq_iff (hdb.recordSize_eq.trans hdb'.recordSize_eq.symm) (hreads idx hidx).2,
      hdb.recordSize_eq]

/-- The constructor accepts every admissible shape. -/
theorem fromSeed_exists (chacha : ChaCha8Rng.Keystream) (had : Admissible recordSize l2 l1) (seed : Seed) :
    ∃ db, fromSeed chacha recordSize l2 l1 seed = some db := by
  apply Option.ne_none_iff_exists'.mp
  intro hnone
  exact (fromSeed_eq_none_iff chacha recordSize l2 l1 seed).mp hnone had

end Seeded

/-- Two databases of 16 records of 31 bits. -/
theorem getRecord_correct_sixteen : ∃ db db' : PRCDatabase,
    fromSeed (fun _ _ => 0) 31 2 8 (Vector.replicate 32 0) = some db ∧
    fromSeed (fun _ _ => 0) 31 2 8 (Vector.replicate 32 1) = some db' ∧
    (∀ idx < db.totalSize, db.ReadsRecord idx ∧ db'.ReadsRecord idx) ∧
    ((∀ idx < db.totalSize, db.getRecord idx = db'.getRecord idx) ↔ db.SameRows db') := by
  have had : Admissible 31 2 8 := ⟨by decide, by decide, by decide, by decide, by decide⟩
  obtain ⟨db, h⟩ := fromSeed_exists (fun _ _ => 0) had (Vector.replicate 32 0)
  obtain ⟨db', h'⟩ := fromSeed_exists (fun _ _ => 0) had (Vector.replicate 32 1)
  exact ⟨db, db', h, h', (getRecord_correct_iff h h').mpr le_rfl⟩

/-- The constructor accepts records of 32 bits, and reading the first one panics. -/
theorem getRecord_panics : ∃ db : PRCDatabase, fromSeed (fun _ _ => 0) 32 2 8 (Vector.replicate 32 0) = some db ∧
    0 < db.totalSize ∧ db.getRecord 0 = none ∧ ¬ db.ReadsRecord 0 := by
  have had : Admissible 32 2 8 := ⟨by decide, by decide, by decide, by decide, by decide⟩
  obtain ⟨db, h⟩ := fromSeed_exists (fun _ _ => 0) had (Vector.replicate 32 0)
  obtain ⟨-, cell, hdb⟩ := fromSeed_holds h
  have hnone : db.getRecord 0 = none := hdb.getRecord_overflow (by decide)
  refine ⟨db, h, by rw [hdb.totalSize_eq]; decide, hnone, ?_⟩
  rintro ⟨v, hv, -⟩
  rw [hnone] at hv
  cases hv

end PRCDatabase
end PrivRecCert.Prc
