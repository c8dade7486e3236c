import PrivRecCert.Prc.Db
import PrivRecCert.Sharing.Arrays

/-! First-level retrieval. It maps an array to its inner products with the rows of the database, so it
is linear, and on a one-hot array it selects a column. -/
namespace PrivRecCert.Prc.PRCDatabase
open SimdArray BitArray
open scoped BigOperators

variable {db : PRCDatabase} {l1 l2 : ℕ} {cell : ℕ → ℕ → ℕ → Bool} {f : ℕ → Bool}

/-- The inner products of `f` with the rows. -/
def answers (l2 l1 : ℕ) (cell : ℕ → ℕ → ℕ → Bool) (f : ℕ → Bool) (i : ℕ) : Bool :=
  if i < l2 then ∑ k ∈ Finset.range l1, (f k && cell 0 i k) else false

/-- Nothing that an array holds past its bits meets a row. -/
theorem innerProd_row {recordSize i : ℕ} (h : db.Holds recordSize l2 l1 cell) {q a : BitArray}
    (hq : q.Represents l1 f) (ha : a.Represents l1 (cell 0 i)) :
    innerProd q a = some (∑ k ∈ Finset.range l1, (f k && cell 0 i k)) := by
  have hle : l1 ≤ blockBits l1 := by
    have := le_blockBits l1
    omega
  have hzero : ∑ k ∈ Finset.Ico l1 (blockBits l1), (f k && cell 0 i k) = 0 := by
    apply Finset.sum_eq_zero
    intro k hk
    rw [h.clear 0 i k (Finset.mem_Ico.mp hk).1, Bool.and_false]
    rfl
  rw [innerProd_eq hq ha, ← Finset.sum_range_add_sum_Ico _ hle, hzero, add_zero]

theorem lvl1PirRetrieve_eq (h : db.Holds 1 l2 l1 cell) (hl2 : 0 < l2) {q : BitArray} (hq : q.Represents l1 f) :
    ∃ r, db.lvl1PirRetrieve q = some r ∧ r.Represents l2 (answers l2 l1 cell f) := by
  obtain ⟨out, hout, houtr⟩ := new_eq hl2
  obtain ⟨d, hd, hrow⟩ := h.row 0 Nat.zero_lt_one
  obtain ⟨r, hr, hrr⟩ := setBits_eq houtr (u := 0) (n := l2)
    (v := fun i => (do innerProd q (← (← db.bitDbs[0]?).getArray i) : Option Bool))
    (w := fun i => ∑ k ∈ Finset.range l1, (f k && cell 0 i k)) (by omega) fun i hi => by
      obtain ⟨a, ha, har⟩ := hrow i hi
      simp [hd, ha, innerProd_row h hq har]
  refine ⟨r, ?_, hrr.congr fun i => ?_⟩
  · have hsize : ¬ db.recordSize > 1 := by rw [h.recordSize_eq]; omega
    have hlen : ¬ q.bitSize ≠ db.l1Dim := not_not.mpr (hq.bitSize_eq.trans h.l1Dim_eq.symm)
    simp only [Option.bind_eq_bind, Option.bind_assoc, Nat.add_zero] at hr
    simp only [lvl1PirRetrieve, if_neg hsize, if_neg hlen, h.l2Dim_eq, hout, Option.bind_eq_bind, Option.bind_some]
    exact hr
  · simp only [answers, Nat.zero_le, true_and, Nat.zero_add, Nat.sub_zero]

theorem lvl1PlainIdx_eq {recordSize j : ℕ} (h : db.Holds recordSize l2 l1 cell) (hrec : 0 < recordSize) (hl2 : 0 < l2)
    (hj : j < l1) : ∃ r, db.lvl1PlainIdx j = some r ∧ r.Represents l2 fun i => if i < l2 then cell 0 i j else false := by
  obtain ⟨out, hout, houtr⟩ := new_eq hl2
  obtain ⟨d, hd, hrow⟩ := h.row 0 hrec
  obtain ⟨r, hr, hrr⟩ := setBits_eq houtr (u := 0) (n := l2)
    (v := fun i => (do (← (← db.bitDbs[0]?).getArray i).get j : Option Bool))
    (w := fun i => cell 0 i j) (by omega) fun i hi => by
      obtain ⟨a, ha, har⟩ := hrow i hi
      simp [hd, ha, get_eq har hj]
  refine ⟨r, ?_, hrr.congr fun i => ?_⟩
  · simp only [Option.bind_eq_bind, Option.bind_assoc, Nat.add_zero] at hr
    simp only [lvl1PlainIdx, h.l2Dim_eq, hout, Option.bind_eq_bind, Option.bind_some]
    exact hr
  · simp only [Nat.zero_le, true_and, Nat.zero_add, Nat.sub_zero]

theorem getRecordBit_eq {recordSize b i j : ℕ} (h : db.Holds recordSize l2 l1 cell) (hb : b < recordSize)
    (hi : i < l2) (hj : j < l1) : db.getRecordBit (i*l1 + j) b = some (cell b i j) := by
  obtain ⟨d, hd, hrow⟩ := h.row b hb
  obtain ⟨a, ha, har⟩ := hrow i hi
  have hlt : i*l1 + j < db.totalSize := by
    have hrows : (i+1)*l1 ≤ l2*l1 := Nat.mul_le_mul_right l1 hi
    rw [totalSize, h.l1Dim_eq, h.l2Dim_eq, Nat.mul_comm l1]
    rw [Nat.succ_mul] at hrows
    omega
  have hmod : (i*l1 + j) % l1 = j := by rw [Nat.mul_comm, Nat.mul_add_mod, Nat.mod_eq_of_lt hj]
  have hdiv : (i*l1 + j) / l1 = i := by
    rw [Nat.mul_comm, Nat.mul_add_div (by omega), Nat.div_eq_of_lt hj, Nat.add_zero]
  rw [getRecordBit, if_pos ⟨hlt, by rw [h.recordSize_eq]; exact hb⟩, idxTo2dim, if_pos hlt, h.l1Dim_eq, hmod, hdiv]
  simp [hd, ha, get_eq har hj]

/-- Retrieval from shares gives shares of the retrieval. -/
theorem sum_answers {n : ℕ} (f : Fin n → ℕ → Bool) (i : ℕ) :
    ∑ p, answers l2 l1 cell (f p) i = answers l2 l1 cell (fun k => ∑ p, f p k) i := by
  by_cases hi : i < l2
  · simp only [answers, if_pos hi]
    rw [Finset.sum_comm]
    exact Finset.sum_congr rfl fun k _ => (Finset.sum_mul _ _ _).symm
  · simp only [answers, if_neg hi]
    exact Finset.sum_const_zero

/-- Retrieval with a one-hot array gives a column. -/
theorem answers_oneHot {j : ℕ} (hj : j < l1) (hf : ∀ k < l1, f k = decide (k = j)) (i : ℕ) :
    answers l2 l1 cell f i = if i < l2 then cell 0 i j else false := by
  unfold answers
  split_ifs with hi
  · rw [Finset.sum_eq_single j]
    · rw [hf j hj, decide_eq_true rfl, Bool.true_and]
    · intro k hk hne
      rw [hf k (Finset.mem_range.mp hk), decide_eq_false hne, Bool.false_and]
      rfl
    · intro hnot
      exact absurd (Finset.mem_range.mpr hj) hnot
  · rfl

/-- First-level retrieval is linear and selects a column: shares of the query give shares of the answer,
and a query that is one-hot at `j` gives record bit `i*l1 + j` at position `i`. -/
theorem lvl1PirRetrieve_linear {chacha : ChaCha8Rng.Keystream} {seed : Seed}
    (hdb : fromSeed chacha 1 l2 l1 seed = some db) {n : ℕ} (hn : 1 ≤ n) (q : Fin n → BitArray)
    (hq : ∀ p, (q p).WF ∧ (q p).bitSize = l1) :
    ∃ (r : Fin n → BitArray) (x y : BitArray), (∀ p, db.lvl1PirRetrieve (q p) = some (r p)) ∧
      reconstruct (List.ofFn q) = some x ∧ db.lvl1PirRetrieve x = some y ∧ reconstruct (List.ofFn r) = some y ∧
      ∀ j < l1, (∀ k < l1, x.get k = some (decide (k = j))) → db.lvl1PlainIdx j = some y ∧
        ∀ i < l2, ∃ b, y.get i = some b ∧ db.getRecordBit (i*l1 + j) 0 = some b := by
  obtain ⟨had, cell, h⟩ := fromSeed_holds hdb
  have hl2 := had.l2_pos
  have hqr : ∀ p, (q p).Represents l1 (q p).bit := fun p => by
    have hp := Represents.of_wf (hq p).1
    rwa [(hq p).2] at hp
  choose r hr hrr using fun p => lvl1PirRetrieve_eq h hl2 (hqr p)
  obtain ⟨x, hx, hxr⟩ := reconstruct_ofFn hqr hn
  obtain ⟨y, hy, hyr⟩ := lvl1PirRetrieve_eq h hl2 hxr
  obtain ⟨y', hy', hyr'⟩ := reconstruct_ofFn hrr hn
  have hsame : y' = y := hyr'.unique (hyr.congr fun i => (sum_answers (fun p => (q p).bit) i).symm)
  refine ⟨r, x, y, hr, hx, hy, hsame ▸ hy', fun j hj hone => ?_⟩
  have hf : ∀ k < l1, ∑ p, (q p).bit k = decide (k = j) := fun k hk => by
    have hget := hone k hk
    rwa [get_eq hxr hk, Option.some.injEq] at hget
  have hcol := hyr.congr fun i => (answers_oneHot hj hf i : answers l2 l1 cell _ i = _)
  obtain ⟨z, hz, hzr⟩ := lvl1PlainIdx_eq h Nat.zero_lt_one hl2 hj
  refine ⟨hzr.unique hcol ▸ hz, fun i hi => ⟨cell 0 i j, ?_, getRecordBit_eq h Nat.zero_lt_one hi hj⟩⟩
  rw [get_eq hcol hi, if_pos hi]

/-- Two parties, two rows of eight bits, and different shares of a query for column 3. -/
theorem lvl1PirRetrieve_linear_eight : ∃ db : PRCDatabase,
    fromSeed (fun _ _ => 40) 1 2 8 (Vector.replicate 32 0) = some db ∧
    ∃ (r : Fin 2 → BitArray) (x y : BitArray), db.lvl1PirRetrieve ⟨⟨List.replicate 32 0xa5, 1, rfl⟩, 8, 1⟩ = some (r 0) ∧
      db.lvl1PirRetrieve ⟨⟨List.replicate 32 0xad, 1, rfl⟩, 8, 1⟩ = some (r 1) ∧
      (∀ k < 8, x.get k = some (decide (k = 3))) ∧ db.lvl1PirRetrieve x = some y ∧
      reconstruct (List.ofFn r) = some y ∧ db.lvl1PlainIdx 3 = some y ∧
      ∀ i < 2, ∃ b, y.get i = some b ∧ db.getRecordBit (i*8 + 3) 0 = some b := by
  have hsome : fromSeed (fun _ _ => 40) 1 2 8 (Vector.replicate 32 0) ≠ none := fun hnone =>
    (fromSeed_eq_none_iff _ _ _ _ _).mp hnone ⟨by decide, by decide, by decide, by decide, by decide⟩
  obtain ⟨db, hdb⟩ := Option.ne_none_iff_exists'.mp hsome
  let q : Fin 2 → BitArray := fun p => if p = 0 then ⟨⟨List.replicate 32 0xa5, 1, rfl⟩, 8, 1⟩
    else ⟨⟨List.replicate 32 0xad, 1, rfl⟩, 8, 1⟩
  have hq : ∀ p, (q p).WF ∧ (q p).bitSize = 8 := fun p => by
    fin_cases p
    · exact ⟨⟨by simp [q], by simp [q]⟩, rfl⟩
    · exact ⟨⟨by simp [q], by simp [q]⟩, rfl⟩
  obtain ⟨r, x, y, hr, hx, hxy, hry, hone⟩ := lvl1PirRetrieve_linear hdb (by decide) q hq
  rw [show List.ofFn q = [q 0, q 1] from rfl] at hx
  have hopen : reconstruct [q 0, q 1] = some ⟨⟨List.replicate 32 0x08, 1, rfl⟩, 8, 1⟩ := by decide
  obtain rfl := Option.some.inj (hx.symm.trans hopen)
  have hcol : ∀ k < 8, get (⟨⟨List.replicate 32 0x08, 1, rfl⟩, 8, 1⟩ : BitArray) k = some (decide (k = 3)) := by decide
  obtain ⟨hplain, hrecords⟩ := hone 3 (by decide) hcol
  exact ⟨db, hdb, r, _, y, hr 0, hr 1, hcol, hxy, hry, hplain, hrecords⟩

end PrivRecCert.Prc.PRCDatabase
