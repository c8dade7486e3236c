import Mathlib.Data.List.GetD
import Mathlib.Data.List.Basic

/-! Single bits of byte strings. Bit `k` of a string is bit `k % 8` of its byte `k / 8`; past the
end every bit is zero. -/
namespace PrivRecCert

/-- A byte of the source's `u8`. -/
abbrev U8 := BitVec 8
/-- A word of the source's `u32`. -/
abbrev U32 := BitVec 32

namespace Bytes

def bitAt (l : List U8) (k : ℕ) : Bool := (l.getD (k/8) 0).getLsbD (k%8)

theorem bitAt_of_le {l : List U8} {k : ℕ} (h : 8*l.length ≤ k) : bitAt l k = false := by
  rw [bitAt, List.getD_eq_default _ _ (by omega)]
  simp

theorem bitAt_append (l l' : List U8) (k : ℕ) :
    bitAt (l ++ l') k = if k < 8*l.length then bitAt l k else bitAt l' (k - 8*l.length) := by
  split_ifs with h
  · rw [bitAt, bitAt, List.getD_append _ _ _ _ (by omega)]
  · have h1 : (k - 8*l.length)/8 = k/8 - l.length := by omega
    have h2 : (k - 8*l.length)%8 = k%8 := by omega
    rw [bitAt, bitAt, List.getD_append_right _ _ _ _ (by omega), h1, h2]

@[simp] theorem bitAt_replicate_zero (n k : ℕ) : bitAt (List.replicate n 0) k = false := by
  by_cases h : k/8 < n
  · simp [bitAt]
  · exact bitAt_of_le (by rw [List.length_replicate]; omega)

theorem bitAt_replicate_ones {n k : ℕ} (h : k < 8*n) :
    bitAt (List.replicate n (BitVec.allOnes 8)) k = true := by
  rw [bitAt, List.getD_replicate _ (by omega), BitVec.getLsbD_allOnes]
  simp [Nat.mod_lt]

theorem bitAt_take (l : List U8) (m k : ℕ) :
    bitAt (l.take m) k = if k < 8*m then bitAt l k else false := by
  split_ifs with h
  · have hk : k/8 < m := by omega
    simp [bitAt, List.getD_eq_getElem?_getD, hk]
  · exact bitAt_of_le (by rw [List.length_take]; omega)

theorem bitAt_drop (l : List U8) (m k : ℕ) : bitAt (l.drop m) k = bitAt l (k + 8*m) := by
  have h1 : (k + 8*m)/8 = m + k/8 := by omega
  have h2 : (k + 8*m)%8 = k%8 := by omega
  simp [bitAt, List.getD_eq_getElem?_getD, List.getElem?_drop, h1, h2]

theorem getD_zipWith (f : U8 → U8 → U8) (hf : f 0 0 = 0) {l l' : List U8}
    (h : l.length = l'.length) (j : ℕ) :
    (List.zipWith f l l').getD j 0 = f (l.getD j 0) (l'.getD j 0) := by
  by_cases hj : j < l.length
  · have hj' : j < l'.length := by omega
    rw [List.getD_eq_getElem _ _ (by simp; omega), List.getD_eq_getElem _ _ hj, List.getD_eq_getElem _ _ hj',
      List.getElem_zipWith]
  · rw [List.getD_eq_default _ _ (by simp; omega), List.getD_eq_default _ _ (by omega),
      List.getD_eq_default _ _ (by omega), hf]

theorem bitAt_zipWith_xor {l l' : List U8} (h : l.length = l'.length) (k : ℕ) :
    bitAt (List.zipWith (· ^^^ ·) l l') k = (bitAt l k ^^ bitAt l' k) := by
  rw [bitAt, getD_zipWith _ (by decide) h, BitVec.getLsbD_xor]
  rfl

theorem bitAt_zipWith_and {l l' : List U8} (h : l.length = l'.length) (k : ℕ) :
    bitAt (List.zipWith (· &&& ·) l l') k = (bitAt l k && bitAt l' k) := by
  rw [bitAt, getD_zipWith _ (by decide) h, BitVec.getLsbD_and]
  rfl

theorem bitAt_set {l : List U8} {i : ℕ} (h : i < l.length) (b : U8) (k : ℕ) :
    bitAt (l.set i b) k = if k/8 = i then b.getLsbD (k%8) else bitAt l k := by
  split_ifs with hk
  · simp [bitAt, List.getD_eq_getElem?_getD, hk, h]
  · simp [bitAt, List.getD_eq_getElem?_getD, List.getElem?_set_ne (Ne.symm hk)]

/-- The mask of bit `j`. -/
def mask (j : ℕ) : U8 := 1#8 <<< j

theorem getLsbD_mask {i j : ℕ} (hi : i < 8) : (mask j).getLsbD i = decide (i = j) := by
  rw [mask, BitVec.getLsbD_shiftLeft, BitVec.getLsbD_one]
  by_cases hlt : i < j
  · simp [hlt, Nat.ne_of_lt hlt]
  · have h : i - j = 0 ↔ i = j := by omega
    simp [hi, hlt, h]

/-- Overwrite bit `j` of a byte. -/
def writeBit (b : U8) (j : ℕ) (v : Bool) : U8 := if v then b ||| mask j else b &&& ~~~(mask j)

theorem getLsbD_writeBit (b : U8) {i j : ℕ} (hi : i < 8) (v : Bool) :
    (writeBit b j v).getLsbD i = if i = j then v else b.getLsbD i := by
  cases v with
  | true =>
    rw [writeBit, if_pos rfl, BitVec.getLsbD_or, getLsbD_mask hi]
    by_cases h : i = j <;> simp [h]
  | false =>
    rw [writeBit, if_neg (by simp), BitVec.getLsbD_and, BitVec.getLsbD_not, getLsbD_mask hi]
    by_cases h : i = j <;> simp [h, hi]

/-- Masking a byte tests its bit. -/
theorem and_mask_ne_zero (b : U8) {j : ℕ} (hj : j < 8) : (b &&& mask j != 0#8) = b.getLsbD j := by
  have h : b &&& mask j = if b.getLsbD j then mask j else 0#8 := by
    apply BitVec.eq_of_getLsbD_eq
    intro i hi
    rw [BitVec.getLsbD_and, getLsbD_mask hi]
    by_cases hij : i = j
    · subst hij
      cases hb : b.getLsbD i <;> simp [getLsbD_mask hi]
    · cases hb : b.getLsbD j <;> simp [getLsbD_mask hi, hij]
  rw [h]
  cases hb : b.getLsbD j with
  | false => simp
  | true =>
    have hne : mask j ≠ 0#8 := fun hz => by
      have h1 := getLsbD_mask (i := j) (j := j) hj
      rw [hz] at h1
      simp at h1
    simp [hne]

theorem ext_bitAt {l l' : List U8} (hlen : l.length = l'.length)
    (h : ∀ k < 8*l.length, bitAt l k = bitAt l' k) : l = l' := by
  apply List.ext_getElem hlen
  intro j hj hj'
  apply BitVec.eq_of_getLsbD_eq
  intro i hi
  have hk := h (8*j + i) (by omega)
  have h1 : (8*j + i)/8 = j := by omega
  have h2 : (8*j + i)%8 = i := by omega
  simpa only [bitAt, h1, h2, List.getD_eq_getElem _ _ hj, List.getD_eq_getElem _ _ hj'] using hk

/-- The vector test of an equality: all bytes of the difference are zero. -/
theorem zipWith_xor_all_zero {l l' : List U8} (h : l.length = l'.length) :
    (List.zipWith (· ^^^ ·) l l').all (· == 0) = decide (l = l') := by
  induction l generalizing l' with
  | nil =>
    cases l' with
    | nil => rfl
    | cons b' l' => cases h
  | cons b l ih =>
    cases l' with
    | nil => cases h
    | cons b' l' =>
      rw [List.zipWith_cons_cons, List.all_cons, ih (Nat.succ.inj h)]
      by_cases hb : b = b'
      · simp [hb]
      · simp [hb]

end Bytes
end PrivRecCert
