import PrivRecCert.Bytes.BitAt
import Mathlib.Algebra.BigOperators.Intervals
import Mathlib.Algebra.Ring.BooleanRing
import Mathlib.Tactic.Ring

/-! Parity of byte strings. Sums of Booleans are exclusive ors and products are conjunctions, as in
the Boolean ring on `Bool`. -/
namespace PrivRecCert.Bytes
open scoped BigOperators

/-- The exclusive or of all bits of a byte string. -/
def xorBits (l : List U8) : Bool := ∑ k ∈ Finset.range (8*l.length), bitAt l k

theorem xorBits_append (l l' : List U8) : xorBits (l ++ l') = (xorBits l ^^ xorBits l') := by
  have h : 8*(l ++ l').length = 8*l.length + 8*l'.length := by rw [List.length_append]; ring
  rw [xorBits, h, Finset.sum_range_add]
  congr 1
  · apply Finset.sum_congr rfl
    intro k hk
    rw [bitAt_append, if_pos (Finset.mem_range.mp hk)]
  · apply Finset.sum_congr rfl
    intro k _
    rw [bitAt_append, if_neg (by omega), Nat.add_sub_cancel_left]

theorem xorBits_zipWith_xor {l l' : List U8} (h : l.length = l'.length) :
    xorBits (List.zipWith (· ^^^ ·) l l') = (xorBits l ^^ xorBits l') := by
  have hlen : (List.zipWith (· ^^^ ·) l l').length = l.length := by simp [h]
  rw [xorBits, hlen, xorBits, xorBits, ← h]
  simp only [bitAt_zipWith_xor h]
  exact Finset.sum_add_distrib

@[simp] theorem xorBits_replicate_zero (n : ℕ) : xorBits (List.replicate n 0) = false := by
  simp only [xorBits, bitAt_replicate_zero]
  exact Finset.sum_const_zero

/-- Number of ones in a byte. -/
def onesCount (b : U8) : ℕ := (List.range 8).countP b.getLsbD

/-- `u64::count_ones` summed over the lanes of a chunk: the number of ones in its bytes. -/
def countOnes (l : List U8) : ℕ := (l.map onesCount).sum

theorem onesCount_odd (b : U8) : decide (onesCount b % 2 = 1) = xorBits [b] := by
  revert b
  decide +kernel

theorem countOnes_odd (l : List U8) : decide (countOnes l % 2 = 1) = xorBits l := by
  induction l with
  | nil => rfl
  | cons b l ih =>
    have hsplit : xorBits (b :: l) = (xorBits [b] ^^ xorBits l) := xorBits_append [b] l
    rw [hsplit, ← ih, ← onesCount_odd b, countOnes, List.map_cons, List.sum_cons, ← countOnes]
    rcases Nat.mod_two_eq_zero_or_one (onesCount b) with h1 | h1 <;>
      rcases Nat.mod_two_eq_zero_or_one (countOnes l) with h2 | h2 <;>
        simp [Nat.add_mod, h1, h2]

end PrivRecCert.Bytes
