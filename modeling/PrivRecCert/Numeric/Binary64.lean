import Mathlib.Data.Nat.Log
import Mathlib.Tactic.Ring

/-! Natural numbers in binary64 arithmetic: rounding to 53 significant bits, ties to even, as a
conversion from an integer and a product do it. Numbers in units of one half are written as their
numerators. -/
namespace PrivRecCert.Numeric

/-- `n / 2^k`, rounded to the nearest integer, ties to even. -/
def roundHalfEven (n k : ℕ) : ℕ :=
  let q := n / 2^k
  let r := n % 2^k
  if 2*r < 2^k then q else if 2*r = 2^k ∧ q % 2 = 0 then q else q+1

/-- The nearest number of 53 significant bits. -/
def round53 (n : ℕ) : ℕ :=
  let k := Nat.log 2 n + 1 - 53
  roundHalfEven n k * 2^k

/-- `ceil` of `n/2`. -/
def ceilHalf (n : ℕ) : ℕ := (n+1)/2

/-- `as usize` saturates. -/
def saturate (n : ℕ) : ℕ := min n (2^64 - 1)

/-- The product of `numerator/2`, a constant that needs no rounding, with the integer `x`: the
numerator over 2. -/
def mulHalves (numerator x : ℕ) : ℕ := round53 (numerator * round53 x)

/-- Few significant bits survive rounding. -/
theorem round53_eq {m j : ℕ} (hm : m < 2^53) : round53 (m * 2^j) = m * 2^j := by
  rcases Nat.eq_zero_or_pos m with rfl | hpos
  · simp [round53, roundHalfEven]
  · have hlog : Nat.log 2 (m * 2^j) = Nat.log 2 m + j := by
      have hle := Nat.pow_log_le_self 2 hpos.ne'
      have hlt := Nat.lt_pow_succ_log_self (b := 2) (by decide) m
      refine Nat.log_eq_of_pow_le_of_lt_pow ?_ ?_
      · rw [pow_add]
        exact Nat.mul_le_mul_right _ hle
      · rw [Nat.add_right_comm, pow_add]
        exact Nat.mul_lt_mul_of_pos_right hlt (Nat.two_pow_pos j)
    have hsmall : Nat.log 2 m + 1 ≤ 53 := Nat.log_lt_of_lt_pow hpos.ne' hm
    obtain ⟨d, hd⟩ : ∃ d, j = d + (Nat.log 2 m + j + 1 - 53) :=
      ⟨j - (Nat.log 2 m + j + 1 - 53), by omega⟩
    have hsplit : m * 2^j = m * 2^d * 2^(Nat.log 2 m + j + 1 - 53) := by
      rw [mul_assoc, ← pow_add, ← hd]
    simp only [round53, roundHalfEven, hlog]
    rw [hsplit, Nat.mul_div_cancel _ (Nat.two_pow_pos _), Nat.mul_mod_left, if_pos (Nat.two_pow_pos _)]

/-- The product with a power of two is exact. -/
theorem mulHalves_two_pow {c : ℕ} (hc : c < 2^53) (m : ℕ) : mulHalves c (2^m) = c * 2^m := by
  have hone : round53 (2^m) = 2^m := by
    have h := round53_eq (m := 1) (j := m) (by decide)
    rwa [one_mul] at h
  rw [mulHalves, hone, round53_eq hc]

example : mulHalves 5 (2^53 + 1) = 5 * 2^53 := by decide

end PrivRecCert.Numeric
