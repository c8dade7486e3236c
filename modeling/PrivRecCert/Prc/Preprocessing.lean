import PrivRecCert.Prc.OneHot
import PrivRecCert.Prc.Config

/-! The estimate of the preprocessing: what the two one-hot circuits and the conjunction of a query use
up stays below what is set aside for it. -/
namespace PrivRecCert.Prc
open SimdArray Numeric Circuit

/-- In bits, rounding costs a one-hot circuit eight bits over one and a half times its output. -/
theorem oheBytes_le (m : ℕ) : 16*oheBytes m ≤ 3*2^m + 16 := by
  induction m using Nat.strong_induction_on with
  | _ m ih =>
    by_cases h1 : m ≤ 1
    · rw [oheBytes, dif_pos h1]
      omega
    · have ha := ih ((m+1)/2) (by omega)
      have hb := ih (m - (m+1)/2) (by omega)
      rw [oheBytes, dif_neg h1, BitArray.divCeil_eight]
      by_cases h6 : m < 6
      · -- the halves are small enough to be listed
        have hcases : m = 2 ∨ m = 3 ∨ m = 4 ∨ m = 5 := by omega
        rcases hcases with rfl | rfl | rfl | rfl <;> simp [oheBytes, BitArray.divCeil_eight]
      · have hsplit : 2^m = 2^((m+1)/2) * 2^(m - (m+1)/2) := by
          rw [← pow_add]
          exact congrArg _ (by omega)
        have hx : 2^3 ≤ 2^((m+1)/2) := Nat.pow_le_pow_right (by decide) (by omega)
        have hy : 2^3 ≤ 2^(m - (m+1)/2) := Nat.pow_le_pow_right (by decide) (by omega)
        have hprod : 3*2^((m+1)/2) + 3*2^(m - (m+1)/2) + 16 ≤ 2^m := by
          rw [hsplit]
          nlinarith
        have hbyte : 2^m = 8*2^(m-3) := by
          rw [show m = 3 + (m-3) by omega, pow_add, Nat.add_sub_cancel_left]
          rfl
        omega

/-- The bytes of triples of one query: both one-hot circuits and the conjunction of the second level. -/
def queryBytes (m1 m2 : ℕ) : ℕ := oheBytes m1 + oheBytes m2 + (2^m2+7)/8

theorem ceilMul_two_pow {c m : ℕ} (hc : c < 2^53) (h : c*2^m < 2^64) : ceilMul c (2^m) = (c*2^m+1)/2 := by
  rw [ceilMul, mulHalves_two_pow hc, ceilHalf, saturate]
  omega

section Dims
variable {c : SystemConfig} {m1 m2 : ℕ}

/-- The estimate of a database of `2^m1` columns and `2^m2` rows. -/
theorem beaverPerQ_eq (h1 : c.dbConfig.l1Dim = 2^m1) (h2 : c.dbConfig.l2Dim = 2^m2) (hle : m1 + m2 ≤ 32) :
    c.beaverPerQ = some ((5*2^m2+1)/2 + (3*2^m1+1)/2 + 96) := by
  have hm1 : 2^m1 ≤ 2^32 := Nat.pow_le_pow_right (by decide) (by omega)
  have hm2 : 2^m2 ≤ 2^32 := Nat.pow_le_pow_right (by decide) (by omega)
  have h5 : ceilMul 5 (2^m2) = (5*2^m2+1)/2 := ceilMul_two_pow (by decide) (by omega)
  have h3 : ceilMul 3 (2^m1) = (3*2^m1+1)/2 := ceilMul_two_pow (by decide) (by omega)
  have hsum : checkedUsize ((5*2^m2+1)/2 + (3*2^m1+1)/2) = some ((5*2^m2+1)/2 + (3*2^m1+1)/2) := if_pos (by omega)
  rw [SystemConfig.beaverPerQ, h1, h2, h5, h3, hsum]
  exact if_pos (by omega)

theorem queryBytes_le (m1 m2 : ℕ) : 8*queryBytes m1 m2 ≤ (5*2^m2+1)/2 + (3*2^m1+1)/2 + 23 := by
  have h1 := oheBytes_le m1
  have h2 := oheBytes_le m2
  rw [queryBytes]
  omega

/-- The triples of `q` queries fit into the storage that is made for them. -/
theorem queries_fit {q k perQ : ℕ} (hk : k ≤ q) (hq : 8*queryBytes m1 m2 ≤ perQ) :
    k*queryBytes m1 m2 ≤ (q*perQ+7)/8 := by
  have hmul : k*(8*queryBytes m1 m2) ≤ q*perQ := Nat.mul_le_mul hk hq
  have hcomm : k*(8*queryBytes m1 m2) = 8*(k*queryBytes m1 m2) := by ring
  omega

end Dims
end PrivRecCert.Prc
