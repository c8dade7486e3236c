import PrivRecCert.Bytes.BitAt
import Mathlib.Tactic.Ring

/-! Little-endian numbers in byte strings. -/
namespace PrivRecCert.Bytes

/-- The number a byte string stands for. -/
def ofLeBytes : List U8 → ℕ
  | [] => 0
  | b :: l => b.toNat + 256*ofLeBytes l

/-- The `len` least significant bytes of a number. -/
def leBytes : ℕ → ℕ → List U8
  | 0, _ => []
  | len+1, v => BitVec.ofNat 8 v :: leBytes len (v/256)

@[simp] theorem leBytes_length (len v : ℕ) : (leBytes len v).length = len := by
  induction len generalizing v with
  | zero => rfl
  | succ len ih => rw [leBytes, List.length_cons, ih]

theorem ofLeBytes_leBytes {len v : ℕ} (h : v < 256^len) : ofLeBytes (leBytes len v) = v := by
  induction len generalizing v with
  | zero => rw [pow_zero] at h; exact (Nat.lt_one_iff.mp h).symm
  | succ len ih =>
    have hdiv : v/256 < 256^len := Nat.div_lt_of_lt_mul (by rw [pow_succ] at h; omega)
    rw [leBytes, ofLeBytes, ih hdiv, BitVec.toNat_ofNat]
    omega

theorem ofLeBytes_lt (l : List U8) : ofLeBytes l < 256^l.length := by
  induction l with
  | nil => simp [ofLeBytes]
  | cons b l ih =>
    have hb := b.isLt
    rw [ofLeBytes, List.length_cons, pow_succ]
    omega

theorem leBytes_ofLeBytes (l : List U8) : leBytes l.length (ofLeBytes l) = l := by
  induction l with
  | nil => rfl
  | cons b l ih =>
    have hb := b.isLt
    have hhead : BitVec.ofNat 8 (b.toNat + 256*ofLeBytes l) = b := by
      apply BitVec.eq_of_toNat_eq
      rw [BitVec.toNat_ofNat]
      omega
    have htail : (b.toNat + 256*ofLeBytes l)/256 = ofLeBytes l := by omega
    rw [ofLeBytes, List.length_cons, leBytes, hhead, htail, ih]

theorem ofLeBytes_append (l l' : List U8) :
    ofLeBytes (l ++ l') = ofLeBytes l + 256^l.length * ofLeBytes l' := by
  induction l with
  | nil => simp [ofLeBytes]
  | cons b l ih =>
    rw [List.cons_append, ofLeBytes, ofLeBytes, ih, List.length_cons, pow_succ]
    ring

theorem ofLeBytes_eq_zero {l : List U8} : l.all (· == 0) = true ↔ ofLeBytes l = 0 := by
  induction l with
  | nil => simp [ofLeBytes]
  | cons b l ih =>
    have hb : b = 0 ↔ b.toNat = 0 := by rw [BitVec.toNat_eq]; rfl
    rw [List.all_cons, Bool.and_eq_true, ih, ofLeBytes, beq_iff_eq, hb]
    omega

end PrivRecCert.Bytes
