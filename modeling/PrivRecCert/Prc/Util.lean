import PrivRecCert.CorRnd.Sharing
import PrivRecCert.Sharing.Additive

/-! Secret sharing of query data, and its reconstruction. -/
namespace PrivRecCert.Prc
open CorRnd Sharing
open scoped BigOperators

section LowMask
variable {l : ℕ}

theorem toNat_shiftOne (h : l < 32) : (1#32 <<< l).toNat = 2^l := by
  have hpow : 2^l < 2^32 := Nat.pow_lt_pow_right (by decide) h
  rw [BitVec.toNat_shiftLeft, Nat.shiftLeft_eq, BitVec.toNat_ofNat]
  omega

/-- The mask of the `l` lowest bits. -/
theorem toNat_lowMask (h : l < 32) : ((1#32 <<< l) - 1).toNat = 2^l - 1 := by
  have hone := Nat.two_pow_pos l
  have hpow : 2^l < 2^32 := Nat.pow_lt_pow_right (by decide) h
  rw [BitVec.toNat_sub, toNat_shiftOne h]
  change (2^32 - 1 + 2^l) % 2^32 = _
  omega

theorem getLsbD_lowMask (h : l < 32) (j : ℕ) : ((1#32 <<< l) - 1).getLsbD j = decide (j < l) := by
  rw [BitVec.getLsbD, toNat_lowMask h, Nat.testBit_two_pow_sub_one]

/-- Masking a word reduces it modulo `2^l`. -/
theorem toNat_and_lowMask (h : l < 32) (word : U32) : (word &&& ((1#32 <<< l) - 1)).toNat = word.toNat % 2^l := by
  rw [BitVec.toNat_and, toNat_lowMask h, Nat.and_two_pow_sub_one_eq_mod]

end LowMask

section Share
variable {R : Type} [ScalarRng R]

/-- `count` draws, one after the other. -/
def draws {A : Type} (draw : R → A × R) : ℕ → R → List A × R
  | 0, rng => ([], rng)
  | count+1, rng =>
    let (share, rng) := draw rng
    let (shares, rng) := draws draw count rng
    (share :: shares, rng)

/-- The last share is what the others leave of `x`. -/
def secretShareArith (x : ArithValueT) (partyNum : ℕ) (rng : R) : Option (List ArithValueT × R) :=
  if partyNum = 0 then none
  else
    let (shares, rng) := draws ArithValueT.random (partyNum-1) rng
    let lastShare := shares.foldl (fun acc s => acc - s) x
    some (shares ++ [lastShare], rng)

/-- Shares of `l` bits; a shift by 32 overflows. -/
def secretShareLbit (x : U32) (partyNum l : ℕ) (rng : R) : Option (List U32 × R) :=
  if l > 32 then none
  else if 32 ≤ l then none
  else if x < 1#32 <<< l then
    if partyNum = 0 then none
    else
      let mask := (1#32 <<< l) - 1
      let (words, rng) := draws ScalarRng.nextU32 (partyNum-1) rng
      let shares := words.map fun word => word &&& mask
      let lastShare := shares.foldl (fun acc s => acc ^^^ s) x
      some (shares ++ [lastShare], rng)
  else none

/-- All shares have the length of `x`; a shift by 32 overflows. -/
def secretShareBoolean (x : BooleanValue) (partyNum : ℕ) (rng : R) : Option (List BooleanValue × R) :=
  if partyNum = 0 ∨ 32 ≤ x.bitLen then none
  else do
    let mask := (1#32 <<< x.bitLen) - 1
    let (words, rng) := draws ScalarRng.nextU32 (partyNum-1) rng
    let shares ← words.mapM fun word => BooleanValue.new x.bitLen (word &&& mask)
    let lastShareVal := shares.foldl (fun acc s => acc ^^^ s.value) x.value
    some (shares ++ [← BooleanValue.new x.bitLen lastShareVal], rng)

end Share

def reconstructBoolean (shares : List BooleanValue) : U32 := shares.foldl (fun acc s => acc ^^^ s.value) 0

def reconstructArith (shares : List ArithValueT) : ArithValueT :=
  shares.foldl (fun acc s => acc + s) ArithValueT.zero

theorem reconstructArith_ofFn {n : ℕ} (y : Fin n → ArithValueT) : reconstructArith (List.ofFn y) = ∑ i, y i := by
  have hfold : ∀ (l : List ArithValueT) (x : ArithValueT), l.foldl (fun acc s => acc + s) x = x + l.sum := by
    intro l
    induction l with
    | nil => exact fun x => (add_zero x).symm
    | cons a l ih =>
      intro x
      rw [List.foldl_cons, ih, List.sum_cons, add_assoc]
  rw [reconstructArith, hfold, ArithValueT.zero, zero_add, List.sum_ofFn]

/-- Shares of `bitLen` bits stand for a number of `bitLen` bits. -/
theorem xorAll_lt {n bitLen : ℕ} {v : Fin n → BooleanValue} (h : ∀ i, (v i).bitLen = bitLen) :
    (xorAll fun i => (v i).value).toNat < 2^bitLen := by
  apply Nat.lt_pow_two_of_testBit _
  intro j hj
  change (xorAll fun i => (v i).value).getLsbD j = false
  rw [getLsbD_xorAll]
  exact (Finset.sum_congr rfl fun i _ => (v i).getLsbD_of_le (by rw [h i]; exact hj)).trans
    Finset.sum_const_zero

end PrivRecCert.Prc
