import PrivRecCert.Rng
import Mathlib.Data.ZMod.Basic
import Mathlib.Algebra.BigOperators.Group.List.Basic
import Mathlib.Tactic.Linarith

/-! Arithmetic values over the scalar field of the curve, and Boolean values of up to 32 bits. -/
namespace PrivRecCert.CorRnd
open Bytes

/-- The order of the Ristretto group. -/
def groupOrder : ℕ := 2^252 + 27742317777372353535851937790883648493

instance : NeZero groupOrder := ⟨by unfold groupOrder; omega⟩

/-- A scalar of `curve25519_dalek`. -/
abbrev Scalar := ZMod groupOrder

/-- `Scalar::to_bytes`. -/
def Scalar.toBytes (s : Scalar) : List U8 := leBytes 32 s.val

/-- `Scalar::from_bytes_mod_order_wide`. -/
def Scalar.fromBytesModOrderWide (bytes : List U8) : Scalar := (ofLeBytes bytes : ℕ)

/-- What a sharing draws from a generator: words and uniform scalars. -/
class ScalarRng (R : Type) where
  nextU32 : R → U32 × R
  randomScalar : R → Scalar × R

/-- `Scalar::random` reduces 64 bytes. -/
instance {R : Type} [RngCore R] : ScalarRng R where
  nextU32 := RngCore.nextU32
  randomScalar rng :=
    let (bytes, rng) := RngCore.fillBytes rng 64
    (Scalar.fromBytesModOrderWide bytes.1, rng)

/-- `ArithValue<Scalar>`; its `add`, `sub` and `mul` are the operations of the field. -/
abbrev ArithValueT := Scalar

namespace ArithValueT

def zero : ArithValueT := 0

def fromU32 (value : U32) : ArithValueT := (value.toNat : ℕ)

def random {R : Type} [ScalarRng R] (rng : R) : ArithValueT × R := ScalarRng.randomScalar rng

/-- `none` when the value does not fit. -/
def asU32 (a : ArithValueT) : Option U32 :=
  let bytes := Scalar.toBytes a
  if (bytes.drop 4).all (· == 0) then some (BitVec.ofNat 32 (ofLeBytes (bytes.take 4))) else none

theorem groupOrder_lt : groupOrder < 256^32 := by unfold groupOrder; omega

/-- The reconstruction of a small integer succeeds and returns it. -/
theorem asU32_natCast {v : ℕ} (hv : v < 2^32) : asU32 (v : ℕ) = some (BitVec.ofNat 32 v) := by
  have hval : ((v : ℕ) : Scalar).val = v := ZMod.val_natCast_of_lt (by unfold groupOrder; omega)
  have hround : ofLeBytes (leBytes 32 v) = v := ofLeBytes_leBytes (by omega)
  have hsplit := ofLeBytes_append ((leBytes 32 v).take 4) ((leBytes 32 v).drop 4)
  rw [List.take_append_drop, hround, List.length_take, leBytes_length] at hsplit
  have hmin : 256^(min 4 32) = 2^32 := by decide
  rw [hmin] at hsplit
  have hhigh : ofLeBytes ((leBytes 32 v).drop 4) = 0 := by omega
  have hlow : ofLeBytes ((leBytes 32 v).take 4) = v := by omega
  rw [asU32, Scalar.toBytes, hval, if_pos (ofLeBytes_eq_zero.mpr hhigh), hlow]

end ArithValueT

/-- `bitLen` bits, the higher bits of the word being zero. -/
structure BooleanValue where
  bitLen : ℕ
  value : U32
  bitLen_le : bitLen ≤ 32
  value_lt : value.toNat < 2^bitLen
  deriving DecidableEq

namespace BooleanValue

def new (bitLen : ℕ) (value : U32) : Option BooleanValue :=
  if hlen : bitLen > 32 then none
  else if hval : bitLen < 32 ∧ value.toNat ≥ 2^bitLen then none
  else some ⟨bitLen, value, by omega, by
    by_cases h : bitLen < 32
    · exact lt_of_not_ge fun hge => hval ⟨h, hge⟩
    · have h32 : bitLen = 32 := by omega
      rw [h32]
      exact value.isLt⟩

theorem new_eq {bitLen : ℕ} {value : U32} (hlen : bitLen ≤ 32) (hval : value.toNat < 2^bitLen) :
    new bitLen value = some ⟨bitLen, value, hlen, hval⟩ := by
  rw [new, dif_neg (by omega), dif_neg (by omega)]

theorem getLsbD_of_le (v : BooleanValue) {k : ℕ} (hk : v.bitLen ≤ k) : v.value.getLsbD k = false := by
  rw [BitVec.getLsbD]
  exact Nat.testBit_lt_two_pow (v.value_lt.trans_le (Nat.pow_le_pow_right (by decide) hk))

end BooleanValue

/-- The bits of `lower` followed by the bits of `higher`. -/
def joinBoolean (lower higher : BooleanValue) : Option BooleanValue :=
  if lower.bitLen < 32 then
    BooleanValue.new (lower.bitLen + higher.bitLen) ((higher.value <<< lower.bitLen) ||| lower.value)
  else none

theorem joinBoolean_eq {lower higher : BooleanValue} (hlow : lower.bitLen < 32)
    (hle : lower.bitLen + higher.bitLen ≤ 32) :
    ∃ v, joinBoolean lower higher = some v ∧ v.bitLen = lower.bitLen + higher.bitLen ∧
      v.value = (higher.value <<< lower.bitLen) ||| lower.value ∧
      v.value.toNat = lower.value.toNat + 2^lower.bitLen * higher.value.toNat := by
  have hl := lower.value_lt
  have hh := higher.value_lt
  have hprod : 2^lower.bitLen * higher.value.toNat + lower.value.toNat <
      2^(lower.bitLen + higher.bitLen) := by
    rw [pow_add]
    nlinarith [Nat.succ_le_of_lt hh, Nat.two_pow_pos lower.bitLen]
  have h32 : 2^(lower.bitLen + higher.bitLen) ≤ 2^32 := Nat.pow_le_pow_right (by decide) hle
  have hshift : (higher.value <<< lower.bitLen).toNat = 2^lower.bitLen * higher.value.toNat := by
    rw [BitVec.toNat_shiftLeft, Nat.shiftLeft_eq, Nat.mul_comm]
    exact Nat.mod_eq_of_lt (by omega)
  have hor : ((higher.value <<< lower.bitLen) ||| lower.value).toNat =
      2^lower.bitLen * higher.value.toNat + lower.value.toNat := by
    rw [BitVec.toNat_or, hshift, ← Nat.two_pow_add_eq_or_of_lt hl]
  refine ⟨_, by rw [joinBoolean, if_pos hlow, BooleanValue.new_eq hle (by omega)], rfl, rfl, ?_⟩
  rw [hor, Nat.add_comm]

end PrivRecCert.CorRnd
