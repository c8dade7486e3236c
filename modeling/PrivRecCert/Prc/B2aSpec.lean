import PrivRecCert.Prc.B2aConv
import PrivRecCert.Sharing.Additive

/-! What a conversion computes. At one party: the flattened bits are blinded by daBits and
broadcast, and the opened bits are recombined with the arithmetic shares of the same daBits. -/
namespace PrivRecCert.Prc
open CorRnd SimdArray Rounds Sharing BitArray
open scoped BigOperators

namespace ConvLayer

/-- The bits of a list of values, one value after the other. -/
def flatBits : List BooleanValue → ℕ → Bool
  | [], _ => false
  | bv :: bvs, k => if k < bv.bitLen then bv.value.getLsbD k else flatBits bvs (k - bv.bitLen)

@[simp] theorem totalBits_nil : totalBits [] = 0 := rfl
@[simp] theorem totalBits_cons (bv : BooleanValue) (bvs : List BooleanValue) :
    totalBits (bv :: bvs) = bv.bitLen + totalBits bvs := by simp [totalBits]

theorem decompose_eq {bvs : List BooleanValue} {c s : ℕ} {b : BitArray} {f : ℕ → Bool}
    (hb : b.Represents s f) (hle : c + totalBits bvs ≤ s) :
    ∃ r, decompose bvs c b = some r ∧ r.Represents s fun k =>
      if c ≤ k ∧ k < c + totalBits bvs then flatBits bvs (k - c) else f k := by
  induction bvs generalizing c b f with
  | nil => exact ⟨b, rfl, hb.congr fun k => by rw [totalBits_nil, if_neg (by omega)]⟩
  | cons bv bvs ih =>
    rw [totalBits_cons] at hle ⊢
    have hroom : c + bv.bitLen ≤ s := by omega
    obtain ⟨d, hd, hdr⟩ := setBits_eq hb (v := fun i => some (bv.value.getLsbD i)) hroom fun i _ => rfl
    obtain ⟨r, hr, hrr⟩ := ih hdr (c := c + bv.bitLen) (by omega)
    refine ⟨r, ?_, hrr.congr fun k => ?_⟩
    · simp only [Option.bind_eq_bind, Option.bind_some, Nat.add_comm _ c] at hd
      rw [decompose, hd]
      exact hr
    · simp only [flatBits]
      by_cases h1 : k < c + bv.bitLen
      · by_cases h2 : c ≤ k
        · rw [if_neg (by omega), if_pos ⟨h2, h1⟩, if_pos (by omega), if_pos (by omega)]
        · rw [if_neg (by omega), if_neg (by omega), if_neg (by omega)]
      · have hsub : k - (c + bv.bitLen) = k - c - bv.bitLen := by omega
        by_cases h2 : k < c + bv.bitLen + totalBits bvs
        · rw [if_pos (by omega), if_pos (by omega), if_neg (by omega), hsub]
        · rw [if_neg (by omega), if_neg (by omega), if_neg (by omega)]

/-- The bits `r_z2` of the daBits from number `u` on. -/
def maskBit (l : List DaBit) (u k : ℕ) : Bool := ((l.map DaBit.rZ2).getD (u+k) false)

/-- The shares `r_zp` of the daBits from number `u` on. -/
def maskValue (l : List DaBit) (u k : ℕ) : Scalar := ((l.map DaBit.rZp).getD (u+k) 0)

theorem taken_getElem? {l : List DaBit} {u t k : ℕ} (hle : u + t ≤ l.length) (hk : k < t) :
    ((l.drop u).take t)[k]? = some ⟨maskBit l u k, maskValue l u k⟩ := by
  have hlt : u + k < l.length := by omega
  rw [List.getElem?_take_of_lt hk, List.getElem?_drop, List.getElem?_eq_getElem hlt]
  simp [maskBit, maskValue, List.getD_eq_getElem?_getD, hlt]

theorem blind_eq {b e : BitArray} {s u : ℕ} {f : ℕ → Bool} {l : List DaBit} (hb : b.Represents s f)
    (he : e.Represents s fun _ => false) (hle : u + s ≤ l.length) :
    ∃ r, blind b ((l.drop u).take s) e = some r ∧ r.Represents s fun k =>
      if k < s then f k ^^ maskBit l u k else false := by
  have hlen : ((l.drop u).take s).length = s := by rw [List.length_take, List.length_drop]; omega
  obtain ⟨r, hr, hrr⟩ := setBits_eq he (v := fun i => do
      some ((← b.get i) ^^ (← ((l.drop u).take s)[i]?).rZ2)) (w := fun i => f i ^^ maskBit l u i)
    (show 0 + s ≤ s by omega) fun i hi => by
      rw [get_eq hb hi, taken_getElem? hle hi]
      rfl
  refine ⟨r, ?_, hrr.congr fun k => ?_⟩
  · rw [blind, hlen, ← hr]
    congr 1
    funext d i
    cases b.get i <;> cases ((l.drop u).take s)[i]? <;> rfl
  · simp only [Nat.zero_le, true_and, Nat.zero_add, Nat.sub_zero]

/-- A party's share of a converted bit, `e` being the opened difference to a daBit. -/
def bitShare (partyConst : Bool) (r : Scalar) (e : Bool) : Scalar :=
  r - r*(2*ofBit e) + if partyConst then ofBit e else 0

theorem fromU32_ofNat {v : ℕ} (h : v < 2^32) : ArithValueT.fromU32 (BitVec.ofNat 32 v) = (v : Scalar) := by
  rw [ArithValueT.fromU32, BitVec.toNat_ofNat, Nat.mod_eq_of_lt h]

theorem fromU32_shiftLeft {i : ℕ} (h : i < 32) : ArithValueT.fromU32 (1#32 <<< i) = (2^i : Scalar) := by
  have hpow : 2^i < 2^32 := Nat.pow_lt_pow_right (by decide) h
  have hone : (1#32 <<< i).toNat = 2^i := by
    rw [BitVec.toNat_shiftLeft, Nat.shiftLeft_eq, BitVec.toNat_ofNat]
    omega
  rw [ArithValueT.fromU32, hone, Nat.cast_pow, Nat.cast_ofNat]

/-- A loop that sums what its steps return. -/
theorem foldlM_sum {R : Type} [AddCommMonoid R] {f : R → ℕ → Option R} {g : ℕ → R} {m : ℕ}
    (h : ∀ i < m, ∀ v, f v i = some (v + g i)) (v : R) :
    (List.range m).foldlM f v = some (v + ∑ i ∈ Finset.range m, g i) := by
  induction m with
  | zero => simp
  | succ m ih =>
    rw [List.range_succ, List.foldlM_append, ih fun i hi => h i (by omega), Finset.sum_range_succ, ← add_assoc]
    simp [h m (by omega)]

theorem convertBit_eq {c : ConvLayer} {e : BitArray} {s u k : ℕ} {g : ℕ → Bool} {l : List DaBit}
    (he : e.Represents s g) (hle : u + s ≤ l.length) (hk : k < s) :
    c.convertBit e ((l.drop u).take s) k = some (bitShare c.partyConst (maskValue l u k) (g k)) := by
  rw [convertBit, get_eq he hk, taken_getElem? hle hk]
  simp only [Option.bind_eq_bind, Option.bind_some, bitShare, ofBit]
  have hbit := Bool.toNat_lt (g k)
  rw [fromU32_ofNat (by omega), fromU32_ofNat (by omega), Nat.cast_mul, Nat.cast_ofNat]
  cases c.partyConst <;> simp

/-- The recombined values, `share` being the shares of the converted bits. -/
def values (share : ℕ → Scalar) : List BooleanValue → ℕ → List Scalar
  | [], _ => []
  | bv :: bvs, current =>
    (∑ i ∈ Finset.range bv.bitLen, share (current+i) * 2^i) :: values share bvs (current + bv.bitLen)

theorem recombine_eq {c : ConvLayer} {e : BitArray} {s u : ℕ} {g : ℕ → Bool} {l : List DaBit}
    (he : e.Represents s g) (hle : u + s ≤ l.length) {bvs : List BooleanValue} {current : ℕ}
    (hroom : current + totalBits bvs ≤ s) :
    c.recombine e ((l.drop u).take s) bvs current =
      some (values (fun k => bitShare c.partyConst (maskValue l u k) (g k)) bvs current) := by
  induction bvs generalizing current with
  | nil => rfl
  | cons bv bvs ih =>
    rw [totalBits_cons] at hroom
    have hloop := foldlM_sum (m := bv.bitLen)
      (f := fun (val : ArithValueT) i => do
        let round ← c.convertBit e ((l.drop u).take s) (current+i)
        some (val + round * ArithValueT.fromU32 (1#32 <<< i)))
      (g := fun i => bitShare c.partyConst (maskValue l u (current+i)) (g (current+i)) * 2^i)
      (fun i hi v => by
        have hlen := bv.bitLen_le
        rw [convertBit_eq he hle (by omega), fromU32_shiftLeft (by omega)]
        rfl) ArithValueT.zero
    rw [recombine, hloop, Option.bind_eq_bind, Option.bind_some, ih (by omega)]
    rw [values, ArithValueT.zero, zero_add]
    rfl

variable {G : Type}

/-- What a party broadcasts: its bits, blinded by the daBits from number `u` on. -/
def blinded (l : List DaBit) (u : ℕ) (bvs : List BooleanValue) (k : ℕ) : Bool :=
  if k < totalBits bvs then flatBits bvs k ^^ maskBit l u k else false

/-- A stored payload of the daBit exchange. -/
def DabitMsg (s : ℕ) (msg : Msg G) (g : ℕ → Bool) : Prop := ∃ b, msg = .dabit b ∧ b.Represents s g

theorem DabitMsg.mapM {s : ℕ} {msgs : List (Msg G)} {gs : List (ℕ → Bool)}
    (h : List.Forall₂ (DabitMsg s) msgs gs) : ∃ bs, msgs.mapM Msg.asDabit = some bs ∧
      List.Forall₂ (fun (b : BitArray) g => b.Represents s g) bs gs := by
  induction h with
  | nil => exact ⟨[], rfl, .nil⟩
  | cons hm _ ih =>
    obtain ⟨b, rfl, hb⟩ := hm
    obtain ⟨bs, hbs, hrest⟩ := ih
    exact ⟨b :: bs, by simp [List.mapM_cons, Msg.asDabit, hbs], .cons hb hrest⟩

theorem reconstruct_opened {s : ℕ} {e : BitArray} {f : ℕ → Bool} {bs : List BitArray} {gs : List (ℕ → Bool)}
    (h : List.Forall₂ (fun (b : BitArray) g => b.Represents s g) bs gs) (he : e.Represents s f) :
    ∃ r, bs.foldlM inplaceXor e = some r ∧ r.Represents s (opened f gs) := by
  induction h generalizing e f with
  | nil => exact ⟨e, rfl, he⟩
  | cons hb _ ih =>
    obtain ⟨d, hd, hdr⟩ := inplaceXor_eq he hb
    obtain ⟨r, hr, hrr⟩ := ih hdr
    exact ⟨r, by simp [hd, hr], hrr⟩

/-- The part of a conversion after the exchange. -/
def finish (c : ConvLayer) (bvs : List BooleanValue) (dabits : List DaBit) (e : BitArray)
    (dp : DaBitProvider) (msgs : List (Msg G)) : Party G (List ArithValueT × DaBitProvider) := do
  let recShares ← .lift (msgs.mapM Msg.asDabit)
  let e ← .lift (e.inplaceReconstruct recShares)
  let arith ← .lift (c.recombine e dabits bvs 0)
  return (arith, dp)

theorem finish_eq {c : ConvLayer} {bvs : List BooleanValue} {l : List DaBit} {u : ℕ} {e : BitArray}
    {f : ℕ → Bool} (he : e.Represents (totalBits bvs) f) (hroom : u + totalBits bvs ≤ l.length)
    (dp : DaBitProvider) {msgs : List (Msg G)} {gs : List (ℕ → Bool)}
    (hmsgs : List.Forall₂ (DabitMsg (totalBits bvs)) msgs gs) (hne : msgs ≠ []) :
    c.finish bvs ((l.drop u).take (totalBits bvs)) e dp msgs =
      .ret (values (fun k => bitShare c.partyConst (maskValue l u k) (opened f gs k)) bvs 0, dp) := by
  obtain ⟨bs, hbs, hreps⟩ := DabitMsg.mapM hmsgs
  obtain ⟨r, hr, hrr⟩ := reconstruct_opened hreps he
  have hbsne : bs.isEmpty = false := by
    cases hreps with
    | nil => exact absurd (List.forall₂_nil_right_iff.mp hmsgs) hne
    | cons _ _ => rfl
  have hrec : e.inplaceReconstruct bs = some r := by rw [inplaceReconstruct, hbsne]; exact hr
  have harith := recombine_eq (c := c) hrr hroom (Nat.zero_add (totalBits bvs)).le
  simp only [finish, hbs, hrec, harith, Proc.lift_some, Proc.ret_bind, Proc.pure_eq]

/-- Up to the exchange, a conversion blinds its bits with the next daBits. -/
theorem interact_eq {c : ConvLayer} {bvs : List BooleanValue} {dp : DaBitProvider} {l : List DaBit} {u : ℕ}
    (hdp : dp.Holds l u) (hpos : 0 < totalBits bvs) (hroom : u + totalBits bvs ≤ l.length) :
    ∃ e dp', (c.interact bvs dp : Party G _) =
        .send (.dabit e) (.recv .dabit (c.finish bvs ((l.drop u).take (totalBits bvs)) e dp')) ∧
      e.Represents (totalBits bvs) (blinded l u bvs) ∧ dp'.Holds l (u + totalBits bvs) := by
  obtain ⟨zeros, hz, hzr⟩ := new_eq hpos
  obtain ⟨b, hb, hbr⟩ := decompose_eq (c := 0) hzr (Nat.zero_add _).le
  obtain ⟨dp', htake, hdp'⟩ := DaBitProvider.take_eq hdp hroom
  obtain ⟨e, he, her⟩ := blind_eq hbr hzr hroom
  have hblind : e.Represents (totalBits bvs) (blinded l u bvs) := her.congr fun k => by
    by_cases hk : k < totalBits bvs
    · rw [blinded, if_pos hk, if_pos hk, if_pos (by omega), Nat.sub_zero]
    · rw [blinded, if_neg hk, if_neg hk]
  refine ⟨e, dp', ?_, hblind, hdp'⟩
  simp only [interact, hz, hb, htake, he, clone_eq hblind hpos, Proc.lift_some, Proc.ret_bind,
    sendDabitShares, Proc.send_bind, receiveDabitShares, Proc.recv_bind]
  rfl

end ConvLayer
end PrivRecCert.Prc
