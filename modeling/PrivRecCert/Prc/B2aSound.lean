import PrivRecCert.Prc.B2aSpec
import PrivRecCert.Prc.Util

/-! The conversion at all parties: shares of bits become shares of the same numbers in the scalar
field. -/
namespace PrivRecCert.Prc
open CorRnd SimdArray Rounds Sharing
open scoped BigOperators

variable {n : ℕ}

/-- The providers hold shares of daBits `r`, of which the first `used` are gone. -/
structure DabitShares (dp : Fin n → DaBitProvider) (l : Fin n → List DaBit) (r : ℕ → Bool) (s used : ℕ) :
    Prop where
  holds : ∀ i, (dp i).Holds (l i) used
  length : ∀ i, (l i).length = s
  rZ2 : ∀ (k : ℕ) (d : Fin n → DaBit), (∀ i, (l i)[k]? = some (d i)) → ∑ i, (d i).rZ2 = r k
  rZp : ∀ (k : ℕ) (d : Fin n → DaBit), (∀ i, (l i)[k]? = some (d i)) → ∑ i, (d i).rZp = ofBit (r k)

/-- Shares of one value have one length. -/
def SameLen (vs : List (Fin n → BooleanValue)) : Prop := ∀ v ∈ vs, ∀ i j, (v i).bitLen = (v j).bitLen

/-- `y` are shares in the scalar field of the number that `v` are exclusive-or shares of. -/
def Converts (v : Fin n → BooleanValue) (y : Fin n → ArithValueT) : Prop :=
  ∑ i, y i = ((xorAll fun i => (v i).value).toNat : Scalar) ∧
    (reconstructArith (List.ofFn y)).asU32 = some (xorAll fun i => (v i).value)

namespace ConvLayer

theorem sum_weighted (v : U32) (m : ℕ) (h : v.toNat < 2^m) :
    ∑ t ∈ Finset.range m, (ofBit (v.getLsbD t) * 2^t : Scalar) = (v.toNat : Scalar) := by
  have hmod : ∀ m, ∑ t ∈ Finset.range m, (ofBit (v.getLsbD t) * 2^t : Scalar) = ((v.toNat % 2^m : ℕ) : Scalar) := by
    intro m
    induction m with
    | zero => rw [Finset.sum_range_zero, pow_zero, Nat.mod_one, Nat.cast_zero]
    | succ m ih =>
      rw [Finset.sum_range_succ, ih, pow_succ, Nat.mod_mul, BitVec.getLsbD, ofBit, Nat.toNat_testBit,
        Nat.cast_add, Nat.cast_mul, Nat.cast_pow, Nat.cast_ofNat, mul_comm (2^m : Scalar)]
  rw [hmod, Nat.mod_eq_of_lt h]

variable {p : Fin n} {vs : List (Fin n → BooleanValue)}

theorem totalBits_eq (h : SameLen vs) (i j : Fin n) : totalBits (vs.map (· i)) = totalBits (vs.map (· j)) := by
  rw [totalBits, totalBits, List.map_map, List.map_map]
  exact congrArg List.sum (List.map_congr_left fun v hv => h v hv i j)

theorem converts_of_sum {v : Fin n → BooleanValue} {y : Fin n → ArithValueT}
    (h : ∑ i, y i = ((xorAll fun i => (v i).value).toNat : Scalar)) : Converts v y := by
  refine ⟨h, ?_⟩
  rw [reconstructArith_ofFn, h, ArithValueT.asU32_natCast (BitVec.isLt _), BitVec.ofNat_toNat, BitVec.setWidth_eq]

/-- Shares of the flattened bits add up to shares of the values. -/
theorem values_joint (share : Fin n → ℕ → Scalar) {c : ℕ} (hlen : SameLen vs)
    (hshare : ∀ k < totalBits (vs.map (· p)), ∑ i, share i (c+k) = ofBit (∑ i, flatBits (vs.map (· i)) k)) :
    ∃ ys : List (Fin n → Scalar), (∀ i, values (share i) (vs.map (· i)) c = ys.map (· i)) ∧
      List.Forall₂ Converts vs ys := by
  induction vs generalizing c with
  | nil => exact ⟨[], fun _ => rfl, .nil⟩
  | cons v vs ih =>
    have hv : ∀ i, (v i).bitLen = (v p).bitLen := fun i => hlen v (by simp) i p
    simp only [List.map_cons, totalBits_cons, flatBits, hv] at hshare
    obtain ⟨ys, hys, hall⟩ := ih (c := c + (v p).bitLen) (fun w hw => hlen w (by simp [hw])) fun k hk => by
      have h := hshare ((v p).bitLen + k) (by omega)
      have hn : ¬ (v p).bitLen + k < (v p).bitLen := by omega
      simpa only [hn, if_false, Nat.add_sub_cancel_left, ← Nat.add_assoc] using h
    refine ⟨(fun i => ∑ t ∈ Finset.range (v p).bitLen, share i (c+t) * 2^t) :: ys, fun i => ?_,
      .cons (converts_of_sum ?_) hall⟩
    · rw [List.map_cons, values, hv i, hys i]
      rfl
    · rw [Finset.sum_comm, ← sum_weighted _ _ (xorAll_lt hv)]
      apply Finset.sum_congr rfl
      intro t ht
      have h := hshare t (by have := Finset.mem_range.mp ht; omega)
      simp only [Finset.mem_range.mp ht, if_true] at h
      rw [← Finset.sum_mul, h, getLsbD_xorAll]

variable {l : Fin n → List DaBit} {r : ℕ → Bool} {s u : ℕ} {dp : Fin n → DaBitProvider}

theorem sum_masks (hdp : DabitShares dp l r s u) {k : ℕ} (hk : u + k < s) :
    ∑ i, maskBit (l i) u k = r (u+k) ∧ ∑ i, maskValue (l i) u k = ofBit (r (u+k)) := by
  have hget : ∀ i, (l i)[u+k]? = some ⟨maskBit (l i) u k, maskValue (l i) u k⟩ := fun i => by
    have hlt : u + k < (l i).length := by rw [hdp.length i]; exact hk
    have h := taken_getElem? (l := l i) (u := u) (t := k+1) (k := k) (by omega) (by omega)
    rwa [List.getElem?_take_of_lt (by omega), List.getElem?_drop] at h
  exact ⟨hdp.rZ2 _ _ hget, hdp.rZp _ _ hget⟩

/-- The opened bits are the bits of the values, blinded by the daBits that nobody knows. -/
theorem sum_blinded (hlen : SameLen vs) (hdp : DabitShares dp l r s u)
    (hroom : u + totalBits (vs.map (· p)) ≤ s) {k : ℕ} (hk : k < totalBits (vs.map (· p))) :
    ∑ i, blinded (l i) u (vs.map (· i)) k = ((∑ i, flatBits (vs.map (· i)) k) ^^ r (u+k)) := by
  rw [← (sum_masks hdp (k := k) (by omega)).1]
  refine Eq.trans (Finset.sum_congr rfl fun i _ => ?_) Finset.sum_add_distrib
  rw [blinded, if_pos (by rw [totalBits_eq hlen i p]; exact hk)]
  rfl

variable {G : Type} [AddCommGroup G] [Module Scalar G] [Ristretto G] [LawfulRistretto G]

/-- One conversion at all parties: shares of the same numbers, and as many daBits less as there
are bits. -/
theorem interact_lockstep (hn : 2 ≤ n) (hlen : SameLen vs) (hpos : 0 < totalBits (vs.map (· p)))
    (hsize : totalBits (vs.map (· p)) < 2^32) (hdp : DabitShares dp l r s u)
    (hroom : u + totalBits (vs.map (· p)) ≤ s) :
    Lockstep Msg.kind (wire (G := G)) (fun out =>
      (∃ ys : List (Fin n → ArithValueT), (∀ i, (out i).1 = ys.map (· i)) ∧ List.Forall₂ Converts vs ys) ∧
      DabitShares (fun i => (out i).2) l r s (u + totalBits (vs.map (· p))))
      fun i => (ConvLayer.mk (decide (i = p))).interact (vs.map (· i)) (dp i) := by
  have htotal : ∀ i, totalBits (vs.map (· i)) = totalBits (vs.map (· p)) := fun i => totalBits_eq hlen i p
  choose e dp' hint her hdp' using fun i => interact_eq (G := G) (c := ⟨decide (i = p)⟩) (hdp.holds i)
    (by rw [htotal i]; exact hpos) (by rw [htotal i, hdp.length i]; exact hroom)
  have her' : ∀ i, (e i).Represents (totalBits (vs.map (· p))) (blinded (l i) u (vs.map (· i))) :=
    fun i => htotal i ▸ her i
  choose b hb hbr using fun i => wire_dabit i (G := G) (her' i) hsize
  have hmsg : ∀ i, DabitMsg (totalBits (vs.map (· p))) (Msg.dabit (G := G) (b i))
      (blinded (l i) u (vs.map (· i))) := fun i => by
    refine ⟨b i, rfl, (hbr i).congr fun k => clip_of_zero (fun k hk => ?_) k⟩
    rw [blinded, if_neg (by rw [htotal i]; omega)]
  refine .round (fun i => .dabit (e i)) (fun i => .dabit (b i)) .dabit _ hint (fun _ => rfl) hb
    fun dl hdl => ?_
  let E (k : ℕ) : Bool := ∑ i, blinded (l i) u (vs.map (· i)) k
  have hfinish : ∀ i, (ConvLayer.mk (decide (i = p))).finish (vs.map (· i))
      (((l i).drop u).take (totalBits (vs.map (· i)))) (e i) (dp' i) (dl i) =
      .ret (values (fun k => bitShare (decide (i = p)) (maskValue (l i) u k) (E k)) (vs.map (· i)) 0, dp' i) := by
    intro i
    obtain ⟨gs, hgs, hperm⟩ := forall₂_of_perm hmsg (hdl i)
    have hne : dl i ≠ [] := fun h0 => by
      have hl := (hdl i).length_eq
      rw [h0, others_length, List.length_nil] at hl
      omega
    rw [← htotal i] at hgs
    rw [finish_eq (her i) (by rw [htotal i, hdp.length i]; exact hroom) (dp' i) hgs hne, opened_eq hperm]
  obtain ⟨ys, hys, hall⟩ := values_joint (fun i k => bitShare (decide (i = p)) (maskValue (l i) u k) (E k))
    (p := p) (c := 0) hlen fun k hk => by
      have hE : E k = ((∑ i, flatBits (vs.map (· i)) k) ^^ r (u+k)) := sum_blinded hlen hdp hroom hk
      have hsum := sum_dabit p (fun i => maskValue (l i) u k) (r (u+k)) (E k) (sum_masks hdp (by omega)).2
      have hxor : (r (u+k) ^^ E k) = ∑ i, flatBits (vs.map (· i)) k := by
        rw [hE, Bool.xor_comm, Bool.xor_assoc, Bool.xor_self, Bool.xor_false]
      simp only [bitShare, decide_eq_true_eq, Nat.zero_add]
      rw [hsum, hxor]
  refine .done (fun i => (_, dp' i)) hfinish ⟨⟨ys, hys, hall⟩, fun i => ?_, hdp.length, hdp.rZ2, hdp.rZp⟩
  exact htotal i ▸ hdp' i

/-- Conversions one after the other on the same provider. -/
def interacts (c : ConvLayer) : List (List BooleanValue) → DaBitProvider →
    Party G (List (List ArithValueT) × DaBitProvider)
  | [], dp => return ([], dp)
  | bvs :: rest, dp => do
    let (arith, dp) ← c.interact bvs dp
    let (ariths, dp) ← c.interacts rest dp
    return (arith :: ariths, dp)

/-- Values that are held in shares of equal length, with a number of bits that fits a frame. -/
def Convertible (vs : List (Fin n → BooleanValue)) : Prop :=
  SameLen vs ∧ ∀ i, 0 < totalBits (vs.map (· i)) ∧ totalBits (vs.map (· i)) < 2^32

/-- Whatever is converted, list after list, the results are shares of the same numbers, and every
conversion has used as many daBits as it has bits. -/
theorem interacts_converts (hn : 2 ≤ n) {convs : List (List (Fin n → BooleanValue))}
    (hconvs : ∀ vs ∈ convs, Convertible vs) (hdp : DabitShares dp l r s u)
    (hroom : u + (convs.map fun vs => totalBits (vs.map (· p))).sum ≤ s) :
    Lockstep Msg.kind (wire (G := G)) (fun out =>
      (∃ yss : List (List (Fin n → ArithValueT)), (∀ i, (out i).1 = yss.map (List.map (· i))) ∧
        List.Forall₂ (List.Forall₂ Converts) convs yss) ∧
      DabitShares (fun i => (out i).2) l r s (u + (convs.map fun vs => totalBits (vs.map (· p))).sum))
      fun i => (ConvLayer.mk (decide (i = p))).interacts (convs.map (List.map (· i))) (dp i) := by
  induction convs generalizing dp u with
  | nil => exact .ret ⟨⟨[], fun _ => rfl, .nil⟩, hdp⟩
  | cons vs convs ih =>
    obtain ⟨hlen, htotal⟩ := hconvs vs (by simp)
    rw [List.map_cons, List.sum_cons, ← Nat.add_assoc] at hroom ⊢
    apply (interact_lockstep hn hlen (htotal p).1 (htotal p).2 hdp (by omega)).bind
    intro out hout
    obtain ⟨⟨ys, hys, hall⟩, hdp'⟩ := hout
    refine (ih (fun vs hvs => hconvs vs (by simp [hvs])) hdp' hroom).bind fun rest hrest => ?_
    obtain ⟨⟨yss, hyss, halls⟩, hdp''⟩ := hrest
    refine .ret ⟨⟨ys :: yss, fun i => ?_, .cons hall halls⟩, hdp''⟩
    change (out i).1 :: (rest i).1 = _
    rw [hys i, hyss i]
    rfl

end ConvLayer

/-- Zero, shared among two parties in `2^27` values of 32 bits each. -/
def wideValues : List (Fin 2 → BooleanValue) := List.replicate (2^27) fun _ => ⟨32, 0, by decide, by decide⟩

def zeroDabits (s : ℕ) : List DaBit := List.replicate s ⟨false, 0⟩

theorem dabitShares_zero (s : ℕ) : DabitShares (fun _ : Fin n => ⟨some (zeroDabits s), 0, 0⟩)
    (fun _ => zeroDabits s) (fun _ => false) s 0 := by
  have hzero : ∀ (k : ℕ) (d : DaBit), (zeroDabits s)[k]? = some d → d = ⟨false, 0⟩ := fun k d hd =>
    List.eq_of_mem_replicate (List.mem_of_getElem? hd)
  refine ⟨fun _ => ⟨rfl, rfl⟩, fun _ => List.length_replicate, fun k d hd => ?_, fun k d hd => ?_⟩
  · exact (Finset.sum_congr rfl fun i _ => by rw [hzero k (d i) (hd i)]; rfl).trans Finset.sum_const_zero
  · refine (Finset.sum_congr rfl fun i _ => by rw [hzero k (d i) (hd i)]).trans ?_
    rw [Finset.sum_const_zero, ofBit]
    simp

/-- Bits that do not fit a frame: the size field says zero, and the reconstruction fails. -/
theorem ConvLayer.not_lockstep {G : Type} [AddCommGroup G] [Module Scalar G] [Ristretto G]
    {vs : List (Fin 2 → BooleanValue)} {l : Fin 2 → List DaBit} {dp : Fin 2 → DaBitProvider} {p : Fin 2}
    (htotal : ∀ i, totalBits (vs.map (· i)) = 2^32) (hdp : ∀ i, (dp i).Holds (l i) 0)
    (hl : ∀ i, (l i).length = 2^32) (Q : (Fin 2 → List ArithValueT × DaBitProvider) → Prop) :
    ¬ Lockstep Msg.kind (wire (G := G)) Q fun i =>
      (ConvLayer.mk (decide (i = p))).interact (vs.map (· i)) (dp i) := by
  intro h
  choose e dp' hint her hdp' using fun i => interact_eq (G := G) (c := ⟨decide (i = p)⟩) (hdp i)
    (by rw [htotal i]; decide) (by rw [htotal i, hl i, Nat.zero_add])
  have hsize : ∀ i, (e i).bitSize = 2^32 := fun i => (her i).bitSize_eq.trans (htotal i)
  cases h with
  | done b hp _ => exact nomatch (hint 0).symm.trans (hp 0)
  | round m w kd k hp hkind hwire next =>
    have hw : w 1 = .dabit ⟨.empty, 0, 0⟩ := by
      have hm := (hint 1).symm.trans (hp 1)
      injection hm with hm _
      have hover := wire_dabit_overflow (G := G) (1 : Fin 2) (b := e 1) (by rw [hsize 1]; rfl)
      rw [hm, hwire 1] at hover
      exact Option.some.inj hover
    have hk := (hint 0).symm.trans (hp 0)
    injection hk with _ hk
    injection hk with _ hk
    apply (next (fun i => others w i) fun _ => List.Perm.refl _).not_fail 0
    have hothers : others w 0 = [.dabit ⟨.empty, 0, 0⟩] := by
      rw [others, show peers (0 : Fin 2) = [1] by decide, List.map_singleton, hw]
    have hxor : (e 0).inplaceXor ⟨.empty, 0, 0⟩ = none := by
      rw [BitArray.inplaceXor, if_neg (by rw [hsize 0]; decide)]
    rw [← hk, hothers]
    simp [finish, Msg.asDabit, BitArray.inplaceReconstruct, hxor]

/-- Two parties, `2^27` values and enough daBits, but more bits than a frame can announce. -/
theorem interact_wide : SameLen wideValues ∧ (∀ i, ConvLayer.totalBits (wideValues.map (· i)) = 2^32) ∧
    DabitShares (fun _ : Fin 2 => ⟨some (zeroDabits (2^32)), 0, 0⟩) (fun _ => zeroDabits (2^32))
      (fun _ => false) (2^32) 0 ∧
    ∀ Q, ¬ Lockstep Msg.kind (wire (G := Scalar)) Q fun i : Fin 2 => (ConvLayer.mk (decide (i = 0))).interact
      (wideValues.map (· i)) ⟨some (zeroDabits (2^32)), 0, 0⟩ := by
  have htotal : ∀ i, ConvLayer.totalBits (wideValues.map (· i)) = 2^32 := fun i => by
    rw [ConvLayer.totalBits, wideValues, List.map_map, List.map_replicate, List.sum_replicate_nat]
    rfl
  have hshares := dabitShares_zero (n := 2) (2^32)
  refine ⟨fun v hv i j => ?_, htotal, hshares, ConvLayer.not_lockstep htotal hshares.holds hshares.length⟩
  rw [List.eq_of_mem_replicate hv]

/-- Two conversions among three parties, of values of 5, 0 and 32 bits and of one bit. -/
theorem interacts_converts_three :
    let v (m : ℕ) (h : m ≤ 32) : Fin 3 → BooleanValue := fun _ => ⟨m, 0, h, Nat.two_pow_pos m⟩
    let convs := [[v 5 (by decide), v 0 (by decide), v 32 (by decide)], [v 1 (by decide)]]
    Lockstep Msg.kind (wire (G := Scalar)) (fun out =>
      (∃ yss : List (List (Fin 3 → ArithValueT)), (∀ i, (out i).1 = yss.map (List.map (· i))) ∧
        List.Forall₂ (List.Forall₂ Converts) convs yss) ∧
      DabitShares (fun i => (out i).2) (fun _ => zeroDabits 40) (fun _ => false) 40 (0 + 38))
      fun i => (ConvLayer.mk (decide (i = 1))).interacts (convs.map (List.map (· i)))
        ⟨some (zeroDabits 40), 0, 0⟩ := by
  intro v convs
  refine ConvLayer.interacts_converts (by decide) (fun vs hvs => ?_) (dabitShares_zero 40) (by decide)
  simp only [convs, List.mem_cons, List.not_mem_nil, or_false] at hvs
  rcases hvs with rfl | rfl
  · exact ⟨by simp [SameLen, v], fun i => by simp [ConvLayer.totalBits, v]⟩
  · exact ⟨by simp [SameLen, v], fun i => by simp [ConvLayer.totalBits, v]⟩

end PrivRecCert.Prc
