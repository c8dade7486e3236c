import PrivRecCert.Prc.Circuit
import Mathlib.Data.Nat.Bitwise
import Mathlib.Tactic.Linarith

/-! The circuits that requests build. A conjunction is one gate of layer 0. A one-hot vector halves
its index: the vectors of the two halves, computed one layer further down, are replicated
and expanded against each other and combined by one gate. -/
namespace PrivRecCert.Prc
open SimdArray

variable {S T : Type}

namespace Circuit

/-- The gate that combines the vectors of the low `split` bits and the remaining high bits. -/
def oheGate (len split : ℕ) (low high : Source S) : Gate S :=
  ⟨2^len, fun y => if y then ⟨.expand (2^split), high⟩ else ⟨.replicate (2^(len-split)), low⟩⟩

@[simp] theorem oheGate_size (len split : ℕ) (low high : Source S) :
    (oheGate len split low high).size = 2^len := rfl
@[simp] theorem oheGate_x (len split : ℕ) (low high : Source S) :
    (oheGate len split low high).feed false = ⟨.replicate (2^(len-split)), low⟩ := rfl
@[simp] theorem oheGate_y (len split : ℕ) (low high : Source S) :
    (oheGate len split low high).feed true = ⟨.expand (2^split), high⟩ := rfl

theorem oheGate_map (φ : S → T) (len split : ℕ) (low high : Source S) :
    (oheGate len split low high).map φ = oheGate len split (low.map φ) (high.map φ) := by
  rw [Gate.map, oheGate]
  congr 1
  funext y
  cases y <;> rfl

/-- The one-hot vector of the index bits `pos, …, pos+len-1`; `leaf` encodes a single bit. -/
def oheGates (leaf : ℕ → S) (l pos len : ℕ) (C : Circuit S) : Source S × Circuit S :=
  if _h : len ≤ 1 then (.input 2 (leaf pos), C)
  else
    let split := (len+1)/2
    let low := oheGates leaf (l+1) pos split C
    let high := oheGates leaf (l+1) (pos+split) (len-split) low.2
    (.takeZ (gateTicket l (layerBytes (high.2.layer l)) (2^len)),
      high.2.addGate l (oheGate len split low.1 high.1))
termination_by len

/-- The bytes of all gates of a one-hot vector of `2^len` bits. -/
def oheBytes (len : ℕ) : ℕ :=
  if _h : len ≤ 1 then 0
  else divCeil (2^len) 8 + oheBytes ((len+1)/2) + oheBytes (len - (len+1)/2)
termination_by len

variable (leaf : ℕ → S)

theorem oheGates_leaf {l pos len : ℕ} {C : Circuit S} (h : len ≤ 1) :
    oheGates leaf l pos len C = (.input 2 (leaf pos), C) := by rw [oheGates, dif_pos h]

theorem oheGates_map (φ : S → T) (l pos len : ℕ) (C : Circuit S) :
    oheGates (fun p => φ (leaf p)) l pos len (C.map φ) =
      ((oheGates leaf l pos len C).1.map φ, (oheGates leaf l pos len C).2.map φ) := by
  induction len using Nat.strong_induction_on generalizing l pos C with
  | _ len ih =>
    by_cases h : len ≤ 1
    · rw [oheGates_leaf _ h, oheGates_leaf _ h]
      rfl
    · rw [oheGates, oheGates, dif_neg h, dif_neg h]
      simp only [ih ((len+1)/2) (by omega), ih (len - (len+1)/2) (by omega), layerBytes_layer_map,
        map_addGate, oheGate_map, Source.map]

theorem oheGates_extends (l pos len : ℕ) (C : Circuit S) : Extends (oheGates leaf l pos len C).2 C := by
  induction len using Nat.strong_induction_on generalizing l pos C with
  | _ len ih =>
    by_cases h : len ≤ 1
    · rw [oheGates_leaf _ h]
      exact Extends.refl C
    · rw [oheGates, dif_neg h]
      have hlow := ih ((len+1)/2) (by omega) (l+1) pos C
      have hhigh := ih (len - (len+1)/2) (by omega) (l+1) (pos + (len+1)/2)
        (oheGates leaf (l+1) pos ((len+1)/2) C).2
      exact (extends_addGate _ _ _).trans (hhigh.trans hlow)

theorem totalBytes_oheGates (l pos len : ℕ) (C : Circuit S) :
    (oheGates leaf l pos len C).2.totalBytes = C.totalBytes + oheBytes len := by
  induction len using Nat.strong_induction_on generalizing l pos C with
  | _ len ih =>
    by_cases h : len ≤ 1
    · rw [oheGates_leaf _ h, oheBytes, dif_pos h, Nat.add_zero]
    · rw [oheGates, dif_neg h, oheBytes, dif_neg h]
      simp only [totalBytes_addGate, oheGate_size, ih ((len+1)/2) (by omega),
        ih (len - (len+1)/2) (by omega)]
      ring

/-- The source of a one-hot vector is valid in every continuation of its circuit. -/
theorem oheGates_source (l pos : ℕ) {len : ℕ} (hlen : 1 ≤ len) (C : Circuit S) :
    (oheGates leaf l pos len C).1.len = 2^len ∧
      (oheGates leaf l pos len C).1.Valid l (layerBytes ((oheGates leaf l pos len C).2.layer l)) := by
  by_cases h : len ≤ 1
  · rw [oheGates_leaf _ h]
    have h1 : len = 1 := by omega
    exact ⟨by rw [h1]; rfl, trivial⟩
  · rw [oheGates, dif_neg h]
    refine ⟨Nat.add_sub_cancel_left _ _, rfl, Nat.mul_mod_left _ _, ?_, ?_⟩
    · exact Nat.lt_add_of_pos_right (Nat.two_pow_pos len)
    · simp only [layer_addGate, if_true, layerBytes_append, layerBytes_cons, layerBytes_nil, gateTicket,
        oheGate_size, BitArray.divCeil_eight]
      omega

theorem closed_oheGates (l pos : ℕ) {len : ℕ} (hlen : 1 ≤ len) {C : Circuit S} (hC : C.Closed) :
    (oheGates leaf l pos len C).2.Closed := by
  induction len using Nat.strong_induction_on generalizing l pos C with
  | _ len ih =>
    by_cases h : len ≤ 1
    · rwa [oheGates_leaf _ h]
    · have hlow := ih ((len+1)/2) (by omega) (l+1) pos (by omega) hC
      have hhigh := ih (len - (len+1)/2) (by omega) (l+1) (pos + (len+1)/2) (by omega) hlow
      obtain ⟨hlowLen, hlowValid⟩ := oheGates_source leaf (l+1) pos
        (show 1 ≤ (len+1)/2 by omega) C
      obtain ⟨hhighLen, hhighValid⟩ := oheGates_source leaf (l+1) (pos + (len+1)/2)
        (show 1 ≤ len - (len+1)/2 by omega) (oheGates leaf (l+1) pos ((len+1)/2) C).2
      have hext := (oheGates_extends leaf (l+1) (pos + (len+1)/2) (len - (len+1)/2)
        (oheGates leaf (l+1) pos ((len+1)/2) C).2).layerBytes_le (l+1)
      rw [oheGates, dif_neg h]
      refine hhigh.addGate ⟨Nat.two_pow_pos len, fun y => ?_⟩
      cases y with
      | false =>
        refine ⟨hlowValid.mono hext, ?_⟩
        rw [oheGate_x, Spread.span, hlowLen, oheGate_size, ← pow_add]
        congr 1
        omega
      | true =>
        refine ⟨hhighValid, ?_⟩
        rw [oheGate_y, Spread.span, hhighLen, oheGate_size, ← pow_add]
        congr 1
        omega

theorem fullFrom_addGate {C : Circuit S} {l : ℕ} (h : C.FullFrom (l+1)) (g : Gate S) :
    (C.addGate l g).FullFrom l := by
  intro j hj hjlen
  rw [length_addGate] at hjlen
  rw [layer_addGate]
  split_ifs with hjl
  · simp
  · exact h j (by omega) (by omega)

theorem FullFrom.succ {C : Circuit S} {l : ℕ} (h : C.FullFrom l) : C.FullFrom (l+1) :=
  fun j hj => h j (by omega)

theorem fullFrom_oheGates {l : ℕ} (pos len : ℕ) {C : Circuit S} (hC : C.FullFrom l) :
    (oheGates leaf l pos len C).2.FullFrom l := by
  induction len using Nat.strong_induction_on generalizing l pos C with
  | _ len ih =>
    by_cases h : len ≤ 1
    · rwa [oheGates_leaf _ h]
    · rw [oheGates, dif_neg h]
      have hlow := ih ((len+1)/2) (by omega) pos hC.succ
      exact fullFrom_addGate (ih (len - (len+1)/2) (by omega) (pos + (len+1)/2) hlow) _

/-- In the circuit `D`, the source `src` shows the `len` bits of `f` to layer `l` and above,
followed by zeros up to the next whole byte. -/
def Shows (D : Circuit Bits) (l : ℕ) (src : Source Bits) (len : ℕ) (f : Bits) : Prop :=
  match src with
  | .input len' s => len' = len ∧ ∀ k, s k = (decide (k < len) && f k)
  | .takeZ t => ∃ pre g post, D.layer l = pre ++ g :: post ∧ t = gateTicket l (layerBytes pre) g.size ∧
      g.size = len ∧ ∀ p < len, D.evalFrom l (8*layerBytes pre + p) = f p

theorem Shows.bits {D : Circuit Bits} {l len : ℕ} {src : Source Bits} {f : Bits}
    (h : D.Shows l src len f) {p : ℕ} (hp : p < len) : src.bits (D.evalFrom l) p = f p := by
  cases src with
  | input len' s =>
    rw [Source.bits, h.2, decide_eq_true hp, Bool.true_and]
  | takeZ t =>
    obtain ⟨pre, g, post, -, rfl, -, hval⟩ := h
    rw [← hval p hp, Source.bits, gateTicket, Nat.mul_comm]

theorem Shows.len_eq {D : Circuit Bits} {l len : ℕ} {src : Source Bits} {f : Bits}
    (h : D.Shows l src len f) : src.len = len := by
  cases src with
  | input len' s => exact h.1
  | takeZ t =>
    obtain ⟨pre, g, post, -, rfl, hsize, -⟩ := h
    exact (Nat.add_sub_cancel_left _ _).trans hsize

theorem Shows.valid {D : Circuit Bits} {l len : ℕ} {src : Source Bits} {f : Bits}
    (h : D.Shows l src len f) (hlen : 0 < len) : src.Valid l (layerBytes (D.layer l)) := by
  cases src with
  | input len' s => trivial
  | takeZ t =>
    obtain ⟨pre, g, post, hlayer, rfl, hsize, -⟩ := h
    refine ⟨rfl, Nat.mul_mod_left _ _, Nat.lt_add_of_pos_right (hsize ▸ hlen), ?_⟩
    simp only [hlayer, layerBytes_append, layerBytes_cons, gateTicket, BitArray.divCeil_eight]
    omega

/-- The encoding of single bits of `idx`. -/
def EncodesBits (leaf : ℕ → Bits) (idx : ℕ) : Prop :=
  ∀ pos k, leaf pos k = (decide (k < 2) && decide (k = (idx >>> pos) % 2))

/-- The low and the high part of an index select the position that the whole index selects. -/
theorem split_index (v k low high : ℕ) :
    (k % 2^low = v % 2^low ∧ k / 2^low = (v >>> low) % 2^high) ↔ k = v % 2^(low+high) := by
  rw [Nat.shiftRight_eq_div_pow, pow_add, Nat.mod_mul]
  constructor
  · rintro ⟨hmod, hdiv⟩
    rw [← hmod, ← hdiv, Nat.mod_add_div]
  · rintro rfl
    have hpos := Nat.two_pow_pos low
    have hlt := Nat.mod_lt v hpos
    rw [Nat.add_mul_mod_self_left, Nat.mod_mod, Nat.add_mul_div_left _ _ hpos,
      Nat.div_eq_of_lt hlt, Nat.zero_add]
    exact ⟨rfl, rfl⟩

/-- The vector is one-hot at the value of the index bits, in every continuation of its circuit. -/
theorem oheGates_shows {leaf : ℕ → Bits} {idx : ℕ} (hleaf : EncodesBits leaf idx) (l pos : ℕ) {len : ℕ}
    (hlen : 1 ≤ len) (C D : Circuit Bits) (hD : Extends D (oheGates leaf l pos len C).2) :
    D.Shows l (oheGates leaf l pos len C).1 (2^len) fun k => decide (k = (idx >>> pos) % 2^len) := by
  induction len using Nat.strong_induction_on generalizing l pos C with
  | _ len ih =>
    by_cases h : len ≤ 1
    · obtain rfl : len = 1 := by omega
      rw [oheGates_leaf _ h]
      exact ⟨rfl, fun k => by rw [hleaf pos k, pow_one]⟩
    · rw [oheGates, dif_neg h] at hD ⊢
      simp only at hD ⊢
      have hDhigh := hD.trans (extends_addGate _ _ _)
      have hDlow := hDhigh.trans (oheGates_extends leaf (l+1) (pos + (len+1)/2) (len - (len+1)/2)
        (oheGates leaf (l+1) pos ((len+1)/2) C).2)
      have hhigh := ih (len - (len+1)/2) (by omega) (l+1) (pos + (len+1)/2) (by omega)
        (oheGates leaf (l+1) pos ((len+1)/2) C).2 hDhigh
      have hlow := ih ((len+1)/2) (by omega) (l+1) pos (by omega) C hDlow
      obtain ⟨hlowLen, -⟩ := oheGates_source leaf (l+1) pos (show 1 ≤ (len+1)/2 by omega) C
      obtain ⟨post, hpost⟩ := hD l
      rw [layer_addGate, if_pos rfl, List.append_assoc, List.singleton_append] at hpost
      refine ⟨_, _, post, hpost.symm, rfl, rfl, fun p hp => ?_⟩
      have hp' : p < 2^((len+1)/2) * 2^(len - (len+1)/2) := by
        rw [← pow_add]
        exact hp.trans_le (Nat.pow_le_pow_right (by decide) (by omega))
      have hlt : p % 2^((len+1)/2) < 2^((len+1)/2) := Nat.mod_lt _ (Nat.two_pow_pos _)
      have hdiv : p / 2^((len+1)/2) < 2^(len - (len+1)/2) := Nat.div_lt_of_lt_mul hp'
      have hx : Feed.bits (D.evalFrom (l+1))
          ⟨.replicate (2^(len - (len+1)/2)), (oheGates leaf (l+1) pos ((len+1)/2) C).1⟩ p =
          decide (p % 2^((len+1)/2) = (idx >>> pos) % 2^((len+1)/2)) := by
        rw [Feed.bits, Spread.pos, hlowLen]
        exact hlow.bits hlt
      have hy : Feed.bits (D.evalFrom (l+1)) ⟨.expand (2^((len+1)/2)),
          (oheGates leaf (l+1) (pos + (len+1)/2) (len - (len+1)/2)
            (oheGates leaf (l+1) pos ((len+1)/2) C).2).1⟩ p =
          decide (p / 2^((len+1)/2) = (idx >>> (pos + (len+1)/2)) % 2^(len - (len+1)/2)) := by
        rw [Feed.bits, Spread.pos]
        exact hhigh.bits hdiv
      rw [evalFrom_gate hpost.symm hp, oheGate_x, oheGate_y, hx, hy, ← Bool.decide_and, decide_eq_decide,
        Nat.shiftRight_add, split_index]
      have hsum : (len+1)/2 + (len - (len+1)/2) = len := by omega
      rw [hsum]

end Circuit

/-- What is asked of the engine: a conjunction, or the one-hot vector of an index. -/
inductive Request (S : Type) : Type
  | and (bitSize : ℕ) (x y : S)
  | ohe (bitLen : ℕ) (leaf : ℕ → S)

namespace Request

def map (φ : S → T) : Request S → Request T
  | and bitSize x y => and bitSize (φ x) (φ y)
  | ohe bitLen leaf => ohe bitLen fun p => φ (leaf p)

/-- The number of bits of the result. -/
def size : Request S → ℕ
  | and bitSize _ _ => bitSize
  | ohe bitLen _ => 2^bitLen

/-- The bytes of Beaver triples that a request uses up. -/
def bytes : Request S → ℕ
  | and bitSize _ _ => divCeil bitSize 8
  | ohe bitLen _ => Circuit.oheBytes bitLen

/-- Requests that the engine does not reject. -/
def Valid : Request S → Prop
  | and bitSize _ _ => 0 < bitSize
  | ohe bitLen _ => 1 ≤ bitLen

theorem Valid.map {r : Request S} (h : r.Valid) (φ : S → T) : (r.map φ).Valid := by cases r <;> exact h

/-- The requested bits, `leaf` being an encoding of the index `idx`. -/
inductive Asks : Request Bits → Bits → Prop
  | and (bitSize : ℕ) (x y : Bits) : Asks (.and bitSize x y) fun k => x k && y k
  | ohe (bitLen : ℕ) (leaf : ℕ → Bits) (idx : ℕ) (h : Circuit.EncodesBits leaf idx) :
      Asks (.ohe bitLen leaf) fun k => decide (k = idx % 2^bitLen)

/-- Extend a circuit by one request. -/
def build (C : Circuit S) : Request S → Source S × Circuit S
  | and bitSize x y =>
    (.takeZ (gateTicket 0 (layerBytes (C.layer 0)) bitSize),
      C.addGate 0 ⟨bitSize, fun b => ⟨.copy, .input bitSize (if b then y else x)⟩⟩)
  | ohe bitLen leaf => C.oheGates leaf 0 0 bitLen

def buildAll (C : Circuit S) : List (Request S) → List (Source S) × Circuit S
  | [] => ([], C)
  | r :: rs => ((build C r).1 :: (buildAll (build C r).2 rs).1, (buildAll (build C r).2 rs).2)

theorem build_map (φ : S → T) (C : Circuit S) (r : Request S) :
    build (C.map φ) (r.map φ) = ((build C r).1.map φ, (build C r).2.map φ) := by
  cases r with
  | and bitSize x y =>
    simp only [build, map, Circuit.layerBytes_layer_map, Circuit.map_addGate, Source.map]
    congr 2
    rw [Gate.map]
    congr 1
    funext b
    cases b <;> rfl
  | ohe bitLen leaf => exact Circuit.oheGates_map leaf φ 0 0 bitLen C

theorem buildAll_map (φ : S → T) (C : Circuit S) (rs : List (Request S)) :
    buildAll (C.map φ) (rs.map (Request.map φ)) =
      ((buildAll C rs).1.map (Source.map φ), (buildAll C rs).2.map φ) := by
  induction rs generalizing C with
  | nil => rfl
  | cons r rs ih => rw [List.map_cons, buildAll, build_map, ih]; rfl

theorem totalBytes_build (C : Circuit S) (r : Request S) :
    (build C r).2.totalBytes = C.totalBytes + r.bytes := by
  cases r with
  | and bitSize x y => exact C.totalBytes_addGate 0 _
  | ohe bitLen leaf => exact Circuit.totalBytes_oheGates leaf 0 0 bitLen C

theorem totalBytes_buildAll (C : Circuit S) (rs : List (Request S)) :
    (buildAll C rs).2.totalBytes = C.totalBytes + (rs.map bytes).sum := by
  induction rs generalizing C with
  | nil => rfl
  | cons r rs ih => rw [buildAll, ih, totalBytes_build, List.map_cons, List.sum_cons, Nat.add_assoc]

theorem build_extends (C : Circuit S) (r : Request S) : (build C r).2.Extends C := by
  cases r with
  | and bitSize x y => exact C.extends_addGate 0 _
  | ohe bitLen leaf => exact Circuit.oheGates_extends leaf 0 0 bitLen C

theorem buildAll_extends (C : Circuit S) (rs : List (Request S)) : (buildAll C rs).2.Extends C := by
  induction rs generalizing C with
  | nil => exact Circuit.Extends.refl C
  | cons r rs ih => exact (ih _).trans (build_extends C r)

theorem closed_build {C : Circuit S} (hC : C.Closed) {r : Request S} (hr : r.Valid) :
    (build C r).2.Closed := by
  cases r with
  | and bitSize x y => exact hC.addGate ⟨hr, fun _ => ⟨trivial, rfl⟩⟩
  | ohe bitLen leaf => exact Circuit.closed_oheGates leaf 0 0 hr hC

theorem closed_buildAll {C : Circuit S} (hC : C.Closed) {rs : List (Request S)}
    (hrs : ∀ r ∈ rs, r.Valid) : (buildAll C rs).2.Closed := by
  induction rs generalizing C with
  | nil => exact hC
  | cons r rs ih =>
    exact ih (closed_build hC (hrs r (by simp))) fun r' hr' => hrs r' (by simp [hr'])

theorem full_build {C : Circuit S} (hC : C.FullFrom 0) (r : Request S) : (build C r).2.FullFrom 0 := by
  cases r with
  | and bitSize x y => exact Circuit.fullFrom_addGate hC.succ _
  | ohe bitLen leaf => exact Circuit.fullFrom_oheGates leaf 0 bitLen hC

theorem full_buildAll {C : Circuit S} (hC : C.FullFrom 0) (rs : List (Request S)) :
    (buildAll C rs).2.FullFrom 0 := by
  induction rs generalizing C with
  | nil => exact hC
  | cons r rs ih => exact ih (full_build hC r)

theorem build_shows {C D : Circuit Bits} {r : Request Bits} {f : Bits} (hr : r.Valid) (hf : r.Asks f)
    (hD : D.Extends (build C r).2) : D.Shows 0 (build C r).1 r.size f := by
  cases hf with
  | and bitSize x y =>
    obtain ⟨post, hpost⟩ := hD 0
    simp only [build, Circuit.layer_addGate, if_true, List.append_assoc, List.singleton_append] at hpost
    refine ⟨_, _, post, hpost.symm, rfl, rfl, fun p hp => ?_⟩
    rw [Circuit.evalFrom_gate hpost.symm hp]
    rfl
  | ohe bitLen leaf idx h => exact Circuit.oheGates_shows h 0 0 hr C D hD

/-- Every result is what its request asks for, whatever was requested before or after it. -/
theorem buildAll_shows (C : Circuit Bits) {rs : List (Request Bits)} {fs : List Bits}
    (hrs : ∀ r ∈ rs, r.Valid) (hfs : List.Forall₂ Asks rs fs) {D : Circuit Bits}
    (hD : D.Extends (buildAll C rs).2) :
    List.Forall₂ (fun rf src => D.Shows 0 src rf.1.size rf.2) (rs.zip fs) (buildAll C rs).1 := by
  induction hfs generalizing C with
  | nil => exact .nil
  | @cons r f rs fs hask _ ih =>
    refine .cons (build_shows (hrs r (by simp)) hask (hD.trans (buildAll_extends _ rs))) ?_
    exact ih (build C r).2 (fun r hr => hrs r (by simp [hr])) hD

end Request
end PrivRecCert.Prc
