import PrivRecCert.Prc.Mpc
import PrivRecCert.Prc.LayerSpec
import PrivRecCert.Prc.OneHot
import PrivRecCert.Prc.Util

/-! The requests of one party build the layers of the abstract circuit. -/
namespace PrivRecCert.Prc
open CorRnd SimdArray Circuit

/-- One request to the engine. -/
inductive Call : Type
  | and (bitSize : ℕ) (a b : LayerSource)
  | oheVec (idxBshared : BooleanValue)

namespace MpcProvider

def call (p : MpcProvider) : Call → Option (LayerSource × MpcProvider)
  | .and bitSize a b => p.and bitSize a b
  | .oheVec idxBshared => p.oheVec idxBshared

/-- Requests issued one after the other, and the sources they return. -/
def issue (p : MpcProvider) : List Call → Option (List LayerSource × MpcProvider)
  | [] => some ([], p)
  | c :: cs => do
    let (src, p) ← p.call c
    let (srcs, p) ← p.issue cs
    some (src :: srcs, p)

/-- The provider has the layers of the circuit `C`, ready for a run. -/
structure Built (p : MpcProvider) (C : Circuit Bits) : Prop where
  length_eq : p.layers.length = C.length
  layers : ∀ l (L : Layer), p.layers[l]? = some L → L.Ticketed p.partyConst l (C.layer l)

/-- Nothing but the layers has changed. -/
def SameBase (p p' : MpcProvider) : Prop := p' = { p with layers := p'.layers }

theorem SameBase.trans {p q r : MpcProvider} (h : SameBase p q) (h' : SameBase q r) : SameBase p r := by
  rw [SameBase] at *
  rw [h', h]

theorem SameBase.partyConst {p q : MpcProvider} (h : SameBase p q) : q.partyConst = p.partyConst := by
  rw [h]

theorem Built.nil {p : MpcProvider} (h : p.layers = []) : p.Built [] := by
  refine ⟨by simp [h], fun l L hl => ?_⟩
  rw [h] at hl
  cases hl

/-- Missing layers are created empty, which adds nothing to the circuit. -/
theorem ensureLayer_eq (p : MpcProvider) (layerId : ℕ) : p.ensureLayer layerId =
    { p with layers := p.layers ++ (List.range (layerId+1-p.layers.length)).map fun j =>
      Layer.new p.partyConst (p.layers.length + j) } := by
  rw [ensureLayer]
  induction layerId+1-p.layers.length with
  | zero => simp
  | succ k ih =>
    rw [List.range_succ, List.foldl_append, ih]
    simp [createNewLayer, Nat.add_comm]

/-- The layers after one of them is replaced: what holds of each layer, a new one included, still holds
of the others. -/
theorem getLayer_layers (p : MpcProvider) (l : ℕ) {Q : ℕ → Layer → Prop}
    (hnew : ∀ j, p.layers.length ≤ j → Q j (Layer.new p.partyConst j)) (hp : ∀ j L, p.layers[j]? = some L → Q j L) :
    ∃ L write, p.getLayer l = some (L, write) ∧ Q l L ∧ ∀ L', SameBase p (write L') ∧
      (write L').layers.length = max p.layers.length (l+1) ∧ ∀ Q' : ℕ → Layer → Prop, Q' l L' →
        (∀ j K, j ≠ l → Q j K → Q' j K) → ∀ j K, (write L').layers[j]? = some K → Q' j K := by
  have hall : ∀ j L, (p.ensureLayer l).layers[j]? = some L → Q j L := by
    intro j L hj
    rw [ensureLayer_eq] at hj
    by_cases hlt : j < p.layers.length
    · exact hp j L (by rwa [List.getElem?_append_left hlt] at hj)
    · rw [List.getElem?_append_right (by omega), List.getElem?_map] at hj
      obtain ⟨i, hi, rfl⟩ := Option.map_eq_some_iff.mp hj
      obtain ⟨hlt', hij⟩ := List.getElem?_eq_some_iff.mp hi
      rw [List.getElem_range] at hij
      have hnum : p.layers.length + i = j := by omega
      rw [hnum]
      exact hnew j (by omega)
  have hlen : (p.ensureLayer l).layers.length = max p.layers.length (l+1) := by
    rw [ensureLayer_eq]
    simp only [List.length_append, List.length_map, List.length_range]
    omega
  have hlt : l < (p.ensureLayer l).layers.length := by omega
  have hbase : SameBase p (p.ensureLayer l) := by rw [SameBase, ensureLayer_eq]
  refine ⟨(p.ensureLayer l).layers[l], fun L => { p.ensureLayer l with
    layers := (p.ensureLayer l).layers.set l L }, ?_, hall l _ (List.getElem?_eq_getElem hlt), fun L' =>
    ⟨?_, ?_, fun Q' hl hQ j K hj => ?_⟩⟩
  · simp [getLayer, List.getElem?_eq_getElem hlt]
  · rw [SameBase] at hbase ⊢
    rw [hbase]
  · rw [List.length_set, hlen]
  · by_cases hjl : j = l
    · subst hjl
      rw [List.getElem?_set_self hlt] at hj
      rwa [← Option.some.inj hj]
    · rw [List.getElem?_set_ne (Ne.symm hjl)] at hj
      exact hQ j K hjl (hall j K hj)

theorem getLayer_eq {p : MpcProvider} {C : Circuit Bits} (hp : p.Built C) (l : ℕ) :
    ∃ L write, p.getLayer l = some (L, write) ∧ L.Ticketed p.partyConst l (C.layer l) ∧
      ∀ L' g, Layer.Ticketed L' p.partyConst l (C.layer l ++ [g]) →
        (write L').Built (C.addGate l g) ∧ SameBase p (write L') := by
  have hnew : ∀ j, p.layers.length ≤ j → (Layer.new p.partyConst j).Ticketed p.partyConst j (C.layer j) := by
    intro j hj
    rw [layer_of_le (by rwa [← hp.length_eq])]
    exact ⟨rfl, rfl, rfl, rfl, .nil 0⟩
  obtain ⟨L, write, hget, hL, hwrite⟩ := getLayer_layers p l (Q := fun j L => L.Ticketed p.partyConst j (C.layer j))
    hnew hp.layers
  refine ⟨L, write, hget, hL, fun L' g hL' => ?_⟩
  obtain ⟨hbase, hlen, hlayers⟩ := hwrite L'
  refine ⟨⟨by rw [length_addGate, hlen, hp.length_eq], ?_⟩, hbase⟩
  rw [hbase.partyConst]
  refine hlayers _ ?_ fun j K hj hK => ?_
  · rwa [layer_addGate, if_pos rfl]
  · rwa [layer_addGate, if_neg hj]

/-- A ticket and the two operations of a gate extend a layer by this gate. -/
theorem addGate_ticketed {L : Layer} {pc : Bool} {l : ℕ} {gs : List (Gate Bits)} (hL : L.Ticketed pc l gs)
    {g : Gate Bits} {o q : MpcOperation}
    (hx : OpMatches (g.feed false) (.relay (gateTicket l (layerBytes gs) g.size) 0) o)
    (hy : OpMatches (g.feed true) (.relay (gateTicket l (layerBytes gs) g.size) 1) q) :
    ∃ L₁ L₂ L₃, L.requestTicket g.size = some (gateTicket l (layerBytes gs) g.size, L₁) ∧
      L₁.addOperation o = some L₂ ∧ L₂.addOperation q = some L₃ ∧ L₃.Ticketed pc l (gs ++ [g]) := by
  refine ⟨{ L with currentSize := L.currentSize + divCeil g.size 8 }, _, _, ?_, if_pos hL.state_eq,
    if_pos hL.state_eq, hL.partyConst_eq, hL.layerNum_eq, ?_, hL.state_eq, ?_⟩
  · rw [Layer.requestTicket, if_pos hL.state_eq, hL.currentSize_eq, hL.layerNum_eq]
    rfl
  · rw [layerBytes_append, layerBytes_cons, layerBytes_nil, ← hL.currentSize_eq]
    rfl
  · simp only [List.append_assoc, List.singleton_append]
    exact hL.operations.append (by simpa using hx) (by simpa using hy)

/-- The encoding of index bit `pos` at one party: only the constant party negates. -/
def leafBits (partyConst : Bool) (v : U32) (pos k : ℕ) : Bool :=
  if k = 0 then v.getLsbD pos ^^ partyConst else if k = 1 then v.getLsbD pos else false

/-- `sub` consists of the bits `pos, …, pos+len-1` of `v`. -/
def SubIndex (sub v : U32) (pos len : ℕ) : Prop :=
  ∀ j, sub.getLsbD j = (decide (j < len) && v.getLsbD (pos+j))

theorem SubIndex.low {sub v : U32} {pos len split : ℕ} (h : SubIndex sub v pos len) (hs : split ≤ len)
    (h32 : split < 32) : SubIndex (sub &&& ((1#32 <<< split) - 1)) v pos split := by
  intro j
  rw [BitVec.getLsbD_and, getLsbD_lowMask h32, h j]
  by_cases hj : j < split
  · have hlt : j < len := by omega
    simp [hj, hlt]
  · simp [hj]

theorem SubIndex.high {sub v : U32} {pos len split : ℕ} (h : SubIndex sub v pos len) :
    SubIndex (sub >>> split) v (pos+split) (len-split) := by
  intro j
  have hiff : split + j < len ↔ j < len - split := by omega
  rw [BitVec.getLsbD_ushiftRight, h, Nat.add_assoc]
  simp only [hiff]

theorem SubIndex.leaf {sub v : U32} {pos : ℕ} (h : SubIndex sub v pos 1) :
    (sub != 0) = v.getLsbD pos := by
  have h0 : sub.getLsbD 0 = v.getLsbD pos := by simpa using h 0
  cases hv : v.getLsbD pos with
  | true =>
    rw [hv] at h0
    exact bne_iff_ne.mpr fun hz => by simp [hz] at h0
  | false =>
    have hz : sub = 0 := BitVec.eq_of_getLsbD_eq fun j _ => by
      rw [h j]
      by_cases hj : j < 1
      · obtain rfl : j = 0 := by omega
        simp [hv]
      · simp [hj]
    simp [hz]

theorem subIndex_self (v : BooleanValue) : SubIndex v.value v.value 0 v.bitLen := by
  intro j
  rw [Nat.zero_add]
  by_cases hj : j < v.bitLen
  · simp [hj]
  · rw [v.getLsbD_of_le (by omega), Bool.and_false]

/-- The recursion of one party builds the gates of the one-hot vector. -/
theorem recursiveOheVec_eq {p : MpcProvider} {C : Circuit Bits} (hp : p.Built C) {l pos len : ℕ}
    (hlen : 1 ≤ len) (hlen' : len ≤ 32) {sub v : U32} (hsub : SubIndex sub v pos len) :
    ∃ src p', p.recursiveOheVec l len sub = some (src, p') ∧
      p'.Built (oheGates (leafBits p.partyConst v) l pos len C).2 ∧
      SourceMatches (oheGates (leafBits p.partyConst v) l pos len C).1 src ∧ SameBase p p' := by
  induction len using Nat.strong_induction_on generalizing p C l pos sub with
  | _ len ih =>
    by_cases h : len ≤ 1
    · obtain rfl : len = 1 := by omega
      obtain ⟨a, ha, har⟩ := BitArray.new_eq (s := 2) (by omega)
      obtain ⟨b, hb, hbr⟩ := BitArray.setBit_eq har (k := 0) (by omega) ((sub != 0) ^^ p.partyConst)
      obtain ⟨c, hc, hcr⟩ := BitArray.setBit_eq hbr (k := 1) (by omega) (sub != 0)
      rw [oheGates_leaf _ h]
      refine ⟨.input c, p, ?_, hp, hcr.congr fun k => ?_, rfl⟩
      · rw [recursiveOheVec, dif_neg (by omega), dif_pos rfl]
        simp only [ha, hb, hc, Option.bind_eq_bind, Option.bind_some]
      · rw [hsub.leaf, leafBits]
        by_cases h0 : k = 0
        · simp [h0]
        · simp [h0]
    · rw [oheGates, dif_neg h]
      obtain ⟨low, p₁, h₁, hp₁, hlow, hbase₁⟩ := ih ((len+1)/2) (by omega) hp (l := l+1) (by omega)
        (by omega) (hsub.low (by omega) (by omega))
      obtain ⟨high, p₂, h₂, hp₂, hhigh, hbase₂⟩ := ih (len - (len+1)/2) (by omega) hp₁ (l := l+1)
        (by omega) (by omega) hsub.high
      rw [hbase₁.partyConst] at hp₂ hhigh
      obtain ⟨L, write, hget, hL, hwrite⟩ := getLayer_eq hp₂ l
      obtain ⟨L₁, L₂, L₃, hticket, hox, hoy, hL₃⟩ := addGate_ticketed hL
        (g := oheGate len ((len+1)/2) (oheGates (leafBits p.partyConst v) (l+1) pos ((len+1)/2) C).1
          (oheGates (leafBits p.partyConst v) (l+1) (pos + (len+1)/2) (len - (len+1)/2)
            (oheGates (leafBits p.partyConst v) (l+1) pos ((len+1)/2) C).2).1)
        ⟨low, hlow, rfl⟩ ⟨high, hhigh, rfl⟩
      obtain ⟨hbuilt, hbase₃⟩ := hwrite L₃ _ hL₃
      refine ⟨.takeZ _, write L₃, ?_, hbuilt, rfl, hbase₁.trans (hbase₂.trans hbase₃)⟩
      rw [oheGate_size] at hticket hox hoy
      rw [recursiveOheVec, dif_neg (by omega), dif_neg (by omega)]
      simp only [oheGate_x, oheGate_y, Spread.op] at hox hoy
      simp only [h₁, h₂, hget, hticket, hox, hoy, Option.bind_eq_bind, Option.bind_some]

/-- A request of the circuit, as the call of one party. -/
def CallMatches (partyConst : Bool) : Request Bits → Call → Prop
  | .and bitSize x y, .and bitSize' (.input a) (.input b) =>
    bitSize = bitSize' ∧ a.Represents bitSize x ∧ b.Represents bitSize y
  | .ohe bitLen leaf, .oheVec v => bitLen = v.bitLen ∧ leaf = leafBits partyConst v.value
  | _, _ => False

theorem call_eq {p : MpcProvider} {C : Circuit Bits} (hp : p.Built C) {r : Request Bits} {c : Call}
    (hc : CallMatches p.partyConst r c) (hr : r.Valid) : ∃ src p', p.call c = some (src, p') ∧
      p'.Built (r.build C).2 ∧ SourceMatches (r.build C).1 src ∧ SameBase p p' := by
  match r, c, hc with
  | .and bitSize x y, .and _ (.input a) (.input b), hc =>
    obtain ⟨rfl, ha, hb⟩ := hc
    obtain ⟨L, write, hget, hL, hwrite⟩ := getLayer_eq hp 0
    obtain ⟨L₁, L₂, L₃, hticket, hox, hoy, hL₃⟩ := addGate_ticketed hL
      (g := ⟨bitSize, fun q => ⟨.copy, .input bitSize (if q then y else x)⟩⟩)
      (o := .copy (.input a) (.relay (gateTicket 0 (layerBytes (C.layer 0)) bitSize) 0))
      (q := .copy (.input b) (.relay (gateTicket 0 (layerBytes (C.layer 0)) bitSize) 1))
      ⟨.input a, ha, rfl⟩ ⟨.input b, hb, rfl⟩
    obtain ⟨hbuilt, hbase⟩ := hwrite L₃ _ hL₃
    refine ⟨.takeZ _, write L₃, ?_, hbuilt, rfl, hbase⟩
    have hpos : bitSize ≠ 0 := Nat.pos_iff_ne_zero.mp hr
    simp only [call, MpcProvider.and, if_neg hpos, hget, hticket, hox, hoy, Option.bind_eq_bind,
      Option.bind_some]
  | .ohe bitLen leaf, .oheVec v, hc =>
    obtain ⟨rfl, rfl⟩ := hc
    exact recursiveOheVec_eq hp hr v.bitLen_le (subIndex_self v)

/-- The requests of one party, one after the other, build the circuit of all of them. -/
theorem issue_eq {p : MpcProvider} {C : Circuit Bits} (hp : p.Built C) {rs : List (Request Bits)}
    {cs : List Call} (hcs : List.Forall₂ (CallMatches p.partyConst) rs cs) (hrs : ∀ r ∈ rs, r.Valid) :
    ∃ srcs p', p.issue cs = some (srcs, p') ∧ p'.Built (Request.buildAll C rs).2 ∧
      List.Forall₂ SourceMatches (Request.buildAll C rs).1 srcs ∧ SameBase p p' := by
  induction rs generalizing p C cs with
  | nil =>
    cases hcs
    exact ⟨[], p, rfl, hp, .nil, rfl⟩
  | cons r rs ih =>
    rcases hcs with _ | ⟨hc, hcs⟩
    obtain ⟨src, p₁, h₁, hp₁, hsrc, hbase₁⟩ := call_eq hp hc (hrs r (by simp))
    rw [← hbase₁.partyConst] at hcs
    obtain ⟨srcs, p₂, h₂, hp₂, hsrcs, hbase₂⟩ := ih hp₁ hcs fun r' hr' => hrs r' (by simp [hr'])
    refine ⟨src :: srcs, p₂, ?_, hp₂, .cons hsrc hsrcs, hbase₁.trans hbase₂⟩
    simp only [issue, h₁, h₂, Option.bind_eq_bind, Option.bind_some]

end MpcProvider
end PrivRecCert.Prc
