import PrivRecCert.SimdArray.Alike
import PrivRecCert.Prc.Isolation

/-! Requests of one shape. Requests whose inputs agree in size build layers that agree in everything but
the contents of these inputs. -/
namespace PrivRecCert.Prc
open CorRnd SimdArray

inductive LayerSource.Alike : LayerSource → LayerSource → Prop
  | input {a b : BitArray} (h : a.Alike b) : Alike (.input a) (.input b)
  | takeZ (ticket : Ticket) : Alike (.takeZ ticket) (.takeZ ticket)

structure MpcOperation.Alike (op op' : MpcOperation) : Prop where
  spread_eq : op.spread = op'.spread
  out_eq : op.out = op'.out
  inp : op.inp.Alike op'.inp

/-- Layers before their run: all that is read of them then, up to the contents of the inputs. -/
structure Layer.Alike (L L' : Layer) : Prop where
  partyConst_eq : L.partyConst = L'.partyConst
  layerNum_eq : L.layerNum = L'.layerNum
  currentSize_eq : L.currentSize = L'.currentSize
  state_eq : L.state = L'.state
  operations : List.Forall₂ MpcOperation.Alike L.operations L'.operations

structure MpcProvider.Alike (p p' : MpcProvider) : Prop where
  partyConst_eq : p.partyConst = p'.partyConst
  layers : List.Forall₂ Layer.Alike p.layers p'.layers

inductive Call.Alike : Call → Call → Prop
  | and (bitSize : ℕ) {a a' b b' : LayerSource} (ha : a.Alike a') (hb : b.Alike b') :
      Alike (.and bitSize a b) (.and bitSize a' b')
  | oheVec {v v' : BooleanValue} (h : v.bitLen = v'.bitLen) : Alike (.oheVec v) (.oheVec v')

theorem MpcOperation.Alike.of_spread {inp inp' : LayerSource} (h : inp.Alike inp') (sp : Spread) (out : LayerDest) :
    (sp.op inp out).Alike (sp.op inp' out) :=
  ⟨by simp, by simp, by simpa using h⟩

theorem forall₂_set {A B : Type} {R : A → B → Prop} {l : List A} {l' : List B} (h : List.Forall₂ R l l') {a : A} {b : B}
    (hab : R a b) (i : ℕ) : List.Forall₂ R (l.set i a) (l'.set i b) := by
  induction h generalizing i with
  | nil => exact .nil
  | cons hx hrest ih =>
    cases i with
    | zero => exact .cons hab hrest
    | succ i => exact .cons hx (ih i)

theorem forall₂_getElem? {A B : Type} {R : A → B → Prop} {l : List A} {l' : List B} (h : List.Forall₂ R l l') {i : ℕ}
    {a : A} (ha : l[i]? = some a) : ∃ b, l'[i]? = some b ∧ R a b := by
  induction h generalizing i with
  | nil => exact nomatch ha
  | cons hx _ ih =>
    cases i with
    | zero =>
      obtain rfl := Option.some.inj ha
      exact ⟨_, rfl, hx⟩
    | succ i => exact ih ha

namespace Layer
variable {L L' K : Layer}

theorem requestTicket_alike (hL : L.Alike L') {bitSize : ℕ} {t : Ticket} (h : L.requestTicket bitSize = some (t, K)) :
    ∃ K', L'.requestTicket bitSize = some (t, K') ∧ K.Alike K' := by
  obtain ⟨hstate, rfl, rfl⟩ := requestTicket_inv h
  refine ⟨{ L' with currentSize := L'.currentSize + divCeil bitSize 8 }, ?_, hL.partyConst_eq, hL.layerNum_eq, ?_,
    hL.state_eq, hL.operations⟩
  · rw [requestTicket, if_pos (hL.state_eq ▸ hstate), ← hL.layerNum_eq, ← hL.currentSize_eq]
    rfl
  · exact congrArg (· + divCeil bitSize 8) hL.currentSize_eq

theorem addOperation_alike (hL : L.Alike L') {op op' : MpcOperation} (hop : op.Alike op')
    (h : L.addOperation op = some K) : ∃ K', L'.addOperation op' = some K' ∧ K.Alike K' := by
  obtain ⟨hstate, rfl⟩ := addOperation_inv h
  exact ⟨_, if_pos (hL.state_eq ▸ hstate), hL.partyConst_eq, hL.layerNum_eq, hL.currentSize_eq, hL.state_eq,
    List.rel_append hL.operations (.cons hop .nil)⟩

/-- A gate over sources of the same sizes. -/
theorem gate_alike {L₁ L₂ L₃ : Layer} (hL : L.Alike L') {bitSize : ℕ} {t : Ticket} {a a' b b' : LayerSource}
    (sp sp' : Spread) (ha : a.Alike a') (hb : b.Alike b') (h₁ : L.requestTicket bitSize = some (t, L₁))
    (h₂ : L₁.addOperation (sp.op a (.relay t 0)) = some L₂) (h₃ : L₂.addOperation (sp'.op b (.relay t 1)) = some L₃) :
    ∃ K₁ K₂ K₃, L'.requestTicket bitSize = some (t, K₁) ∧ K₁.addOperation (sp.op a' (.relay t 0)) = some K₂ ∧
      K₂.addOperation (sp'.op b' (.relay t 1)) = some K₃ ∧ L₃.Alike K₃ := by
  obtain ⟨K₁, hK₁, hA₁⟩ := requestTicket_alike hL h₁
  obtain ⟨K₂, hK₂, hA₂⟩ := addOperation_alike hA₁ (.of_spread ha sp _) h₂
  obtain ⟨K₃, hK₃, hA₃⟩ := addOperation_alike hA₂ (.of_spread hb sp' _) h₃
  exact ⟨K₁, K₂, K₃, hK₁, hK₂, hK₃, hA₃⟩

end Layer

namespace MpcProvider
variable {p p' q : MpcProvider} {src : LayerSource}

theorem ensureLayer_alike (hp : p.Alike p') (l : ℕ) : (p.ensureLayer l).Alike (p'.ensureLayer l) := by
  have hlen := hp.layers.length_eq
  rw [ensureLayer_eq, ensureLayer_eq, ← hlen, ← hp.partyConst_eq]
  refine ⟨rfl, List.rel_append hp.layers (List.forall₂_same.mpr fun L hL => ?_)⟩
  obtain ⟨j, -, rfl⟩ := List.mem_map.mp hL
  exact ⟨rfl, rfl, rfl, rfl, .nil⟩

theorem getLayer_alike (hp : p.Alike p') {l : ℕ} {L : Layer} {write : Layer → MpcProvider}
    (h : p.getLayer l = some (L, write)) : ∃ L' write', p'.getLayer l = some (L', write') ∧ L.Alike L' ∧
      ∀ K K', Layer.Alike K K' → (write K).Alike (write' K') := by
  obtain ⟨L₀, hL₀, h⟩ := Option.bind_eq_some_iff.mp h
  obtain ⟨rfl, rfl⟩ := Prod.mk.inj (Option.some.inj h)
  have hens := ensureLayer_alike hp l
  obtain ⟨L', hL', hA⟩ := forall₂_getElem? hens.layers hL₀
  refine ⟨L', fun L => { p'.ensureLayer l with layers := (p'.ensureLayer l).layers.set l L }, ?_, hA, fun K K' hK =>
    ⟨hens.partyConst_eq, forall₂_set hens.layers hK l⟩⟩
  rw [getLayer, hL']
  rfl

theorem and_alike (hp : p.Alike p') {bitSize : ℕ} {a a' b b' : LayerSource} (ha : a.Alike a') (hb : b.Alike b')
    (h : p.and bitSize a b = some (src, q)) :
    ∃ src' q', p'.and bitSize a' b' = some (src', q') ∧ src.Alike src' ∧ q.Alike q' := by
  rw [MpcProvider.and] at h ⊢
  split_ifs at h ⊢
  simp only [Option.bind_eq_bind, Option.bind_eq_some_iff] at h
  obtain ⟨⟨L, write⟩, hget, ⟨t, L₁⟩, h₁, L₂, h₂, L₃, h₃, h⟩ := h
  obtain ⟨rfl, rfl⟩ := Prod.mk.inj (Option.some.inj h)
  obtain ⟨L', write', hget', hL, hwrite⟩ := getLayer_alike hp hget
  obtain ⟨K₁, K₂, K₃, hK₁, hK₂, hK₃, hA⟩ := Layer.gate_alike hL .copy .copy ha hb h₁ h₂ h₃
  simp only [Spread.op] at hK₂ hK₃
  exact ⟨.takeZ t, write' K₃, by simp only [hget', hK₁, hK₂, hK₃, Option.bind_eq_bind, Option.bind_some], .takeZ t,
    hwrite _ _ hA⟩

/-- The encoding of a single bit has two bits, whatever they are. -/
theorem leaf_alike (b b' : Bool) : ∃ x y z, BitArray.new 2 = some x ∧ x.setBit 0 b = some y ∧
    y.setBit 1 b' = some z ∧ z.WF ∧ z.bitSize = 2 := by
  obtain ⟨x, hx, hxr⟩ := BitArray.new_eq (s := 2) (by omega)
  obtain ⟨y, hy, hyr⟩ := BitArray.setBit_eq hxr (k := 0) (by omega) b
  obtain ⟨z, hz, hzr⟩ := BitArray.setBit_eq hyr (k := 1) (by omega) b'
  exact ⟨x, y, z, hx, hy, hz, hzr.toWF, hzr.bitSize_eq⟩

theorem recursiveOheVec_alike (hp : p.Alike p') {l len : ℕ} {v : U32} (h : p.recursiveOheVec l len v = some (src, q))
    (v' : U32) : ∃ src' q', p'.recursiveOheVec l len v' = some (src', q') ∧ src.Alike src' ∧ q.Alike q' := by
  induction len using Nat.strong_induction_on generalizing p p' q l v v' src with
  | _ len ih =>
    rw [recursiveOheVec] at h ⊢
    split_ifs at h ⊢ with h0 h1
    · obtain ⟨x, y, z, hx, hy, hz, hwf, hsize⟩ := leaf_alike ((v != 0) ^^ p.partyConst) (v != 0)
      obtain ⟨x', y', z', hx', hy', hz', hwf', hsize'⟩ := leaf_alike ((v' != 0) ^^ p'.partyConst) (v' != 0)
      simp only [hx, hy, hz, Option.bind_eq_bind, Option.bind_some] at h
      obtain ⟨rfl, rfl⟩ := Prod.mk.inj (Option.some.inj h)
      exact ⟨.input z', p', by simp only [hx', hy', hz', Option.bind_eq_bind, Option.bind_some],
        .input ⟨hwf, hwf', hsize.trans hsize'.symm⟩, hp⟩
    · simp only [Option.bind_eq_bind, Option.bind_eq_some_iff] at h
      obtain ⟨⟨low, p₁⟩, hlow, ⟨high, p₂⟩, hhigh, ⟨L, write⟩, hget, ⟨t, L₁⟩, h₁, L₂, h₂, L₃, h₃, h⟩ := h
      obtain ⟨rfl, rfl⟩ := Prod.mk.inj (Option.some.inj h)
      obtain ⟨low', p₁', hlow', hlowA, hp₁⟩ := ih _ (by omega) hp hlow (v' &&& ((1#32 <<< ((len+1)/2)) - 1))
      obtain ⟨high', p₂', hhigh', hhighA, hp₂⟩ := ih _ (by omega) hp₁ hhigh (v' >>> ((len+1)/2))
      obtain ⟨L', write', hget', hL, hwrite⟩ := getLayer_alike hp₂ hget
      obtain ⟨K₁, K₂, K₃, hK₁, hK₂, hK₃, hA⟩ := Layer.gate_alike hL (.replicate _) (.expand _) hlowA hhighA h₁ h₂ h₃
      simp only [Spread.op] at hK₂ hK₃
      exact ⟨.takeZ t, write' K₃, by simp only [hlow', hhigh', hget', hK₁, hK₂, hK₃, Option.bind_eq_bind, Option.bind_some],
        .takeZ t, hwrite _ _ hA⟩

theorem call_alike (hp : p.Alike p') {c c' : Call} (hc : c.Alike c') (h : p.call c = some (src, q)) :
    ∃ src' q', p'.call c' = some (src', q') ∧ src.Alike src' ∧ q.Alike q' := by
  cases hc with
  | and bitSize ha hb => exact and_alike hp ha hb h
  | @oheVec v v' hlen =>
    rw [call, oheVec] at h ⊢
    rw [hlen] at h
    exact recursiveOheVec_alike hp h _

/-- Requests of one shape are accepted together, and build layers of one shape. -/
theorem issue_alike (hp : p.Alike p') {calls calls' : List Call} (hcalls : List.Forall₂ Call.Alike calls calls')
    {srcs : List LayerSource} (h : p.issue calls = some (srcs, q)) :
    ∃ srcs' q', p'.issue calls' = some (srcs', q') ∧ q.Alike q' := by
  induction hcalls generalizing p p' srcs with
  | nil =>
    obtain ⟨-, rfl⟩ := Prod.mk.inj (Option.some.inj h)
    exact ⟨[], p', rfl, hp⟩
  | cons hc _ ih =>
    simp only [issue, Option.bind_eq_bind, Option.bind_eq_some_iff] at h
    obtain ⟨⟨src, p₁⟩, hcall, ⟨srcs₁, p₂⟩, hrest, h⟩ := h
    obtain ⟨-, rfl⟩ := Prod.mk.inj (Option.some.inj h)
    obtain ⟨src', p₁', hcall', -, hp₁⟩ := call_alike hp hc hcall
    obtain ⟨srcs', q', hrest', hq⟩ := ih hp₁ hrest
    exact ⟨src' :: srcs', q', by simp only [issue, hcall', hrest', Option.bind_eq_bind, Option.bind_some], hq⟩

end MpcProvider
end PrivRecCert.Prc
