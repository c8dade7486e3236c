import PrivRecCert.Prc.Layer
import PrivRecCert.Bytes.XorBits

/-! Circuits in the abstract: lists of layers of gates over an arbitrary type of inputs. Layer 0
gives the outputs, and a layer may read what the next deeper one computes. The inputs are
the plain bits, one party's shares of them, or the shares of all parties at once. -/
namespace PrivRecCert.Prc
open CorRnd SimdArray
open scoped BigOperators

abbrev Bits := ℕ → Bool

/-- How the bits of a source are laid out in a stream. -/
inductive Spread : Type
  | copy
  | replicate (n : ℕ)
  | expand (n : ℕ)

namespace Spread

/-- The position in a source of `len` bits that position `p` of the stream shows. -/
def pos : Spread → ℕ → ℕ → ℕ
  | copy, _, p => p
  | replicate _, len, p => p % len
  | expand n, _, p => p/n

/-- The number of positions that a source of `len` bits fills. -/
def span : Spread → ℕ → ℕ
  | copy, len => len
  | replicate n, len => n*len
  | expand n, len => len*n

theorem pos_lt (sp : Spread) {w p : ℕ} (h : p < sp.span w) : sp.pos w p < w := by
  cases sp with
  | copy => exact h
  | replicate n =>
    refine Nat.mod_lt _ (Nat.pos_of_ne_zero fun h0 => ?_)
    rw [span, h0, Nat.mul_zero] at h
    exact Nat.not_lt_zero _ h
  | expand n => exact Nat.div_lt_of_lt_mul (Nat.mul_comm w n ▸ h)

end Spread

inductive Source (S : Type) : Type
  | input (len : ℕ) (s : S)
  | takeZ (ticket : Ticket)

structure Feed (S : Type) where
  spread : Spread
  src : Source S

/-- `size` AND gates; `feed false` is the stream `x` and `feed true` the stream `y`. -/
structure Gate (S : Type) where
  size : ℕ
  feed : Bool → Feed S

/-- The layers of a circuit, output layer first. -/
abbrev Circuit (S : Type) := List (List (Gate S))

variable {S T : Type}

def Source.map (φ : S → T) : Source S → Source T
  | input len s => input len (φ s)
  | takeZ ticket => takeZ ticket

def Source.len : Source S → ℕ
  | input len _ => len
  | takeZ ticket => ticket.endBit - ticket.stBit

/-- The bits of a source, given the outputs of the next deeper layer. -/
def Source.bits (z : Bits) : Source Bits → Bits
  | input _ s => s
  | takeZ ticket => fun p => z (ticket.stBit + p)

def Feed.map (φ : S → T) (f : Feed S) : Feed T := ⟨f.spread, f.src.map φ⟩

def Feed.bits (z : Bits) (f : Feed Bits) : Bits := fun p => f.src.bits z (f.spread.pos f.src.len p)

def Gate.map (φ : S → T) (g : Gate S) : Gate T := ⟨g.size, fun y => (g.feed y).map φ⟩

@[simp] theorem Source.len_map (φ : S → T) (src : Source S) : (src.map φ).len = src.len := by
  cases src <;> rfl

@[simp] theorem Gate.size_map (φ : S → T) (g : Gate S) : (g.map φ).size = g.size := rfl

/-- The bytes that the gates of a layer occupy. -/
def layerBytes (gs : List (Gate S)) : ℕ := (gs.map fun g => divCeil g.size 8).sum

@[simp] theorem layerBytes_nil : layerBytes ([] : List (Gate S)) = 0 := rfl
@[simp] theorem layerBytes_cons (g : Gate S) (gs : List (Gate S)) :
    layerBytes (g :: gs) = divCeil g.size 8 + layerBytes gs := by simp [layerBytes]
@[simp] theorem layerBytes_append (gs gs' : List (Gate S)) :
    layerBytes (gs ++ gs') = layerBytes gs + layerBytes gs' := by simp [layerBytes]
@[simp] theorem layerBytes_map (φ : S → T) (gs : List (Gate S)) :
    layerBytes (gs.map (Gate.map φ)) = layerBytes gs := by
  simp [layerBytes, Function.comp_def]

theorem size_le_divCeil (s : ℕ) : s ≤ 8*divCeil s 8 := by rw [BitArray.divCeil_eight]; omega

/-- The stream of a layer whose gates start at byte `st`, over `base` outside of the gates. -/
def stream (y : Bool) (z base : Bits) : ℕ → List (Gate Bits) → ℕ → Bool
  | _, [], k => base k
  | st, g :: gs, k =>
    if 8*st ≤ k ∧ k < 8*st + g.size then (g.feed y).bits z (k - 8*st)
    else stream y z base (st + divCeil g.size 8) gs k

/-- The outputs of the first layer of a circuit. -/
def Circuit.eval : Circuit Bits → Bits
  | [] => fun _ => false
  | gs :: C => fun k => stream false (eval C) (fun _ => false) 0 gs k &&
      stream true (eval C) (fun _ => false) 0 gs k

/-- No stream reaches past the bytes of its layer. -/
theorem stream_of_le (y : Bool) (z base : Bits) (gs : List (Gate Bits)) (st : ℕ) {k : ℕ}
    (hk : 8*(st + layerBytes gs) ≤ k) : stream y z base st gs k = base k := by
  induction gs generalizing st with
  | nil => rfl
  | cons g gs ih =>
    have hg := size_le_divCeil g.size
    rw [layerBytes_cons] at hk
    rw [stream, if_neg (by omega), ih _ (by omega)]

theorem stream_of_lt (y : Bool) (z base : Bits) (gs : List (Gate Bits)) (st : ℕ) {k : ℕ}
    (hk : k < 8*st) : stream y z base st gs k = base k := by
  induction gs generalizing st with
  | nil => rfl
  | cons g gs ih => rw [stream, if_neg (by omega), ih _ (by omega)]

/-- Inside a gate, a stream shows what the gate is fed. -/
theorem stream_gate (y : Bool) (z base : Bits) (pre : List (Gate Bits)) (g : Gate Bits)
    (post : List (Gate Bits)) (st : ℕ) {p : ℕ} (hp : p < g.size) :
    stream y z base st (pre ++ g :: post) (8*(st + layerBytes pre) + p) = (g.feed y).bits z p := by
  induction pre generalizing st with
  | nil =>
    rw [List.nil_append, stream, layerBytes_nil, Nat.add_zero, if_pos (by omega),
      Nat.add_sub_cancel_left]
  | cons g' pre ih =>
    have hg := size_le_divCeil g'.size
    rw [List.cons_append, stream, layerBytes_cons, if_neg (by omega), ← Nat.add_assoc, ih]

/-- Between the last bit of a gate and the next whole byte a stream shows its base. -/
theorem stream_gap (y : Bool) (z base : Bits) (pre : List (Gate Bits)) (g : Gate Bits)
    (post : List (Gate Bits)) (st : ℕ) {p : ℕ} (hp : g.size ≤ p) (hp' : p < 8*divCeil g.size 8) :
    stream y z base st (pre ++ g :: post) (8*(st + layerBytes pre) + p) =
      base (8*(st + layerBytes pre) + p) := by
  induction pre generalizing st with
  | nil =>
    rw [List.nil_append, stream, layerBytes_nil, Nat.add_zero, if_neg (by omega),
      stream_of_lt _ _ _ _ _ (by omega)]
  | cons g' pre ih =>
    have hg := size_le_divCeil g'.size
    rw [List.cons_append, stream, layerBytes_cons, if_neg (by omega), ← Nat.add_assoc, ih]

section Sum
variable {n : ℕ}

/-- The plain bits that the shares of all parties stand for. -/
def plain (f : Fin n → Bits) : Bits := fun k => ∑ i, f i k

theorem Source.bits_plain (src : Source (Fin n → Bits)) (z : Fin n → Bits) (p : ℕ) :
    ∑ i, (src.map (· i)).bits (z i) p = (src.map plain).bits (plain z) p := by
  cases src <;> rfl

theorem Feed.bits_plain (f : Feed (Fin n → Bits)) (z : Fin n → Bits) (p : ℕ) :
    ∑ i, (f.map (· i)).bits (z i) p = (f.map plain).bits (plain z) p := by
  simp only [Feed.bits, Feed.map, Source.len_map]
  exact f.src.bits_plain z _

/-- Routing is linear: the streams of the parties add up to the stream of the plain circuit. -/
theorem stream_plain (y : Bool) (z : Fin n → Bits) (gs : List (Gate (Fin n → Bits))) (st k : ℕ) :
    ∑ i, stream y (z i) (fun _ => false) st (gs.map (Gate.map (· i))) k =
      stream y (plain z) (fun _ => false) st (gs.map (Gate.map plain)) k := by
  induction gs generalizing st with
  | nil => exact Finset.sum_const_zero
  | cons g gs ih =>
    by_cases h : 8*st ≤ k ∧ k < 8*st + g.size
    · calc ∑ i, stream y (z i) (fun _ => false) st ((g :: gs).map (Gate.map (· i))) k
        _ = ∑ i, ((g.feed y).map (· i)).bits (z i) (k - 8*st) :=
          Finset.sum_congr rfl fun i _ => if_pos h
        _ = ((g.feed y).map plain).bits (plain z) (k - 8*st) := Feed.bits_plain _ z _
        _ = _ := (if_pos h).symm
    · calc ∑ i, stream y (z i) (fun _ => false) st ((g :: gs).map (Gate.map (· i))) k
        _ = ∑ i, stream y (z i) (fun _ => false) (st + divCeil g.size 8) (gs.map (Gate.map (· i))) k :=
          Finset.sum_congr rfl fun i _ => if_neg h
        _ = _ := ih _
        _ = _ := (if_neg h).symm

end Sum

/-- The ticket of a gate that starts at byte `st` of layer `l`. -/
def gateTicket (l st size : ℕ) : Ticket := ⟨l, st*8, st*8+size⟩

/-- A source that the layer above `layerNum` can read when that layer occupies `bytes` bytes. -/
def Source.Valid (layerNum bytes : ℕ) : Source S → Prop
  | input _ _ => True
  | takeZ t => t.layerNum = layerNum ∧ t.stBit % 8 = 0 ∧ t.stBit < t.endBit ∧ divCeil t.endBit 8 ≤ bytes

/-- A feed fills the gates it is meant for. -/
def Feed.Valid (layerNum bytes size : ℕ) (f : Feed S) : Prop :=
  f.src.Valid layerNum bytes ∧ f.spread.span f.src.len = size

/-- A gate of a layer above the layer `layerNum` of `bytes` bytes. -/
def Gate.Valid (layerNum bytes : ℕ) (g : Gate S) : Prop :=
  0 < g.size ∧ ∀ y, (g.feed y).Valid layerNum bytes g.size

@[simp] theorem Source.valid_map (φ : S → T) (l b : ℕ) (src : Source S) :
    (src.map φ).Valid l b ↔ src.Valid l b := by cases src <;> rfl

@[simp] theorem Gate.valid_map (φ : S → T) (l b : ℕ) (g : Gate S) :
    (g.map φ).Valid l b ↔ g.Valid l b := by
  simp [Gate.Valid, Gate.map, Feed.Valid, Feed.map]

theorem Source.Valid.mono {src : Source S} {l b b' : ℕ} (h : src.Valid l b) (hb : b ≤ b') :
    src.Valid l b' := by
  cases src with
  | input len s => trivial
  | takeZ t => exact ⟨h.1, h.2.1, h.2.2.1, h.2.2.2.trans hb⟩

theorem Gate.Valid.mono {g : Gate S} {l b b' : ℕ} (h : g.Valid l b) (hb : b ≤ b') : g.Valid l b' :=
  ⟨h.1, fun y => ⟨(h.2 y).1.mono hb, (h.2 y).2⟩⟩

namespace Circuit

def layer (C : Circuit S) (l : ℕ) : List (Gate S) := C.getD l []

/-- Add a gate to a layer, creating the layers before it as needed. -/
def addGate : Circuit S → ℕ → Gate S → Circuit S
  | [], 0, g => [[g]]
  | [], l+1, g => [] :: addGate [] l g
  | gs :: C, 0, g => (gs ++ [g]) :: C
  | gs :: C, l+1, g => gs :: addGate C l g

def map (φ : S → T) (C : Circuit S) : Circuit T := List.map (List.map (Gate.map φ)) C

/-- Every gate reads existing outputs of the next deeper layer. -/
def Closed (C : Circuit S) : Prop :=
  ∀ l, ∀ g ∈ C.layer l, g.Valid (l+1) (layerBytes (C.layer (l+1)))

/-- `D` continues `C`: gates have only been appended to layers. -/
def Extends (D C : Circuit S) : Prop := ∀ l, C.layer l <+: D.layer l

/-- No layer from `l` on is empty. -/
def FullFrom (C : Circuit S) (l : ℕ) : Prop := ∀ j, l ≤ j → j < C.length → C.layer j ≠ []

def totalBytes (C : Circuit S) : ℕ := (List.map layerBytes C).sum

theorem layer_of_le {C : Circuit S} {l : ℕ} (h : C.length ≤ l) : C.layer l = [] :=
  List.getD_eq_default _ _ h

theorem layer_append_left {C : Circuit S} (D : Circuit S) {l : ℕ} (h : l < C.length) :
    layer (C ++ D) l = layer C l := by
  simp [layer, List.getD_eq_getElem?_getD, List.getElem?_append_left h]

theorem layer_append_length (C D : Circuit S) (gs : List (Gate S)) :
    layer (C ++ (gs :: D)) C.length = gs := by
  simp [layer, List.getD_eq_getElem?_getD]

theorem layer_append_succ (C D : Circuit S) (gs : List (Gate S)) :
    layer (C ++ (gs :: D)) (C.length+1) = layer D 0 := by
  simp [layer, List.getD_eq_getElem?_getD, List.getElem?_append_right]

theorem layer_addGate (C : Circuit S) (l j : ℕ) (g : Gate S) :
    (C.addGate l g).layer j = if j = l then C.layer l ++ [g] else C.layer j := by
  induction C, l, g using addGate.induct generalizing j with
  | case1 g => cases j <;> simp [addGate, layer]
  | case2 l g ih =>
    cases j with
    | zero => simp [addGate, layer]
    | succ j => simpa [addGate, layer] using ih j
  | case3 gs C g => cases j <;> simp [addGate, layer]
  | case4 gs C l g ih =>
    cases j with
    | zero => simp [addGate, layer]
    | succ j => simpa [addGate, layer] using ih j

theorem length_addGate (C : Circuit S) (l : ℕ) (g : Gate S) :
    (C.addGate l g).length = max C.length (l+1) := by
  induction C, l, g using addGate.induct with
  | case1 g => rfl
  | case2 l g ih => simp [addGate, ih]
  | case3 gs C g => simp [addGate]
  | case4 gs C l g ih => simp [addGate, ih, Nat.succ_max_succ]

theorem totalBytes_addGate (C : Circuit S) (l : ℕ) (g : Gate S) :
    (C.addGate l g).totalBytes = C.totalBytes + divCeil g.size 8 := by
  induction C, l, g using addGate.induct with
  | case1 g => simp [addGate, totalBytes, layerBytes]
  | case2 l g ih => simpa [addGate, totalBytes] using ih
  | case3 gs C g =>
    simp only [addGate, totalBytes, List.map_cons, List.sum_cons, layerBytes_append, layerBytes_cons,
      layerBytes_nil]
    omega
  | case4 gs C l g ih =>
    simp only [addGate, totalBytes, List.map_cons, List.sum_cons] at ih ⊢
    omega

theorem map_addGate (φ : S → T) (C : Circuit S) (l : ℕ) (g : Gate S) :
    (C.addGate l g).map φ = (C.map φ).addGate l (g.map φ) := by
  induction C, l, g using addGate.induct with
  | case1 g => rfl
  | case2 l g ih => simpa [addGate, map] using ih
  | case3 gs C g => simp [addGate, map]
  | case4 gs C l g ih => simpa [addGate, map] using ih

theorem layer_map (φ : S → T) (C : Circuit S) (l : ℕ) :
    (C.map φ).layer l = (C.layer l).map (Gate.map φ) := by
  by_cases h : l < C.length <;> simp [layer, map, List.getD_eq_getElem?_getD, h]

@[simp] theorem layerBytes_layer_map (φ : S → T) (C : Circuit S) (l : ℕ) :
    layerBytes ((C.map φ).layer l) = layerBytes (C.layer l) := by rw [layer_map, layerBytes_map]

theorem layerBytes_le_totalBytes (C : Circuit S) (l : ℕ) : layerBytes (C.layer l) ≤ C.totalBytes := by
  by_cases h : l < C.length
  · rw [layer, List.getD_eq_getElem _ _ h]
    exact List.single_le_sum (fun _ _ => Nat.zero_le _) _ (List.mem_map_of_mem (List.getElem_mem h))
  · rw [layer_of_le (by omega)]
    exact Nat.zero_le _

theorem closed_nil : Closed ([] : Circuit S) := fun _ _ hg => nomatch hg

theorem Extends.refl (C : Circuit S) : Extends C C := fun _ => List.prefix_rfl

theorem Extends.trans {C D E : Circuit S} (h : Extends E D) (h' : Extends D C) : Extends E C :=
  fun l => (h' l).trans (h l)

theorem extends_addGate (C : Circuit S) (l : ℕ) (g : Gate S) : Extends (C.addGate l g) C := by
  intro j
  rw [layer_addGate]
  split_ifs with h
  · subst h
    exact List.prefix_append _ _
  · exact List.prefix_rfl

theorem Extends.layerBytes_le {C D : Circuit S} (h : Extends D C) (l : ℕ) :
    layerBytes (C.layer l) ≤ layerBytes (D.layer l) := by
  obtain ⟨gs, hgs⟩ := h l
  rw [← hgs, layerBytes_append]
  exact Nat.le_add_right _ _

/-- A new gate with valid sources keeps a circuit closed. -/
theorem Closed.addGate {C : Circuit S} (h : C.Closed) {l : ℕ} {g : Gate S}
    (hg : g.Valid (l+1) (layerBytes (C.layer (l+1)))) : (C.addGate l g).Closed := by
  intro j g' hg'
  have hle := (extends_addGate C l g).layerBytes_le (j+1)
  rw [layer_addGate] at hg'
  split_ifs at hg' with hj
  · subst hj
    rcases List.mem_append.mp hg' with hmem | hmem
    · exact (h j g' hmem).mono hle
    · rw [List.mem_singleton.mp hmem]
      exact hg.mono hle
  · exact (h j g' hg').mono hle

/-- What the layers from `l` on compute. -/
def evalFrom (C : Circuit Bits) (l : ℕ) : Bits := eval (C.drop l)

theorem evalFrom_eq (C : Circuit Bits) (l k : ℕ) :
    C.evalFrom l k = (stream false (C.evalFrom (l+1)) (fun _ => false) 0 (C.layer l) k &&
      stream true (C.evalFrom (l+1)) (fun _ => false) 0 (C.layer l) k) := by
  by_cases h : l < C.length
  · rw [evalFrom, List.drop_eq_getElem_cons h, layer, List.getD_eq_getElem _ _ h]
    rfl
  · rw [evalFrom, List.drop_eq_nil_of_le (by omega), layer_of_le (by omega)]
    rfl

/-- The outputs at a gate are the conjunction of what it is fed. -/
theorem evalFrom_gate {C : Circuit Bits} {l : ℕ} {pre post : List (Gate Bits)} {g : Gate Bits}
    (h : C.layer l = pre ++ g :: post) {p : ℕ} (hp : p < g.size) :
    C.evalFrom l (8*layerBytes pre + p) =
      ((g.feed false).bits (C.evalFrom (l+1)) p && (g.feed true).bits (C.evalFrom (l+1)) p) := by
  have hs := fun y => stream_gate y (C.evalFrom (l+1)) (fun _ => false) pre g post 0 hp
  simp only [Nat.zero_add] at hs
  rw [evalFrom_eq, h, hs, hs]

/-- The unused bits of the last byte of a gate are zero. -/
theorem evalFrom_gap {C : Circuit Bits} {l : ℕ} {pre post : List (Gate Bits)} {g : Gate Bits}
    (h : C.layer l = pre ++ g :: post) {p : ℕ} (hp : g.size ≤ p) (hp' : p < 8*divCeil g.size 8) :
    C.evalFrom l (8*layerBytes pre + p) = false := by
  have hs := stream_gap false (C.evalFrom (l+1)) (fun _ => false) pre g post 0 hp hp'
  simp only [Nat.zero_add] at hs
  rw [evalFrom_eq, h, hs, Bool.false_and]

end Circuit
end PrivRecCert.Prc
