import PrivRecCert.Prc.Isolation
import PrivRecCert.SimdArray.Overwrite

/-! The order of the operations of a layer. The loop that executes them pops the list they were pushed to, so
the operation that was added first runs last. That shows wherever several operations write to one bit. -/
namespace PrivRecCert.Prc
open CorRnd SimdArray BitArray Stores

/-- The calls a layer takes in its ticketing phase. -/
inductive LayerCall : Type
  | requestTicket (bitSize : ℕ)
  | addOperation (op : MpcOperation)

namespace LayerCall

def added : LayerCall → Option MpcOperation
  | requestTicket _ => none
  | addOperation op => some op

end LayerCall

namespace MpcOperation

/-- What the copies of an operation write to its stream, from bit `st` on. -/
def copies (st : ℕ) (data : BitArray) : MpcOperation → List (Patch ℕ Bool)
  | copy _ _ => [span st (copySize st data) data.bit]
  | replicate n _ _ => (List.range n).map fun i =>
    span (st + i*data.bitSize) (copySize (st + i*data.bitSize) data) data.bit
  | bitExpand n _ _ => (List.range data.bitSize).map fun i => span (st + i*n) n fun _ => data.bit i

/-- The bits an operation writes, by stream and position. -/
def written (prev : Option Layer) (op : MpcOperation) : Patch (ℕ × ℕ) Bool := fun c =>
  match op.out, Layer.extractSrcData op.inp prev with
  | .relay ticket stream, some data => if c.1 = stream then Patch.last (op.copies ticket.stBit data) c.2 else none
  | _, _ => none

end MpcOperation

namespace Layer
variable {L L' : Layer} {prev : Option Layer} {op : MpcOperation} {data : BitArray} {l m : ℕ}

/-- The layer after a call of its ticketing phase. -/
def accept (L : Layer) : LayerCall → Option Layer
  | .requestTicket bitSize => (L.requestTicket bitSize).map Prod.snd
  | .addOperation op => L.addOperation op

/-- The layers `l` of `m` bytes that hold their streams, as a store. -/
def initialized (l m : ℕ) : Store Layer (ℕ × ℕ) Bool :=
  ⟨fun L => L.Holding .dataInitialized l m, fun L c => (L.andBit c.1 c.2).getD false⟩

def execAll (L : Layer) (prev : Option Layer) (ops : List MpcOperation) : Option Layer :=
  ops.foldlM (fun L op => L.execOperation op prev) L

/-- The operations have the effect of being executed one after the other, in the order of the list. -/
def InOrder (L : Layer) (prev : Option Layer) (ops : List MpcOperation) : Prop :=
  (L.executeOperations prev = none ↔ L.execAll prev ops = none) ∧
    (L.executeOperations prev).map andData = (L.execAll prev ops).map andData

theorem accept_operations {calls : List LayerCall} (h : calls.foldlM accept L = some L') :
    L'.operations = L.operations ++ calls.filterMap LayerCall.added := by
  induction calls generalizing L with
  | nil =>
    obtain rfl := Option.some.inj h
    exact (List.append_nil _).symm
  | cons call calls ih =>
    rw [List.foldlM_cons] at h
    obtain ⟨K, hK, h⟩ := Option.bind_eq_some_iff.mp h
    rw [ih h]
    cases call with
    | requestTicket bitSize =>
      obtain ⟨⟨t, K'⟩, hreq, rfl⟩ := Option.map_eq_some_iff.mp hK
      obtain ⟨-, -, rfl⟩ := requestTicket_inv hreq
      rfl
    | addOperation op =>
      obtain ⟨-, rfl⟩ := addOperation_inv hK
      simp [LayerCall.added]

theorem checkTicket_initialized (hL : L.Holding .dataInitialized l m) (t : Ticket) :
    L.checkTicket t = if t.layerNum = l ∧ t.endByte ≤ m then some () else none := by
  rw [checkTicket, hL.state_eq, hL.layerNum_eq, hL.currentSize_eq]
  by_cases hl : t.layerNum = l
  · by_cases hm : t.endByte ≤ m
    · simp [hl, hm]
    · simp [hl, hm]
  · simp [hl]

/-- The stream a destination names is one of three arrays of one size, or there is none for every layer. -/
theorem getMutArray_initialized (l m : ℕ) (out : LayerDest) :
    (∀ L : Layer, L.Holding .dataInitialized l m → L.getMutArrayFromDestination out = none) ∨
      ∃ t y, out = .relay t y ∧ ∀ L : Layer, L.Holding .dataInitialized l m → ∃ (d : D2BitArray) (a : BitArray),
        L.andData = some d ∧ d.arrays[y]? = some a ∧ L.getMutArrayFromDestination out =
          some (t.stBit, a, fun a => { L with andData := some (d.setArray y a) }) := by
  cases out with
  | none => exact .inl fun L _ => rfl
  | relay t y =>
    by_cases hy : y ≤ 1
    · by_cases ht : t.layerNum = l ∧ t.endByte ≤ m
      · refine .inr ⟨t, y, rfl, fun L hL => ?_⟩
        obtain ⟨d, hd, hlen, -⟩ := hL.andData
        have hlt : y < d.arrays.length := by omega
        refine ⟨d, d.arrays[y], hd, List.getElem?_eq_getElem hlt, ?_⟩
        rw [getMutArrayFromDestination, if_neg (by omega), checkTicket_initialized hL, if_pos ht, hd]
        simp [D2BitArray.getArray, List.getElem?_eq_getElem hlt]
      · refine .inl fun L hL => ?_
        rw [getMutArrayFromDestination, if_neg (by omega), checkTicket_initialized hL, if_neg ht]
        rfl
    · refine .inl fun L _ => ?_
      rw [getMutArrayFromDestination, if_pos (by omega)]

/-- The content of a layer after one of its streams was patched. -/
theorem content_setArray {d : D2BitArray} {a r : BitArray} {y : ℕ} {p : Patch ℕ Bool} (hd : L.andData = some d)
    (ha : d.arrays[y]? = some a) (hr : r.bit = p.apply a.bit) :
    (initialized l m).content { L with andData := some (d.setArray y r) } =
      Patch.apply (fun c => if c.1 = y then p c.2 else none) ((initialized l m).content L) := by
  obtain ⟨hlt, -⟩ := List.getElem?_eq_some_iff.mp ha
  funext c
  simp only [initialized, Patch.apply]
  rw [andBit_eq rfl, andBit_eq hd, D2BitArray.setArray, List.map_set]
  by_cases hc : c.1 = y
  · rw [if_pos hc, hc, List.getElem?_set_self (by simpa using hlt), List.getElem?_map, ha, hr]
    rfl
  · rw [if_neg hc, List.getElem?_set_ne (Ne.symm hc)]
    rfl

/-- An update of the array at the destination of an operation, as an update of the layer. -/
theorem patches_stream {o : ℕ → BitArray → Option BitArray} (hdata : extractSrcData op.inp prev = some data)
    (h : ∀ st, (sized (8*m)).Patches (o st) (Patch.last (op.copies st data))) :
    (initialized l m).Patches (fun L => do
        let (startBit, dest, write) ← L.getMutArrayFromDestination op.out
        some (write (← o startBit dest))) (op.written prev) := by
  rcases getMutArray_initialized l m op.out with hnone | ⟨t, y, hout, hget⟩
  · refine .of_none fun L hL => ?_
    rw [hnone L hL]
    rfl
  · have hstream : ∀ (L : Layer) (d : D2BitArray) (a : BitArray), L.Holding .dataInitialized l m →
        L.andData = some d → d.arrays[y]? = some a → (sized (8*m)).Valid a := by
      intro L d a hL hd ha
      obtain ⟨d', hd', -, hs⟩ := hL.andData
      obtain rfl : d = d' := Option.some.inj (hd.symm.trans hd')
      exact hs a (List.mem_of_getElem? ha)
    rcases h t.stBit with hfail | hrun
    · refine .of_none fun L hL => ?_
      obtain ⟨d, a, hd, ha, hL'⟩ := hget L hL
      rw [hL']
      simp [hfail a (hstream L d a hL hd ha)]
    · refine .inr fun L hL => ?_
      obtain ⟨d, a, hd, ha, hL'⟩ := hget L hL
      obtain ⟨r, hr, hrv, hrc⟩ := hrun a (hstream L d a hL hd ha)
      refine ⟨_, by simp [hL', hr], hL.setArray hd hrv y, ?_⟩
      rw [content_setArray hd ha hrc]
      congr 1
      funext c
      simp [MpcOperation.written, hout, hdata]

theorem replicate_patches (st s : ℕ) (data : BitArray) (n : ℕ) (inp : LayerSource) (out : LayerDest) :
    (sized s).Patches (fun d => (List.range n).foldlM (fun d i => d.copyFrom (st + i*data.bitSize) data) d)
      (Patch.last ((MpcOperation.replicate n inp out).copies st data)) :=
  Store.Patches.foldlM fun i _ => copyFrom_patches s (st + i*data.bitSize) data

/-- The copy of one expanded bit. -/
theorem expandBit_patches {n : ℕ} (hn : 0 < n) {zeroes ones : BitArray} (hz : BitArray.new n = some zeroes)
    (ho : BitArray.ones n = some ones) (s u i : ℕ) (hi : i < data.bitSize) :
    (sized s).Patches (fun d => do if ← data.get i then d.copyFrom u ones else d.copyFrom u zeroes)
      (span u n fun _ => data.bit i) := by
  by_cases hlen : i/8 < data.data.len
  · have hget := get_bit hi hlen
    cases hbit : data.bit i with
    | true =>
      obtain ⟨ones', ho', hor⟩ := ones_eq hn
      obtain rfl : ones = ones' := Option.some.inj (ho.symm.trans ho')
      have hblock := le_blockBits n
      refine (copyFrom_patches_const hor (fun k hk => decide_eq_true (by omega)) s u).congr fun d _ => ?_
      simp [hget, hbit]
    | false =>
      obtain ⟨zeroes', hz', hzr⟩ := new_eq hn
      obtain rfl : zeroes = zeroes' := Option.some.inj (hz.symm.trans hz')
      refine (copyFrom_patches_const hzr (fun k _ => rfl) s u).congr fun d _ => ?_
      simp [hget, hbit]
  · refine .of_none fun d _ => ?_
    rw [get_none hlen]
    rfl

/-- What one operation writes to an initialised layer does not depend on what the layer holds. -/
theorem execOperation_patches (op : MpcOperation) (prev : Option Layer) (l m : ℕ) :
    (initialized l m).Patches (fun L => L.execOperation op prev) (op.written prev) := by
  cases hdata : extractSrcData op.inp prev with
  | none =>
    refine .of_none fun L _ => ?_
    cases h : L.execOperation op prev with
    | none => rfl
    | some L' =>
      obtain ⟨data, -, hsome, -⟩ := execOperation_inv h
      exact absurd (hdata.symm.trans hsome) (Option.some_ne_none data).symm
  | some data =>
    cases op with
    | copy inp out =>
      refine (patches_stream hdata (o := fun st d => d.copyFrom st data) fun st => ?_).congr fun L _ => ?_
      · rw [MpcOperation.copies, Patch.last_singleton]
        exact copyFrom_patches _ st data
      · simp [execOperation, show extractSrcData inp prev = some data from hdata, MpcOperation.out]
    | replicate n inp out =>
      refine (patches_stream hdata (fun st => replicate_patches st _ data n inp out)).congr fun L _ => ?_
      simp [execOperation, show extractSrcData inp prev = some data from hdata, MpcOperation.out]
    | bitExpand n inp out =>
      rcases Nat.eq_zero_or_pos n with rfl | hn
      · exact .of_none fun L _ => rfl
      · obtain ⟨zeroes, hz, -⟩ := new_eq hn
        obtain ⟨ones, ho, -⟩ := ones_eq hn
        refine (patches_stream hdata (o := fun st d => (List.range data.bitSize).foldlM (fun d i => do
          if ← data.get i then d.copyFrom (st + i*n) ones else d.copyFrom (st + i*n) zeroes) d)
          fun st => Store.Patches.foldlM fun i hi => expandBit_patches hn hz ho _ _ i (List.mem_range.mp hi)).congr
          fun L _ => ?_
        simp [execOperation, show extractSrcData inp prev = some data from hdata, MpcOperation.out, hz, ho]

/-- Initialised layers with the same cells hold the same arrays. -/
theorem andData_eq_iff (hL : L.Holding .dataInitialized l m) (hL' : L'.Holding .dataInitialized l m) :
    L.andData = L'.andData ↔ (initialized l m).content L = (initialized l m).content L' := by
  obtain ⟨d, hd, hlen, hs⟩ := hL.andData
  obtain ⟨d', hd', hlen', hs'⟩ := hL'.andData
  constructor
  · intro heq
    funext c
    simp only [initialized, andBit, heq]
  · intro heq
    rw [hd, hd', Option.some.injEq]
    have harrays : d.arrays = d'.arrays := by
      apply List.ext_getElem (hlen.trans hlen'.symm)
      intro j hj hj'
      obtain ⟨hwf, hsize⟩ := hs _ (List.getElem_mem hj)
      obtain ⟨hwf', hsize'⟩ := hs' _ (List.getElem_mem hj')
      refine Represents.unique (Represents.of_wf hwf) ⟨hwf', hsize'.trans hsize.symm, fun k => ?_⟩
      have hbit := congrFun heq (j, k)
      simp only [initialized] at hbit
      rw [andBit_eq hd, andBit_eq hd', List.getElem?_map, List.getElem?_map, List.getElem?_eq_getElem hj,
        List.getElem?_eq_getElem hj'] at hbit
      exact hbit.symm
    cases d
    cases d'
    exact congrArg _ harrays

theorem execAll_patches (prev : Option Layer) (l m : ℕ) (ops : List MpcOperation) :
    (initialized l m).Patches (fun L => L.execAll prev ops) (Patch.last (ops.map (MpcOperation.written prev))) :=
  Store.Patches.foldlM fun op _ => execOperation_patches op prev l m

/-- The loop over the operations, as a run over the reversed list. -/
theorem executeOperations_andData (hL : L.Holding .dataInitialized l m) (prev : Option Layer) :
    (L.executeOperations prev).map andData = (L.execAll prev L.operations.reverse).map andData := by
  have hempty : Holding { L with operations := [] } .dataInitialized l m :=
    ⟨hL.state_eq, hL.layerNum_eq, hL.currentSize_eq, hL.andData⟩
  have hstart := (execAll_patches prev l m L.operations.reverse).map_eq (f := andData)
    (fun K K' => andData_eq_iff) hempty hL rfl
  rw [← hstart, executeOperations, if_pos hL.state_eq]
  unfold execAll
  cases List.foldlM (fun L op => execOperation L op prev) { L with operations := [] } L.operations.reverse with
  | none => rfl
  | some K => rfl

theorem inOrder_iff_andData (prev : Option Layer) (ops : List MpcOperation) :
    L.InOrder prev ops ↔ (L.executeOperations prev).map andData = (L.execAll prev ops).map andData := by
  constructor
  · intro h
    exact h.2
  · intro h
    refine ⟨?_, h⟩
    rw [← Option.map_eq_none_iff (f := andData), h, Option.map_eq_none_iff]

/-- The operations of a layer take effect in the order they were added exactly when one of them panics, or for every
bit the first one and the last one to write it write the same. -/
theorem executeOperations_inOrder_iff {L₀ L₁ L : Layer} {calls : List LayerCall} {bp bp' : BeaverProvider}
    (hcalls : calls.foldlM accept L₀ = some L₁) (hend : L₁.endTicketingPhase bp = some (L, bp'))
    (prev : Option Layer) : L.InOrder prev (L₀.operations ++ calls.filterMap LayerCall.added) ↔
      (∃ op ∈ L₀.operations ++ calls.filterMap LayerCall.added, L.execOperation op prev = none) ∨
        Patch.first ((L₀.operations ++ calls.filterMap LayerCall.added).map (MpcOperation.written prev)) =
          Patch.last ((L₀.operations ++ calls.filterMap LayerCall.added).map (MpcOperation.written prev)) := by
  obtain ⟨hL, hops⟩ := endTicketingPhase_holding hend
  rw [← accept_operations hcalls, ← hops, inOrder_iff_andData, executeOperations_andData hL]
  exact Store.foldlM_reverse_eq_iff (fun K K' => andData_eq_iff) (fun op _ => execOperation_patches op prev _ _) hL

/-- An operation that is added twice. -/
theorem inOrder_twice : ∃ (o : BitArray) (L₁ L : Layer) (bp : BeaverProvider), BitArray.ones 8 = some o ∧
    [LayerCall.requestTicket 8, .addOperation (.copy (.input o) (.relay ⟨0, 0, 8⟩ 0)),
      .addOperation (.copy (.input o) (.relay ⟨0, 0, 8⟩ 0))].foldlM accept (.new true 0) = some L₁ ∧
    L₁.endTicketingPhase ⟨D2BitArray.zeros 3 16, 0, 0⟩ = some (L, bp) ∧
    L.InOrder none [.copy (.input o) (.relay ⟨0, 0, 8⟩ 0), .copy (.input o) (.relay ⟨0, 0, 8⟩ 0)] := by
  have hrun : ∃ (o : BitArray) (L₁ L : Layer) (bp : BeaverProvider), BitArray.ones 8 = some o ∧
      [LayerCall.requestTicket 8, .addOperation (.copy (.input o) (.relay ⟨0, 0, 8⟩ 0)),
        .addOperation (.copy (.input o) (.relay ⟨0, 0, 8⟩ 0))].foldlM accept (.new true 0) = some L₁ ∧
      L₁.endTicketingPhase ⟨D2BitArray.zeros 3 16, 0, 0⟩ = some (L, bp) := ⟨_, _, _, _, rfl, rfl, rfl⟩
  obtain ⟨o, L₁, L, bp, ho, hcalls, hend⟩ := hrun
  refine ⟨o, L₁, L, bp, ho, hcalls, hend, (executeOperations_inOrder_iff hcalls hend none).mpr (.inr ?_)⟩
  exact Patch.first_replicate 2 (MpcOperation.written none (.copy (.input o) (.relay ⟨0, 0, 8⟩ 0)))

/-- Two copies to one ticket, of eight zeros and of eight ones: the zeros, added first, are what is left. -/
theorem inOrder_overwritten : ∃ (z o : BitArray) (L₁ L : Layer) (bp : BeaverProvider),
    BitArray.new 8 = some z ∧ BitArray.ones 8 = some o ∧
    [LayerCall.requestTicket 8, .addOperation (.copy (.input z) (.relay ⟨0, 0, 8⟩ 0)),
      .addOperation (.copy (.input o) (.relay ⟨0, 0, 8⟩ 0))].foldlM accept (.new true 0) = some L₁ ∧
    L₁.endTicketingPhase ⟨D2BitArray.zeros 3 16, 0, 0⟩ = some (L, bp) ∧
    ¬ L.InOrder none [.copy (.input z) (.relay ⟨0, 0, 8⟩ 0), .copy (.input o) (.relay ⟨0, 0, 8⟩ 0)] := by
  refine ⟨_, _, _, _, _, rfl, rfl, rfl, rfl, fun h => ?_⟩
  exact absurd h.2 (by decide)

end Layer
end PrivRecCert.Prc
