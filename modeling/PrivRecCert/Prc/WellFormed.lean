import PrivRecCert.Prc.Stale
import PrivRecCert.Prc.Wiring

/-! The layers that a party builds for any requests are well formed: their tickets tile them, every input bit of a
gate is written once, and every layer reads each ticket of the next deeper one once. -/
namespace PrivRecCert.Prc
open CorRnd SimdArray BitArray Rounds Circuit

/-- The number of bits a source gives. -/
def LayerSource.len : LayerSource → ℕ
  | input data => data.bitSize
  | takeZ ticket => ticket.endBit - ticket.stBit

namespace MpcOperation

/-- Whether the operation writes bit `k` of stream `y`. -/
def writes (y k : ℕ) (op : MpcOperation) : Bool :=
  match op.out with
  | .relay ticket stream => stream = y ∧ ticket.stBit ≤ k ∧ k < ticket.stBit + op.spread.span op.inp.len
  | .none => false

/-- Bit `k` of the stream once `data` has been written to it. -/
def writtenBit (op : MpcOperation) (data : BitArray) (k : ℕ) : Bool :=
  match op.out with
  | .relay ticket _ => data.bit (op.spread.pos data.bitSize (k - ticket.stBit))
  | .none => false

/-- In layer `l` of `m` bytes, the operation succeeds on data of the length that its source gives, and it changes the
bits that it `writes` and no others. -/
def Executes (op : MpcOperation) (l m : ℕ) : Prop :=
  ∀ (L : Layer) (prev : Option Layer) (data : BitArray), L.Holding .dataInitialized l m →
    Layer.extractSrcData op.inp prev = some data → data.WF → data.bitSize = op.inp.len →
    ∃ L', L.execOperation op prev = some L' ∧ L'.Holding .dataInitialized l m ∧
      ∀ j k, L'.andBit j k = if op.writes j k then some (op.writtenBit data k) else L.andBit j k

/-- The ticket of the previous layer that the operation reads. -/
def taken (op : MpcOperation) : Option Ticket :=
  match op.inp with
  | .input _ => none
  | .takeZ ticket => some ticket

end MpcOperation

namespace Layer

/-- Whole bytes of layer `l` for every ticket, and every byte for exactly one. -/
structure Tiled (L : Layer) (l : ℕ) (ts : List Ticket) : Prop where
  within : ∀ t ∈ ts, t.Within l L.currentSize ∧ t.stBit < t.endBit
  disjoint : ts.Pairwise Ticket.Before
  tiles : ∀ b < L.currentSize, ∃ t ∈ ts, t.stBit ≤ 8*b ∧ b < t.endByte

/-- Operations write to their own tickets only, and each bit of both input streams is written once. -/
structure FilledOnce (L : Layer) (ts : List Ticket) : Prop where
  inside : ∀ op ∈ L.operations, ∃ t ∈ ts, ∃ y ≤ 1, op.out = .relay t y ∧
    ∀ j k, op.writes j k = true → j = y ∧ t.Names k
  once : ∀ t ∈ ts, ∀ y ≤ 1, ∀ k, t.Names k → L.operations.countP (·.writes y k) = 1

/-- After the deeper layers were run, all tickets of the operations of `L` pass their checks, and the operations
succeed. -/
def Checked (L : Layer) (prev : Option Layer) : Prop :=
  (∀ op ∈ L.operations, (∀ t y, op.out = .relay t y → L.checkTicket t = some ()) ∧
    ∀ t, op.inp = .takeZ t → ∃ P, prev = some P ∧ P.checkTicket t = some ()) ∧
  ∃ L', L.executeOperations prev = some L'

end Layer

/-- A provider that is ready for a run, the sources it has returned, and the tickets of its layers. -/
structure MpcProvider.WellFormed (p : MpcProvider) (srcs : List LayerSource) (tss : List (List Ticket)) : Prop where
  length_eq : tss.length = p.layers.length
  layer : ∀ (l : ℕ) (L : Layer), p.layers[l]? = some L → ∃ ts, tss[l]? = some ts ∧ L.Issuing p.partyConst l ts ∧
    ts ≠ [] ∧ L.Tiled l ts ∧ L.FilledOnce ts ∧ ∀ op ∈ L.operations, op.Executes l L.currentSize
  reads : ∀ (l : ℕ) (L : Layer), p.layers[l]? = some L → ∀ op ∈ L.operations, ∀ t, op.taken = some t →
    t ∈ tss.getD (l+1) []
  readOnce : ∀ (l : ℕ) (L : Layer), p.layers[l]? = some L → ∀ t ∈ tss.getD (l+1) [],
    (L.operations.filterMap MpcOperation.taken).count t = 1
  returned : ∀ t, .takeZ t ∈ srcs → t ∈ tss.getD 0 []
  checked : ∀ (G : Type) (l : ℕ) (L₀ L : Layer) (prev : Option Layer) (bp bp₁ bp₂ : BeaverProvider),
    p.layers[l]? = some L₀ → (runLayers (G := G) (p.layers.drop (l+1)).reverse none bp).Yields (prev, bp₁) →
    L₀.endTicketingPhase bp₁ = some (L, bp₂) → L.Checked prev

section Tickets
variable {l st : ℕ} {gs : List (Gate Bits)} {ops : List MpcOperation}

theorem mem_gateTickets {t : Ticket} (h : t ∈ gateTickets l st gs) :
    ∃ g ∈ gs, ∃ u, t = gateTicket l u g.size := by
  induction gs generalizing st with
  | nil => exact nomatch h
  | cons g gs ih =>
    rcases List.mem_cons.mp h with rfl | hmem
    · exact ⟨g, by simp, st, rfl⟩
    · obtain ⟨g', hg', hu⟩ := ih hmem
      exact ⟨g', by simp [hg'], hu⟩

/-- The tickets of a layer leave no byte out. -/
theorem gateTickets_tile (l : ℕ) (gs : List (Gate Bits)) {st b : ℕ} (hge : st ≤ b) (hlt : b < st + layerBytes gs) :
    ∃ t ∈ gateTickets l st gs, t.stBit ≤ 8*b ∧ b < t.endByte := by
  induction gs generalizing st with
  | nil => exact absurd hlt (by rw [layerBytes_nil]; omega)
  | cons g gs ih =>
    rw [layerBytes_cons] at hlt
    by_cases hb : b < st + divCeil g.size 8
    · refine ⟨_, List.mem_cons_self, ?_, ?_⟩
      · simp only [gateTicket]
        omega
      · rw [divCeil_eight] at hb
        simp only [Ticket.endByte, gateTicket, divCeil_eight]
        omega
    · obtain ⟨t, ht, htb⟩ := ih (show st + divCeil g.size 8 ≤ b by omega) (by omega)
      exact ⟨t, List.mem_cons_of_mem _ ht, htb⟩

theorem gateDests_injective {ts us : List Ticket} (h : ts.flatMap Layer.gateDests = us.flatMap Layer.gateDests) :
    ts = us := by
  induction ts generalizing us with
  | nil =>
    cases us with
    | nil => rfl
    | cons u us => exact nomatch h
  | cons t ts ih =>
    cases us with
    | nil => exact nomatch h
    | cons u us =>
      simp only [List.flatMap_cons, Layer.gateDests, List.cons_append, List.nil_append, List.cons.injEq,
        LayerDest.relay.injEq, and_true] at h
      rw [h.1, ih h.2.2]

/-- One position of a layer belongs to one of its tickets at most. -/
theorem countP_names {ts : List Ticket} (hdis : ts.Pairwise Ticket.Before) {t : Ticket} (ht : t ∈ ts) {k : ℕ}
    (hk : t.Names k) : ts.countP (fun u => decide (u.Names k)) = 1 := by
  induction ts with
  | nil => exact nomatch ht
  | cons u ts ih =>
    obtain ⟨hu, hdis⟩ := List.pairwise_cons.mp hdis
    rcases List.mem_cons.mp ht with rfl | hmem
    · have hzero : ts.countP (fun u => decide (u.Names k)) = 0 :=
        List.countP_eq_zero.mpr fun v hv => by simpa using (hu v hv).disjoint hk
      rw [List.countP_cons_of_pos (by simpa using hk), hzero]
    · have hnot : ¬ u.Names k := fun huk => (hu t hmem).disjoint huk hk
      rw [List.countP_cons_of_neg (by simpa using hnot), ih hdis hmem]

/-- Tickets of at least one gate are told apart by their positions. -/
theorem nodup_of_before {ts : List Ticket} (hdis : ts.Pairwise Ticket.Before) (hlt : ∀ t ∈ ts, t.stBit < t.endBit) :
    ts.Nodup := by
  refine hdis.imp_of_mem fun {t u} ht _ hbefore htu => ?_
  subst htu
  have hend := t.endBit_le
  have hpos := hlt t ht
  rw [Ticket.Before] at hbefore
  omega

theorem opMatches_out {f : Feed Bits} {out : LayerDest} {op : MpcOperation} (h : OpMatches f out op) : op.out = out := by
  obtain ⟨inp, -, rfl⟩ := h
  exact MpcOperation.out_op _ _ _

theorem opMatches_taken {f : Feed Bits} {out : LayerDest} {op : MpcOperation} (h : OpMatches f out op) :
    op.taken.toList = f.src.tickets := by
  obtain ⟨inp, hinp, rfl⟩ := h
  rw [MpcOperation.taken, MpcOperation.inp_op]
  cases hf : f.src with
  | input len s =>
    rw [hf] at hinp
    cases inp with
    | input data => rfl
    | takeZ t => exact hinp.elim
  | takeZ t =>
    rw [hf] at hinp
    cases inp with
    | input data => exact hinp.elim
    | takeZ t' =>
      obtain rfl : t = t' := hinp
      rfl

/-- The spread source of an operation is as long as its gate. -/
theorem opMatches_span {f : Feed Bits} {out : LayerDest} {op : MpcOperation} {k bytes size : ℕ}
    (h : OpMatches f out op) (hf : f.Valid k bytes size) : op.spread.span op.inp.len = size := by
  obtain ⟨inp, hinp, rfl⟩ := h
  rw [MpcOperation.spread_op, MpcOperation.inp_op, ← hf.2]
  congr 1
  cases hsrc : f.src with
  | input len s =>
    rw [hsrc] at hinp
    cases inp with
    | input data => exact Represents.bitSize_eq hinp
    | takeZ t => exact hinp.elim
  | takeZ t =>
    rw [hsrc] at hinp
    cases inp with
    | input data => exact hinp.elim
    | takeZ t' =>
      obtain rfl : t = t' := hinp
      rfl

theorem opMatches_writes {f : Feed Bits} {t : Ticket} {y : ℕ} {op : MpcOperation} {u bytes size : ℕ}
    (h : OpMatches f (.relay t y) op) (hf : f.Valid u bytes size) (ht : t.endBit = t.stBit + size) (j k : ℕ) :
    op.writes j k = decide (y = j ∧ t.Names k) := by
  simp only [MpcOperation.writes, opMatches_out h, opMatches_span h hf, Ticket.Names, ht]

theorem opsMatch_outs (h : OpsMatch l st gs ops) :
    ops.map MpcOperation.out = (gateTickets l st gs).flatMap Layer.gateDests := by
  induction h with
  | nil => rfl
  | cons hx hy _ ih =>
    rw [List.map_cons, List.map_cons, ih, opMatches_out hx, opMatches_out hy]
    rfl

theorem opsMatch_taken (h : OpsMatch l st gs ops) : ops.filterMap MpcOperation.taken = gs.flatMap Gate.reads := by
  induction h with
  | nil => rfl
  | @cons st g gs ox oy ops hx hy _ ih =>
    have happend : ∀ (op : MpcOperation) (ops : List MpcOperation),
        (op :: ops).filterMap MpcOperation.taken = op.taken.toList ++ ops.filterMap MpcOperation.taken := by
      intro op ops
      rw [List.filterMap_cons]
      cases op.taken <;> rfl
    rw [happend, happend, ih, opMatches_taken hx, opMatches_taken hy, List.flatMap_cons, Gate.reads, List.append_assoc]

theorem opsMatch_inside {bytes : ℕ} (h : OpsMatch l st gs ops) (hgs : ∀ g ∈ gs, g.Valid (l+1) bytes) :
    ∀ op ∈ ops, ∃ t ∈ gateTickets l st gs, ∃ y ≤ 1, op.out = .relay t y ∧
      ∀ j k, op.writes j k = true → j = y ∧ t.Names k := by
  induction h with
  | nil => exact fun op hop => (nomatch hop)
  | @cons st g gs ox oy ops hx hy _ ih =>
    have hg := hgs g (by simp)
    intro op hop
    rcases List.mem_cons.mp hop with rfl | hop
    · refine ⟨_, List.mem_cons_self, 0, Nat.zero_le 1, opMatches_out hx, fun j k hw => ?_⟩
      rw [opMatches_writes hx (hg.2 false) rfl, decide_eq_true_eq] at hw
      exact ⟨hw.1.symm, hw.2⟩
    · rcases List.mem_cons.mp hop with rfl | hop
      · refine ⟨_, List.mem_cons_self, 1, le_rfl, opMatches_out hy, fun j k hw => ?_⟩
        rw [opMatches_writes hy (hg.2 true) rfl, decide_eq_true_eq] at hw
        exact ⟨hw.1.symm, hw.2⟩
      · obtain ⟨t, ht, hrest⟩ := ih (fun g' hg' => hgs g' (by simp [hg'])) op hop
        exact ⟨t, List.mem_cons_of_mem _ ht, hrest⟩

/-- A position is written as often as tickets name it. -/
theorem opsMatch_count {bytes : ℕ} (h : OpsMatch l st gs ops) (hgs : ∀ g ∈ gs, g.Valid (l+1) bytes) {y : ℕ} (hy : y ≤ 1)
    (k : ℕ) : ops.countP (·.writes y k) = (gateTickets l st gs).countP fun t => decide (t.Names k) := by
  induction h with
  | nil => rfl
  | @cons st g gs ox oy ops hox hoy _ ih =>
    have hg := hgs g (by simp)
    rw [List.countP_cons, List.countP_cons, gateTickets, List.countP_cons,
      ih fun g' hg' => hgs g' (by simp [hg']), opMatches_writes hox (hg.2 false) rfl,
      opMatches_writes hoy (hg.2 true) rfl]
    obtain rfl | rfl : y = 0 ∨ y = 1 := by omega
    · simp
    · simp

end Tickets

namespace Call

/-- Calls with inputs of the announced size. -/
def Valid : Call → Prop
  | and bitSize (.input a) (.input b) => 0 < bitSize ∧ (a.WF ∧ a.bitSize = bitSize) ∧ b.WF ∧ b.bitSize = bitSize
  | and _ _ _ => False
  | oheVec idxBshared => 1 ≤ idxBshared.bitLen

/-- The layers that a call needs. -/
def depth : Call → ℕ
  | and _ _ _ => 1
  | oheVec idxBshared => Nat.clog 2 idxBshared.bitLen

theorem exists_request {c : Call} (hc : c.Valid) (partyConst : Bool) : ∃ r : Request Bits,
    MpcProvider.CallMatches partyConst r c ∧ r.Valid ∧ r.depth = c.depth := by
  match c, hc with
  | .and bitSize (.input a) (.input b), hc =>
    obtain ⟨hpos, ⟨ha, hal⟩, hb, hbl⟩ := hc
    exact ⟨.and bitSize a.bit b.bit, ⟨rfl, ⟨ha, hal, fun _ => rfl⟩, hb, hbl, fun _ => rfl⟩, hpos, rfl⟩
  | .oheVec v, hc => exact ⟨.ohe v.bitLen (MpcProvider.leafBits partyConst v.value), ⟨rfl, rfl⟩, hc, rfl⟩

theorem exists_requests {calls : List Call} (hcalls : ∀ c ∈ calls, c.Valid) (partyConst : Bool) :
    ∃ rs : List (Request Bits), List.Forall₂ (MpcProvider.CallMatches partyConst) rs calls ∧ (∀ r ∈ rs, r.Valid) ∧
      rs.map Request.depth = calls.map depth := by
  induction calls with
  | nil => exact ⟨[], .nil, fun r hr => (nomatch hr), rfl⟩
  | cons c calls ih =>
    obtain ⟨r, hmatch, hvalid, hdepth⟩ := exists_request (hcalls c (by simp)) partyConst
    obtain ⟨rs, hmatches, hvalids, hdepths⟩ := ih fun c' hc' => hcalls c' (by simp [hc'])
    refine ⟨r :: rs, .cons hmatch hmatches, fun r' hr' => ?_, by rw [List.map_cons, hdepth, hdepths, List.map_cons]⟩
    rcases List.mem_cons.mp hr' with rfl | hmem
    · exact hvalid
    · exact hvalids r' hmem

end Call

namespace MpcProvider
variable {p : MpcProvider} {C : Circuit Bits}

def tickets (C : Circuit Bits) : List (List Ticket) := (List.range C.length).map C.tickets

theorem getD_tickets (C : Circuit Bits) (l : ℕ) : (tickets C).getD l [] = C.tickets l := by
  by_cases h : l < C.length
  · simp [tickets, h]
  · rw [tickets, List.getD_eq_default _ _ (by simp; omega), Circuit.tickets, layer_of_le (by omega)]
    rfl

variable (hb : p.Built C) (hr : p.AllRelaying) (hC : C.Closed)
include hb hr

/-- The tickets a layer has issued are those of its gates. -/
theorem relaying_tickets {l : ℕ} {L : Layer} (hL : p.layers[l]? = some L) :
    L.Relaying p.partyConst l (C.tickets l) := by
  obtain ⟨ts, hts⟩ := hr l L hL
  have hops := (hb.layers l L hL).operations
  have hsame : ts = C.tickets l := gateDests_injective (hts.outs.symm.trans (opsMatch_outs hops))
  rwa [hsame] at hts

/-- What a layer finds when the deeper layers have been run. -/
theorem prev_of_run {G : Type} {l : ℕ} {prev : Option Layer} {bp bp' : BeaverProvider}
    (h : (runLayers (G := G) (p.layers.drop (l+1)).reverse none bp).Yields (prev, bp')) :
    (∃ z, Layer.Prev prev (l+1) (layerBytes (C.layer (l+1))) z) ∧
      ∀ t ∈ C.tickets (l+1), ∃ P, prev = some P ∧ P.checkTicket t = some () := by
  rcases runLayers_holding h with ⟨hnil, rfl⟩ | ⟨K, P, hK, rfl, hP⟩
  · have hlen : C.length ≤ l+1 := by
      rw [← hb.length_eq]
      simpa using hnil
    have hempty : C.layer (l+1) = [] := layer_of_le hlen
    refine ⟨⟨fun _ => false, by rw [hempty]; rfl⟩, fun t ht => ?_⟩
    rw [Circuit.tickets, hempty] at ht
    exact absurd ht List.not_mem_nil
  · have hK' : p.layers[l+1]? = some K := by
      rw [List.getLast?_reverse, List.head?_drop] at hK
      exact hK
    have hticketed := hb.layers (l+1) K hK'
    rw [hticketed.layerNum_eq, hticketed.currentSize_eq] at hP
    obtain ⟨⟨arrays⟩, hd, hlen, hs⟩ := hP.andData
    obtain ⟨x, y, z, rfl⟩ := List.length_eq_three.mp hlen
    refine ⟨⟨z.bit, hP.state_eq, hP.layerNum_eq, hP.currentSize_eq, _, x.bit, y.bit, hd, hs.represents⟩, fun t ht => ?_⟩
    have hwithin := (relaying_tickets hb hr hK').issuing.all.within t ht
    rw [hticketed.currentSize_eq] at hwithin
    exact ⟨P, rfl, Layer.checkTicket_within hP (.inr rfl) hwithin⟩

include hC

/-- What `writes` says of an operation is what `exec_operation` does. -/
theorem layer_executes {l : ℕ} {L : Layer} (hL : p.layers[l]? = some L) :
    ∀ op ∈ L.operations, op.Executes l L.currentSize := by
  intro op hop K prev data hK hdata hwf hlen
  have hrelay := relaying_tickets hb hr hL
  obtain ⟨t, ht, y, hy, hout, hsp⟩ := hrelay.relays op hop
  have hwithin := hrelay.issuing.all.within t ht
  have hwrites : ∀ j k, op.writes j k =
      decide (y = j ∧ t.stBit ≤ k ∧ k < t.stBit + op.spread.span data.bitSize) := fun j k => by
    rw [MpcOperation.writes, hout, hlen]
  have hfit : t.stBit + op.spread.span data.bitSize ≤ 8*L.currentSize := by
    obtain ⟨t', -, y', -, hout', hnames⟩ := opsMatch_inside (hb.layers l L hL).operations (hC l) op hop
    obtain ⟨rfl, rfl⟩ := LayerDest.relay.inj (hout.symm.trans hout')
    have hend := t.endBit_le
    have hbyte := hwithin.endByte_le
    have hle := hwithin.le
    by_contra hgt
    obtain ⟨-, -, hlt⟩ := hnames y (t.stBit + op.spread.span data.bitSize - 1) (by
      rw [hwrites]
      exact decide_eq_true ⟨rfl, by omega, by omega⟩)
    omega
  obtain ⟨L', hexec, hhold, hbits⟩ := Layer.execOperation_andBit hK hout hwithin hy hdata hwf hsp hfit
  refine ⟨L', hexec, hhold, fun j k => ?_⟩
  have hwritten : op.writtenBit data k = data.bit (op.spread.pos data.bitSize (k - t.stBit)) := by
    rw [MpcOperation.writtenBit, hout]
  rw [hbits, hwrites, hwritten]
  simp only [decide_eq_true_eq, eq_comm (a := y)]

theorem layer_wellFormed {l : ℕ} {L : Layer} (hL : p.layers[l]? = some L) (hne : C.layer l ≠ []) :
    C.tickets l ≠ [] ∧ L.Tiled l (C.tickets l) ∧ L.FilledOnce (C.tickets l) ∧
      ∀ op ∈ L.operations, op.Executes l L.currentSize := by
  have hticketed := hb.layers l L hL
  have hall := (relaying_tickets hb hr hL).issuing.all
  refine ⟨?_, ⟨fun t ht => ⟨hall.within t ht, ?_⟩, hall.disjoint, fun b hlt => ?_⟩,
    ⟨opsMatch_inside hticketed.operations (hC l), fun t ht y hy k hk => ?_⟩, layer_executes hb hr hC hL⟩
  · cases hgs : C.layer l with
    | nil => exact absurd hgs hne
    | cons g gs =>
      rw [Circuit.tickets, hgs, gateTickets]
      exact List.cons_ne_nil _ _
  · obtain ⟨g, hg, u, rfl⟩ := mem_gateTickets ht
    exact Nat.lt_add_of_pos_right (hC l g hg).1
  · rw [hticketed.currentSize_eq] at hlt
    exact gateTickets_tile l (C.layer l) (Nat.zero_le b) (by rwa [Nat.zero_add])
  · rw [opsMatch_count hticketed.operations (hC l) hy]
    exact countP_names hall.disjoint ht hk

theorem layer_checked {G : Type} {l : ℕ} {L₀ L : Layer} {prev : Option Layer} {bp bp₁ bp₂ : BeaverProvider}
    (hL : p.layers[l]? = some L₀)
    (hreads : ∀ op ∈ L₀.operations, ∀ t, op.taken = some t → t ∈ C.tickets (l+1))
    (hrun : (runLayers (G := G) (p.layers.drop (l+1)).reverse none bp).Yields (prev, bp₁))
    (hend : L₀.endTicketingPhase bp₁ = some (L, bp₂)) : L.Checked prev := by
  have hticketed := hb.layers l L₀ hL
  have hrelay := relaying_tickets hb hr hL
  obtain ⟨hhold, hops⟩ := Layer.endTicketingPhase_holding hend
  rw [hticketed.layerNum_eq] at hhold
  obtain ⟨⟨z, hprev⟩, hcheck⟩ := prev_of_run hb hr hrun
  refine ⟨fun op hop => ⟨fun t y hout => ?_, fun t hinp => ?_⟩, ?_⟩
  · rw [hops] at hop
    obtain ⟨t', ht', y', -, hout', -⟩ := hrelay.relays op hop
    obtain ⟨rfl, rfl⟩ := LayerDest.relay.inj (hout.symm.trans hout')
    exact Layer.checkTicket_within hhold (.inl rfl) (hrelay.issuing.all.within t ht')
  · rw [hops] at hop
    exact hcheck t (hreads op hop t (by rw [MpcOperation.taken, hinp]))
  · obtain ⟨⟨arrays⟩, hd, hlen, hs⟩ := hhold.andData
    obtain ⟨x, y, z', rfl⟩ := List.length_eq_three.mp hlen
    have hsize : layerBytes (C.layer l) ≤ L.currentSize := by rw [hhold.currentSize_eq, hticketed.currentSize_eq]
    obtain ⟨d', hloop, -⟩ := Layer.execLoop_eq (L := { L with operations := [] }) hticketed.operations (hC l) hprev
      hhold.state_eq hhold.layerNum_eq hd (by rw [hhold.currentSize_eq]; exact hs.represents) (by rwa [Nat.zero_add])
    refine ⟨{ L with operations := [], andData := some d', state := .operationsExecuted }, ?_⟩
    rw [Layer.executeOperations, if_pos hhold.state_eq, hops, hloop]
    rfl

omit hb hr hC

/-- Whatever is requested of a provider without layers, its layers end up well formed, and there are as many of
them as the deepest request needs. -/
theorem issue_wellFormed (p : MpcProvider) (hp : p.layers = []) (calls : List Call) (hcalls : ∀ c ∈ calls, c.Valid) :
    ∃ srcs p' tss, p.issue calls = some (srcs, p') ∧ p'.WellFormed srcs tss ∧
      p'.layers.length = (calls.map Call.depth).foldr max 0 := by
  obtain ⟨rs, hmatch, hvalid, hdepth⟩ := Call.exists_requests hcalls p.partyConst
  obtain ⟨srcs, p', hissue, hb, hsrcs, hbase⟩ := issue_eq (Built.nil hp) hmatch hvalid
  have hr := (issue_relaying (Session.allRelaying_of_nil hp) hissue).1
  have hC : Closed (Request.buildAll [] rs).2 := Request.closed_buildAll closed_nil hvalid
  have hfull : (Request.buildAll [] rs).2.FullFrom 0 :=
    Request.full_buildAll (C := []) (fun j _ hj => absurd hj (Nat.not_lt_zero j)) rs
  have hbal := Request.reads_buildAll [] balanced_nil rs
  have hreturned := Request.buildAll_tickets ([] : Circuit Bits) rs
  have hlen := Request.length_buildAll ([] : Circuit Bits) hvalid
  generalize (Request.buildAll [] rs).2 = C at hb hC hfull hbal hreturned hlen
  have hne : ∀ (l : ℕ) (L : Layer), p'.layers[l]? = some L → C.layer l ≠ [] := by
    intro l L hL
    apply hfull l (Nat.zero_le l)
    rw [← hb.length_eq]
    exact (List.getElem?_eq_some_iff.mp hL).1
  have hperm : ∀ (l : ℕ) (L : Layer), p'.layers[l]? = some L →
      (C.tickets (l+1)).Perm (L.operations.filterMap MpcOperation.taken) := by
    intro l L hL
    have hcoe := hbal l
    rw [Pi.zero_apply, add_zero, Multiset.coe_eq_coe] at hcoe
    rwa [opsMatch_taken (hb.layers l L hL).operations]
  have hreads : ∀ (l : ℕ) (L : Layer), p'.layers[l]? = some L → ∀ op ∈ L.operations, ∀ t, op.taken = some t →
      t ∈ C.tickets (l+1) := by
    intro l L hL op hop t ht
    exact (hperm l L hL).mem_iff.mpr (List.mem_filterMap.mpr ⟨op, hop, ht⟩)
  refine ⟨srcs, p', tickets C, hissue, ⟨by simp [tickets, hb.length_eq], fun l L hL => ?_, fun l L hL => ?_,
    fun l L hL t ht => ?_, fun t ht => ?_, fun G l L₀ L prev bp bp₁ bp₂ hL hrun hend => ?_⟩, ?_⟩
  · have hlt : l < C.length := by
      rw [← hb.length_eq]
      exact (List.getElem?_eq_some_iff.mp hL).1
    refine ⟨C.tickets l, ?_, (relaying_tickets hb hr hL).issuing, layer_wellFormed hb hr hC hL (hne l L hL)⟩
    simp [tickets, hlt]
  · rw [getD_tickets]
    exact hreads l L hL
  · rw [getD_tickets] at ht
    have hlt : l+1 < p'.layers.length := by
      by_contra hge
      rw [Circuit.tickets, layer_of_le (by rw [← hb.length_eq]; omega)] at ht
      exact absurd ht List.not_mem_nil
    have hnext := List.getElem?_eq_getElem hlt
    obtain ⟨-, htiled, -⟩ := layer_wellFormed hb hr hC hnext (hne _ _ hnext)
    have hnodup := nodup_of_before htiled.disjoint fun u hu => (htiled.within u hu).2
    rw [← (hperm l L hL).count_eq]
    exact List.count_eq_one_of_mem hnodup ht
  · rw [getD_tickets]
    obtain ⟨i, hi, hget⟩ := List.getElem_of_mem ht
    have hi' := hi
    rw [← hsrcs.length_eq] at hi'
    have hm := (List.forall₂_iff_get.mp hsrcs).2 i hi' hi
    simp only [List.get_eq_getElem, hget] at hm
    cases hsrc : (Request.buildAll [] rs).1[i] with
    | input len s =>
      rw [hsrc] at hm
      exact hm.elim
    | takeZ t' =>
      rw [hsrc] at hm
      obtain rfl : t' = t := hm
      exact hreturned _ (hsrc ▸ List.getElem_mem hi') t' (by simp [Source.tickets])
  · exact layer_checked hb hr hC hL (hreads l L₀ hL) hrun hend
  · rw [hb.length_eq, hlen, hdepth]
    exact max_eq_right (Nat.zero_le _)

/-- A one-hot vector of five bits between two conjunctions needs three layers. -/
theorem issue_wellFormed_three : ∃ (x : BitArray) (v : BooleanValue) (srcs : List LayerSource) (p' : MpcProvider)
    (tss : List (List Ticket)), x.bitSize = 11 ∧ v.bitLen = 5 ∧
    (MpcProvider.new true .new .new).issue [.and 11 (.input x) (.input x), .oheVec v, .and 11 (.input x) (.input x)] =
      some (srcs, p') ∧ p'.WellFormed srcs tss ∧ p'.layers.length = 3 := by
  obtain ⟨x, -, hx⟩ := new_eq (s := 11) (by decide)
  have hand : (Call.and 11 (.input x) (.input x)).Valid := ⟨by decide, ⟨hx.toWF, hx.bitSize_eq⟩, hx.toWF, hx.bitSize_eq⟩
  obtain ⟨srcs, p', tss, hissue, hwf, hlen⟩ := issue_wellFormed (.new true .new .new) rfl
    [.and 11 (.input x) (.input x), .oheVec ⟨5, 19, by decide, by decide⟩, .and 11 (.input x) (.input x)] (by
      simp only [List.mem_cons, List.not_mem_nil, or_false, forall_eq_or_imp, forall_eq]
      exact ⟨hand, show 1 ≤ 5 by decide, hand⟩)
  have hclog : Nat.clog 2 5 = 3 := by decide
  refine ⟨x, ⟨5, 19, by decide, by decide⟩, srcs, p', tss, hx.bitSize_eq, rfl, hissue, hwf, ?_⟩
  rw [hlen]
  simp [Call.depth, hclog]

end MpcProvider
end PrivRecCert.Prc
