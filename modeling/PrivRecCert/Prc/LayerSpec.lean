import PrivRecCert.Prc.OpEffect
import PrivRecCert.Sharing.Additive

/-! What a layer computes. A layer that was built for a list of gates routes its inputs into the
streams of these gates, broadcasts the blinded streams, and ends with a share of their
conjunction. -/
namespace PrivRecCert.Prc
open CorRnd SimdArray Rounds BitArray Sharing

/-- A source of the circuit, as data of one party. -/
def SourceMatches : Source Bits → LayerSource → Prop
  | .input len s, .input data => data.Represents len s
  | .takeZ t, .takeZ t' => t = t'
  | _, _ => False

/-- The operation that fills one stream of a gate. -/
def OpMatches (f : Feed Bits) (out : LayerDest) (op : MpcOperation) : Prop :=
  ∃ inp, SourceMatches f.src inp ∧ op = f.spread.op inp out

/-- The operations of the gates of layer `l`, from byte `st` on. -/
inductive OpsMatch (l : ℕ) : ℕ → List (Gate Bits) → List MpcOperation → Prop
  | nil (st) : OpsMatch l st [] []
  | cons {st g gs ox oy ops} (hx : OpMatches (g.feed false) (.relay (gateTicket l st g.size) 0) ox)
      (hy : OpMatches (g.feed true) (.relay (gateTicket l st g.size) 1) oy)
      (hrest : OpsMatch l (st + divCeil g.size 8) gs ops) : OpsMatch l st (g :: gs) (ox :: oy :: ops)

theorem OpsMatch.append {l st : ℕ} {gs : List (Gate Bits)} {ops : List MpcOperation}
    (h : OpsMatch l st gs ops) {g : Gate Bits} {ox oy : MpcOperation}
    (hx : OpMatches (g.feed false) (.relay (gateTicket l (st + layerBytes gs) g.size) 0) ox)
    (hy : OpMatches (g.feed true) (.relay (gateTicket l (st + layerBytes gs) g.size) 1) oy) :
    OpsMatch l st (gs ++ [g]) (ops ++ [ox, oy]) := by
  induction h with
  | nil st => exact .cons hx hy (.nil _)
  | cons hx' hy' _ ih =>
    rw [layerBytes_cons, ← Nat.add_assoc] at hx hy
    exact .cons hx' hy' (ih hx hy)

namespace Layer

/-- A layer in its ticketing phase that was built for the gates `gs`. -/
structure Ticketed (L : Layer) (partyConst : Bool) (l : ℕ) (gs : List (Gate Bits)) : Prop where
  partyConst_eq : L.partyConst = partyConst
  layerNum_eq : L.layerNum = l
  currentSize_eq : L.currentSize = layerBytes gs
  state_eq : L.state = .ticketing
  operations : OpsMatch l 0 gs L.operations

/-- A finished layer of `bytes` bytes with outputs `z`. -/
structure Finished (L : Layer) (l bytes : ℕ) (z : Bits) : Prop where
  state_eq : L.state = .finished
  layerNum_eq : L.layerNum = l
  currentSize_eq : L.currentSize = bytes
  andData : ∃ d x y, L.andData = some d ∧ d.Represents (8*bytes) [x, y, z]

/-- The layer that the layer above `l` reads from; the deepest layer reads from none. -/
def Prev (prev : Option Layer) (l bytes : ℕ) (z : Bits) : Prop :=
  match prev with
  | none => bytes = 0
  | some P => P.Finished l bytes z

/-- What a ticket holds of the outputs `z`. -/
def ticketBits (t : Ticket) (z : Bits) (k : ℕ) : Bool :=
  if k < 8*(t.endByte - t.stBit/8) then z (k + t.stBit) else false

theorem readOutput_eq {P : Layer} {l bytes : ℕ} {z : Bits} (hP : P.Finished l bytes z) {t : Ticket}
    (ht : (Source.takeZ t : Source Bits).Valid l bytes) : ∃ r, P.readOutput t = some r ∧
      r.Represents (t.endBit - t.stBit) (ticketBits t z) := by
  obtain ⟨hl, hst, hlt, hend⟩ := ht
  obtain ⟨d, x, y, hd, hdr⟩ := hP.andData
  obtain ⟨c, hc, hcr⟩ := D2BitArray.getArray_eq (j := 2) hdr rfl
  have hendByte : t.endByte = (t.endBit+7)/8 := rfl
  rw [divCeil_eight] at hend
  obtain ⟨out, hout, houtr⟩ := toSlice_eq hcr (u := t.stBit/8) (v := t.endByte)
    (by omega) (by omega)
  obtain ⟨r, hr, hrr⟩ := shrinkToPartialLastByte_eq houtr (t := t.endBit - t.stBit)
    (by omega) (by omega)
  have hcheck : P.checkTicket t = some () := by
    have hn : ¬ t.endByte > bytes := by omega
    simp [checkTicket, hP.state_eq, hP.layerNum_eq, hP.currentSize_eq, hl, hn]
  refine ⟨r, ?_, hrr.congr fun k => ?_⟩
  · simp [readOutput, hP.state_eq, hcheck, hd, hc, Ticket.stByte, hst, hout, hr]
  · have hmul : 8*(t.stBit/8) = t.stBit := by omega
    rw [ticketBits, hmul]

theorem ticketBits_of_lt {l bytes : ℕ} {t : Ticket} (ht : (Source.takeZ t : Source Bits).Valid l bytes)
    (z : Bits) {p : ℕ} (hp : p < t.endBit - t.stBit) : ticketBits t z p = z (t.stBit + p) := by
  obtain ⟨-, hst, -, -⟩ := ht
  have hendByte : t.endByte = (t.endBit+7)/8 := rfl
  rw [ticketBits, if_pos (by omega), Nat.add_comm]

/-- The data of a source agrees with the circuit on its whole length. -/
theorem extractSrcData_eq {src : Source Bits} {inp : LayerSource} {prev : Option Layer} {l bytes : ℕ}
    {z : Bits} (hsrc : SourceMatches src inp) (hv : src.Valid l bytes) (hprev : Prev prev l bytes z) :
    ∃ data g, extractSrcData inp prev = some data ∧ data.Represents src.len g ∧
      ∀ p < src.len, g p = src.bits z p := by
  cases src with
  | input len s =>
    cases inp with
    | input data => exact ⟨data, s, rfl, hsrc, fun _ _ => rfl⟩
    | takeZ t => exact hsrc.elim
  | takeZ t =>
    cases inp with
    | input data => exact hsrc.elim
    | takeZ t' =>
      obtain rfl : t = t' := hsrc
      cases prev with
      | none =>
        obtain rfl : bytes = 0 := hprev
        obtain ⟨-, -, hlt, hend⟩ := hv
        rw [divCeil_eight] at hend
        omega
      | some P =>
        obtain ⟨r, hr, hrr⟩ := readOutput_eq hprev hv
        exact ⟨r, _, by simpa [extractSrcData] using hr, hrr, fun p hp => ticketBits_of_lt hv z hp⟩

section Execute
variable {L : Layer} {prev : Option Layer} {l bytes st : ℕ} {z X Y Z : Bits} {d : D2BitArray}
variable {fs : List Bits}

theorem checkTicket_gate (hstate : L.state = .dataInitialized) (hl : L.layerNum = l) {size : ℕ}
    (hend : st + divCeil size 8 ≤ L.currentSize) : L.checkTicket (gateTicket l st size) = some () := by
  have hendByte : (gateTicket l st size).endByte = (st*8+size+7)/8 := rfl
  have hn : ¬ (gateTicket l st size).endByte > L.currentSize := by
    rw [divCeil_eight] at hend
    omega
  simp only [gateTicket] at hn
  simp [checkTicket, hstate, hl, gateTicket, hn]

/-- One operation fills its stream of its gate. -/
theorem execOperation_eq {f : Feed Bits} {y size : ℕ} {op : MpcOperation}
    (hop : OpMatches f (.relay (gateTicket l st size) y) op) (hf : f.Valid (l+1) bytes size)
    (hsize : 0 < size) (hprev : Prev prev (l+1) bytes z) (hstate : L.state = .dataInitialized)
    (hl : L.layerNum = l) (hd : L.andData = some d) (hdr : d.Represents (8*L.currentSize) fs)
    (hy : y ≤ 1) (hX : fs[y]? = some X) (hend : st + divCeil size 8 ≤ L.currentSize) :
    ∃ d', L.execOperation op prev = some { L with andData := some d' } ∧
      d'.Represents (8*L.currentSize) (fs.set y fun k =>
        if 8*st ≤ k ∧ k < 8*st + size then f.bits z (k - 8*st) else X k) := by
  obtain ⟨inp, hinp, rfl⟩ := hop
  obtain ⟨hsrc, hspan⟩ := hf
  obtain ⟨data, g, hdata, hdatar, hg⟩ := extractSrcData_eq hinp hsrc hprev
  have hst : (gateTicket l st size).stBit = 8*st := Nat.mul_comm st 8
  have hproper : f.spread.Proper := by
    cases hsp : f.spread with
    | copy => trivial
    | replicate n => trivial
    | expand n =>
      rw [hsp] at hspan
      apply Nat.pos_of_ne_zero
      intro h0
      rw [h0, Spread.span, Nat.mul_zero] at hspan
      omega
  have hroom := size_le_divCeil size
  obtain ⟨r, hrr, hexec⟩ := execOperation_spliced (checkTicket_gate hstate hl hend) hd hdr hy hX hdata hdatar
    hproper (by rw [hst, hspan]; omega)
  refine ⟨d.setArray y r, hexec, D2BitArray.setArray_represents hdr (hrr.congr fun k => ?_) y⟩
  rw [Spread.spliced, hst, hspan]
  split_ifs with hk
  · exact hg _ (f.spread.pos_lt (by omega))
  · rfl

/-- The operations, last one first, fill the streams of all gates. -/
theorem execLoop_eq {gs : List (Gate Bits)} {ops : List MpcOperation} (hops : OpsMatch l st gs ops)
    (hgs : ∀ g ∈ gs, g.Valid (l+1) bytes) (hprev : Prev prev (l+1) bytes z)
    (hstate : L.state = .dataInitialized) (hl : L.layerNum = l) (hd : L.andData = some d)
    (hdr : d.Represents (8*L.currentSize) [X, Y, Z]) (hend : st + layerBytes gs ≤ L.currentSize) :
    ∃ d', ops.reverse.foldlM (fun L op => L.execOperation op prev) L = some { L with andData := some d' } ∧
      d'.Represents (8*L.currentSize) [stream false z X st gs, stream true z Y st gs, Z] := by
  induction hops with
  | nil st => exact ⟨d, by rw [← hd]; rfl, hdr⟩
  | @cons st g gs ox oy ops hx hy _ ih =>
    rw [layerBytes_cons] at hend
    have hg := hgs g (by simp)
    obtain ⟨d₁, h₁, hr₁⟩ := ih (fun g' hg' => hgs g' (by simp [hg'])) (by omega)
    obtain ⟨d₂, h₂, hr₂⟩ := execOperation_eq (L := { L with andData := some d₁ }) hy (hg.2 true) hg.1
      hprev hstate hl rfl hr₁ le_rfl rfl (show st + divCeil g.size 8 ≤ L.currentSize by omega)
    obtain ⟨d₃, h₃, hr₃⟩ := execOperation_eq (L := { L with andData := some d₂ }) hx (hg.2 false) hg.1
      hprev hstate hl rfl hr₂ (Nat.zero_le 1) rfl (show st + divCeil g.size 8 ≤ L.currentSize by omega)
    refine ⟨d₃, ?_, hr₃⟩
    rw [List.reverse_cons, List.reverse_cons, List.append_assoc, List.foldlM_append, h₁]
    simp [h₂, h₃]

end Execute

/-- A layer of `m` bytes in state `st`, with the contents of its input and output streams and of
its Beaver streams. -/
structure Data (L : Layer) (partyConst : Bool) (l m : ℕ) (st : LayerState) (ands beavers : List Bits) :
    Prop where
  partyConst_eq : L.partyConst = partyConst
  layerNum_eq : L.layerNum = l
  currentSize_eq : L.currentSize = m
  state_eq : L.state = st
  andData : ∃ d, L.andData = some d ∧ d.Represents (8*m) ands
  beaverData : ∃ d, L.beaverData = some d ∧ d.Represents (8*m) beavers

/-- A party's share of the conjunction of `x` and `y`. -/
def andShare (partyConst : Bool) (x y u v c : Bits) : Bits := fun k =>
  (((if partyConst then u k && v k else false) ^^ (u k && y k)) ^^ (v k && x k)) ^^ c k

section Phases
variable {L : Layer} {prev : Option Layer} {pc : Bool} {l m below s used : ℕ} {st : LayerState}
variable {x y z a b c u v : Bits} {ands beavers : List Bits} {gs : List (Gate Bits)}
variable {bp : BeaverProvider}

open BeaverProvider in
theorem endTicketingPhase_eq (hL : L.Ticketed pc l gs) (hm : 0 < layerBytes gs)
    (hbp : bp.Holds s [a, b, c] used) (hroom : used + layerBytes gs ≤ (s+7)/8) :
    ∃ L' bp', L.endTicketingPhase bp = some (L', bp') ∧
      L'.Data pc l (layerBytes gs) .dataInitialized [fun _ => false, fun _ => false, fun _ => false]
        [slice a used (layerBytes gs), slice b used (layerBytes gs), slice c used (layerBytes gs)] ∧
      L'.operations = L.operations ∧ bp'.Holds s [a, b, c] (used + layerBytes gs) := by
  obtain ⟨z, hz, hzr⟩ := D2BitArray.zeros_eq (s := 8*layerBytes gs) 3 (by omega)
  obtain ⟨d, bp', htake, hdr, hbp'⟩ := take_eq hbp (by simp) hroom
  refine ⟨{ L with andData := some z, beaverData := some d, state := .dataInitialized }, bp', ?_,
    ⟨hL.partyConst_eq, hL.layerNum_eq, hL.currentSize_eq, rfl, ⟨z, rfl, hzr⟩, ⟨d, rfl, hdr⟩⟩, rfl, hbp'⟩
  simp [endTicketingPhase, hL.state_eq, hL.currentSize_eq, Nat.mul_comm _ 8, hz, htake]

theorem executeOperations_eq (hL : L.Data pc l (layerBytes gs) .dataInitialized [x, y, z] beavers)
    (hops : OpsMatch l 0 gs L.operations) (hgs : ∀ g ∈ gs, g.Valid (l+1) below) {zprev : Bits}
    (hprev : Prev prev (l+1) below zprev) : ∃ L', L.executeOperations prev = some L' ∧
      L'.Data pc l (layerBytes gs) .operationsExecuted
        [stream false zprev x 0 gs, stream true zprev y 0 gs, z] beavers := by
  obtain ⟨d, hd, hdr⟩ := hL.andData
  obtain ⟨d', hloop, hdr'⟩ := execLoop_eq (L := { L with operations := [] }) hops hgs hprev
    hL.state_eq hL.layerNum_eq hd (by rw [hL.currentSize_eq]; exact hdr) (by
      rw [Nat.zero_add]
      exact hL.currentSize_eq.ge)
  rw [hL.currentSize_eq] at hdr'
  refine ⟨{ L with operations := [], andData := some d', state := .operationsExecuted }, ?_,
    hL.partyConst_eq, hL.layerNum_eq, hL.currentSize_eq, rfl, ⟨d', rfl, hdr'⟩, hL.beaverData⟩
  rw [executeOperations, if_pos hL.state_eq, hloop]
  rfl

theorem blindAndWithBeaver_eq (hL : L.Data pc l m .operationsExecuted [x, y, z] [a, b, c]) :
    ∃ L', L.blindAndWithBeaver = some L' ∧ L'.Data pc l m .sendingBeaverShares [x, y, z]
      [fun k => a k ^^ x k, fun k => b k ^^ y k, c] := by
  obtain ⟨d, hd, hdr⟩ := hL.andData
  obtain ⟨e, he, her⟩ := hL.beaverData
  obtain ⟨xa, ya, za, -, hunpack, hx, hy, -⟩ := D2BitArray.unpackAsBeaver_eq hdr
  obtain ⟨aa, ba, ca, -, hunpack', ha, hb, hc⟩ := D2BitArray.unpackAsBeaver_eq her
  obtain ⟨a', ha', har⟩ := inplaceXor_eq ha hx
  obtain ⟨b', hb', hbr⟩ := inplaceXor_eq hb hy
  refine ⟨{ L with beaverData := some ⟨[a', b', ca]⟩, state := .sendingBeaverShares }, ?_,
    hL.partyConst_eq, hL.layerNum_eq, hL.currentSize_eq, rfl, hL.andData,
    ⟨_, rfl, .cons har (.cons hbr (.cons hc .nil))⟩⟩
  simp [blindAndWithBeaver, hL.state_eq, hd, he, hunpack, hunpack', ha', hb']

theorem getBeaverOutShares_eq (hL : L.Data pc l m st ands [u, v, c]) (hm : 0 < m) :
    ∃ d, L.getBeaverOutShares = some d ∧ d.Represents (8*m) [u, v] := by
  obtain ⟨d, hd, hdr⟩ := hL.beaverData
  obtain ⟨ua, va, ca, -, hunpack, hu, hv, -⟩ := D2BitArray.unpackAsBeaver_eq hdr
  have hu' := BitArray.clone_eq hu (by omega)
  have hv' := BitArray.clone_eq hv (by omega)
  exact ⟨⟨[ua, va]⟩, by simp [getBeaverOutShares, hd, hunpack, hu', hv'], .cons hu (.cons hv .nil)⟩

/-- A received share of `m` bytes holds a pair of streams. -/
def SharePair (m : ℕ) (d : D2BitArray) (fg : Bits × Bits) : Prop := d.Represents (8*m) [fg.1, fg.2]

theorem reconsBeaverUv_eq (hL : L.Data pc l m .sendingBeaverShares ands [u, v, c])
    {shares : List D2BitArray} {fgs : List (Bits × Bits)} (hs : List.Forall₂ (SharePair m) shares fgs) :
    ∃ L', L.reconsBeaverUv shares = some L' ∧ L'.Data pc l m .beaverSharesReceived ands
      [opened u (fgs.map Prod.fst), opened v (fgs.map Prod.snd), c] := by
  obtain ⟨d, hd, hdr⟩ := hL.beaverData
  have hfold : ∃ d', shares.foldlM D2BitArray.beaverXorD2 d = some d' ∧ d'.Represents (8*m)
      [opened u (fgs.map Prod.fst), opened v (fgs.map Prod.snd), c] := by
    clear hd hL
    induction hs generalizing d u v with
    | nil => exact ⟨d, rfl, hdr⟩
    | @cons e fg es fgs he _ ih =>
      obtain ⟨d₁, hd₁, hdr₁⟩ := D2BitArray.beaverXorD2_eq hdr he
      obtain ⟨d₂, hd₂, hdr₂⟩ := ih d₁ hdr₁
      exact ⟨d₂, by simp [hd₁, hd₂], hdr₂⟩
  obtain ⟨d', hfold, hdr'⟩ := hfold
  refine ⟨{ L with beaverData := some d', state := .beaverSharesReceived }, ?_,
    hL.partyConst_eq, hL.layerNum_eq, hL.currentSize_eq, rfl, hL.andData, ⟨d', rfl, hdr'⟩⟩
  simp [reconsBeaverUv, hL.state_eq, hd, hfold]

theorem finishAndExchange_eq
    (hL : L.Data pc l m .beaverSharesReceived [x, y, fun _ => false] [u, v, c]) :
    ∃ L', L.finishAndExchange = some L' ∧ L'.Finished l m (andShare pc x y u v c) := by
  obtain ⟨d, hd, hdr⟩ := hL.andData
  obtain ⟨e, he, her⟩ := hL.beaverData
  obtain ⟨xa, ya, za, -, hunpack, hx, hy, hz⟩ := D2BitArray.unpackAsBeaver_eq hdr
  obtain ⟨ua, va, ca, -, hunpack', hu, hv, hc⟩ := D2BitArray.unpackAsBeaver_eq her
  have hz₁ : ∃ z₁, (if L.partyConst then za.mutAnd ua va else some za) = some z₁ ∧
      z₁.Represents (8*m) fun k => if pc then u k && v k else false := by
    rw [hL.partyConst_eq]
    cases pc with
    | true => simpa using BitArray.mutAnd_eq hz hu hv
    | false => exact ⟨za, rfl, hz⟩
  obtain ⟨z₁, hz₁, hzr₁⟩ := hz₁
  obtain ⟨u', hu', hur⟩ := inplaceAnd_eq hu hy
  obtain ⟨v', hv', hvr⟩ := inplaceAnd_eq hv hx
  obtain ⟨z₂, hz₂, hzr₂⟩ := inplaceXor_eq hzr₁ hur
  obtain ⟨z₃, hz₃, hzr₃⟩ := inplaceXor_eq hzr₂ hvr
  obtain ⟨z₄, hz₄, hzr₄⟩ := inplaceXor_eq hzr₃ hc
  let L' : Layer := { L with
    andData := some ⟨[xa, ya, z₄]⟩
    beaverData := some ⟨[u', v', ca]⟩
    state := .finished }
  refine ⟨L', ?_, rfl, hL.layerNum_eq, hL.currentSize_eq,
    ⟨⟨[xa, ya, z₄]⟩, x, y, rfl, .cons hx (.cons hy (.cons hzr₄ .nil))⟩⟩
  cases hp : L.partyConst with
  | true =>
    rw [hp, if_pos rfl] at hz₁
    simp [finishAndExchange, hL.state_eq, hd, he, hunpack, hunpack', hp, hz₁, hu', hv', hz₂, hz₃, hz₄, L']
  | false =>
    obtain rfl : za = z₁ := by simpa [hp] using hz₁
    simp [finishAndExchange, hL.state_eq, hd, he, hunpack, hunpack', hp, hu', hv', hz₂, hz₃, hz₄, L']

end Phases

section Interact
variable {G : Type} {L : Layer} {prev : Option Layer} {pc : Bool} {l below s used : ℕ}
variable {z a b c : Bits} {gs : List (Gate Bits)} {bp : BeaverProvider}

/-- A stored payload of the Beaver exchange. -/
def BeaverMsg (m : ℕ) (msg : Msg G) (fg : Bits × Bits) : Prop :=
  ∃ e : BeaverShare, msg = .beaver e ∧ SharePair m e.1 fg

theorem BeaverMsg.mapM {m : ℕ} {msgs : List (Msg G)} {fgs : List (Bits × Bits)}
    (h : List.Forall₂ (BeaverMsg m) msgs fgs) :
    ∃ shares, msgs.mapM Msg.asBeaver = some shares ∧ List.Forall₂ (SharePair m) shares fgs := by
  induction h with
  | nil => exact ⟨[], rfl, .nil⟩
  | cons hm _ ih =>
    obtain ⟨e, rfl, he⟩ := hm
    obtain ⟨shares, hshares, hrest⟩ := ih
    exact ⟨e.1 :: shares, by simp [List.mapM_cons, Msg.asBeaver, hshares], .cons he hrest⟩

open BeaverProvider in
/-- One layer at one party: what it broadcasts, and what it computes from what it receives. -/
theorem interact_eq (hL : L.Ticketed pc l gs) (hgs : ∀ g ∈ gs, g.Valid (l+1) below)
    (hprev : Prev prev (l+1) below z) (hm : 0 < layerBytes gs) (hbp : bp.Holds s [a, b, c] used)
    (hroom : used + layerBytes gs ≤ (s+7)/8) :
    let m := layerBytes gs
    let x := stream false z (fun _ => false) 0 gs
    let y := stream true z (fun _ => false) 0 gs
    let u : Bits := fun k => slice a used m k ^^ x k
    let v : Bits := fun k => slice b used m k ^^ y k
    ∃ (d : BeaverShare) (k : List (Msg G) → Party G (Layer × BeaverProvider)),
      L.interact prev bp = .send (.beaver d) (.recv .beaver k) ∧ d.1.Represents (8*m) [u, v] ∧
      ∀ msgs fgs, List.Forall₂ (BeaverMsg m) msgs fgs → ∃ L' bp', k msgs = .ret (L', bp') ∧
        L'.Finished l m (andShare pc x y (opened u (fgs.map Prod.fst)) (opened v (fgs.map Prod.snd))
          (slice c used m)) ∧ bp'.Holds s [a, b, c] (used+m) := by
  intro m x y u v
  obtain ⟨L₁, bp', h₁, hd₁, hops, hbp'⟩ := endTicketingPhase_eq hL hm hbp hroom
  obtain ⟨L₂, h₂, hd₂⟩ := executeOperations_eq hd₁ (hops ▸ hL.operations) hgs hprev
  obtain ⟨L₃, h₃, hd₃⟩ := blindAndWithBeaver_eq hd₂
  obtain ⟨d, hd, hdr⟩ := getBeaverOutShares_eq hd₃ hm
  have hlen : 2 ≤ d.arrays.length := hdr.length.ge
  refine ⟨⟨d, hlen⟩, fun l => do
    let recShares ← .lift (l.mapM Msg.asBeaver)
    let L ← .lift (L₃.reconsBeaverUv recShares)
    let L ← .lift L.finishAndExchange
    return (L, bp'), ?_, hdr, fun msgs fgs hmsgs => ?_⟩
  · simp only [interact, h₁, h₂, h₃, hd, Proc.lift_some, Proc.ret_bind, sendBeaverShares, dif_pos hlen,
      Proc.send_bind, receiveBeaverShares, Proc.recv_bind]
  · obtain ⟨shares, hshares, hpairs⟩ := BeaverMsg.mapM hmsgs
    obtain ⟨L₄, h₄, hd₄⟩ := reconsBeaverUv_eq hd₃ hpairs
    obtain ⟨L₅, h₅, hd₅⟩ := finishAndExchange_eq hd₄
    refine ⟨L₅, bp', ?_, hd₅, hbp'⟩
    simp only [hshares, h₄, h₅, Proc.lift_some, Proc.ret_bind, Proc.pure_eq]

end Interact
end Layer
end PrivRecCert.Prc
