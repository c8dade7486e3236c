import PrivRecCert.Prc.Alike

/-! One layer of a run, for all contents of its inputs and all masks at once. Whether it gets to its end
depends on sizes only. What it broadcasts depends on the masks, but what it reads from its inputs does
not, and after the exchange it knows of the masks only what it has broadcast. -/
namespace PrivRecCert.Prc
open CorRnd SimdArray BitArray Rounds

theorem LayerSource.Alike.left {src src' : LayerSource} (h : src.Alike src') : src.Alike src := by
  cases h with
  | input h => exact .input (.refl h.left)
  | takeZ t => exact .takeZ t

/-- `m` bytes of two streams. -/
abbrev Block (m : ℕ) : Type := (Fin (8*m) → Bool) × (Fin (8*m) → Bool)

def blockAt (a b : Bits) (u m : ℕ) : Block m := (fun k => a (k + 8*u), fun k => b (k + 8*u))

/-- Blinding by two streams. -/
def pad (x y : Bits) (m : ℕ) : Block m ≃ Block m :=
  Function.Involutive.toPerm (fun B => (fun k => B.1 k ^^ x k, fun k => B.2 k ^^ y k)) fun B =>
    Prod.ext (funext fun k => by simp) (funext fun k => by simp)

/-- Bits of a stream, the first `8*m` ones given. -/
def patch {m : ℕ} (w : Fin (8*m) → Bool) (x : Bits) : Bits := fun k => if h : k < 8*m then w ⟨k, h⟩ else x k

theorem patch_pad (a x : Bits) (used m k : ℕ) :
    patch (fun i : Fin (8*m) => a (i + 8*used) ^^ x i) x k = (BeaverProvider.slice a used m k ^^ x k) := by
  rw [patch, BeaverProvider.slice]
  by_cases hk : k < 8*m
  · rw [dif_pos hk, if_pos hk]
  · rw [dif_neg hk, if_neg hk, Bool.false_xor]

namespace Layer
variable {L L' P P' : Layer} {prev prev' : Option Layer} {l m bytes : ℕ} {x y z z' : Bits}

theorem Alike.left (h : L.Alike L') : L.Alike L := by
  refine ⟨rfl, rfl, rfl, rfl, List.forall₂_same.mpr fun op hop => ?_⟩
  obtain ⟨i, hi⟩ := List.getElem?_of_mem hop
  obtain ⟨op', -, hA⟩ := forall₂_getElem? h.operations hi
  exact ⟨rfl, rfl, hA.inp.left⟩

/-- The layers that two runs read from: none, or finished layers of one size. -/
inductive PrevAlike : Option Layer → Option Layer → Prop
  | none : PrevAlike none none
  | some {P P' : Layer} {l bytes : ℕ} {z z' : Bits} (h : P.Finished l bytes z) (h' : P'.Finished l bytes z') :
      PrevAlike (some P) (some P')

theorem PrevAlike.left (h : PrevAlike prev prev') : PrevAlike prev prev := by
  cases h with
  | none => exact .none
  | some h _ => exact .some h h

theorem readOutput_alike (hP : P.Finished l bytes z) (hP' : P'.Finished l bytes z') {t : Ticket} {r : BitArray}
    (h : P.readOutput t = some r) : ∃ r', P'.readOutput t = some r' ∧ r.Alike r' := by
  obtain ⟨d, _, _, hd, hdr⟩ := hP.andData
  obtain ⟨d', _, _, hd', hdr'⟩ := hP'.andData
  obtain ⟨c, hc, hcr⟩ := D2BitArray.getArray_eq (j := 2) hdr rfl
  obtain ⟨c', hc', hcr'⟩ := D2BitArray.getArray_eq (j := 2) hdr' rfl
  have hcheck : P'.checkTicket t = P.checkTicket t := by
    simp only [checkTicket, hP.state_eq, hP'.state_eq, hP.layerNum_eq, hP'.layerNum_eq, hP.currentSize_eq,
      hP'.currentSize_eq]
  rw [readOutput, if_pos hP.state_eq] at h
  simp only [hd, hc, Option.bind_eq_bind, Option.bind_some, Option.bind_eq_some_iff] at h
  obtain ⟨_, hticket, st, hst, out, hout, hshrink⟩ := h
  obtain ⟨out', hout', hA, hbytes⟩ := toSlice_alike (hcr.alike hcr') hout
  obtain ⟨r', hr', hA'⟩ := shrinkToPartialLastByte_alike hA hbytes hshrink
  refine ⟨r', ?_, hA'⟩
  rw [readOutput, if_pos hP'.state_eq, hcheck]
  simp only [hticket, hd', hc', hst, hout', hr', Option.bind_eq_bind, Option.bind_some]

theorem extractSrcData_alike (hprev : PrevAlike prev prev') {src src' : LayerSource} (hsrc : src.Alike src')
    {data : BitArray} (h : extractSrcData src prev = some data) :
    ∃ data', extractSrcData src' prev' = some data' ∧ data.Alike data' := by
  cases hsrc with
  | input hA =>
    obtain rfl := Option.some.inj h
    exact ⟨_, rfl, hA⟩
  | takeZ t =>
    cases hprev with
    | none => exact nomatch h
    | some hP hP' => exact readOutput_alike hP hP' h

/-- A layer whose operations are being executed, with data `d`. -/
structure Loaded (L : Layer) (l m : ℕ) (d : D2BitArray) : Prop where
  state_eq : L.state = .dataInitialized
  layerNum_eq : L.layerNum = l
  currentSize_eq : L.currentSize = m
  andData_eq : L.andData = some d

section Exec
variable {op op' : MpcOperation} {t : Ticket} {ts : List Ticket} {d d' : D2BitArray} {X Y Z X' Y' Z' : Bits}
  {data : BitArray} {i : ℕ}

theorem Loaded.checkTicket (hL : L.Loaded l m d) (ht : t.Within l m) : L.checkTicket t = some () := by
  have hend : ¬ t.endByte > m := by
    have := ht.endByte_le
    omega
  simp [Layer.checkTicket, hL.state_eq, hL.layerNum_eq, hL.currentSize_eq, ht.layerNum_eq, hend]

theorem Loaded.holding (hL : L.Loaded l m d) (hd : d.Represents (8*m) [X, Y, Z]) : L.Holding .dataInitialized l m := by
  refine ⟨hL.state_eq, hL.layerNum_eq, hL.currentSize_eq, d, hL.andData_eq, hd.length, fun a ha => ?_⟩
  obtain ⟨j, hj, rfl⟩ := List.getElem_of_mem ha
  have har := (List.forall₂_iff_get.mp hd).2 j hj (by rwa [← hd.length])
  exact ⟨har.toWF, har.bitSize_eq⟩

/-- An operation that fits changes the data, in a way that depends on nothing else of the layer. -/
theorem execOperation_loaded (hout : op.out = .relay t i) (ht : t.Within l m) (hi : i ≤ 1) (hsp : op.spread.Proper)
    (hdata : extractSrcData op.inp prev = some data) (hwf : data.WF)
    (hfit : t.stBit + op.spread.span data.bitSize ≤ 8*m) (hd : d.Represents (8*m) [X, Y, Z]) :
    ∃ d' X' Y', d'.Represents (8*m) [X', Y', Z] ∧ ∀ K : Layer, K.Loaded l m d →
      K.execOperation op prev = some { K with andData := some d' } := by
  have hspliced : ∀ W, [X, Y, Z][i]? = some W → ∀ K : Layer, K.Loaded l m d → ∃ r : BitArray,
      r.Represents (8*m) (op.spread.spliced data.bitSize t.stBit data.bit W) ∧
        K.execOperation op prev = some { K with andData := some (d.setArray i r) } := fun W hW K hK => by
    have h := execOperation_spliced (hK.checkTicket ht) hK.andData_eq hd hi hW hdata (Represents.of_wf hwf) hsp hfit
    rwa [← hout, op.op_spread] at h
  obtain ⟨W, hW⟩ : ∃ W, [X, Y, Z][i]? = some W := by
    rcases Nat.le_one_iff_eq_zero_or_eq_one.mp hi with rfl | rfl
    · exact ⟨X, rfl⟩
    · exact ⟨Y, rfl⟩
  obtain ⟨r, hr, -⟩ := hspliced W hW ⟨false, l, m, .dataInitialized, some d, none, []⟩ ⟨rfl, rfl, rfl, rfl⟩
  have hall : ∀ K : Layer, K.Loaded l m d → K.execOperation op prev = some { K with andData := some (d.setArray i r) } :=
    fun K hK => by
      obtain ⟨r', hr', hexec⟩ := hspliced W hW K hK
      rwa [hr'.unique hr] at hexec
  have hset := D2BitArray.setArray_represents hd hr i
  rcases Nat.le_one_iff_eq_zero_or_eq_one.mp hi with rfl | rfl
  · exact ⟨_, _, _, hset, hall⟩
  · exact ⟨_, _, _, hset, hall⟩

/-- An operation that succeeds in one run succeeds in the other. -/
theorem execOperation_alike {L₁ : Layer} (hop : op.Alike op') (hprev : PrevAlike prev prev') (hts : ∀ t ∈ ts, t.Within l m)
    (hrelay : op.Relays ts) (hL : L.Loaded l m d) (hd : d.Represents (8*m) [X, Y, Z])
    (h : L.execOperation op prev = some L₁) (hd' : d'.Represents (8*m) [X', Y', Z']) :
    ∃ d₁ X₁ Y₁, d₁.Represents (8*m) [X₁, Y₁, Z'] ∧ ∀ K : Layer, K.Loaded l m d' →
      K.execOperation op' prev' = some { K with andData := some d₁ } := by
  obtain ⟨t, ht, i, hi, hout, hsp⟩ := hrelay
  obtain ⟨data, -, hdata, -⟩ := execOperation_inv h
  obtain ⟨data', hdata', hA⟩ := extractSrcData_alike hprev hop.inp hdata
  have hfit := execOperation_fits (hL.holding hd) h hout (hts t ht) hdata hA.left
  rw [hop.spread_eq] at hsp hfit
  rw [hA.bitSize_eq] at hfit
  exact execOperation_loaded (hop.out_eq ▸ hout) (hts t ht) hi hsp hdata' hA.right hfit hd'

/-- The operations of a layer, one after the other. -/
theorem execLoop_alike {ops ops' : List MpcOperation} {L₁ : Layer} (hops : List.Forall₂ MpcOperation.Alike ops ops')
    (hprev : PrevAlike prev prev') (hts : ∀ t ∈ ts, t.Within l m) (hrelay : ∀ op ∈ ops, op.Relays ts)
    (hL : L.Loaded l m d) (hd : d.Represents (8*m) [X, Y, Z])
    (h : ops.foldlM (fun L op => L.execOperation op prev) L = some L₁) (hd' : d'.Represents (8*m) [X', Y', Z']) :
    ∃ d₁ X₁ Y₁, d₁.Represents (8*m) [X₁, Y₁, Z'] ∧ ∀ K : Layer, K.Loaded l m d' →
      ops'.foldlM (fun L op => L.execOperation op prev') K = some { K with andData := some d₁ } := by
  induction hops generalizing L d X Y d' X' Y' with
  | nil =>
    refine ⟨d', X', Y', hd', fun K hK => ?_⟩
    rw [← hK.andData_eq]
    rfl
  | @cons op op' ops ops' hop _ ih =>
    rw [List.foldlM_cons] at h
    obtain ⟨L₂, hexec, hrest⟩ := Option.bind_eq_some_iff.mp h
    have hself : op.Alike op := ⟨rfl, rfl, hop.inp.left⟩
    have hhead := hrelay op (by simp)
    obtain ⟨d₂, X₂, Y₂, hd₂, hall₂⟩ := execOperation_alike hself hprev.left hts hhead hL hd hexec hd
    obtain rfl : L₂ = { L with andData := some d₂ } := Option.some.inj (hexec.symm.trans (hall₂ L hL))
    obtain ⟨e, X₃, Y₃, he, halle⟩ := execOperation_alike hop hprev hts hhead hL hd hexec hd'
    obtain ⟨d₁, X₁, Y₁, hd₁, hall⟩ := ih (L := { L with andData := some d₂ }) (fun op hmem => hrelay op (by simp [hmem]))
      ⟨hL.state_eq, hL.layerNum_eq, hL.currentSize_eq, rfl⟩ hd₂ hrest he
    refine ⟨d₁, X₁, Y₁, hd₁, fun K hK => ?_⟩
    rw [List.foldlM_cons, halle K hK]
    exact hall { K with andData := some e } ⟨hK.state_eq, hK.layerNum_eq, hK.currentSize_eq, rfl⟩

end Exec

/-- The layer once its inputs are blinded. -/
def blinded (L : Layer) (d : D2BitArray) (u v c : BitArray) : Layer :=
  { L with operations := [], andData := some d, beaverData := some ⟨[u, v, c]⟩, state := .sendingBeaverShares }

variable {G : Type}

/-- The part of a layer's run after the exchange. -/
def settle (L : Layer) (msgs : List (Msg G)) : Option Layer := do
  let L ← L.reconsBeaverUv (← msgs.mapM Msg.asBeaver)
  L.finishAndExchange

section Exchange
variable {s used : ℕ} {a b c : Bits} {bp : BeaverProvider} {d d' : D2BitArray} {u v e u' v' e' : BitArray}

open BeaverProvider in
/-- A layer whose operations run: it broadcasts its inputs blinded by the next masks of the provider. -/
theorem interact_of_loop (hstate : L.state = .ticketing) (hm : 0 < L.currentSize) (hbp : bp.Holds s [a, b, c] used)
    (hroom : used + L.currentSize ≤ (s+7)/8) {zeros : D2BitArray}
    (hzeros : D2BitArray.zeros 3 (8*L.currentSize) = some zeros)
    (hloop : ∀ K : Layer, K.Loaded L.layerNum L.currentSize zeros →
      L.operations.reverse.foldlM (fun L op => L.execOperation op prev) K = some { K with andData := some d })
    (hd : d.Represents (8*L.currentSize) [x, y, z]) : ∃ (bp' : BeaverProvider) (u v e : BitArray),
      (L.interact prev bp : Party G _) = .send (.beaver ⟨⟨[u, v]⟩, le_rfl⟩) (.recv .beaver fun msgs =>
        .lift ((L.blinded d u v e).settle msgs) >>= fun L => .ret (L, bp')) ∧
      u.Represents (8*L.currentSize) (patch (pad x y _ (blockAt a b used L.currentSize)).1 x) ∧
      v.Represents (8*L.currentSize) (patch (pad x y _ (blockAt a b used L.currentSize)).2 y) ∧
      e.Represents (8*L.currentSize) (slice c used L.currentSize) ∧ bp'.Holds s [a, b, c] (used + L.currentSize) := by
  obtain ⟨taken, bp', htake, htr, hbp'⟩ := take_eq hbp (by simp) hroom
  obtain ⟨xa, ya, za, -, hunpack, hx, hy, -⟩ := D2BitArray.unpackAsBeaver_eq hd
  obtain ⟨aa, ba, ca, -, hunpack', ha, hb, hc⟩ := D2BitArray.unpackAsBeaver_eq htr
  obtain ⟨u, hu, hur⟩ := inplaceXor_eq ha hx
  obtain ⟨v, hv, hvr⟩ := inplaceXor_eq hb hy
  refine ⟨bp', u, v, ca, ?_, hur.congr fun k => (patch_pad a x used _ k).symm,
    hvr.congr fun k => (patch_pad b y used _ k).symm, hc, hbp'⟩
  have hend : L.endTicketingPhase bp = some ({ L with
      andData := some zeros, beaverData := some taken, state := .dataInitialized }, bp') := by
    rw [endTicketingPhase, if_pos hstate, Nat.mul_comm, hzeros, htake]
    rfl
  have hexec : Layer.executeOperations { L with
      andData := some zeros, beaverData := some taken, state := .dataInitialized } prev = some { L with
      andData := some d, beaverData := some taken, operations := [], state := .operationsExecuted } := by
    rw [executeOperations, if_pos rfl, hloop { L with
      andData := some zeros, beaverData := some taken, state := .dataInitialized, operations := [] } ⟨rfl, rfl, rfl, rfl⟩]
    rfl
  have hblind : Layer.blindAndWithBeaver { L with
      andData := some d, beaverData := some taken, operations := [], state := .operationsExecuted } =
      some (L.blinded d u v ca) := by
    rw [blindAndWithBeaver, if_pos rfl]
    simp only [hunpack, hunpack', hu, hv, Option.bind_eq_bind, Option.bind_some]
    rfl
  have hshares : (L.blinded d u v ca).getBeaverOutShares = some ⟨[u, v]⟩ := by
    simp [getBeaverOutShares, blinded, D2BitArray.unpackAsBeaver, clone_eq hur (by omega), clone_eq hvr (by omega)]
  have hlen : 2 ≤ (D2BitArray.mk [u, v]).arrays.length := le_rfl
  simp only [interact, hend, hexec, hblind, hshares, sendBeaverShares, dif_pos hlen, receiveBeaverShares, Proc.lift_some,
    Proc.ret_bind, Proc.send_bind, Proc.recv_bind]
  refine congrArg (Proc.send _) (congrArg (Proc.recv _) (funext fun msgs => ?_))
  cases hmap : msgs.mapM Msg.asBeaver with
  | none => simp [settle, hmap]
  | some shares =>
    cases hrecons : (L.blinded d u v ca).reconsBeaverUv shares with
    | none => simp [settle, hmap, hrecons]
    | some L₁ => simp [settle, hmap, hrecons]

/-- Shares that can be added to one pair of streams can be added to every pair of their size. -/
theorem beaverXor_alike (e' : BitArray) {shares : List D2BitArray} {r : D2BitArray} (hu : u.Alike u') (hv : v.Alike v')
    (h : shares.foldlM D2BitArray.beaverXorD2 ⟨[u, v, e]⟩ = some r) :
    ∃ u₁ v₁, shares.foldlM D2BitArray.beaverXorD2 ⟨[u', v', e']⟩ = some ⟨[u₁, v₁, e']⟩ ∧ u'.Alike u₁ ∧ v'.Alike v₁ := by
  induction shares generalizing u v u' v' with
  | nil => exact ⟨u', v', rfl, .refl hu.right, .refl hv.right⟩
  | cons share shares ih =>
    rw [List.foldlM_cons] at h
    obtain ⟨r₁, h₁, hrest⟩ := Option.bind_eq_some_iff.mp h
    obtain ⟨_ | ⟨p, _ | ⟨q, _ | _⟩⟩⟩ := share
    · cases h₁
    · cases h₁
    · obtain ⟨u₁, hu₁, h₁⟩ := Option.bind_eq_some_iff.mp h₁
      obtain ⟨v₁, hv₁, h₁⟩ := Option.bind_eq_some_iff.mp h₁
      obtain rfl := Option.some.inj h₁
      obtain ⟨hA, u₂, hu₂, hA'⟩ := inplaceXor_alike hu hu₁
      obtain ⟨hB, v₂, hv₂, hB'⟩ := inplaceXor_alike hv hv₁
      obtain ⟨u₃, v₃, hfold, hu₃, hv₃⟩ := ih (hA.symm.trans (hu.trans hA')) (hB.symm.trans (hv.trans hB')) hrest
      refine ⟨u₃, v₃, ?_, hA'.trans hu₃, hB'.trans hv₃⟩
      rw [List.foldlM_cons]
      simp only [D2BitArray.beaverXorD2, hu₂, hv₂, Option.bind_eq_bind, Option.bind_some]
      exact hfold
    · cases h₁

/-- A layer that can be settled with what was received can be settled with it whatever its contents are. -/
theorem settle_alike {msgs : List (Msg G)} {L₁ : Layer} {f g h : Bits}
    (hsettle : (L.blinded d u v e).settle msgs = some L₁)
    (hu : u.Alike u') (hv : v.Alike v') (hm : L'.currentSize = m) (hd' : d'.Represents (8*m) [x, y, fun _ => false])
    (hu' : u'.Represents (8*m) f) (hv' : v'.Represents (8*m) g) (he' : e'.Represents (8*m) h) :
    ∃ L₁' z', (L'.blinded d' u' v' e').settle msgs = some L₁' ∧ L₁'.Finished L'.layerNum m z' := by
  obtain ⟨shares, hshares, hsettle⟩ := Option.bind_eq_some_iff.mp hsettle
  obtain ⟨L₂, hrecons, -⟩ := Option.bind_eq_some_iff.mp hsettle
  have hstate : ∀ (K : Layer) (d : D2BitArray) (u v e : BitArray),
    (K.blinded d u v e).state = .sendingBeaverShares := fun _ _ _ _ _ => rfl
  rw [reconsBeaverUv, if_pos (hstate ..)] at hrecons
  simp only [blinded, Option.bind_eq_bind, Option.bind_some] at hrecons
  obtain ⟨r, hr, -⟩ := Option.bind_eq_some_iff.mp hrecons
  obtain ⟨u₁, v₁, hfold, hu₁, hv₁⟩ := beaverXor_alike e' hu hv hr
  have hrecons' : (L'.blinded d' u' v' e').reconsBeaverUv shares = some { L'.blinded d' u' v' e' with
      beaverData := some ⟨[u₁, v₁, e']⟩, state := .beaverSharesReceived } := by
    rw [reconsBeaverUv, if_pos (hstate ..)]
    simp only [blinded, hfold, Option.bind_eq_bind, Option.bind_some]
  have hur : u₁.Represents (8*m) u₁.bit := ⟨hu₁.right, hu₁.bitSize_eq.symm.trans hu'.bitSize_eq, fun _ => rfl⟩
  have hvr : v₁.Represents (8*m) v₁.bit := ⟨hv₁.right, hv₁.bitSize_eq.symm.trans hv'.bitSize_eq, fun _ => rfl⟩
  have hdata : Layer.Data { L'.blinded d' u' v' e' with
      beaverData := some ⟨[u₁, v₁, e']⟩, state := .beaverSharesReceived } L'.partyConst L'.layerNum m
      .beaverSharesReceived [x, y, fun _ => false] [u₁.bit, v₁.bit, h] :=
    ⟨rfl, rfl, hm, rfl, ⟨d', rfl, hd'⟩, _, rfl, .cons hur (.cons hvr (.cons he' .nil))⟩
  obtain ⟨L₁', hfinish, hdone⟩ := finishAndExchange_eq hdata
  refine ⟨L₁', _, ?_, hdone⟩
  simp only [settle, hshares, hrecons', hfinish, Option.bind_eq_bind, Option.bind_some]

end Exchange
end Layer

variable {G : Type}

/-- The message is a payload of two arrays of `m` bytes with these bits. -/
def Carries (m : ℕ) (B : Block m) (msg : Msg G) : Prop :=
  ∃ u v : BitArray, msg = .beaver ⟨⟨[u, v]⟩, two_le_pair u v⟩ ∧ (u.WF ∧ u.bitSize = 8*m ∧ ∀ k : Fin (8*m), u.bit k = B.1 k) ∧
    v.WF ∧ v.bitSize = 8*m ∧ ∀ k : Fin (8*m), v.bit k = B.2 k

namespace Layer
variable {L L' : Layer} {prev prev' : Option Layer} {l s used : ℕ} {a b c : Bits} {bp : BeaverProvider} {ts : List Ticket}
  {pc : Bool} {α : Type} {f : Layer × BeaverProvider → Party G α} {ls : List (List (Msg G))} {out : List (Msg G) × α}

/-- What a run that gets to its end tells about a layer. -/
theorem interact_inv (hL : L.Relaying pc l ts) (hbp : bp.Holds s [a, b, c] used)
    (hrun : (L.interact prev bp >>= f).transcript ls = some out) : 0 < L.currentSize ∧
      used + L.currentSize ≤ (s+7)/8 ∧ ∃ (zeros : D2BitArray) (K K' : Layer),
        D2BitArray.zeros 3 (8*L.currentSize) = some zeros ∧ K.Loaded l L.currentSize zeros ∧
        L.operations.reverse.foldlM (fun L op => L.execOperation op prev) K = some K' := by
  rw [interact, Proc.bind_assoc] at hrun
  obtain ⟨⟨L₁, bp₁⟩, hend, hrun⟩ := Proc.transcript_lift hrun
  rw [Proc.bind_assoc] at hrun
  obtain ⟨L₂, hexec, -⟩ := Proc.transcript_lift hrun
  rw [endTicketingPhase, if_pos hL.issuing.all.state_eq] at hend
  obtain ⟨zeros, hzeros, hend⟩ := Option.bind_eq_some_iff.mp hend
  obtain ⟨⟨taken, bp₂⟩, htake, hend⟩ := Option.bind_eq_some_iff.mp hend
  obtain ⟨rfl, rfl⟩ := Prod.mk.inj (Option.some.inj hend)
  rw [executeOperations, if_pos rfl] at hexec
  obtain ⟨K', hloop, -⟩ := Option.bind_eq_some_iff.mp hexec
  refine ⟨Nat.pos_of_ne_zero fun h0 => ?_, ?_, zeros, { L with
    andData := some zeros, beaverData := some taken, state := .dataInitialized, operations := [] }, K',
    by rwa [Nat.mul_comm], ⟨rfl, hL.issuing.all.layerNum_eq, rfl, rfl⟩, hloop⟩
  · rw [h0] at hzeros
    cases hzeros
  · by_contra hroom
    rw [BeaverProvider.take_none hbp (by simp) (by omega)] at htake
    cases htake

/-- One layer in a run that gets to its end, and in any other run that reads and receives data of the same
sizes. The other run broadcasts its masks blinded by some streams `x` and `y` that do not depend on them,
and goes on from a layer that depends on the masks through this broadcast only. -/
theorem interact_alike (hL : L.Relaying pc l ts) (hA : L.Alike L') (hprev : PrevAlike prev prev')
    (hbp : bp.Holds s [a, b, c] used) (hrun : (L.interact prev bp >>= f).transcript ls = some out) :
    ∃ (msgs : List (Msg G)) (ls' : List (List (Msg G))) (L₁ : Layer) (bp₁ : BeaverProvider) (z : Bits)
      (out' : List (Msg G) × α), ls = msgs :: ls' ∧ L₁.Finished l L.currentSize z ∧
      bp₁.Holds s [a, b, c] (used + L.currentSize) ∧ (f (L₁, bp₁)).transcript ls' = some out' ∧
      ∃ x y : Bits, ∀ B : Block L.currentSize, ∃ (L₂ : Layer) (z' : Bits), L₂.Finished l L.currentSize z' ∧
        ∀ (bp' : BeaverProvider) (a' b' : Bits), bp'.Holds s [a', b', c] used →
          pad x y _ (blockAt a' b' used _) = B → ∃ (msg : Msg G) (bp₂ : BeaverProvider), Carries L.currentSize B msg ∧
            bp₂.Holds s [a', b', c] (used + L.currentSize) ∧ ∀ (β : Type) (g : Layer × BeaverProvider → Party G β),
              (L'.interact prev' bp' >>= g).transcript ls =
                ((g (L₂, bp₂)).transcript ls').map fun r => (msg :: r.1, r.2) := by
  obtain ⟨hm, hroom, zeros, K, K', hzeros, hK, hloop⟩ := interact_inv hL hbp hrun
  have hall := hL.issuing.all
  obtain ⟨zeros', hzeros', hzr⟩ := D2BitArray.zeros_eq (s := 8*L.currentSize) 3 (by omega)
  obtain rfl : zeros = zeros' := Option.some.inj (hzeros.symm.trans hzeros')
  have hrelay : ∀ op ∈ L.operations.reverse, op.Relays ts := fun op hop => hL.relays op (List.mem_reverse.mp hop)
  -- both runs execute their operations
  obtain ⟨d, x₀, y₀, hd, hdall⟩ := execLoop_alike (List.forall₂_reverse_iff.mpr hA.left.operations) hprev.left
    hall.within hrelay hK hzr hloop hzr
  obtain ⟨d', x, y, hd', hdall'⟩ := execLoop_alike (List.forall₂_reverse_iff.mpr hA.operations) hprev
    hall.within hrelay hK hzr hloop hzr
  obtain ⟨bp₁, u, v, e, hinteract, hu, hv, he, hbp₁⟩ := interact_of_loop (G := G) hall.state_eq hm hbp hroom hzeros
    (by rw [hall.layerNum_eq]; exact hdall) hd
  rw [hinteract, Proc.send_bind, Proc.recv_bind] at hrun
  obtain ⟨msgs, ls', r, rfl, hrun, -⟩ := Proc.transcript_exchange hrun
  rw [Proc.bind_assoc] at hrun
  obtain ⟨L₁, hsettle, hrest⟩ := Proc.transcript_lift hrun
  obtain ⟨L₁', z, hsettle', hdone⟩ := settle_alike hsettle (hu.alike hu) (hv.alike hv) rfl hd hu hv he
  obtain rfl : L₁ = L₁' := Option.some.inj (hsettle.symm.trans hsettle')
  rw [hall.layerNum_eq] at hdone
  -- whatever the masks of the other run are
  have hother : ∀ (bp' : BeaverProvider) (a' b' : Bits), bp'.Holds s [a', b', c] used →
      ∃ (bp₂ : BeaverProvider) (u' v' e' : BitArray), (L'.interact prev' bp' : Party G _) =
        .send (.beaver ⟨⟨[u', v']⟩, le_rfl⟩) (.recv .beaver fun msgs =>
          .lift ((L'.blinded d' u' v' e').settle msgs) >>= fun L => .ret (L, bp₂)) ∧
        u'.Represents (8*L.currentSize) (patch (pad x y _ (blockAt a' b' used L.currentSize)).1 x) ∧
        v'.Represents (8*L.currentSize) (patch (pad x y _ (blockAt a' b' used L.currentSize)).2 y) ∧
        e'.Represents (8*L.currentSize) (BeaverProvider.slice c used L.currentSize) ∧
        bp₂.Holds s [a', b', c] (used + L.currentSize) := fun bp' a' b' hbp' => by
    rw [hall.layerNum_eq.symm.trans hA.layerNum_eq, hA.currentSize_eq] at hdall'
    rw [hA.currentSize_eq] at hm hroom hzeros hd' ⊢
    exact interact_of_loop (hA.state_eq ▸ hall.state_eq) hm hbp' hroom hzeros hdall' hd'
  refine ⟨msgs, ls', L₁, bp₁, z, r, rfl, hdone, hbp₁, hrest, x, y, fun B => ?_⟩
  by_cases hB : ∃ u' v' e' : BitArray, u'.Represents (8*L.currentSize) (patch B.1 x) ∧
      v'.Represents (8*L.currentSize) (patch B.2 y) ∧
      e'.Represents (8*L.currentSize) (BeaverProvider.slice c used L.currentSize)
  · obtain ⟨u', v', e', hu', hv', he'⟩ := hB
    obtain ⟨L₂, z', hsettle₂, hdone₂⟩ := settle_alike hsettle (hu.alike hu') (hv.alike hv')
      hA.currentSize_eq.symm hd' hu' hv' he'
    rw [← hA.layerNum_eq, hall.layerNum_eq] at hdone₂
    refine ⟨L₂, z', hdone₂, fun bp' a' b' hbp' hpad => ?_⟩
    obtain ⟨bp₂, u₂, v₂, e₂, hinteract', hu₂, hv₂, he₂, hbp₂⟩ := hother bp' a' b' hbp'
    rw [hpad] at hu₂ hv₂
    obtain rfl := hu₂.unique hu'
    obtain rfl := hv₂.unique hv'
    obtain rfl := he₂.unique he'
    have hbits : ∀ (w : Fin (8*L.currentSize) → Bool) (x : Bits) (k : Fin (8*L.currentSize)), patch w x k = w k :=
      fun w x k => dif_pos k.isLt
    refine ⟨_, bp₂, ⟨u₂, v₂, rfl, ⟨hu₂.toWF, hu₂.bitSize_eq, fun k => (hu₂.bit_eq k).trans (hbits _ _ k)⟩, hv₂.toWF,
      hv₂.bitSize_eq, fun k => (hv₂.bit_eq k).trans (hbits _ _ k)⟩, hbp₂, fun β g => ?_⟩
    rw [hinteract', Proc.send_bind, Proc.recv_bind, Proc.transcript, Proc.transcript, hsettle₂]
    rfl
  · refine ⟨L₁, z, hdone, fun bp' a' b' hbp' hpad => absurd ?_ hB⟩
    obtain ⟨bp₂, u₂, v₂, e₂, -, hu₂, hv₂, he₂, -⟩ := hother bp' a' b' hbp'
    rw [hpad] at hu₂ hv₂
    exact ⟨u₂, v₂, e₂, hu₂, hv₂, he₂⟩

end Layer
end PrivRecCert.Prc
