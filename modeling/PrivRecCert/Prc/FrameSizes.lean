import PrivRecCert.Prc.ServerSpec
import PrivRecCert.Prc.Stale
import PrivRecCert.Rounds.Session

/-! The frames of one query. Their lengths follow from the dimensions of the database: they depend neither on the
data nor on what the peers send. -/
namespace PrivRecCert.SimdArray.BitArray
variable {a r : BitArray}

theorem new_len {s : ℕ} (h : BitArray.new s = some r) : r.bitSize = s ∧ r.data.len = divCeil s 8 := by
  obtain ⟨data, hdata, h⟩ := Option.bind_eq_some_iff.mp h
  obtain rfl := Option.some.inj h
  obtain ⟨size, -, hdata⟩ := Option.bind_eq_some_iff.mp hdata
  obtain rfl := Option.some.inj hdata
  exact ⟨rfl, rfl⟩

theorem toSlice_len {u v : ℕ} (h : a.toSlice u v = some r) : r.data.len = v-u := by
  unfold toSlice at h
  split_ifs at h with hrange
  obtain ⟨-, -, hlen⟩ := hrange
  obtain rfl := Option.some.inj h
  rw [AU8Array.fromSlice_len, List.length_take, List.length_drop, AU8Array.asSlice_length]
  omega

end PrivRecCert.SimdArray.BitArray

namespace PrivRecCert.SimdArray.D2BitArray
variable {d r : D2BitArray}

theorem toSlice_len {u v : ℕ} (h : d.toSlice u v = some r) : ∀ a ∈ r.arrays, a.data.len = v-u := by
  obtain ⟨arrays, harrays, h⟩ := Option.bind_eq_some_iff.mp h
  obtain rfl := Option.some.inj h
  have hall : ∀ as bs : List BitArray, List.Forall₂ (fun a b => BitArray.toSlice a u v = some b) as bs →
      ∀ b ∈ bs, b.data.len = v-u := by
    intro as bs hslices
    induction hslices with
    | nil => exact fun b hb => absurd hb List.not_mem_nil
    | cons hslice _ ih => exact List.forall_mem_cons.mpr ⟨BitArray.toSlice_len hslice, ih⟩
  exact hall _ _ (Prc.forall₂_of_mapM harrays)

theorem unpackAsBeaver_inv {a b c : BitArray} (h : d.unpackAsBeaver = some (a, b, c)) : d = ⟨[a, b, c]⟩ := by
  obtain ⟨arrays⟩ := d
  unfold unpackAsBeaver at h
  split at h
  · next harrays =>
    obtain ⟨rfl, rfl, rfl⟩ : _ = a ∧ _ = b ∧ _ = c := by simpa using h
    exact congrArg mk harrays
  · cases h

end PrivRecCert.SimdArray.D2BitArray

namespace PrivRecCert.CorRnd.BeaverProvider
open SimdArray
variable {p p' : BeaverProvider} {m : ℕ} {d : D2BitArray}

/-- What is handed out has the size that was asked for. -/
theorem take_len (h : p.take m = some (d, p')) : ∀ a ∈ d.arrays, a.data.len = m := by
  obtain ⟨storage, -, h⟩ := Option.bind_eq_some_iff.mp h
  split_ifs at h
  obtain ⟨d₁, hd₁, h⟩ := Option.bind_eq_some_iff.mp h
  obtain ⟨rfl, -⟩ := Prod.mk.inj (Option.some.inj h)
  intro a ha
  rw [D2BitArray.toSlice_len hd₁ a ha, Nat.add_sub_cancel_left]

end PrivRecCert.CorRnd.BeaverProvider

namespace PrivRecCert.CorRnd
variable {v w r : BooleanValue}

theorem BooleanValue.new_bitLen {s : ℕ} {x : U32} (h : BooleanValue.new s x = some v) : v.bitLen = s := by
  unfold BooleanValue.new at h
  split_ifs at h
  rw [← Option.some.inj h]

theorem joinBoolean_bitLen (h : joinBoolean v w = some r) : r.bitLen = v.bitLen + w.bitLen := by
  unfold joinBoolean at h
  split_ifs at h
  exact BooleanValue.new_bitLen h

end PrivRecCert.CorRnd

namespace PrivRecCert.Prc
open CorRnd SimdArray BitArray Rounds Circuit

namespace Layer
variable {L L' : Layer} {prev : Option Layer}

theorem executeOperations_beaverData (h : L.executeOperations prev = some L') : L'.beaverData = L.beaverData := by
  unfold executeOperations at h
  split_ifs at h
  obtain ⟨K, hloop, h⟩ := Option.bind_eq_some_iff.mp h
  obtain rfl := Option.some.inj h
  have hstart : ({ L with operations := [] } : Layer).beaverData = L.beaverData := rfl
  change K.beaverData = _
  refine foldlM_keeps (P := fun K : Layer => K.beaverData = L.beaverData) (fun K op K' hK hstep => ?_) hstart hloop
  obtain ⟨d, j, a, r, -, -, -, rfl⟩ := execOperation_writes hstep
  exact hK

/-- The masks of a layer, each of as many bytes as the layer. -/
def Masked (L : Layer) (m : ℕ) : Prop :=
  ∃ a b c, L.beaverData = some ⟨[a, b, c]⟩ ∧ a.data.len = m ∧ b.data.len = m

theorem blindAndWithBeaver_masked {d : D2BitArray} {m : ℕ} (hd : L.beaverData = some d)
    (hlen : ∀ a ∈ d.arrays, a.data.len = m) (h : L.blindAndWithBeaver = some L') : L'.Masked m := by
  unfold blindAndWithBeaver at h
  split_ifs at h
  simp only [hd, Option.bind_eq_bind, Option.bind_eq_some_iff, Option.some.injEq] at h
  obtain ⟨_, -, ⟨x, y, _⟩, -, _, rfl, ⟨a, b, c⟩, hunpack, u, hu, v, hv, rfl⟩ := h
  obtain rfl := D2BitArray.unpackAsBeaver_inv hunpack
  refine ⟨u, v, c, rfl, ?_, ?_⟩
  · rw [(inplaceXor_sizes hu).len_eq, hlen a (by simp)]
  · rw [(inplaceXor_sizes hv).len_eq, hlen b (by simp)]

theorem getBeaverOutShares_len {d : D2BitArray} {m : ℕ} (hL : L.Masked m) (h : L.getBeaverOutShares = some d) :
    ∃ u v, d = ⟨[u, v]⟩ ∧ u.data.len = m ∧ v.data.len = m := by
  obtain ⟨a, b, c, hdata, ha, hb⟩ := hL
  simp only [getBeaverOutShares, hdata, D2BitArray.unpackAsBeaver, Option.bind_eq_bind, Option.bind_some,
    Option.bind_eq_some_iff, Option.some.injEq] at h
  obtain ⟨u, hu, v, hv, rfl⟩ := h
  exact ⟨u, v, rfl, (clone_sizes hu).len_eq.trans ha, (clone_sizes hv).len_eq.trans hb⟩

end Layer

/-- The layers of the circuit that encodes the halves of an index, in bytes. -/
def layerSizes (m1 m2 : ℕ) : List ℕ :=
  List.map layerBytes (oheGates (fun _ => ()) 0 0 m2 (oheGates (fun _ => ()) 0 0 m1 []).2).2

namespace MpcProvider
variable {p p₁ p₂ : MpcProvider}

theorem Built.sizes {C : Circuit Bits} (h : p.Built C) : p.layers.map Layer.currentSize = List.map layerBytes C := by
  refine List.ext_getElem (by rw [List.length_map, List.length_map, h.length_eq]) fun l hl hl' => ?_
  rw [List.length_map] at hl hl'
  rw [List.getElem_map, List.getElem_map, (h.layers l _ (List.getElem?_eq_getElem hl)).currentSize_eq, Circuit.layer,
    List.getD_eq_getElem _ _ hl']

/-- The sizes of the layers do not depend on the bits that are encoded. -/
theorem oheVec_sizes {v w : BooleanValue} {x y : LayerSource} (hp : p.layers = []) (hv : 1 ≤ v.bitLen)
    (hw : 1 ≤ w.bitLen) (hx : p.oheVec v = some (x, p₁)) (hy : p₁.oheVec w = some (y, p₂)) :
    p₂.layers.map Layer.currentSize = layerSizes v.bitLen w.bitLen := by
  obtain ⟨_, _, hx', hb₁, -, -⟩ := recursiveOheVec_eq (Built.nil hp) (l := 0) hv v.bitLen_le (subIndex_self v)
  obtain ⟨-, rfl⟩ := Prod.mk.inj (Option.some.inj (hx'.symm.trans hx))
  obtain ⟨_, _, hy', hb₂, -, -⟩ := recursiveOheVec_eq hb₁ (l := 0) hw w.bitLen_le (subIndex_self w)
  obtain ⟨-, rfl⟩ := Prod.mk.inj (Option.some.inj (hy'.symm.trans hy))
  have hshape : ∀ (leaf leaf' : ℕ → Bits), (oheGates leaf' 0 0 w.bitLen (oheGates leaf 0 0 v.bitLen []).2).2.map
      (fun _ => ()) = (oheGates (fun _ => ()) 0 0 w.bitLen (oheGates (fun _ => ()) 0 0 v.bitLen []).2).2 := by
    intro leaf leaf'
    have hlow := congrArg Prod.snd (oheGates_map leaf (fun _ => ()) 0 0 v.bitLen [])
    have hhigh := congrArg Prod.snd (oheGates_map leaf' (fun _ => ()) 0 0 w.bitLen (oheGates leaf 0 0 v.bitLen []).2)
    exact hhigh.symm.trans (congrArg (fun C => (oheGates (fun _ => ()) 0 0 w.bitLen C).2) hlow.symm)
  rw [hb₂.sizes, layerSizes, ← hshape, Circuit.map, List.map_map]
  exact List.map_congr_left fun gs _ => (layerBytes_map _ gs).symm

/-- A conjunction makes a layer of its own. -/
theorem and_sizes {bitSize : ℕ} {a b src : LayerSource} (hp : p.layers = []) (h : p.and bitSize a b = some (src, p₁)) :
    p₁.layers.map Layer.currentSize = [divCeil bitSize 8] := by
  unfold MpcProvider.and at h
  split_ifs at h
  have hnew : p.ensureLayer 0 = { p with layers := [Layer.new p.partyConst 0] } := by
    rw [ensureLayer_eq, hp]
    rfl
  obtain ⟨⟨L, write⟩, hget, h⟩ := Option.bind_eq_some_iff.mp h
  obtain ⟨⟨t, L₁⟩, hticket, h⟩ := Option.bind_eq_some_iff.mp h
  obtain ⟨L₂, hL₂, h⟩ := Option.bind_eq_some_iff.mp h
  obtain ⟨L₃, hL₃, h⟩ := Option.bind_eq_some_iff.mp h
  obtain ⟨-, rfl⟩ := Prod.mk.inj (Option.some.inj h)
  simp only [getLayer, hnew, List.getElem?_cons_zero, Option.bind_eq_bind, Option.bind_some, Option.some.injEq,
    Prod.mk.injEq] at hget
  obtain ⟨rfl, rfl⟩ := hget
  obtain ⟨-, -, rfl⟩ := Layer.requestTicket_inv hticket
  obtain ⟨-, rfl⟩ := Layer.addOperation_inv hL₂
  obtain ⟨-, rfl⟩ := Layer.addOperation_inv hL₃
  change [0 + divCeil bitSize 8] = _
  rw [Nat.zero_add]

end MpcProvider

variable {G : Type} [AddCommGroup G] [Module Scalar G] [Ristretto G] {o : U8}

/-- The length of the frame of a payload. -/
def Msg.frameLength (ownerId : U8) (m : Msg G) : ℕ := (m.toCmd ownerId).serialize.length

theorem frameLength_beaver (u v : BitArray) (h : 2 ≤ (D2BitArray.mk [u, v]).arrays.length) :
    (Msg.beaver ⟨⟨[u, v]⟩, h⟩ : Msg G).frameLength o = 6 + (u.data.len + v.data.len) := by
  simp only [Msg.frameLength, Msg.toCmd, Cmd.serialize, getInnerMemref, List.length_append, List.length_cons,
    List.length_nil, Bytes.leBytes_length, List.get_eq_getElem, AU8Array.asSlice_length]
  simp only [List.getElem_cons_zero, List.getElem_cons_succ]
  omega

theorem frameLength_dabit (b : BitArray) : (Msg.dabit b : Msg G).frameLength o = 6 + b.data.len := by
  simp only [Msg.frameLength, Msg.toCmd, Cmd.serialize, getInnerMemref, List.length_append, List.length_cons,
    List.length_nil, Bytes.leBytes_length, AU8Array.asSlice_length]

theorem frameLength_commit [LawfulRistretto G] (c : Commitment G) : (Msg.commit c : Msg G).frameLength o = 34 := by
  rw [Msg.frameLength, Msg.toCmd, Cmd.serialize, List.length_append, Commitment.serialize,
    LawfulRistretto.compress_length]
  rfl

/-- Whatever it reads and receives, a layer sends one frame of twice its size. -/
theorem Layer.interact_sized (L : Layer) (prev : Option Layer) (bp : BeaverProvider) :
    Proc.Sized (Msg.frameLength (G := G) o) (fun _ => True) [6 + (L.currentSize + L.currentSize)]
      (L.interact prev bp) := by
  refine .lift fun ⟨L₁, bp₁⟩ hend => .lift fun L₂ hexec => .lift fun L₃ hblind => .lift fun d hshares => ?_
  unfold endTicketingPhase at hend
  split_ifs at hend
  obtain ⟨zeros, -, hend⟩ := Option.bind_eq_some_iff.mp hend
  obtain ⟨⟨taken, bp₂⟩, htake, hend⟩ := Option.bind_eq_some_iff.mp hend
  obtain ⟨rfl, rfl⟩ := Prod.mk.inj (Option.some.inj hend)
  have hmasked := blindAndWithBeaver_masked (executeOperations_beaverData hexec) (BeaverProvider.take_len htake) hblind
  obtain ⟨u, v, rfl, hu, hv⟩ := getBeaverOutShares_len hmasked hshares
  have hlen : 2 ≤ (D2BitArray.mk [u, v]).arrays.length := le_rfl
  have hsize := frameLength_beaver (G := G) (o := o) u v hlen
  rw [hu, hv] at hsize
  rw [sendBeaverShares, dif_pos hlen, ← hsize]
  exact .round _ _ _ fun received => .lift fun shares _ => .lift fun L₄ _ => .lift fun L₅ _ => .ret trivial


namespace MpcProvider

theorem runLayers_sized (layers : List Layer) (prev : Option Layer) (bp : BeaverProvider) :
    Proc.Sized (Msg.frameLength (G := G) o) (fun _ => True)
      ((layers.map Layer.currentSize).map fun m => 6 + (m + m)) (runLayers layers prev bp) := by
  induction layers generalizing prev bp with
  | nil => exact .ret trivial
  | cons layer layers ih => exact (layer.interact_sized prev bp).bind fun out _ => ih (some out.1) out.2

/-- One frame for each layer, the deepest layer first. -/
theorem run_sized (p : MpcProvider) : Proc.Sized (Msg.frameLength (G := G) o) (fun p' => p'.layers = [])
    ((p.layers.map Layer.currentSize).reverse.map fun m => 6 + (m + m)) p.run := by
  rw [← List.map_reverse]
  exact (runLayers_sized p.layers.reverse none p.beaverProvider).finish fun out _ => .ret rfl

end MpcProvider

omit [AddCommGroup G] [Module Scalar G] [Ristretto G] in
theorem ConvLayer.blind_len {b e r : BitArray} {dabits : List DaBit} (h : blind b dabits e = some r) :
    r.data.len = e.data.len := by
  refine (foldlM_keeps (P := SameSizes e) (fun x i y hx hstep => ?_) (.refl e) h).len_eq
  simp only [Option.bind_eq_bind, Option.bind_eq_some_iff] at hstep
  obtain ⟨_, -, _, -, hset⟩ := hstep
  exact hx.trans (setBit_sizes hset)

/-- A conversion sends one bit for each bit of its inputs. -/
theorem ConvLayer.interact_sized (c : ConvLayer) (values : List BooleanValue) (dp : DaBitProvider) :
    Proc.Sized (Msg.frameLength (G := G) o) (fun _ => True) [6 + divCeil (totalBits values) 8]
      (c.interact values dp) := by
  refine .lift fun b _ => .lift fun b' _ => .lift fun ⟨dabits, dp'⟩ _ => .lift fun e he => .lift fun e' he' =>
    .lift fun r hr => ?_
  have hlen : r.data.len = divCeil (totalBits values) 8 := by
    rw [(clone_sizes hr).len_eq, blind_len he', (new_len he).2]
  have hsize := frameLength_dabit (G := G) (o := o) r
  rw [hlen] at hsize
  rw [sendDabitShares, ← hsize]
  exact .round _ _ _ fun received => .lift fun shares _ => .lift fun e _ => .lift fun arith _ => .ret trivial

theorem MpcProvider.aggregateCommitments_sized [LawfulRistretto G] (p : MpcProvider) (commit : Commitment G) :
    Proc.Sized (Msg.frameLength (G := G) o) (fun _ => True) [34] (p.aggregateCommitments commit) := by
  rw [← frameLength_commit (o := o) commit]
  exact .round _ _ _ fun received => .lift fun commitments _ => .ret trivial

omit [AddCommGroup G] [Module Scalar G] [Ristretto G] in
theorem PRCDatabase.lvl1PirRetrieve_bitSize {db : PRCDatabase} {ohe r : BitArray} (h : db.lvl1PirRetrieve ohe = some r) :
    r.bitSize = db.l2Dim := by
  unfold lvl1PirRetrieve at h
  split_ifs at h
  obtain ⟨out, hout, h⟩ := Option.bind_eq_some_iff.mp h
  rw [← (new_len hout).1]
  refine (foldlM_keeps (P := SameSizes out) (fun x i y hx hstep => ?_) (.refl out) h).bitSize_eq
  simp only [Option.bind_eq_bind, Option.bind_eq_some_iff] at hstep
  obtain ⟨_, -, _, -, _, -, hset⟩ := hstep
  exact hx.trans (setBit_sizes hset)

/-- The frames of one query for halves of `m1` and `m2` bits: one for each layer of the first run, one for the
second run, one for the conversion and one for the commitment. -/
def frameLengths (m1 m2 : ℕ) : List ℕ :=
  (layerSizes m1 m2).reverse.map (fun m => 6 + (m + m)) ++
    ([6 + (divCeil (2^m2) 8 + divCeil (2^m2) 8)] ++ ([6 + divCeil (m1 + m2 + 1) 8] ++ [34]))

namespace PRCServer
variable {SK VK Sig : Type} {S : PRCServer SK VK} {m1 m2 : ℕ}

/-- A server between two queries. -/
structure Idle (S : PRCServer SK VK) (m2 : ℕ) : Prop where
  layers : S.mpcProvider.layers = []
  l2Dim : S.db.l2Dim = 2^m2

theorem recRetrieve_sized (hS : S.Idle m2) {l1 l2 : BooleanValue} (h1 : l1.bitLen = m1) (h2 : l2.bitLen = m2)
    (hm1 : 1 ≤ m1) (hm2 : 1 ≤ m2) : Proc.Sized (Msg.frameLength (G := G) o) (fun out => out.2.Idle m2)
      ((layerSizes m1 m2).reverse.map (fun m => 6 + (m + m)) ++ [6 + (divCeil (2^m2) 8 + divCeil (2^m2) 8)])
      (S.recRetrieve l1 l2) := by
  subst h1 h2
  refine .lift fun ⟨x, p₁⟩ hx => .lift fun ⟨y, p₂⟩ hy => ?_
  have hfirst := p₂.run_sized (G := G) (o := o)
  rw [MpcProvider.oheVec_sizes hS.layers hm1 hm2 hx hy] at hfirst
  refine hfirst.bind fun p₃ _ => .lift fun o₁ _ => .lift fun o₂ _ => .lift fun ans hans => ?_
  split_ifs
  · refine .lift fun ⟨z, p₄⟩ hz => ?_
    have hsecond := p₄.run_sized (G := G) (o := o)
    rw [MpcProvider.and_sizes rfl hz, PRCDatabase.lvl1PirRetrieve_bitSize hans, hS.l2Dim] at hsecond
    exact hsecond.finish fun p₅ hp₅ => .lift fun ans₂ _ => .lift fun parity _ => .ret ⟨hp₅, hS.l2Dim⟩
  · exact .fail _

variable [LawfulRistretto G] [Ed25519 SK VK Sig]

theorem certify_sized (hS : S.Idle m2) {query : PRCQuery} (h1 : query.l1Bss.bitLen = m1) (h2 : query.l2Bss.bitLen = m2)
    (share : Bool) : Proc.Sized (Msg.frameLength (G := G) o)
      (fun out : Option (PRCToken G Sig) × PRCServer SK VK => out.2.Idle m2)
      ([6 + divCeil (m1 + m2 + 1) 8] ++ [34]) (S.certify query share) := by
  refine .lift fun joined hjoined => .lift fun record hrecord => ?_
  have htotal : ConvLayer.totalBits [joined, record] = m1 + m2 + 1 := by
    simp [ConvLayer.totalBits, joinBoolean_bitLen hjoined, BooleanValue.new_bitLen hrecord, h1, h2]
  have hconv := (ConvLayer.mk S.mpcProvider.partyConst).interact_sized (G := G) (o := o) [joined, record]
    S.mpcProvider.dabitProvider
  rw [htotal] at hconv
  have hmpc : Proc.Sized (Msg.frameLength (G := G) o) (fun out => out.2.layers = []) [6 + divCeil (m1 + m2 + 1) 8]
      (S.mpcProvider.runConvB2A [joined, record]) := hconv.finish fun out _ => .ret hS.layers
  have hserver : Proc.Sized (Msg.frameLength (G := G) o) (fun out => out.2.Idle m2) [6 + divCeil (m1 + m2 + 1) 8]
      (S.convB2A [joined, record]) := hmpc.finish fun out hout => .ret ⟨hout, hS.l2Dim⟩
  refine hserver.bind fun out hout => .lift fun idx _ => .lift fun resp _ => ?_
  exact (MpcProvider.aggregateCommitments_sized _ _).finish fun agg _ => .ret hout

theorem prcProtocolShare_sized (hS : S.Idle m2) {query : PRCQuery} (h1 : query.l1Bss.bitLen = m1)
    (h2 : query.l2Bss.bitLen = m2) (hm1 : 1 ≤ m1) (hm2 : 1 ≤ m2) : Proc.Sized (Msg.frameLength (G := G) o)
      (fun out : (Bool × Option (PRCToken G Sig)) × PRCServer SK VK => out.2.Idle m2) (frameLengths m1 m2)
      (S.prcProtocolShare query) := by
  rw [frameLengths, ← List.append_assoc]
  exact (recRetrieve_sized hS h1 h2 hm1 hm2).bind fun out hout =>
    (certify_sized hout h1 h2 out.1).finish fun token htoken => .ret htoken

/-- Whatever the peers send, a server answers a query with frames of these lengths. -/
theorem prcProtocol_sized (hS : S.Idle m2) {query : PRCQuery} (h1 : query.l1Bss.bitLen = m1)
    (h2 : query.l2Bss.bitLen = m2) (hm1 : 1 ≤ m1) (hm2 : 1 ≤ m2) : Proc.Sized (Msg.frameLength (G := G) o)
      (fun out : Option (PRCToken G Sig) × PRCServer SK VK => out.2.Idle m2) (frameLengths m1 m2)
      (S.prcProtocol query) :=
  (prcProtocolShare_sized hS h1 h2 hm1 hm2).finish fun _ hout => .ret hout

end PRCServer
end PrivRecCert.Prc
