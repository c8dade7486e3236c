import PrivRecCert.Prc.LayerHiding

/-! A retrieval of a party whose peers all work together against it. Both runs read the shares of the index, and neither
shows anything of them. -/
namespace PrivRecCert.Prc
open CorRnd SimdArray BitArray Rounds Circuit

/-- Every request returns a source that can be read after the run, in every continuation of the circuit. -/
theorem Request.build_source {S : Type} (C : Circuit S) {r : Request S} (hr : r.Valid) :
    (build C r).1.len = r.size ∧ (build C r).1.Valid 0 (layerBytes ((build C r).2.layer 0)) := by
  cases r with
  | and bitSize x y =>
    refine ⟨Nat.add_sub_cancel_left _ _, rfl, Nat.mul_mod_left _ _, Nat.lt_add_of_pos_right hr, ?_⟩
    simp only [build, layer_addGate, if_true, layerBytes_append, layerBytes_cons, layerBytes_nil, gateTicket,
      divCeil_eight]
    omega
  | ohe bitLen leaf => exact oheGates_source leaf 0 0 hr C

/-- A source of `len` bits in an output layer of `bytes` bytes. -/
def LayerSource.Readable (src : LayerSource) (bytes len : ℕ) : Prop :=
  ∀ P z, Layer.Prev P 0 bytes z → ∃ o, Layer.extractSrcData src P = some o ∧ o.WF ∧ o.bitSize = len

theorem LayerSource.Readable.of_matches {src : Source Bits} {inp : LayerSource} {bytes : ℕ}
    (hmatch : SourceMatches src inp) (hvalid : src.Valid 0 bytes) : inp.Readable bytes src.len := fun P z hprev => by
  obtain ⟨o, g, ho, hrep, -⟩ := Layer.extractSrcData_eq hmatch hvalid hprev
  exact ⟨o, ho, hrep.toWF, hrep.bitSize_eq⟩

namespace MpcProvider

/-- The layers of the first provider, and all else from the second one. -/
def onto (q p : MpcProvider) : MpcProvider := { p with layers := q.layers, partyConst := q.partyConst }

section Onto
variable (q p : MpcProvider)

theorem getLayer_onto (l : ℕ) : (q.onto p).getLayer l = (q.getLayer l).map fun r => (r.1, fun L => (r.2 L).onto p) := by
  simp only [getLayer, ensureLayer_eq, onto]
  cases (q.layers ++ (List.range (l+1-q.layers.length)).map fun j =>
    Layer.new q.partyConst (q.layers.length + j))[l]? with
  | none => rfl
  | some L => rfl

theorem and_onto (bitSize : ℕ) (a b : LayerSource) : (q.onto p).and bitSize a b =
    (q.and bitSize a b).map fun r => (r.1, r.2.onto p) := by
  rw [MpcProvider.and, MpcProvider.and, getLayer_onto]
  split_ifs with h0
  · rfl
  · simp only [Option.bind_eq_bind, Option.map_bind, Option.bind_map, Function.comp_def, Option.map_some]

theorem recursiveOheVec_onto (l len : ℕ) (v : U32) : (q.onto p).recursiveOheVec l len v =
    (q.recursiveOheVec l len v).map fun r => (r.1, r.2.onto p) := by
  induction len using Nat.strong_induction_on generalizing q l v with
  | _ len ih =>
    rw [recursiveOheVec, recursiveOheVec]
    split_ifs with h0 h1
    · rfl
    · simp only [Option.bind_eq_bind, Option.map_bind, Function.comp_def, Option.map_some, onto]
    · simp only [ih _ (show (len+1)/2 < len by omega), ih _ (show len - (len+1)/2 < len by omega), getLayer_onto,
        Option.bind_eq_bind, Option.map_bind, Option.bind_map, Function.comp_def, Option.map_some]

theorem oheVec_onto (v : BooleanValue) : (q.onto p).oheVec v = (q.oheVec v).map fun r => (r.1, r.2.onto p) :=
  recursiveOheVec_onto q p 0 v.bitLen v.value

end Onto

/-- A provider without layers and without material. -/
def blank (pc : Bool) : MpcProvider := .new pc .new .new

theorem blank_onto {p : MpcProvider} {pc : Bool} (hlayers : p.layers = []) (hpc : p.partyConst = pc) :
    (blank pc).onto p = p := by
  rw [onto, ← hpc, blank, new, ← hlayers]

/-- The layers are ready for a run, and have these sizes. -/
structure Prepared (q : MpcProvider) (pc : Bool) (sizes : List ℕ) : Prop where
  partyConst_eq : q.partyConst = pc
  sizes_eq : q.layers.map Layer.currentSize = sizes
  chain : Chain pc (sizes.getD 0 0) sizes.length 0 q.layers.reverse sizes.reverse

theorem Built.prepared {q : MpcProvider} {C : Circuit Bits} {pc : Bool} {sizes : List ℕ} (hq : q.Built C)
    (hpc : q.partyConst = pc) (hclosed : C.Closed) (hfull : C.FullFrom 0)
    (hsizes : q.layers.map Layer.currentSize = sizes) :
    q.Prepared pc sizes ∧ layerBytes (C.layer 0) = sizes.getD 0 0 := by
  have htop : layerBytes (C.layer 0) = sizes.getD 0 0 := by
    rw [← hsizes, hq.sizes, Circuit.layer]
    exact (List.getD_map _ _ _).symm
  have hchain := hq.chain hclosed hfull
  rw [hpc, htop, hsizes] at hchain
  refine ⟨⟨hpc, hsizes, ?_⟩, htop⟩
  rwa [← hsizes, List.length_map, hsizes]

theorem full_nil {S : Type} : FullFrom ([] : Circuit S) 0 := fun j _ hj => absurd hj (Nat.not_lt_zero j)

variable {pc : Bool} {m1 m2 : ℕ}

variable (pc) in
/-- Both halves of an index are encoded. -/
theorem oheVec_prepared {v w : BooleanValue} (hv : v.bitLen = m1) (hw : w.bitLen = m2) (hm1 : 1 ≤ m1) (hm2 : 1 ≤ m2) :
    ∃ x y q₁ q₂, (blank pc).oheVec v = some (x, q₁) ∧ q₁.oheVec w = some (y, q₂) ∧ q₂.Prepared pc (layerSizes m1 m2) ∧
      x.Readable ((layerSizes m1 m2).getD 0 0) (2^m1) ∧ y.Readable ((layerSizes m1 m2).getD 0 0) (2^m2) := by
  subst hv hw
  have hone : (Request.ohe v.bitLen (leafBits pc v.value)).Valid := hm1
  have htwo : (Request.ohe w.bitLen (leafBits pc w.value)).Valid := hm2
  have hmatch : CallMatches (blank pc).partyConst (.ohe v.bitLen (leafBits pc v.value)) (.oheVec v) := ⟨rfl, rfl⟩
  obtain ⟨x, q₁, hx, hb₁, hxm, hbase₁⟩ := call_eq (Built.nil rfl) hmatch hone
  have hmatch₁ : CallMatches q₁.partyConst (.ohe w.bitLen (leafBits pc w.value)) (.oheVec w) :=
    ⟨rfl, by rw [hbase₁.partyConst]; rfl⟩
  obtain ⟨y, q₂, hy, hb₂, hym, hbase₂⟩ := call_eq hb₁ hmatch₁ htwo
  obtain ⟨hprepared, htop⟩ := hb₂.prepared (hbase₁.trans hbase₂).partyConst
    (Request.closed_build (Request.closed_build closed_nil hone) htwo)
    (Request.full_build (Request.full_build full_nil _) _) (oheVec_sizes rfl hm1 hm2 hx hy)
  obtain ⟨hxlen, hxvalid⟩ := Request.build_source [] hone
  obtain ⟨hylen, hyvalid⟩ := Request.build_source (Request.build [] (.ohe v.bitLen (leafBits pc v.value))).2 htwo
  refine ⟨x, y, q₁, q₂, hx, hy, hprepared, ?_, ?_⟩
  · have hext := Request.build_extends (Request.build [] (.ohe v.bitLen (leafBits pc v.value))).2
      (.ohe w.bitLen (leafBits pc w.value))
    have hread := LayerSource.Readable.of_matches hxm (hxvalid.mono (hext.layerBytes_le 0))
    rwa [hxlen, htop] at hread
  · have hread := LayerSource.Readable.of_matches hym hyvalid
    rwa [hylen, htop] at hread

variable (pc) in
/-- A conjunction is requested. -/
theorem and_prepared {a b : BitArray} {m : ℕ} (hm : 0 < m) (ha : a.WF ∧ a.bitSize = m) (hb : b.WF ∧ b.bitSize = m) :
    ∃ z q, (blank pc).and m (.input a) (.input b) = some (z, q) ∧ q.Prepared pc [divCeil m 8] ∧
      z.Readable (divCeil m 8) m := by
  have har : a.Represents m a.bit := ⟨ha.1, ha.2, fun _ => rfl⟩
  have hbr : b.Represents m b.bit := ⟨hb.1, hb.2, fun _ => rfl⟩
  have hvalid : (Request.and m a.bit b.bit).Valid := hm
  have hmatch : CallMatches (blank pc).partyConst (.and m a.bit b.bit) (.and m (.input a) (.input b)) := ⟨rfl, har, hbr⟩
  obtain ⟨z, q, hz, hbuilt, hzm, hbase⟩ := call_eq (Built.nil rfl) hmatch hvalid
  obtain ⟨hprepared, htop⟩ := hbuilt.prepared hbase.partyConst (Request.closed_build closed_nil hvalid)
    (Request.full_build full_nil _) (and_sizes rfl hz)
  obtain ⟨hlen, hread⟩ := Request.build_source [] hvalid
  refine ⟨z, q, hz, hprepared, ?_⟩
  have hread := LayerSource.Readable.of_matches hzm hread
  rwa [hlen, htop] at hread

variable {G : Type} {adv : Adversary (Msg G)} {h : List (Rounds.Event (Msg G))} {O : OtherShares} {s used : ℕ}
  {sizes : List ℕ} {q q' : MpcProvider}

/-- The layer that two runs end with. -/
def Outputs (sizes : List ℕ) (P P' : Option Layer) : Prop :=
  (∃ z, Layer.Prev P 0 (sizes.getD 0 0) z) ∧ ∃ z, Layer.Prev P' 0 (sizes.getD 0 0) z

/-- Runs look the same as long as their layers have the same sizes. -/
theorem run_hides (hq : q.Prepared pc sizes) (hq' : q'.Prepared pc sizes) (hroom : used + sizes.sum ≤ (s+7)/8) :
    Hides adv (fun p B => O.Triples s used sizes.sum p.beaverProvider B)
      (fun p B => O.Triples s used sizes.sum p.beaverProvider B) outputLayer outputLayer (Outputs sizes) h
      (fun p => (q.onto p).run) fun p => (q'.onto p).run := by
  have hnone : ∃ z, Layer.Prev none sizes.length 0 z := ⟨fun _ => false, rfl⟩
  have hlayers : Hides adv (O.Triples s used sizes.reverse.sum) (O.Triples s used sizes.reverse.sum) Prod.fst Prod.fst
      (Outputs sizes) h (fun bp => runLayers q.layers.reverse none bp) fun bp => runLayers q'.layers.reverse none bp :=
    runLayers_hides hq.chain hq'.chain hnone hnone (by rwa [List.sum_reverse])
  rw [List.sum_reverse] at hlayers
  have hparts : Hides adv (fun p B => O.Triples s used sizes.sum p.beaverProvider B)
      (fun p B => O.Triples s used sizes.sum p.beaverProvider B) Prod.fst Prod.fst (Outputs sizes) h
      (fun p : MpcProvider => runLayers q.layers.reverse none p.beaverProvider)
      fun p : MpcProvider => runLayers q'.layers.reverse none p.beaverProvider :=
    hlayers.comap (fun _ _ hp => hp) fun _ _ hp => hp
  exact hparts.finish (fun _ _ => rfl) fun _ _ => rfl

/-- A run leaves no layers, and takes triples only. -/
theorem run_base {p p' : MpcProvider} (h : (p.run (G := G)).Yields p') :
    p'.layers = [] ∧ p'.partyConst = p.partyConst ∧ p'.dabitProvider = p.dabitProvider := by
  obtain ⟨r, -, h⟩ := Proc.yields_bind h
  obtain rfl := Proc.yields_ret h
  exact ⟨rfl, rfl, rfl⟩

end MpcProvider

/-- The server is between two queries, and its triples go with those of the others. -/
structure OtherShares.Idle {SK VK : Type} (O : OtherShares) (db : PRCDatabase) (pc : Bool) (s used m : ℕ)
    (S : PRCServer SK VK) (B : Block m) : Prop where
  db_eq : S.db = db
  layers_eq : S.mpcProvider.layers = []
  partyConst_eq : S.mpcProvider.partyConst = pc
  triples : O.Triples s used m S.mpcProvider.beaverProvider B

/-- The server is between the two runs of a retrieval, with this provider. -/
structure OtherShares.Halfway {SK VK : Type} (O : OtherShares) (db : PRCDatabase) (pc : Bool) (s used m : ℕ)
    (t : PRCServer SK VK × MpcProvider) (B : Block m) : Prop where
  db_eq : t.1.db = db
  partyConst_eq : t.2.partyConst = pc
  triples : O.Triples s used m t.2.beaverProvider B

namespace PRCServer
variable {SK VK G : Type} {S : PRCServer SK VK} {x y z : LayerSource} {mpc q q₁ q₂ : MpcProvider} {pc : Bool}

/-- What a retrieval does after its first run. -/
def answer (S : PRCServer SK VK) (x y : LayerSource) (mpc : MpcProvider) : Party G (Bool × PRCServer SK VK) := do
  let l1Ohe ← .lift (mpc.getOutput x)
  let l2Ohe ← .lift (mpc.getOutput y)
  let l1PirAns ← .lift (S.db.lvl1PirRetrieve l1Ohe)
  if l1PirAns.bitSize = l2Ohe.bitSize then do
    let (p2AnsSrc, mpc) ← .lift (mpc.clear.and l1PirAns.bitSize (.input l1PirAns) (.input l2Ohe))
    let mpc ← mpc.run
    let p2Ans ← .lift (mpc.getOutput p2AnsSrc)
    let parity ← .lift p2Ans.parity
    return (parity, { S with mpcProvider := mpc })
  else .fail

theorem recRetrieve_eq_answer (hlayers : S.mpcProvider.layers = []) (hpc : S.mpcProvider.partyConst = pc)
    {l1 l2 : BooleanValue} (hx : (MpcProvider.blank pc).oheVec l1 = some (x, q₁)) (hy : q₁.oheVec l2 = some (y, q₂)) :
    (S.recRetrieve l1 l2 : Party G _) = (q₂.onto S.mpcProvider).run >>= S.answer x y := by
  have hone : S.mpcProvider.oheVec l1 = some (x, q₁.onto S.mpcProvider) := by
    have hcall := MpcProvider.oheVec_onto (.blank pc) S.mpcProvider l1
    rwa [MpcProvider.blank_onto hlayers hpc, hx] at hcall
  have htwo : (q₁.onto S.mpcProvider).oheVec l2 = some (y, q₂.onto S.mpcProvider) := by
    rw [MpcProvider.oheVec_onto, hy]
    rfl
  rw [recRetrieve, hone, Proc.lift_some, Proc.ret_bind]
  simp only [htwo, Proc.lift_some, Proc.ret_bind]
  rfl

/-- From the output layer on, it is one conjunction. -/
theorem answer_eq (hpc : mpc.partyConst = pc) {o₁ o₂ r : BitArray}
    (ho₁ : Layer.extractSrcData x mpc.outputLayer = some o₁)
    (ho₂ : Layer.extractSrcData y mpc.outputLayer = some o₂) (hr : S.db.lvl1PirRetrieve o₁ = some r) {m : ℕ}
    (hrm : r.bitSize = m) (hm : o₂.bitSize = m)
    (hz : (MpcProvider.blank pc).and m (.input r) (.input o₂) = some (z, q)) :
    (S.answer x y mpc : Party G _) = (q.onto mpc.clear).run >>= fun mpc =>
      .lift ((Layer.extractSrcData z mpc.outputLayer).bind parity) >>= fun b =>
        .ret (b, { S with mpcProvider := mpc }) := by
  have hand : mpc.clear.and m (.input r) (.input o₂) = some (z, q.onto mpc.clear) := by
    have hcall := MpcProvider.and_onto (.blank pc) mpc.clear m (.input r) (.input o₂)
    have hclear : mpc.clear.partyConst = pc := hpc
    rwa [MpcProvider.blank_onto (p := mpc.clear) rfl hclear, hz] at hcall
  rw [answer, MpcProvider.getOutput, ho₁, MpcProvider.getOutput, ho₂]
  simp only [Proc.lift_some, Proc.ret_bind, hr, hrm, hm, if_true, hand]
  refine congrArg (_ >>= ·) (funext fun mpc => ?_)
  rw [MpcProvider.getOutput]
  cases Layer.extractSrcData z mpc.outputLayer with
  | none => rfl
  | some o => rfl

variable {adv : Adversary (Msg G)} {h : List (Rounds.Event (Msg G))} {O : OtherShares} {s used m1 m2 : ℕ}
  {sizes : List ℕ} {db : PRCDatabase} {cell : ℕ → ℕ → ℕ → Bool} {x' y' : LayerSource} {P P' : Option Layer}

variable (SK VK G) in
/-- The output layer says how a retrieval goes on. -/
theorem answer_prepared (hdb : db.Holds 1 (2^m2) (2^m1) cell) {bytes : ℕ} (hx : x.Readable bytes (2^m1))
    (hy : y.Readable bytes (2^m2)) (hP : ∃ z, Layer.Prev P 0 bytes z) (pc : Bool) :
    ∃ (z : LayerSource) (q : MpcProvider), q.Prepared pc [(2^m2+7)/8] ∧ z.Readable ((2^m2+7)/8) (2^m2) ∧
      ∀ (S : PRCServer SK VK) (mpc : MpcProvider), S.db = db → mpc.partyConst = pc → mpc.outputLayer = P →
        (S.answer x y mpc : Party G _) = (q.onto mpc.clear).run >>= fun mpc =>
          .lift ((Layer.extractSrcData z mpc.outputLayer).bind parity) >>= fun b =>
            .ret (b, { S with mpcProvider := mpc }) := by
  obtain ⟨w, hw⟩ := hP
  obtain ⟨o₁, ho₁, hwf₁, hsize₁⟩ := hx P w hw
  obtain ⟨o₂, ho₂, hwf₂, hsize₂⟩ := hy P w hw
  obtain ⟨r, hr, hrr⟩ := PRCDatabase.lvl1PirRetrieve_eq hdb (Nat.two_pow_pos m2) ⟨hwf₁, hsize₁, fun _ => rfl⟩
  obtain ⟨z, q, hz, hq, hread⟩ := MpcProvider.and_prepared pc (Nat.two_pow_pos m2) ⟨hrr.toWF, hrr.bitSize_eq⟩
    ⟨hwf₂, hsize₂⟩
  refine ⟨z, q, hq, hread, fun S mpc hS hpc hout => ?_⟩
  exact answer_eq hpc (hout ▸ ho₁) (hout ▸ ho₂) (hS ▸ hr) hrr.bitSize_eq hsize₂ hz

/-- The last step of a retrieval never fails. -/
theorem parity_readable {bytes len : ℕ} (hz : z.Readable bytes len) (hP : ∃ w, Layer.Prev P 0 bytes w) :
    ∃ b, (Layer.extractSrcData z P).bind parity = some b := by
  obtain ⟨w, hw⟩ := hP
  obtain ⟨o, ho, hwf, -⟩ := hz P w hw
  rw [ho]
  exact ⟨_, parity_eq (.of_wf hwf)⟩

/-- The second run. -/
theorem answer_hides (hdb : db.Holds 1 (2^m2) (2^m1) cell) (hx : x.Readable (sizes.getD 0 0) (2^m1))
    (hy : y.Readable (sizes.getD 0 0) (2^m2)) (hx' : x'.Readable (sizes.getD 0 0) (2^m1))
    (hy' : y'.Readable (sizes.getD 0 0) (2^m2)) (hP : MpcProvider.Outputs sizes P P')
    (hroom : used + (2^m2+7)/8 ≤ (s+7)/8) :
    Hides adv (fun (t : PRCServer SK VK × MpcProvider) B => t.2.outputLayer = P ∧
        O.Halfway db pc s used ((2^m2+7)/8) t B)
      (fun (t : PRCServer SK VK × MpcProvider) B => t.2.outputLayer = P' ∧ O.Halfway db pc s used ((2^m2+7)/8) t B)
      Prod.fst Prod.fst (fun _ _ => True) h (fun t => t.1.answer x y t.2) fun t => t.1.answer x' y' t.2 := by
  obtain ⟨z, q, hq, hz, heq⟩ := answer_prepared SK VK G hdb hx hy hP.1 pc
  obtain ⟨z', q', hq', hz', heq'⟩ := answer_prepared SK VK G hdb hx' hy' hP.2 pc
  have hrun : Hides adv (fun (p : MpcProvider) B => O.Triples s used [(2^m2+7)/8].sum p.beaverProvider B)
      (fun (p : MpcProvider) B => O.Triples s used [(2^m2+7)/8].sum p.beaverProvider B)
      MpcProvider.outputLayer MpcProvider.outputLayer (MpcProvider.Outputs [(2^m2+7)/8]) h
      (fun p => (q.onto p).run) fun p => (q'.onto p).run :=
    MpcProvider.run_hides hq hq' (by rwa [List.sum_singleton])
  rw [List.sum_singleton] at hrun
  have hserver : Hides adv (fun (t : PRCServer SK VK × MpcProvider) B => t.2.outputLayer = P ∧
        O.Halfway db pc s used ((2^m2+7)/8) t B)
      (fun (t : PRCServer SK VK × MpcProvider) B => t.2.outputLayer = P' ∧ O.Halfway db pc s used ((2^m2+7)/8) t B)
      MpcProvider.outputLayer MpcProvider.outputLayer (MpcProvider.Outputs [(2^m2+7)/8]) h
      (fun t => (q.onto t.2.clear).run) fun t => (q'.onto t.2.clear).run :=
    hrun.comap (fun _ _ ht => ht.2.triples) fun _ _ ht => ht.2.triples
  refine (hserver.local_end fun c c' hc => ?_).congr (fun t B ht => heq _ _ ht.2.db_eq ht.2.partyConst_eq ht.1)
    fun t B ht => heq' _ _ ht.2.db_eq ht.2.partyConst_eq ht.1
  obtain ⟨b, hb⟩ := parity_readable hz hc.1
  obtain ⟨b', hb'⟩ := parity_readable hz' hc.2
  refine ⟨some (b, b'), fun _ _ _ => trivial, fun t B mpc _ _ hmpc => ?_, fun t B mpc _ _ hmpc => ?_⟩
  · rw [hmpc, hb]
    exact ⟨_, rfl, rfl⟩
  · rw [hmpc, hb']
    exact ⟨_, rfl, rfl⟩

/-- Shares of other indices, which are as long, look the same. -/
theorem recRetrieve_hides (hdb : db.Holds 1 (2^m2) (2^m1) cell) {l1 l2 l1' l2' : BooleanValue} (h1 : l1.bitLen = m1)
    (h2 : l2.bitLen = m2) (h1' : l1'.bitLen = m1) (h2' : l2'.bitLen = m2) (hm1 : 1 ≤ m1) (hm2 : 1 ≤ m2)
    (hroom : used + queryBytes m1 m2 ≤ (s+7)/8) :
    Hides adv (O.Idle db pc s used (queryBytes m1 m2)) (O.Idle db pc s used (queryBytes m1 m2)) Prod.fst Prod.fst
      (fun _ _ => True) h (fun S : PRCServer SK VK => S.recRetrieve l1 l2)
      fun S : PRCServer SK VK => S.recRetrieve l1' l2' := by
  obtain ⟨x, y, q₁, q₂, hx, hy, hq, hxr, hyr⟩ := MpcProvider.oheVec_prepared pc h1 h2 hm1 hm2
  obtain ⟨x', y', q₁', q₂', hx', hy', hq', hxr', hyr'⟩ := MpcProvider.oheVec_prepared pc h1' h2' hm1 hm2
  rw [queryBytes, ← layerSizes_sum] at hroom ⊢
  have hfirst : used + (layerSizes m1 m2).sum ≤ (s+7)/8 := (Nat.add_le_add_left (Nat.le_add_right _ _) used).trans hroom
  rw [← Nat.add_assoc] at hroom
  have hrun : Hides adv
      (fun (S : PRCServer SK VK) B => O.Triples s used (layerSizes m1 m2).sum S.mpcProvider.beaverProvider B)
      (fun (S : PRCServer SK VK) B => O.Triples s used (layerSizes m1 m2).sum S.mpcProvider.beaverProvider B)
      MpcProvider.outputLayer MpcProvider.outputLayer (MpcProvider.Outputs (layerSizes m1 m2)) h
      (fun S => (q₂.onto S.mpcProvider).run) fun S => (q₂'.onto S.mpcProvider).run :=
    (MpcProvider.run_hides hq hq' hfirst).comap (fun _ _ hS => hS) fun _ _ hS => hS
  have hsecond : ∀ P P' h', MpcProvider.Outputs (layerSizes m1 m2) P P' → Hides adv
      (fun (t : PRCServer SK VK × MpcProvider) B => t.2.outputLayer = P ∧
        O.Halfway db pc s (used + (layerSizes m1 m2).sum) ((2^m2+7)/8) t B)
      (fun (t : PRCServer SK VK × MpcProvider) B => t.2.outputLayer = P' ∧
        O.Halfway db pc s (used + (layerSizes m1 m2).sum) ((2^m2+7)/8) t B) Prod.fst Prod.fst (fun _ _ => True) h'
      (fun t => t.1.answer x y t.2) fun t => t.1.answer x' y' t.2 :=
    fun P P' h' hP => answer_hides hdb hxr hyr hxr' hyr' hP hroom
  -- what a first run leaves for the second one
  have hmid : ∀ (q : MpcProvider) (S : PRCServer SK VK) B mpc, q.Prepared pc (layerSizes m1 m2) →
      O.Idle db pc s used ((layerSizes m1 m2).sum + (2^m2+7)/8) S B → ((q.onto S.mpcProvider).run (G := G)).Yields mpc →
      O.Halfway db pc s (used + (layerSizes m1 m2).sum) ((2^m2+7)/8) (S, mpc) (splitBlock _ _ B).2 := by
    intro q S B mpc hq hS hmpc
    have hspends := (MpcProvider.run_spends hmpc).1
    rw [show ((q.onto S.mpcProvider).layers.map Layer.currentSize) = layerSizes m1 m2 from hq.sizes_eq] at hspends
    exact ⟨hS.db_eq, (MpcProvider.run_base hmpc).2.1.trans hq.partyConst_eq, hS.triples.second hspends⟩
  have hboth : Hides adv (O.Idle db pc s used ((layerSizes m1 m2).sum + (2^m2+7)/8))
      (O.Idle db pc s used ((layerSizes m1 m2).sum + (2^m2+7)/8)) Prod.fst Prod.fst (fun _ _ => True) h
      (fun S : PRCServer SK VK => (q₂.onto S.mpcProvider).run >>= S.answer x y)
      fun S : PRCServer SK VK => (q₂'.onto S.mpcProvider).run >>= S.answer x' y' :=
    hrun.bind (splitBlock (layerSizes m1 m2).sum ((2^m2+7)/8)) hsecond
      (fun S B hS => ⟨hS.triples.first, fun mpc hmpc => hmid q₂ S B mpc hq hS hmpc⟩)
      fun S B hS => ⟨hS.triples.first, fun mpc hmpc => hmid q₂' S B mpc hq' hS hmpc⟩
  refine hboth.congr (fun S B hS => ?_) fun S B hS => ?_
  · exact recRetrieve_eq_answer hS.layers_eq hS.partyConst_eq hx hy
  · exact recRetrieve_eq_answer hS.layers_eq hS.partyConst_eq hx' hy'

end PRCServer
end PrivRecCert.Prc
