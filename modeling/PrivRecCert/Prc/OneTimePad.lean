import PrivRecCert.Prc.Stage
import PrivRecCert.Prc.B2aSpec
import Mathlib.Probability.Distributions.Uniform

/-! What a party broadcasts is a one-time pad of its inputs. The masks of a layer blind data that depends on
earlier masks through earlier broadcasts only, so the map from all masks of a run to all of its broadcasts
is triangular, and blinding is a bijection at every layer. -/
namespace PrivRecCert.Prc
open CorRnd SimdArray BitArray Rounds

/-- The masks that layers of these sizes take, layer by layer; also what they broadcast. -/
def Blocks : List ℕ → Type
  | [] => Unit
  | m :: ms => Block m × Blocks ms

instance Blocks.fintype : (ms : List ℕ) → Fintype (Blocks ms)
  | [] => inferInstanceAs (Fintype Unit)
  | m :: ms =>
    let _ := Blocks.fintype ms
    inferInstanceAs (Fintype (Block m × Blocks ms))

instance Blocks.nonempty : (ms : List ℕ) → Nonempty (Blocks ms)
  | [] => inferInstanceAs (Nonempty Unit)
  | m :: ms =>
    have _ := Blocks.nonempty ms
    inferInstanceAs (Nonempty (Block m × Blocks ms))

/-- The masks from byte `u` on. -/
def blocksAt (a b : Bits) : ℕ → (ms : List ℕ) → Blocks ms
  | _, [] => ()
  | u, m :: ms => (blockAt a b u m, blocksAt a b (u+m) ms)

variable {G : Type}

/-- The messages are payloads of these sizes with these bits, in this order. -/
def Broadcasts : (ms : List ℕ) → Blocks ms → List (Msg G) → Prop
  | [], _, msgs => msgs = []
  | m :: ms, B, msgs => ∃ msg rest, msgs = msg :: rest ∧ Carries m B.1 msg ∧ Broadcasts ms B.2 rest

/-- A bijection takes the uniform distribution to itself. -/
theorem uniform_map_equiv {A : Type} [Fintype A] [Nonempty A] (e : A ≃ A) :
    (PMF.uniformOfFintype A).map e = PMF.uniformOfFintype A := by
  ext x
  rw [PMF.map_apply, tsum_eq_single (e.symm x)]
  · rw [if_pos (e.apply_symm_apply x).symm, PMF.uniformOfFintype_apply, PMF.uniformOfFintype_apply]
  · intro y hy
    rw [if_neg fun h => hy ((e.symm_apply_eq.mpr h).symm)]

namespace MpcProvider

/-- The provider with other triples. -/
def withTriples (p : MpcProvider) (bp : BeaverProvider) : MpcProvider := { p with beaverProvider := bp }

section WithTriples
variable (p : MpcProvider) (bp : BeaverProvider)

theorem getLayer_withTriples (l : ℕ) : (p.withTriples bp).getLayer l =
    (p.getLayer l).map fun r => (r.1, fun L => (r.2 L).withTriples bp) := by
  simp only [getLayer, ensureLayer_eq, withTriples]
  cases (p.layers ++ (List.range (l+1-p.layers.length)).map fun j =>
    Layer.new p.partyConst (p.layers.length + j))[l]? with
  | none => rfl
  | some L => rfl

theorem and_withTriples (bitSize : ℕ) (a b : LayerSource) : (p.withTriples bp).and bitSize a b =
    (p.and bitSize a b).map fun r => (r.1, r.2.withTriples bp) := by
  rw [MpcProvider.and, MpcProvider.and, getLayer_withTriples]
  split_ifs with h0
  · rfl
  · simp only [Option.bind_eq_bind, Option.map_bind, Option.bind_map, Function.comp_def, Option.map_some]

theorem recursiveOheVec_withTriples (l len : ℕ) (v : U32) : (p.withTriples bp).recursiveOheVec l len v =
    (p.recursiveOheVec l len v).map fun r => (r.1, r.2.withTriples bp) := by
  induction len using Nat.strong_induction_on generalizing p l v with
  | _ len ih =>
    rw [recursiveOheVec, recursiveOheVec]
    split_ifs with h0 h1
    · rfl
    · simp only [Option.bind_eq_bind, Option.map_bind, Function.comp_def, Option.map_some, withTriples]
    · simp only [ih _ (show (len+1)/2 < len by omega), ih _ (show len - (len+1)/2 < len by omega), getLayer_withTriples,
        Option.bind_eq_bind, Option.map_bind, Option.bind_map, Function.comp_def, Option.map_some]

theorem call_withTriples (c : Call) : (p.withTriples bp).call c = (p.call c).map fun r => (r.1, r.2.withTriples bp) := by
  cases c with
  | and bitSize a b => exact and_withTriples p bp bitSize a b
  | oheVec v => exact recursiveOheVec_withTriples p bp _ _ _

/-- Requests do not touch the triples. -/
theorem issue_withTriples (calls : List Call) : (p.withTriples bp).issue calls =
    (p.issue calls).map fun r => (r.1, r.2.withTriples bp) := by
  induction calls generalizing p with
  | nil => rfl
  | cons c calls ih =>
    simp only [issue, call_withTriples, ih, Option.bind_eq_bind, Option.map_bind, Option.bind_map, Function.comp_def,
      Option.map_some]

end WithTriples

variable {s used : ℕ} {a b c : Bits} {ls : List (List (Msg G))} {pc : Bool}

/-- The masks of the layers to the payloads that are broadcast, one layer after the other. -/
theorem runLayers_alike {Ls Ls' : List Layer} {prev prev' : Option Layer} {bp : BeaverProvider}
    {out : List (Msg G) × Option Layer × BeaverProvider} (hA : List.Forall₂ Layer.Alike Ls Ls')
    (hL : ∀ L ∈ Ls, ∃ l ts, Layer.Relaying L pc l ts) (hprev : Layer.PrevAlike prev prev')
    (hbp : bp.Holds s [a, b, c] used) (hrun : (runLayers Ls prev bp).transcript ls = some out) :
    ∃ e : Blocks (Ls.map Layer.currentSize) ≃ Blocks (Ls.map Layer.currentSize),
      ∀ (bp' : BeaverProvider) (a' b' : Bits), bp'.Holds s [a', b', c] used →
        ∃ msgs o bp₂, (runLayers Ls' prev' bp').transcript ls = some (msgs, o, bp₂) ∧
          Broadcasts _ (e (blocksAt a' b' used _)) msgs ∧
          bp₂.Holds s [a', b', c] (used + (Ls.map Layer.currentSize).sum) := by
  induction hA generalizing prev prev' bp used ls out with
  | nil => exact ⟨Equiv.refl _, fun bp' a' b' hbp' => ⟨[], prev', bp', rfl, rfl, hbp'⟩⟩
  | @cons L L' Ls Ls' hhead _ ih =>
    obtain ⟨l, ts, hrelay⟩ := hL L (by simp)
    obtain ⟨msgs, ls', L₁, bp₁, z, out', rfl, hdone, hbp₁, hrest, x, y, hother⟩ :=
      Layer.interact_alike hrelay hhead hprev hbp hrun
    choose L₂ z' hdone' hstep using hother
    -- the other run goes on from a layer that its first broadcast determines
    have htail := fun B => ih (fun K hK => hL K (by simp [hK])) (.some hdone (hdone' B)) hbp₁ hrest
    choose e he using htail
    refine ⟨Equiv.prodShear (pad x y _) fun M => e (pad x y _ M), fun bp' a' b' hbp' => ?_⟩
    obtain ⟨msg, bp₂, hmsg, hbp₂, hrun'⟩ := hstep _ bp' a' b' hbp' rfl
    obtain ⟨msgs', o, bp₃, hrest', hcast, hbp₃⟩ := he _ bp₂ a' b' hbp₂
    refine ⟨msg :: msgs', o, bp₃, ?_, ⟨msg, msgs', rfl, hmsg, hcast⟩, ?_⟩
    · exact (hrun' _ fun r => runLayers Ls' (some r.1) r.2).trans (congrArg (Option.map _) hrest')
    · rwa [List.map_cons, List.sum_cons, ← Nat.add_assoc]

theorem run_transcript (p : MpcProvider) (ls : List (List (Msg G))) : p.run.transcript ls =
    ((runLayers p.layers.reverse none p.beaverProvider).transcript ls).map fun r =>
      (r.1, { p with layers := [], beaverProvider := r.2.2, outputLayer := r.2.1 }) :=
  Proc.transcript_bind_ret _ _ _

/-- The sizes of the layers, in the order in which `run` goes through them. -/
def currentSizes (p : MpcProvider) : List ℕ := p.layers.reverse.map Layer.currentSize

/-- Requests followed by a run, on these received lists: the party broadcasts `msgs` and is left with `q`. -/
def Sends (p : MpcProvider) (calls : List Call) (ls : List (List (Msg G))) (msgs : List (Msg G))
    (q : MpcProvider) : Prop :=
  ∃ srcs p₁, p.issue calls = some (srcs, p₁) ∧ p₁.run.transcript ls = some (msgs, q)

/-- For every assignment of the inputs there is a bijection from the masks of a run to what it broadcasts, one
payload for each layer that the requests have built. -/
theorem run_padded {p p₁ q : MpcProvider} {calls : List Call} {srcs : List LayerSource} {msgs : List (Msg G)}
    (hp : p.layers = []) (hbp : p.beaverProvider.Holds s [a, b, c] used) (hissue : p.issue calls = some (srcs, p₁))
    (hrun : p₁.run.transcript ls = some (msgs, q)) {calls' : List Call} (hcalls : List.Forall₂ Call.Alike calls calls') :
    ∃ e : Blocks p₁.currentSizes ≃ Blocks p₁.currentSizes,
      ∀ (bp' : BeaverProvider) (a' b' : Bits), bp'.Holds s [a', b', c] used → ∃ msgs' q',
        (p.withTriples bp').Sends calls' ls msgs' q' ∧ Broadcasts _ (e (blocksAt a' b' used _)) msgs' ∧
        q'.beaverProvider.Holds s [a', b', c] (used + p₁.currentSizes.sum) := by
  have hnil : p.AllRelaying := fun l L hL => by
    rw [hp] at hL
    exact nomatch hL
  obtain ⟨hrelay, hbase⟩ := issue_relaying hnil hissue
  have hmem : ∀ L ∈ p₁.layers.reverse, ∃ l ts, Layer.Relaying L p₁.partyConst l ts := fun L hL => by
    obtain ⟨l, hl⟩ := List.getElem?_of_mem (List.mem_reverse.mp hL)
    exact ⟨l, hrelay l L hl⟩
  have hbp₁ : p₁.beaverProvider.Holds s [a, b, c] used := by
    rwa [hbase]
  rw [run_transcript] at hrun
  obtain ⟨r, hr, -⟩ := Option.map_eq_some_iff.mp hrun
  have hrefl : p.Alike p := ⟨rfl, by rw [hp]; exact .nil⟩
  obtain ⟨srcs', p₁', hissue', hA⟩ := issue_alike hrefl hcalls hissue
  obtain ⟨e, he⟩ := runLayers_alike (List.forall₂_reverse_iff.mpr hA.layers) hmem .none hbp₁ hr
  refine ⟨e, fun bp' a' b' hbp' => ?_⟩
  obtain ⟨msgs', o, bp₂, hrun', hcast, hbp₂⟩ := he bp' a' b' hbp'
  refine ⟨msgs', _, ⟨srcs', p₁'.withTriples bp', ?_, (run_transcript _ _).trans (congrArg (Option.map _) hrun')⟩,
    hcast, hbp₂⟩
  rw [issue_withTriples, hissue']
  rfl

end MpcProvider

namespace ConvLayer
variable {c : ConvLayer} {bvs bvs' : List BooleanValue} {l l' : List DaBit} {u : ℕ} {ls : List (List (Msg G))}

/-- Values of the same bit lengths. -/
abbrev SameLens (bvs bvs' : List BooleanValue) : Prop := List.Forall₂ (fun v v' => v.bitLen = v'.bitLen) bvs bvs'

theorem SameLens.totalBits_eq (h : SameLens bvs bvs') : totalBits bvs' = totalBits bvs := by
  induction h with
  | nil => rfl
  | cons hv _ ih => rw [totalBits_cons, totalBits_cons, hv, ih]

/-- One bit for each bit of these values. -/
abbrev Masks (bvs : List BooleanValue) : Type := Fin (totalBits bvs) → Bool

/-- Blinding by these values. -/
def padBits (bvs : List BooleanValue) (t : ℕ) : (Fin t → Bool) ≃ (Fin t → Bool) :=
  Function.Involutive.toPerm (fun w k => flatBits bvs k ^^ w k) fun w => funext fun k => by simp

/-- The bits of an array that has nothing in its padding. -/
def unpadded {t : ℕ} (w : Fin t → Bool) (k : ℕ) : Bool := if h : k < t then w ⟨k, h⟩ else false

/-- Shares that can be added to one array can be added to every array of its size. -/
theorem reconstruct_alike {e e' r : BitArray} {shares : List BitArray} (he : e.Alike e')
    (h : e.inplaceReconstruct shares = some r) : ∃ r', e'.inplaceReconstruct shares = some r' ∧ e'.Alike r' := by
  rw [inplaceReconstruct] at h ⊢
  split_ifs at h ⊢ with hne
  clear hne
  induction shares generalizing e e' with
  | nil => exact ⟨e', rfl, .refl he.right⟩
  | cons share shares ih =>
    rw [List.foldlM_cons] at h ⊢
    obtain ⟨e₁, h₁, hrest⟩ := Option.bind_eq_some_iff.mp h
    obtain ⟨hA, e₁', h₁', hA'⟩ := inplaceXor_alike he h₁
    obtain ⟨r', hr', hA''⟩ := ih (hA.symm.trans (he.trans hA')) hrest
    exact ⟨r', by rw [h₁']; exact hr', hA'.trans hA''⟩

/-- What a conversion that gets to its end tells about its sizes. -/
theorem interact_inv {dp : DaBitProvider} {out : List (Msg G) × List ArithValueT × DaBitProvider} (hdp : dp.Holds l u)
    (hrun : (c.interact bvs dp).transcript ls = some out) : 0 < totalBits bvs ∧ u + totalBits bvs ≤ l.length := by
  obtain ⟨b, hb, hrun⟩ := Proc.transcript_lift hrun
  obtain ⟨b', -, hrun⟩ := Proc.transcript_lift hrun
  obtain ⟨taken, htake, -⟩ := Proc.transcript_lift hrun
  constructor
  · apply Nat.pos_of_ne_zero
    intro h0
    rw [h0] at hb
    exact nomatch hb
  · by_contra hroom
    rw [DaBitProvider.take_none hdp (by omega)] at htake
    exact nomatch htake

/-- For every assignment of the values there is a bijection from the bits of the daBits to what is broadcast. -/
theorem interact_padded {dp : DaBitProvider} {out : List (Msg G) × List ArithValueT × DaBitProvider} (hdp : dp.Holds l u)
    (hrun : (c.interact bvs dp).transcript ls = some out) (hlens : SameLens bvs bvs') {dp' : DaBitProvider}
    (hdp' : dp'.Holds l' u) (hl : l'.length = l.length) : ∃ (e : BitArray) (vals : List ArithValueT) (dp₂ : DaBitProvider),
      (c.interact bvs' dp' : Party G _).transcript ls = some ([.dabit e], vals, dp₂) ∧
      e.Represents (totalBits bvs) (unpadded (padBits bvs' (totalBits bvs) fun k => maskBit l' u k)) ∧
      dp₂.Holds l' (u + totalBits bvs) := by
  obtain ⟨hpos, hroom⟩ := interact_inv hdp hrun
  obtain ⟨e, dp₁, hinteract, he, -⟩ := interact_eq (G := G) hdp hpos hroom
  have hbits := hlens.totalBits_eq
  obtain ⟨e', dp₂, hinteract', he', hdp₂⟩ := interact_eq (G := G) (c := c) hdp' (hbits ▸ hpos)
    (hbits.symm ▸ hl.symm ▸ hroom)
  rw [hbits] at he' hdp₂ hinteract'
  rw [hinteract] at hrun
  obtain ⟨msgs, ls', r, rfl, hrun, -⟩ := Proc.transcript_exchange hrun
  obtain ⟨shares, hshares, hrun⟩ := Proc.transcript_lift hrun
  obtain ⟨f, hf, -⟩ := Proc.transcript_lift hrun
  obtain ⟨f', hf', hA⟩ := reconstruct_alike (he.alike he') hf
  have hfr : f'.Represents (totalBits bvs) f'.bit := ⟨hA.right, hA.bitSize_eq.symm.trans he'.bitSize_eq, fun _ => rfl⟩
  obtain ⟨vals, hvals⟩ : ∃ vals, c.recombine f' ((l'.drop u).take (totalBits bvs)) bvs' 0 = some vals :=
    ⟨_, recombine_eq hfr (hl.symm ▸ hroom) (by omega)⟩
  refine ⟨e', vals, dp₂, ?_, he'.congr fun k => ?_, hdp₂⟩
  · rw [hinteract', Proc.transcript, Proc.transcript, finish, hshares, Proc.lift_some, Proc.ret_bind, hf', Proc.lift_some,
      Proc.ret_bind, hvals]
    rfl
  · rw [blinded, hbits, unpadded]
    by_cases hk : k < totalBits bvs
    · rw [if_pos hk, dif_pos hk]
      rfl
    · rw [if_neg hk, dif_neg hk]

end ConvLayer

/-- The masks that a run or a conversion uses, and what it broadcasts, are in bijection for every assignment of
the inputs. What is broadcast is uniform if the masks are, and has the same sizes, whatever the inputs are: one payload
for each layer that the requests have built, or one payload of all bits to convert, with nothing in its padding. -/
theorem broadcasts_one_time_pad :
    (∀ (p p₁ q : MpcProvider) (calls : List Call) (srcs : List LayerSource) (ls : List (List (Msg G)))
      (msgs : List (Msg G)) (s used : ℕ) (a b c : Bits), p.layers = [] → p.beaverProvider.Holds s [a, b, c] used →
      p.issue calls = some (srcs, p₁) → p₁.run.transcript ls = some (msgs, q) →
      ∀ calls', List.Forall₂ Call.Alike calls calls' → ∃ e : Blocks p₁.currentSizes ≃ Blocks p₁.currentSizes,
        (PMF.uniformOfFintype (Blocks p₁.currentSizes)).map e = PMF.uniformOfFintype (Blocks p₁.currentSizes) ∧
        ∀ (bp' : BeaverProvider) (a' b' : Bits), bp'.Holds s [a', b', c] used → ∃ msgs' q',
          (p.withTriples bp').Sends calls' ls msgs' q' ∧
          Broadcasts p₁.currentSizes (e (blocksAt a' b' used p₁.currentSizes)) msgs' ∧
          q'.beaverProvider.Holds s [a', b', c] (used + p₁.currentSizes.sum)) ∧
    ∀ (conv : ConvLayer) (bvs : List BooleanValue) (dp : DaBitProvider) (ls : List (List (Msg G)))
      (out : List (Msg G) × List ArithValueT × DaBitProvider) (l : List DaBit) (u : ℕ), dp.Holds l u →
      (conv.interact bvs dp).transcript ls = some out →
      ∀ bvs', ConvLayer.SameLens bvs bvs' → ∃ e : ConvLayer.Masks bvs ≃ ConvLayer.Masks bvs,
        (PMF.uniformOfFintype (ConvLayer.Masks bvs)).map e = PMF.uniformOfFintype (ConvLayer.Masks bvs) ∧
        ∀ (dp' : DaBitProvider) (l' : List DaBit), dp'.Holds l' u → l'.length = l.length → ∃ b vals dp₂,
          (conv.interact bvs' dp' : Party G _).transcript ls = some ([.dabit b], vals, dp₂) ∧
          b.Represents (ConvLayer.totalBits bvs) (ConvLayer.unpadded (e fun k => ConvLayer.maskBit l' u k)) ∧
          dp₂.Holds l' (u + ConvLayer.totalBits bvs) := by
  constructor
  · intro p p₁ q calls srcs ls msgs s used a b c hp hbp hissue hrun calls' hcalls
    obtain ⟨e, he⟩ := MpcProvider.run_padded hp hbp hissue hrun hcalls
    exact ⟨e, uniform_map_equiv e, he⟩
  · intro conv bvs dp ls out l u hdp hrun bvs' hlens
    exact ⟨ConvLayer.padBits bvs' _, uniform_map_equiv _, fun dp' l' hdp' hl =>
      ConvLayer.interact_padded hdp hrun hlens hdp' hl⟩

/-- A conjunction of eight bits, which builds one layer of one byte, and a conversion of one bit, of ones and of
zeros. -/
theorem broadcasts_one_time_pad_eight : ∃ (o z y : BitArray) (srcs : List LayerSource) (p₁ q : MpcProvider)
    (msgs : List (Msg Scalar)) (out : List (Msg Scalar) × List ArithValueT × DaBitProvider),
    let p : MpcProvider := .new true ⟨D2BitArray.zeros 3 16, 0, 0⟩ .new
    let ls : List (List (Msg Scalar)) := [[.beaver ⟨⟨[z, z]⟩, le_rfl⟩]]
    BitArray.ones 8 = some o ∧ BitArray.new 8 = some z ∧ BitArray.new 1 = some y ∧
    p.issue [.and 8 (.input o) (.input o)] = some (srcs, p₁) ∧ p₁.currentSizes = [1] ∧
    p₁.run.transcript ls = some (msgs, q) ∧
    (ConvLayer.interact ⟨true⟩ [⟨1, 1, by decide, by decide⟩] ⟨some [⟨true, 0⟩], 0, 0⟩).transcript [[.dabit y]] =
      some out ∧
    (∃ e : Blocks p₁.currentSizes ≃ Blocks p₁.currentSizes, ∀ (bp' : BeaverProvider) (a' b' : Bits),
      bp'.Holds 16 [a', b', fun _ => false] 0 → ∃ msgs' q',
        (p.withTriples bp').Sends [.and 8 (.input z) (.input z)] ls msgs' q' ∧
        Broadcasts p₁.currentSizes (e (blocksAt a' b' 0 p₁.currentSizes)) msgs') ∧
    ∃ e : (Fin 1 → Bool) ≃ (Fin 1 → Bool), ∀ l' : List DaBit, l'.length = 1 → ∃ b vals dp₂,
      (ConvLayer.interact ⟨true⟩ [⟨1, 0, by decide, by decide⟩] ⟨some l', 0, 0⟩ : Party Scalar _).transcript
        [[.dabit y]] = some ([.dabit b], vals, dp₂) ∧
      b.Represents 1 (ConvLayer.unpadded (e fun k => ConvLayer.maskBit l' 0 k)) := by
  have hrun : ∃ (o z y : BitArray) (srcs : List LayerSource) (p₁ q : MpcProvider) (msgs : List (Msg Scalar))
      (out : List (Msg Scalar) × List ArithValueT × DaBitProvider), BitArray.ones 8 = some o ∧
      BitArray.new 8 = some z ∧ BitArray.new 1 = some y ∧
      (MpcProvider.new true ⟨D2BitArray.zeros 3 16, 0, 0⟩ .new).issue [.and 8 (.input o) (.input o)] = some (srcs, p₁) ∧
      p₁.currentSizes = [1] ∧ p₁.run.transcript [[.beaver ⟨⟨[z, z]⟩, le_rfl⟩]] = some (msgs, q) ∧
      (ConvLayer.interact ⟨true⟩ [⟨1, 1, by decide, by decide⟩] ⟨some [⟨true, 0⟩], 0, 0⟩).transcript [[.dabit y]] =
        some out := by
    refine ⟨_, _, _, _, _, _, _, _, rfl, rfl, rfl, rfl, rfl, rfl, rfl⟩
  obtain ⟨o, z, y, srcs, p₁, q, msgs, out, ho, hz, hy, hissue, hsizes, hrun, hconv⟩ := hrun
  obtain ⟨o', ho', hor⟩ := ones_eq (s := 8) (by decide)
  obtain ⟨z', hz', hzr⟩ := new_eq (s := 8) (by decide)
  obtain ⟨d, hd, hdr⟩ := D2BitArray.zeros_eq (s := 16) 3 (by decide)
  obtain rfl : o = o' := Option.some.inj (ho.symm.trans ho')
  obtain rfl : z = z' := Option.some.inj (hz.symm.trans hz')
  have hin : (LayerSource.input o).Alike (.input z) := .input (hor.alike hzr)
  refine ⟨o, z, y, srcs, p₁, q, msgs, out, ho, hz, hy, hissue, hsizes, hrun, hconv, ?_, ?_⟩
  · obtain ⟨e, -, he⟩ := broadcasts_one_time_pad.1 _ p₁ q _ srcs _ msgs 16 0 _ _ _ rfl ⟨⟨d, hd, hdr⟩, rfl⟩ hissue hrun
      [.and 8 (.input z) (.input z)] (.cons (.and 8 hin hin) .nil)
    refine ⟨e, fun bp' a' b' hbp' => ?_⟩
    obtain ⟨msgs', q', hsends, hcast, -⟩ := he bp' a' b' hbp'
    exact ⟨msgs', q', hsends, hcast⟩
  · obtain ⟨e, -, he⟩ := broadcasts_one_time_pad.2 _ _ _ _ out _ 0 ⟨rfl, rfl⟩ hconv
      [⟨1, 0, by decide, by decide⟩] (.cons rfl .nil)
    refine ⟨e, fun l' hl' => ?_⟩
    obtain ⟨b, vals, dp₂, hsends, hbits, -⟩ := he ⟨some l', 0, 0⟩ l' ⟨rfl, rfl⟩ hl'
    exact ⟨b, vals, dp₂, hsends, hbits⟩

end PrivRecCert.Prc
