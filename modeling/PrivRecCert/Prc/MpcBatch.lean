import PrivRecCert.Prc.MpcBuild
import PrivRecCert.Prc.MpcRun
import PrivRecCert.Sharing.Arrays
import PrivRecCert.Prc.Util

/-! Batches of requests at all parties: the requests are issued, one run evaluates them, and the
outputs of the parties are shares of what was asked for. -/
namespace PrivRecCert.Prc
open CorRnd SimdArray Rounds Circuit MpcProvider Sharing
open scoped BigOperators

variable {n : ℕ}

/-- One request at all parties: the operands are given by the parties' shares. -/
inductive Task (n : ℕ) : Type
  | and (bitSize : ℕ) (x y : Fin n → BitArray)
  | ohe (bitLen : ℕ) (v : Fin n → BooleanValue)

namespace Task

/-- What party `i` calls. -/
def call (i : Fin n) : Task n → Call
  | and bitSize x y => .and bitSize (.input (x i)) (.input (y i))
  | ohe _ v => .oheVec (v i)

/-- Shares of the announced sizes. -/
def Valid : Task n → Prop
  | and bitSize x y => 0 < bitSize ∧
      ∀ i, (x i).WF ∧ (x i).bitSize = bitSize ∧ (y i).WF ∧ (y i).bitSize = bitSize
  | ohe bitLen v => 1 ≤ bitLen ∧ ∀ i, (v i).bitLen = bitLen

/-- The number of bits of the result. -/
def size : Task n → ℕ
  | and bitSize _ _ => bitSize
  | ohe bitLen _ => 2^bitLen

/-- The bits of the result, in terms of the shared operands. -/
def expected : Task n → Bits
  | and _ x y => fun k => plain (fun i => (x i).bit) k && plain (fun i => (y i).bit) k
  | ohe _ v => fun k => decide (k = (xorAll fun i => (v i).value).toNat)

/-- The bytes of Beaver triples that the task uses up. -/
def bytes : Task n → ℕ
  | and bitSize _ _ => divCeil bitSize 8
  | ohe bitLen _ => oheBytes bitLen

/-- The task in the circuit of all parties, `p` being the constant party. -/
def request (p : Fin n) : Task n → Request (Fin n → Bits)
  | and bitSize x y => .and bitSize (fun i => (x i).bit) (fun i => (y i).bit)
  | ohe bitLen v => .ohe bitLen fun pos i => leafBits (decide (i = p)) (v i).value pos

variable {p : Fin n} {t : Task n}

theorem request_valid (ht : t.Valid) : (t.request p).Valid := by
  cases t with
  | and bitSize x y => exact ht.1
  | ohe bitLen v => exact ht.1

@[simp] theorem request_bytes : (t.request p).bytes = t.bytes := by cases t <;> rfl

theorem callMatches (ht : t.Valid) (i : Fin n) :
    CallMatches (decide (i = p)) ((t.request p).map (· i)) (t.call i) := by
  cases t with
  | and bitSize x y =>
    obtain ⟨hx, hxs, hy, hys⟩ := ht.2 i
    exact ⟨rfl, ⟨hx, hxs, fun _ => rfl⟩, ⟨hy, hys, fun _ => rfl⟩⟩
  | ohe bitLen v => exact ⟨(ht.2 i).symm, rfl⟩

/-- Exactly one party negates, so the leaves of all parties encode the bits of the sum. -/
theorem encodesBits_plain (p : Fin n) (v : Fin n → U32) :
    EncodesBits (fun pos => plain fun i => leafBits (decide (i = p)) (v i) pos) (xorAll v).toNat := by
  intro pos k
  have hbit : (xorAll v).toNat >>> pos % 2 = ((xorAll v).getLsbD pos).toNat := by
    rw [BitVec.getLsbD, Nat.toNat_testBit, Nat.shiftRight_eq_div_pow]
  have hsum := getLsbD_xorAll v pos
  rw [hbit]
  change plain (fun i => leafBits (decide (i = p)) (v i) pos) k = _
  by_cases h0 : k = 0
  · have hneg : plain (fun i => leafBits (decide (i = p)) (v i) pos) 0 = (!(xorAll v).getLsbD pos) := by
      calc plain (fun i => leafBits (decide (i = p)) (v i) pos) 0
        _ = ∑ i, ((v i).getLsbD pos + if i = p then (1 : Bool) else 0) :=
          Finset.sum_congr rfl fun i _ => by by_cases hi : i = p <;> simp only [hi, if_true, if_false] <;> rfl
        _ = (xorAll v).getLsbD pos + 1 := by
          rw [Finset.sum_add_distrib, Finset.sum_ite_eq', if_pos (Finset.mem_univ p), hsum]
        _ = _ := by cases (xorAll v).getLsbD pos <;> rfl
    rw [h0, hneg]
    cases (xorAll v).getLsbD pos <;> rfl
  · by_cases h1 : k = 1
    · have hone : plain (fun i => leafBits (decide (i = p)) (v i) pos) 1 = (xorAll v).getLsbD pos :=
        hsum ▸ rfl
      rw [h1, hone]
      cases (xorAll v).getLsbD pos <;> rfl
    · have hlt : ¬ k < 2 := by omega
      have hzero : plain (fun i => leafBits (decide (i = p)) (v i) pos) k = false :=
        (Finset.sum_congr rfl fun i _ => (if_neg h0).trans (if_neg h1)).trans
          Finset.sum_const_zero
      rw [hzero, decide_eq_false hlt, Bool.false_and]

/-- The plain circuit asks for the expected bits. -/
theorem request_asks (ht : t.Valid) : ((t.request p).map plain).Asks t.expected := by
  cases t with
  | and bitSize x y => exact .and bitSize _ _
  | ohe bitLen v =>
    have hasks := Request.Asks.ohe bitLen _ _ (encodesBits_plain p fun i => (v i).value)
    rw [Nat.mod_eq_of_lt (xorAll_lt ht.2)] at hasks
    exact hasks

end Task

/-- The arrays `out` are shares of the `s` bits of `f`; their unused bits are shares of zero. -/
structure Opens (out : Fin n → BitArray) (s : ℕ) (f : Bits) : Prop where
  wf : ∀ i, (out i).WF
  bitSize_eq : ∀ i, (out i).bitSize = s
  bits : ∀ k, ∑ i, (out i).bit k = (decide (k < s) && f k)

namespace Opens
variable {out : Fin n → BitArray} {s : ℕ} {f : Bits}

theorem represents (h : Opens out s f) (i : Fin n) : (out i).Represents s (out i).bit :=
  ⟨h.wf i, h.bitSize_eq i, fun _ => rfl⟩

/-- The parities of the shares add up to the parity of the `s` bits. -/
theorem parity (h : Opens out s f) : ∃ ps : Fin n → Bool, (∀ i, (out i).parity = some (ps i)) ∧
    ∑ i, ps i = ∑ k ∈ Finset.range s, f k := by
  refine ⟨_, fun i => BitArray.parity_eq (h.represents i), ?_⟩
  have hle : s ≤ BitArray.blockBits s := by
    have := BitArray.le_blockBits s
    omega
  rw [Finset.sum_comm, Finset.sum_congr rfl fun k _ => h.bits k,
    ← Finset.sum_subset (Finset.range_subset_range.mpr hle) fun k _ hk => ?_]
  · exact Finset.sum_congr rfl fun k hk => by
      rw [decide_eq_true (Finset.mem_range.mp hk), Bool.true_and]
  · rw [decide_eq_false (fun hlt => hk (Finset.mem_range.mpr hlt)), Bool.false_and]
    rfl

/-- The reconstructed array has the expected bits and nothing in its padding. -/
theorem reconstruct (h : Opens out s f) (hn : 0 < n) : ∃ r,
    BitArray.reconstruct (List.ofFn out) = some r ∧ r.Represents s fun k => decide (k < s) && f k := by
  obtain ⟨r, hr, hrr⟩ := BitArray.reconstruct_ofFn h.represents hn
  exact ⟨r, hr, hrr.congr h.bits⟩

end Opens

variable {G : Type} [AddCommGroup G] [Module Scalar G] [Ristretto G] [LawfulRistretto G]

theorem plain_ticketBits (t : Ticket) (z : Fin n → Bits) (k : ℕ) :
    ∑ i, Layer.ticketBits t (z i) k = Layer.ticketBits t (plain z) k := by
  by_cases h : k < 8*(t.endByte - t.stBit/8)
  · exact (Finset.sum_congr rfl fun i _ => if_pos h).trans (if_pos h).symm
  · exact ((Finset.sum_congr rfl fun i _ => if_neg h).trans Finset.sum_const_zero).trans (if_neg h).symm

/-- A ticket of the layer that was run last can be read. -/
theorem readTicket_eq {t : Ticket} {src : LayerSource} {prev : Option Layer} {bytes : ℕ} {z : Bits}
    (hsrc : SourceMatches (.takeZ t) src) (hprev : Layer.Prev prev 0 bytes z)
    (hvalid : (Source.takeZ t : Source Bits).Valid 0 bytes) : ∃ r, Layer.extractSrcData src prev = some r ∧
      r.Represents (t.endBit - t.stBit) (Layer.ticketBits t z) := by
  cases src with
  | input data => exact hsrc.elim
  | takeZ t' =>
    obtain rfl : t = t' := hsrc
    cases prev with
    | none =>
      have hbytes : bytes = 0 := hprev
      obtain ⟨-, -, hlt, hend⟩ := hvalid
      rw [hbytes, BitArray.divCeil_eight] at hend
      omega
    | some P => exact Layer.readOutput_eq hprev hvalid

/-- The outputs of the parties at one source are shares of what the plain circuit shows there. -/
theorem getOutput_opens {C : Circuit (Fin n → Bits)} {src : Source (Fin n → Bits)} {s : ℕ} {f : Bits}
    (hshow : (C.map plain).Shows 0 (src.map plain) s f) (hs : 0 < s) {srcs : Fin n → LayerSource}
    (hsrcs : ∀ i, SourceMatches (src.map (· i)) (srcs i)) {prev : Fin n → Option Layer}
    {z : Fin n → Bits} (hprev : ∀ i, Layer.Prev (prev i) 0 (layerBytes (C.layer 0)) (z i))
    (hz : ∀ k, plain z k = (C.map plain).eval k) :
    ∃ out : Fin n → BitArray, (∀ i, Layer.extractSrcData (srcs i) (prev i) = some (out i)) ∧
      Opens out s f := by
  have hlen : src.len = s := by simpa using hshow.len_eq
  have hvalid : src.Valid 0 (layerBytes (C.layer 0)) := by simpa using hshow.valid hs
  cases src with
  | input len g =>
    have hdata : ∀ i, ∃ data, srcs i = .input data ∧ data.Represents len (g i) := fun i => by
      have h := hsrcs i
      cases hs : srcs i with
      | input data => exact ⟨data, rfl, by rw [hs] at h; exact h⟩
      | takeZ t => rw [hs] at h; exact h.elim
    choose data hsrc hdata using hdata
    obtain rfl : len = s := hlen
    refine ⟨data, fun i => by rw [hsrc i]; rfl, fun i => (hdata i).toWF, fun i => (hdata i).bitSize_eq,
      fun k => ?_⟩
    rw [← hshow.2 k]
    exact Finset.sum_congr rfl fun i _ => (hdata i).bit_eq k
  | takeZ t =>
    choose out hout hrep using fun i => readTicket_eq (hsrcs i) (hprev i) hvalid
    have hsize : t.endBit - t.stBit = s := hlen
    rw [hsize] at hrep
    refine ⟨out, hout, fun i => (hrep i).toWF, fun i => (hrep i).bitSize_eq, fun k => ?_⟩
    obtain ⟨pre, g, post, hlayer, rfl, hsize, hval⟩ := hshow
    have hspan : (gateTicket 0 (layerBytes pre) g.size).endByte -
        (gateTicket 0 (layerBytes pre) g.size).stBit/8 = divCeil g.size 8 := by
      simp only [gateTicket, Ticket.endByte, BitArray.divCeil_eight]
      omega
    have hcomm : k + layerBytes pre*8 = 8*layerBytes pre + k := by ring
    calc ∑ i, (out i).bit k
      _ = ∑ i, Layer.ticketBits (gateTicket 0 (layerBytes pre) g.size) (z i) k :=
        Finset.sum_congr rfl fun i _ => (hrep i).bit_eq k
      _ = Layer.ticketBits (gateTicket 0 (layerBytes pre) g.size) (plain z) k := plain_ticketBits _ z k
      _ = (decide (k < s) && f k) := by
        rw [Layer.ticketBits, hspan, hz]
        simp only [gateTicket, hcomm]
        by_cases hk : k < s
        · have hle := size_le_divCeil g.size
          rw [if_pos (by omega), decide_eq_true hk, Bool.true_and]
          exact hval k hk
        · rw [decide_eq_false hk, Bool.false_and]
          split_ifs with hk'
          · exact evalFrom_gap hlayer (by omega) hk'
          · rfl

/-- The providers of all parties between two batches: `p` is the constant party, and `used` bytes of
the triples are gone. -/
structure Ready (P : Fin n → MpcProvider) (p : Fin n) (s : ℕ) (a b c : Fin n → Bits) (used : ℕ) :
    Prop where
  layers_eq : ∀ i, (P i).layers = []
  partyConst_eq : ∀ i, (P i).partyConst = decide (i = p)
  beaver : BeaverShares (fun i => (P i).beaverProvider) s a b c used

/-- The circuit of a batch at all parties. -/
def batchCircuit (p : Fin n) (ts : List (Task n)) : List (Source (Fin n → Bits)) × Circuit (Fin n → Bits) :=
  Request.buildAll [] (ts.map (Task.request p))

variable {p : Fin n} {ts : List (Task n)}

theorem batch_valid (hts : ∀ t ∈ ts, t.Valid) : ∀ r ∈ ts.map (Task.request p), r.Valid := fun r hr => by
  obtain ⟨t, ht, rfl⟩ := List.mem_map.mp hr
  exact Task.request_valid (hts t ht)

theorem totalBytes_batchCircuit : (batchCircuit p ts).2.totalBytes = (ts.map Task.bytes).sum := by
  rw [batchCircuit, Request.totalBytes_buildAll, List.map_map]
  simp [Circuit.totalBytes, Function.comp_def]

/-- Every layer of a batch has a gate, so none is run empty. -/
theorem layerBytes_batchCircuit_pos (hts : ∀ t ∈ ts, t.Valid) {l : ℕ} (hl : l < (batchCircuit p ts).2.length) :
    0 < layerBytes ((batchCircuit p ts).2.layer l) := by
  have hfull : (batchCircuit p ts).2.FullFrom 0 :=
    Request.full_buildAll (C := []) (fun j _ hj => absurd hj (Nat.not_lt_zero j)) _
  have hclosed : (batchCircuit p ts).2.Closed := Request.closed_buildAll closed_nil (batch_valid hts)
  cases hgs : (batchCircuit p ts).2.layer l with
  | nil => exact absurd hgs (hfull l (Nat.zero_le l) hl)
  | cons g gs =>
    have hg := (hclosed l g (by rw [hgs]; simp)).1
    have := size_le_divCeil g.size
    rw [layerBytes_cons]
    omega

/-- Related lists of all parties, as one list. -/
theorem forall₂_joint {A B : Type} {R : Fin n → A → B → Prop} {l : List A} {bs : Fin n → List B}
    (h : ∀ i, List.Forall₂ (R i) l (bs i)) : ∃ js : List (Fin n → B),
      (∀ i, bs i = js.map (· i)) ∧ List.Forall₂ (fun a f => ∀ i, R i a (f i)) l js := by
  induction l generalizing bs with
  | nil => exact ⟨[], fun i => List.forall₂_nil_left_iff.mp (h i), .nil⟩
  | cons a l ih =>
    have hsplit : ∀ i, ∃ b bs', bs i = b :: bs' ∧ R i a b ∧ List.Forall₂ (R i) l bs' := fun i => by
      obtain ⟨b, bs', hb, hbs', he⟩ := List.forall₂_cons_left_iff.mp (h i)
      exact ⟨b, bs', he, hb, hbs'⟩
    choose b bs' he hb hbs' using hsplit
    obtain ⟨js, hjs, hall⟩ := ih hbs'
    exact ⟨b :: js, fun i => by rw [he i, hjs i]; rfl, .cons hb hall⟩

theorem mapM_eq_some {A B : Type} {f : A → Option B} {l : List A} {l' : List B}
    (h : List.Forall₂ (fun a b => f a = some b) l l') : l.mapM f = some l' := by
  induction h with
  | nil => rfl
  | cons hab _ ih => simp [List.mapM_cons, hab, ih]

/-- Issued requests: every party has the layers of the circuit of the batch. -/
structure Issued (P P' : Fin n → MpcProvider) (p : Fin n) (ts : List (Task n))
    (srcs : List (Fin n → LayerSource)) : Prop where
  built : ∀ i, (P' i).Built ((batchCircuit p ts).2.map (· i))
  sources : List.Forall₂ (fun src srcs => ∀ i, SourceMatches (Source.map (· i) src) (srcs i))
    (batchCircuit p ts).1 srcs
  sameBase : ∀ i, SameBase (P i) (P' i)

theorem issue_party (hts : ∀ t ∈ ts, t.Valid) {P : MpcProvider} {i : Fin n} (hP : P.layers = [])
    (hpc : P.partyConst = decide (i = p)) :
    ∃ srcs P', P.issue (ts.map (Task.call i)) = some (srcs, P') ∧
      P'.Built ((batchCircuit p ts).2.map (· i)) ∧
      List.Forall₂ SourceMatches ((batchCircuit p ts).1.map (Source.map (· i))) srcs ∧ SameBase P P' := by
  have hcalls : List.Forall₂ (CallMatches P.partyConst)
      ((ts.map (Task.request p)).map (Request.map (· i))) (ts.map (Task.call i)) := by
    rw [hpc, List.map_map, List.forall₂_map_left_iff, List.forall₂_map_right_iff, List.forall₂_same]
    exact fun t ht => Task.callMatches (hts t ht) i
  have hmap := Request.buildAll_map (· i) ([] : Circuit (Fin n → Bits)) (ts.map (Task.request p))
  have h := issue_eq (C := Circuit.map (· i) ([] : Circuit (Fin n → Bits))) (Built.nil hP) hcalls
    fun r hr => by
      obtain ⟨r', hr', rfl⟩ := List.mem_map.mp hr
      exact (batch_valid hts r' hr').map _
  rwa [hmap] at h

theorem issue_ready {P : Fin n → MpcProvider} {s used : ℕ} {a b c : Fin n → Bits}
    (hP : Ready P p s a b c used) (hts : ∀ t ∈ ts, t.Valid) :
    ∃ srcs P', (∀ i, (P i).issue (ts.map (Task.call i)) = some (srcs.map (· i), P' i)) ∧
      Issued P P' p ts srcs := by
  choose srcs P' hissue hbuilt hsrcs hbase using fun i =>
    issue_party hts (hP.layers_eq i) (hP.partyConst_eq i)
  obtain ⟨js, hjs, hall⟩ := forall₂_joint fun i => List.forall₂_map_left_iff.mp (hsrcs i)
  exact ⟨js, P', fun i => by rw [hissue i, hjs i], hbuilt, hall, hbase⟩

/-- The results of a batch: one joint array for every task. -/
def AllOpen (ts : List (Task n)) (outs : List (Fin n → BitArray)) : Prop :=
  List.Forall₂ (fun t out => Opens out t.size t.expected) ts outs

theorem batch_shows (hts : ∀ t ∈ ts, t.Valid) : List.Forall₂ (fun t src =>
    ((batchCircuit p ts).2.map plain).Shows 0 (Source.map plain src) t.size t.expected) ts
    (batchCircuit p ts).1 := by
  have hmap := Request.buildAll_map plain ([] : Circuit (Fin n → Bits)) (ts.map (Task.request p))
  have hasks : List.Forall₂ Request.Asks ((ts.map (Task.request p)).map (Request.map plain))
      (ts.map Task.expected) := by
    rw [List.map_map, List.forall₂_map_left_iff, List.forall₂_map_right_iff, List.forall₂_same]
    exact fun t ht => Task.request_asks (hts t ht)
  have h := Request.buildAll_shows (Circuit.map plain ([] : Circuit (Fin n → Bits)))
    (fun r hr => by
      obtain ⟨r', hr', rfl⟩ := List.mem_map.mp hr
      exact (batch_valid hts r' hr').map _) hasks (Extends.refl _)
  rw [hmap, List.map_map, List.zip_map', List.forall₂_map_left_iff, List.forall₂_map_right_iff] at h
  apply h.imp
  intro t src hsrc
  have hsize : ((t.request p).map plain).size = t.size := by cases t <;> rfl
  exact hsize ▸ hsrc

/-- Two chained relations whose links have a common consequence. -/
theorem forall₂_chain {A B C D : Type} {R : A → B → Prop} {S : B → C → Prop} {F : C → D → Prop}
    {U : A → D → Prop} {l : List A} {m : List B} {r : List C} (hR : List.Forall₂ R l m)
    (hS : List.Forall₂ S m r) (h : ∀ a ∈ l, ∀ b c, R a b → S b c → ∃ d, F c d ∧ U a d) :
    ∃ ds, List.Forall₂ F r ds ∧ List.Forall₂ U l ds := by
  induction hR generalizing r with
  | nil =>
    cases hS
    exact ⟨[], .nil, .nil⟩
  | @cons a b l m hab _ ih =>
    rcases hS with _ | ⟨hbc, hS⟩
    obtain ⟨d, hF, hU⟩ := h a (by simp) b _ hab hbc
    obtain ⟨ds, hFs, hUs⟩ := ih hS fun a ha => h a (by simp [ha])
    exact ⟨d :: ds, .cons hF hFs, .cons hU hUs⟩

theorem Task.size_pos {t : Task n} (ht : t.Valid) : 0 < t.size := by
  cases t with
  | and bitSize x y => exact ht.1
  | ohe bitLen v => exact Nat.two_pow_pos bitLen

/-- A run of an issued batch: all parties finish, and their outputs open to the expected bits. -/
theorem run_lockstep {P P' : Fin n → MpcProvider} {s used : ℕ} {a b c : Fin n → Bits}
    {srcs : List (Fin n → LayerSource)} (hP : Ready P p s a b c used) (hts : ∀ t ∈ ts, t.Valid)
    (hP' : Issued P P' p ts srcs) (hsize : ∀ l, 8*layerBytes ((batchCircuit p ts).2.layer l) < 2^32)
    (hroom : used + (ts.map Task.bytes).sum ≤ (s+7)/8) :
    Lockstep Msg.kind (wire (G := G)) (fun Q =>
      Ready Q p s a b c (used + (ts.map Task.bytes).sum) ∧
      (∀ i, (Q i).dabitProvider = (P i).dabitProvider) ∧
      ∃ outs, (∀ i, (srcs.map (· i)).mapM (Q i).getOutput = some (outs.map (· i))) ∧ AllOpen ts outs)
      fun i => (P' i).run := by
  have hclosed : (batchCircuit p ts).2.Closed := Request.closed_buildAll closed_nil (batch_valid hts)
  have hlen := fun i => (hP'.built i).length_eq
  simp only [Circuit.map, List.length_map] at hlen
  have hbp : BeaverShares (fun i => (P' i).beaverProvider) s a b c used := by
    have he : (fun i => (P' i).beaverProvider) = fun i => (P i).beaverProvider :=
      funext fun i => by rw [hP'.sameBase i]
    exact he ▸ hP.beaver
  have hprev : ∀ i : Fin n, Layer.Prev none (batchCircuit p ts).2.length 0 (fun _ => false) := fun _ => rfl
  have hrun := runLayers_lockstep (G := G) (p := p) (batchCircuit p ts).2 [] (by simpa using hclosed)
    (fun l hl => by simpa using layerBytes_batchCircuit_pos hts hl) (fun l _ => by simpa using hsize l)
    hlen (fun i l L hl => by
      have h := (hP'.built i).layers l L hl
      rwa [(hP'.sameBase i).partyConst, hP.partyConst_eq i, layer_map] at h)
    hprev (fun _ => Finset.sum_const_zero) hbp (by rwa [totalBytes_batchCircuit])
  apply hrun.bind
  intro out hout
  obtain ⟨z, hprev, hz, hbp'⟩ := hout
  rw [totalBytes_batchCircuit] at hbp'
  simp only [List.append_nil] at hprev hz
  refine .ret ⟨⟨fun _ => rfl, fun i => ?_, hbp'⟩, fun i => ?_, ?_⟩
  · exact (hP'.sameBase i).partyConst.trans (hP.partyConst_eq i)
  · change (P' i).dabitProvider = _
    rw [hP'.sameBase i]
  · obtain ⟨outs, houts, hopen⟩ := forall₂_chain (batch_shows (p := p) hts) hP'.sources
      fun t ht src srcs hshow hsrcs =>
        getOutput_opens hshow (Task.size_pos (hts t ht)) hsrcs hprev hz
    refine ⟨outs, fun i => mapM_eq_some ?_, hopen⟩
    rw [List.forall₂_map_left_iff, List.forall₂_map_right_iff]
    exact houts.imp fun _ _ h => h i

end PrivRecCert.Prc
