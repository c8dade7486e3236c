import PrivRecCert.Prc.MpcBatch

/-! The engine as its callers see it: one batch of requests after the other on the same providers.
Sums of booleans are exclusive ors. -/
namespace PrivRecCert.Prc
open CorRnd SimdArray Rounds Circuit
open scoped BigOperators

variable {n : ℕ} {G : Type}

namespace MpcProvider

/-- The requests of a batch, a run, the outputs of all returned sources, and a clear. -/
def runBatch (p : MpcProvider) (calls : List Call) : Party G (List BitArray × MpcProvider) := do
  let (srcs, p) ← .lift (p.issue calls)
  let p ← p.run
  let outs ← .lift (srcs.mapM p.getOutput)
  return (outs, p.clear)

def runBatches (p : MpcProvider) : List (List Call) → Party G (List (List BitArray))
  | [] => return []
  | calls :: batches => do
    let (outs, p) ← p.runBatch calls
    let rest ← p.runBatches batches
    return outs :: rest

end MpcProvider

/-- The outputs `out` of the parties are shares of the result of `t`. The shared bits are the
expected ones, the unused bits are shares of zero, and neither the parities nor `==` can tell the
reconstruction from the result. -/
structure Task.Delivers (t : Task n) (out : Fin n → BitArray) : Prop where
  reconstruct : ∃ r, BitArray.reconstruct (List.ofFn out) = some r ∧ r.bitSize = t.size ∧
    (∀ k < t.size, r.get k = some (t.expected k)) ∧ (∀ k, t.size ≤ k → r.bit k = false) ∧
    ∀ d : BitArray, d.WF → d.bitSize = t.size → (∀ k, t.size ≤ k → d.bit k = false) →
      ∃ e, BitArray.eq r d = some e ∧ (e = true ↔ ∀ k < t.size, d.get k = some (t.expected k))
  parity : ∃ ps : Fin n → Bool, (∀ i, (out i).parity = some (ps i)) ∧
    ∑ i, ps i = ∑ k ∈ Finset.range t.size, t.expected k

theorem Task.delivers_of_opens {t : Task n} {out : Fin n → BitArray} (hn : 0 < n)
    (h : Opens out t.size t.expected) : t.Delivers out := by
  refine ⟨?_, h.parity⟩
  obtain ⟨r, hr, hrr⟩ := h.reconstruct hn
  have hget : ∀ k < t.size, r.get k = some (t.expected k) := fun k hk => by
    rw [BitArray.get_eq hrr hk, decide_eq_true hk, Bool.true_and]
  refine ⟨r, hr, hrr.bitSize_eq, hget, fun k hk => ?_, fun d hwf hsize hpad => ?_⟩
  · rw [hrr.bit_eq, decide_eq_false (by omega), Bool.false_and]
  · have hd : d.Represents t.size d.bit := ⟨hwf, hsize, fun _ => rfl⟩
    obtain ⟨e, he, hiff⟩ := BitArray.eq_eq hrr hd
    refine ⟨e, he, hiff.trans ⟨fun hall k hk => ?_, fun hall k => ?_⟩⟩
    · rw [BitArray.get_eq hd hk, ← hall k, decide_eq_true hk, Bool.true_and]
    · by_cases hk : k < t.size
      · have hdk := hall k hk
        rw [BitArray.get_eq hd hk, Option.some.injEq] at hdk
        rw [hdk, decide_eq_true hk, Bool.true_and]
      · rw [decide_eq_false hk, Bool.false_and, hpad k (by omega)]

section Run
variable [AddCommGroup G] [Module Scalar G] [Ristretto G] [LawfulRistretto G]
variable {p : Fin n} {s used : ℕ} {a b c : Fin n → Bits}

/-- One batch at all parties, from any state between two batches to the next such state. -/
theorem runBatch_lockstep {P : Fin n → MpcProvider} (hP : Ready P p s a b c used) {ts : List (Task n)}
    (hts : ∀ t ∈ ts, t.Valid) (hsize : ∀ l, 8*layerBytes ((batchCircuit p ts).2.layer l) < 2^32)
    (hroom : used + (ts.map Task.bytes).sum ≤ (s+7)/8) :
    Lockstep Msg.kind (wire (G := G)) (fun out =>
      Ready (fun i => (out i).2) p s a b c (used + (ts.map Task.bytes).sum) ∧
      ∃ outs, (∀ i, (out i).1 = outs.map (· i)) ∧ AllOpen ts outs)
      fun i => (P i).runBatch (ts.map (Task.call i)) := by
  obtain ⟨srcs, P', hissue, hP'⟩ := issue_ready hP hts
  refine .lift hissue ((run_lockstep (G := G) hP hts hP' hsize hroom).bind fun Q hQ => ?_)
  obtain ⟨hready, -, outs, houts, hopen⟩ := hQ
  refine .lift houts (.ret ⟨⟨fun _ => rfl, hready.partyConst_eq, hready.beaver⟩, outs, fun _ => rfl, hopen⟩)

/-- No layer that the requests of a batch build, at whatever party, takes `2^32` bits or more. -/
def Fits (p : Fin n) (ts : List (Task n)) : Prop :=
  ∀ (P : MpcProvider) i srcs P', P.layers = [] → P.partyConst = decide (i = p) →
    P.issue (ts.map (Task.call i)) = some (srcs, P') → ∀ L ∈ P'.layers, 8*L.currentSize < 2^32

theorem Fits.layer_lt {ts : List (Task n)} (hts : ∀ t ∈ ts, t.Valid) (h : Fits p ts) (l : ℕ) :
    8*layerBytes ((batchCircuit p ts).2.layer l) < 2^32 := by
  let P : MpcProvider := .new (decide (p = p)) .new .new
  obtain ⟨srcs, P', hissue, hbuilt, -⟩ := issue_party (P := P) hts rfl rfl
  have hlen := hbuilt.length_eq
  rw [Circuit.map, List.length_map] at hlen
  by_cases hl : l < (batchCircuit p ts).2.length
  · have hl' : l < P'.layers.length := by omega
    have hsize := (hbuilt.layers l _ (List.getElem?_eq_getElem hl')).currentSize_eq
    rw [layerBytes_layer_map] at hsize
    rw [← hsize]
    exact h P p srcs P' rfl rfl hissue _ (List.getElem_mem hl')
  · rw [layer_of_le (by omega), layerBytes_nil]
    omega

/-- A batch that uses up few triples has small layers. -/
theorem fits_of_bytes {ts : List (Task n)} (hts : ∀ t ∈ ts, t.Valid)
    (h : 8*(ts.map Task.bytes).sum < 2^32) : Fits p ts := by
  intro P i srcs P' hP hpc hissue L hL
  obtain ⟨srcs', P'', hissue', hbuilt, -⟩ := issue_party hts hP hpc
  rw [hissue, Option.some.injEq, Prod.mk.injEq] at hissue'
  obtain ⟨-, rfl⟩ := hissue'
  obtain ⟨l, hl, rfl⟩ := List.getElem_of_mem hL
  have hsize := (hbuilt.layers l _ (List.getElem?_eq_getElem hl)).currentSize_eq
  have hle := layerBytes_le_totalBytes (batchCircuit p ts).2 l
  rw [layerBytes_layer_map] at hsize
  rw [totalBytes_batchCircuit] at hle
  omega

/-- The bytes of triples that a sequence of batches uses up. -/
def batchesBytes (batches : List (List (Task n))) : ℕ := (batches.map fun ts => (ts.map Task.bytes).sum).sum

theorem runBatches_lockstep {P : Fin n → MpcProvider} (hP : Ready P p s a b c used)
    {batches : List (List (Task n))} (hvalid : ∀ ts ∈ batches, ∀ t ∈ ts, t.Valid)
    (hfits : ∀ ts ∈ batches, Fits p ts) (hroom : used + batchesBytes batches ≤ (s+7)/8) :
    Lockstep Msg.kind (wire (G := G)) (fun out => ∃ outs : List (List (Fin n → BitArray)),
      (∀ i, out i = outs.map (List.map (· i))) ∧ List.Forall₂ (List.Forall₂ Task.Delivers) batches outs)
      fun i => (P i).runBatches (batches.map (List.map (Task.call i))) := by
  induction batches generalizing P used with
  | nil => exact .ret ⟨[], fun _ => rfl, .nil⟩
  | cons ts batches ih =>
    have hts := hvalid ts (by simp)
    rw [batchesBytes, List.map_cons, List.sum_cons, ← batchesBytes] at hroom
    refine (runBatch_lockstep (G := G) hP hts ((hfits ts (by simp)).layer_lt hts) (by omega)).bind
      fun out hout => ?_
    obtain ⟨hready, outs, houts, hopen⟩ := hout
    refine (ih hready (fun ts hts => hvalid ts (by simp [hts])) (fun ts hts => hfits ts (by simp [hts]))
      (by omega)).bind fun rest hrest => ?_
    obtain ⟨outss, houtss, hdel⟩ := hrest
    refine .ret ⟨outs :: outss, fun i => ?_, .cons (hopen.imp fun _ _ => Task.delivers_of_opens p.pos) hdel⟩
    change (out i).1 :: rest i = _
    rw [houts i, houtss i]
    rfl

/-- Whatever is asked of the engine, batch by batch, all parties finish, and every source they were
given opens to the conjunction or to the one-hot vector that was asked for. -/
theorem runBatches_delivers {bp : Fin n → BeaverProvider} (dp : Fin n → DaBitProvider)
    (hbp : BeaverShares bp s a b c used) {batches : List (List (Task n))}
    (hvalid : ∀ ts ∈ batches, ∀ t ∈ ts, t.Valid) (hfits : ∀ ts ∈ batches, Fits p ts)
    (hroom : used + batchesBytes batches ≤ (s+7)/8) :
    Lockstep Msg.kind (wire (G := G)) (fun out => ∃ outs : List (List (Fin n → BitArray)),
      (∀ i, out i = outs.map (List.map (· i))) ∧ List.Forall₂ (List.Forall₂ Task.Delivers) batches outs)
      fun i => (MpcProvider.new (decide (i = p)) (bp i) (dp i)).runBatches
        (batches.map (List.map (Task.call i))) :=
  runBatches_lockstep ⟨fun _ => rfl, fun _ => rfl, hbp⟩ hvalid hfits hroom

end Run

/-- Two shares of a word twice, and the same shares the other way round: a triple, as a bit is its own square. -/
theorem beaverShares_square {o z : BitArray} {s : ℕ} {f g : Bits} (ho : o.Represents s f) (hz : z.Represents s g) :
    BeaverShares (fun i : Fin 2 => ⟨some ⟨if i = 0 then [o, o, z] else [z, z, o]⟩, 0, 0⟩) s
      (fun i => if i = 0 then f else g) (fun i => if i = 0 then f else g) (fun i => if i = 0 then g else f) 0 where
  holds i := by
    refine ⟨⟨_, rfl, ?_⟩, rfl⟩
    split_ifs
    · exact .cons ho (.cons ho (.cons hz .nil))
    · exact .cons hz (.cons hz (.cons ho .nil))
  triple k := by
    have hab : plain (fun i : Fin 2 => if i = 0 then f else g) k = (f k ^^ g k) := Fin.sum_univ_two _
    have hc : plain (fun i : Fin 2 => if i = 0 then g else f) k = (g k ^^ f k) := Fin.sum_univ_two _
    rw [hab, hc, Bool.and_self, Bool.xor_comm]

/-- Two parties with different shares of everything, the unused bits included. -/
theorem runBatches_delivers_two :
    let idx : Fin 2 → BooleanValue := fun i => if i = 0 then ⟨5, 19, by decide, by decide⟩
      else ⟨5, 6, by decide, by decide⟩
    let x : Fin 2 → BitArray := fun i => if i = 0 then ⟨⟨List.replicate 32 0xff, 2, rfl⟩, 11, 2⟩
      else ⟨⟨List.replicate 32 0x3c, 2, rfl⟩, 11, 2⟩
    let y : Fin 2 → BitArray := fun i => if i = 0 then ⟨⟨List.replicate 32 0x0f, 2, rfl⟩, 11, 2⟩
      else ⟨⟨List.replicate 32 0xa9, 2, rfl⟩, 11, 2⟩
    let o : BitArray := ⟨⟨List.replicate 32 0xff, 13, rfl⟩, 100, 13⟩
    let z : BitArray := ⟨⟨List.replicate 32 0x5a, 13, rfl⟩, 100, 13⟩
    let batches : List (List (Task 2)) := [[.ohe 5 idx, .and 11 x y], [.and 11 y x]]
    Lockstep Msg.kind (wire (G := Scalar)) (fun out => ∃ outs : List (List (Fin 2 → BitArray)),
      (∀ i, out i = outs.map (List.map (· i))) ∧ List.Forall₂ (List.Forall₂ Task.Delivers) batches outs)
      fun i => (MpcProvider.new (decide (i = 0)) ⟨some ⟨if i = 0 then [o, o, z] else [z, z, o]⟩, 0, 0⟩ .new).runBatches
        (batches.map (List.map (Task.call i))) := by
  intro idx x y o z batches
  have hshares : ∀ i, (x i).WF ∧ (x i).bitSize = 11 ∧ (y i).WF ∧ (y i).bitSize = 11 := fun i => by
    fin_cases i
    · exact ⟨⟨by simp [x], by simp [x]⟩, rfl, ⟨by simp [y], by simp [y]⟩, rfl⟩
    · exact ⟨⟨by simp [x], by simp [x]⟩, rfl, ⟨by simp [y], by simp [y]⟩, rfl⟩
  have hand : (Task.and 11 x y).Valid := ⟨by decide, hshares⟩
  have hand' : (Task.and 11 y x).Valid := ⟨by decide, fun i => ⟨(hshares i).2.2.1, (hshares i).2.2.2, (hshares i).1,
    (hshares i).2.1⟩⟩
  have hohe : (Task.ohe 5 idx).Valid := ⟨by decide, fun i => by fin_cases i <;> rfl⟩
  have hvalid : ∀ ts ∈ batches, ∀ t ∈ ts, t.Valid := by
    simp only [batches, List.mem_cons, List.not_mem_nil, or_false, forall_eq_or_imp, forall_eq]
    exact ⟨⟨hohe, hand⟩, hand'⟩
  have hbytes : batches.map (fun ts => (ts.map Task.bytes).sum) = [9, 2] := by
    simp [batches, Task.bytes, oheBytes, BitArray.divCeil_eight]
  have hfits : ∀ ts ∈ batches, Fits (0 : Fin 2) ts := fun ts hts => by
    have hmem := List.mem_map_of_mem (f := fun ts => (ts.map Task.bytes).sum) hts
    rw [hbytes] at hmem
    apply fits_of_bytes (hvalid ts hts)
    simp only [List.mem_cons, List.not_mem_nil, or_false] at hmem
    omega
  have ho : o.Represents 100 o.bit := .of_wf ⟨by simp [o], by simp [o]⟩
  have hz : z.Represents 100 z.bit := .of_wf ⟨by simp [z], by simp [z]⟩
  exact runBatches_delivers (fun _ => .new) (beaverShares_square ho hz) hvalid hfits
    (by rw [batchesBytes, hbytes]; decide)

end PrivRecCert.Prc
