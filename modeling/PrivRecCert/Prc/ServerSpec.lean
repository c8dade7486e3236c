import PrivRecCert.Prc.Server
import PrivRecCert.Prc.SharingSpec
import PrivRecCert.Prc.MpcSound
import PrivRecCert.Prc.Retrieval
import PrivRecCert.Prc.Preprocessing
import PrivRecCert.Prc.B2aSound
import PrivRecCert.Prc.Aggregation

/-! One query at all servers. The retrieval gives shares of the record bit, and the certification a
signature of the constant party on a commitment to the index and the bit. -/
namespace PrivRecCert.Prc
open CorRnd SimdArray Rounds Circuit Sharing
open scoped BigOperators

variable {n : ℕ}

/-- The first of several requests. -/
theorem issue_cons {P P' : Fin n → MpcProvider} {c : Fin n → Call} {cs : Fin n → List Call}
    {srcs : List (Fin n → LayerSource)} (p : Fin n)
    (h : ∀ i, (P i).issue (c i :: cs i) = some (srcs.map (· i), P' i)) :
    ∃ (x : Fin n → LayerSource) (rest : List (Fin n → LayerSource)) (P₁ : Fin n → MpcProvider), srcs = x :: rest ∧
      (∀ i, (P i).call (c i) = some (x i, P₁ i)) ∧ ∀ i, (P₁ i).issue (cs i) = some (rest.map (· i), P' i) := by
  have hsplit : ∀ i, ∃ y ys P₁, (P i).call (c i) = some (y, P₁) ∧ P₁.issue (cs i) = some (ys, P' i) ∧
      y :: ys = srcs.map (· i) := fun i => by
    have hi := h i
    simp only [MpcProvider.issue, Option.bind_eq_bind, Option.bind_eq_some_iff, Option.some.injEq,
      Prod.mk.injEq] at hi
    obtain ⟨⟨y, P₁⟩, hy, ⟨ys, _⟩, hys, hsrcs, rfl⟩ := hi
    exact ⟨y, ys, P₁, hy, hys, hsrcs⟩
  choose y ys P₁ hy hys hsrcs using hsplit
  cases srcs with
  | nil => cases hsrcs p
  | cons x rest =>
    have hx : ∀ i, y i = x i ∧ ys i = rest.map (· i) := fun i => List.cons.inj (hsrcs i)
    exact ⟨x, rest, P₁, rfl, fun i => by rw [hy i, (hx i).1], fun i => by rw [hys i, (hx i).2]⟩

theorem issue_nil {P P' : Fin n → MpcProvider} {srcs : List (Fin n → LayerSource)} (p : Fin n)
    (h : ∀ i, (P i).issue [] = some (srcs.map (· i), P' i)) : srcs = [] ∧ P' = P := by
  have hi := fun i => Prod.mk.inj (Option.some.inj (h i))
  exact ⟨List.map_eq_nil_iff.mp (hi p).1.symm, funext fun i => (hi i).2.symm⟩

/-- The outputs of several sources, one by one. -/
theorem forall₂_of_mapM {A B : Type} {f : A → Option B} {l : List A} {l' : List B} (h : l.mapM f = some l') :
    List.Forall₂ (fun a b => f a = some b) l l' := by
  induction l generalizing l' with
  | nil =>
    obtain rfl : [] = l' := Option.some.inj h
    exact .nil
  | cons a l ih =>
    simp only [List.mapM_cons, Option.bind_eq_bind, Option.bind_eq_some_iff, Option.pure_def, Option.some.injEq] at h
    obtain ⟨b, hb, bs, hbs, rfl⟩ := h
    exact .cons hb (ih hbs)

/-- The queries of all servers are shares of `m1` and of `m2` bits. -/
structure Queries (Q : Fin n → PRCQuery) (m1 m2 : ℕ) : Prop where
  l1_len : ∀ i, (Q i).l1Bss.bitLen = m1
  l2_len : ∀ i, (Q i).l2Bss.bitLen = m2

/-- The column that is asked for. -/
def column (Q : Fin n → PRCQuery) : ℕ := (xorAll fun i => (Q i).l1Bss.value).toNat

/-- The row that is asked for. -/
def row (Q : Fin n → PRCQuery) : ℕ := (xorAll fun i => (Q i).l2Bss.value).toNat

variable {SK VK Sig G : Type}

/-- Servers between two queries: one database, and providers of which `used` bytes of triples and
`usedBits` daBits are gone. -/
structure Serving (S : Fin n → PRCServer SK VK) (p : Fin n) (sk : Fin n → SK) (m1 m2 : ℕ)
    (cell : ℕ → ℕ → ℕ → Bool) (s used bits usedBits : ℕ) : Prop where
  db : ∀ i, (S i).db.Holds 1 (2^m2) (2^m1) cell
  key : ∀ i, (S i).sk = sk i
  ready : ∃ a b c, Ready (fun i => (S i).mpcProvider) p s a b c used
  dabits : ∃ l r, DabitShares (fun i => (S i).mpcProvider.dabitProvider) l r bits usedBits

/-- Dimensions that the servers can work with. -/
structure Servable (m1 m2 : ℕ) : Prop where
  one_le : 1 ≤ m2
  le : m2 ≤ m1
  sum_le : m1 + m2 ≤ 32

theorem Servable.bytes_lt {m1 m2 : ℕ} (h : Servable m1 m2) : 8*(oheBytes m1 + oheBytes m2) < 2^32 := by
  have h1 := oheBytes_le m1
  have h2 := oheBytes_le m2
  have hm1 : 2^m1 ≤ 2^31 := Nat.pow_le_pow_right (by decide) (by have := h.one_le; have := h.sum_le; omega)
  have hm2 : 2^m2 ≤ 2^16 := Nat.pow_le_pow_right (by decide) (by have := h.le; have := h.sum_le; omega)
  omega

section Retrieve
variable {p : Fin n} {sk : Fin n → SK} {m1 m2 x1 x2 : ℕ} {cell : ℕ → ℕ → ℕ → Bool}
  {s used bits usedBits : ℕ} {S : Fin n → PRCServer SK VK} {Q : Fin n → PRCQuery}

/-- The answers of the first level are shares of a column, and the conjunction with the second one-hot
array leaves one cell of it. -/
theorem sum_parity {l1Ohe l2Ohe ans : Fin n → BitArray} {ps : Fin n → Bool} (hx1 : x1 < 2^m1) (hx2 : x2 < 2^m2)
    (h1 : Opens l1Ohe (2^m1) fun k => decide (k = x1)) (h2 : Opens l2Ohe (2^m2) fun k => decide (k = x2))
    (hans : ∀ i, (ans i).Represents (2^m2) (PRCDatabase.answers (2^m2) (2^m1) cell (l1Ohe i).bit))
    (hps : ∑ i, ps i = ∑ k ∈ Finset.range (2^m2), (Task.and (2^m2) ans l2Ohe).expected k) :
    ∑ i, ps i = cell 0 x2 x1 := by
  have hcol : ∀ k, plain (fun i => (ans i).bit) k = if k < 2^m2 then cell 0 k x1 else false := fun k => by
    have hbits : plain (fun i => (ans i).bit) k =
        ∑ i, PRCDatabase.answers (2^m2) (2^m1) cell (l1Ohe i).bit k :=
      Finset.sum_congr rfl fun i _ => (hans i).bit_eq k
    rw [hbits, PRCDatabase.sum_answers]
    refine PRCDatabase.answers_oneHot hx1 (fun j hj => ?_) k
    rw [h1.bits j, decide_eq_true hj, Bool.true_and]
  have hone : ∀ k ∈ Finset.range (2^m2), (Task.and (2^m2) ans l2Ohe).expected k =
      if k = x2 then cell 0 x2 x1 else 0 := fun k hk => by
    have hlt := Finset.mem_range.mp hk
    have hrow : plain (fun i => (l2Ohe i).bit) k = decide (k = x2) := by
      rw [plain, h2.bits k, decide_eq_true hlt, Bool.true_and]
    change (plain (fun i => (ans i).bit) k && plain (fun i => (l2Ohe i).bit) k) = _
    rw [hcol, hrow, if_pos hlt]
    by_cases hk2 : k = x2
    · rw [if_pos hk2, decide_eq_true hk2, Bool.and_true, hk2]
    · rw [if_neg hk2, decide_eq_false hk2, Bool.and_false]
      rfl
  rw [hps, Finset.sum_congr rfl hone, Finset.sum_ite_eq', if_pos (Finset.mem_range.mpr hx2)]

variable [AddCommGroup G] [Module Scalar G] [Ristretto G] [LawfulRistretto G]

/-- Both halves of the index are encoded in one run. -/
theorem encode_lockstep {P : Fin n → MpcProvider} {a b c : Fin n → Bits} (hready : Ready P p s a b c used)
    (hQ : Queries Q m1 m2) (hm : Servable m1 m2) (hroom : used + (oheBytes m1 + oheBytes m2) ≤ (s+7)/8) :
    ∃ (x y : Fin n → LayerSource) (P₁ P₂ : Fin n → MpcProvider),
      (∀ i, (P i).oheVec (Q i).l1Bss = some (x i, P₁ i)) ∧ (∀ i, (P₁ i).oheVec (Q i).l2Bss = some (y i, P₂ i)) ∧
      Lockstep Msg.kind (wire (G := G)) (fun out => Ready out p s a b c (used + (oheBytes m1 + oheBytes m2)) ∧
        (∀ i, (out i).dabitProvider = (P i).dabitProvider) ∧ ∃ o₁ o₂ : Fin n → BitArray,
          (∀ i, (out i).getOutput (x i) = some (o₁ i)) ∧ (∀ i, (out i).getOutput (y i) = some (o₂ i)) ∧
          Opens o₁ (2^m1) (fun k => decide (k = column Q)) ∧ Opens o₂ (2^m2) fun k => decide (k = row Q))
        fun i => (P₂ i).run := by
  have hone := hm.one_le
  have hle := hm.le
  have hohe : ∀ t ∈ [Task.ohe m1 fun i => (Q i).l1Bss, Task.ohe m2 fun i => (Q i).l2Bss], t.Valid := by
    simp only [List.mem_cons, List.not_mem_nil, or_false, forall_eq_or_imp, forall_eq]
    exact ⟨⟨by omega, hQ.l1_len⟩, by omega, hQ.l2_len⟩
  have hbytes : (([Task.ohe m1 fun i => (Q i).l1Bss, Task.ohe m2 fun i => (Q i).l2Bss] : List (Task n)).map
      Task.bytes).sum = oheBytes m1 + oheBytes m2 := by simp [Task.bytes]
  obtain ⟨srcs, P₂, hissue, hP₂⟩ := issue_ready hready hohe
  have hfits := fits_of_bytes (p := p) hohe (by rw [hbytes]; exact hm.bytes_lt)
  have hrun := run_lockstep (G := G) hready hohe hP₂ (hfits.layer_lt hohe) (by rw [hbytes]; exact hroom)
  obtain ⟨x, srcs, P₁, rfl, hx, hissue⟩ := issue_cons p hissue
  obtain ⟨y, srcs, P₃, rfl, hy, hissue⟩ := issue_cons p hissue
  obtain ⟨rfl, rfl⟩ := issue_nil p hissue
  refine ⟨x, y, P₁, P₂, hx, hy, hrun.mono fun out hout => ?_⟩
  obtain ⟨hready', hdabit, outs, houts, hopen⟩ := hout
  rcases hopen with _ | ⟨hopen₁, _ | ⟨hopen₂, _ | _⟩⟩
  rename_i o₁ o₂
  have ho : ∀ i, (out i).getOutput (x i) = some (o₁ i) ∧ (out i).getOutput (y i) = some (o₂ i) := fun i => by
    rcases forall₂_of_mapM (houts i) with _ | ⟨h₁, _ | ⟨h₂, -⟩⟩
    exact ⟨h₁, h₂⟩
  rw [hbytes] at hready'
  exact ⟨hready', hdabit, o₁, o₂, fun i => (ho i).1, fun i => (ho i).2, hopen₁, hopen₂⟩

/-- One conjunction in a run of its own. -/
theorem and_lockstep {P : Fin n → MpcProvider} {a b c : Fin n → Bits} {m : ℕ} {x y : Fin n → BitArray}
    (hready : Ready P p s a b c used) (hand : (Task.and m x y).Valid) (hsize : 8*((m+7)/8) < 2^32)
    (hroom : used + (m+7)/8 ≤ (s+7)/8) : ∃ (z : Fin n → LayerSource) (P' : Fin n → MpcProvider),
      (∀ i, (P i).and m (.input (x i)) (.input (y i)) = some (z i, P' i)) ∧
      Lockstep Msg.kind (wire (G := G)) (fun out => Ready out p s a b c (used + (m+7)/8) ∧
        (∀ i, (out i).dabitProvider = (P i).dabitProvider) ∧ ∃ o : Fin n → BitArray,
          (∀ i, (out i).getOutput (z i) = some (o i)) ∧ Opens o m (Task.and m x y).expected) fun i => (P' i).run := by
  have hts : ∀ t ∈ [Task.and m x y], t.Valid := by simpa using hand
  have hbytes : ([Task.and m x y].map Task.bytes).sum = (m+7)/8 := by simp [Task.bytes, BitArray.divCeil_eight]
  obtain ⟨srcs, P', hissue, hP'⟩ := issue_ready hready hts
  have hfits := fits_of_bytes (p := p) hts (by rw [hbytes]; exact hsize)
  have hrun := run_lockstep (G := G) hready hts hP' (hfits.layer_lt hts) (by rw [hbytes]; exact hroom)
  obtain ⟨z, srcs, P₁, rfl, hz, hissue⟩ := issue_cons p hissue
  obtain ⟨rfl, rfl⟩ := issue_nil p hissue
  refine ⟨z, P', hz, hrun.mono fun out hout => ?_⟩
  obtain ⟨hready', hdabit, outs, houts, hopen⟩ := hout
  rcases hopen with _ | ⟨hopen, _ | _⟩
  rename_i o
  have ho : ∀ i, (out i).getOutput (z i) = some (o i) := fun i => by
    rcases forall₂_of_mapM (houts i) with _ | ⟨h, -⟩
    exact h
  rw [hbytes] at hready'
  exact ⟨hready', hdabit, o, ho, hopen⟩

/-- The bits that the servers retrieve are shares of the record bit. -/
theorem recRetrieve_lockstep (hS : Serving S p sk m1 m2 cell s used bits usedBits)
    (hQ : Queries Q m1 m2) (hm : Servable m1 m2) (hroom : used + queryBytes m1 m2 ≤ (s+7)/8) :
    Lockstep Msg.kind (wire (G := G)) (fun out => ∑ i, (out i).1 = cell 0 (row Q) (column Q) ∧
      Serving (fun i => (out i).2) p sk m1 m2 cell s (used + queryBytes m1 m2) bits usedBits)
      fun i => (S i).recRetrieve (Q i).l1Bss (Q i).l2Bss := by
  obtain ⟨a, b, c, hready⟩ := hS.ready
  have hpow : 2^m2 ≤ 2^16 := Nat.pow_le_pow_right (by decide) (by have := hm.le; have := hm.sum_le; omega)
  rw [queryBytes] at hroom ⊢
  have hfirst := (Nat.add_le_add_left (Nat.le_add_right _ _) used).trans hroom
  obtain ⟨x, y, P₁, P₂, hx, hy, hrun⟩ := encode_lockstep (G := G) hready hQ hm hfirst
  refine .lift hx (.lift hy (hrun.bind fun out hout => ?_))
  obtain ⟨hready', hdabit, o₁, o₂, ho₁, ho₂, hopen₁, hopen₂⟩ := hout
  choose r hr hrr using fun i => PRCDatabase.lvl1PirRetrieve_eq (hS.db i) (Nat.two_pow_pos m2) (hopen₁.represents i)
  refine .lift ho₁ (.lift ho₂ (.lift hr ?_))
  have hsize : ∀ i, (r i).bitSize = (o₂ i).bitSize := fun i =>
    (hrr i).bitSize_eq.trans (hopen₂.bitSize_eq i).symm
  -- the conjunction of the second level
  have hclear : Ready (fun i => (out i).clear) p s a b c (used + (oheBytes m1 + oheBytes m2)) :=
    ⟨fun _ => rfl, hready'.partyConst_eq, hready'.beaver⟩
  have hand : (Task.and (2^m2) r o₂).Valid :=
    ⟨Nat.two_pow_pos m2, fun i => ⟨(hrr i).toWF, (hrr i).bitSize_eq, hopen₂.wf i, hopen₂.bitSize_eq i⟩⟩
  obtain ⟨z, P₃, hz, hrun₂⟩ := and_lockstep (G := G) hclear hand (by omega) (by rwa [Nat.add_assoc])
  simp only [hsize, hopen₂.bitSize_eq, if_true]
  refine .lift hz (hrun₂.bind fun out₂ hout₂ => ?_)
  obtain ⟨hready₂, hdabit₂, o, ho, hopen⟩ := hout₂
  obtain ⟨ps, hps, hsum⟩ := hopen.parity
  refine .lift ho (.lift hps (.ret ⟨sum_parity (xorAll_lt hQ.l1_len) (xorAll_lt hQ.l2_len) hopen₁ hopen₂ hrr hsum,
    hS.db, hS.key, ⟨a, b, c, by rwa [Nat.add_assoc] at hready₂⟩, ?_⟩))
  obtain ⟨l, d, hdabits⟩ := hS.dabits
  have hsame : (fun i => (out₂ i).dabitProvider) = fun i => (S i).mpcProvider.dabitProvider :=
    funext fun i => (hdabit₂ i).trans (hdabit i)
  refine ⟨l, d, ?_⟩
  change DabitShares (fun i => (out₂ i).dabitProvider) l d bits usedBits
  rwa [hsame]

end Retrieve

section Certify
variable {p : Fin n} {m1 m2 : ℕ}

/-- The joined halves stand for the index of the record. -/
theorem join_queries {Q : Fin n → PRCQuery} (hQ : Queries Q m1 m2) (hm : Servable m1 m2) :
    ∃ joined : Fin n → BooleanValue, (∀ i, joinBoolean (Q i).l1Bss (Q i).l2Bss = some (joined i)) ∧
      (∀ i, (joined i).bitLen = m1 + m2) ∧
      (xorAll fun i => (joined i).value).toNat = row Q * 2^m1 + column Q := by
  have hone := hm.one_le
  have hsum := hm.sum_le
  -- the sums are again values of `m1` and `m2` bits
  let low : BooleanValue := ⟨m1, xorAll fun i => (Q i).l1Bss.value, by omega, xorAll_lt hQ.l1_len⟩
  let high : BooleanValue := ⟨m2, xorAll fun i => (Q i).l2Bss.value, by omega, xorAll_lt hQ.l2_len⟩
  obtain ⟨v, -, -, hnat, hall⟩ : JoinsExactly low high := joinsExactly (by change m1 < 32; omega) hsum
  obtain ⟨joined, hjoin, hval⟩ := hall n (fun i => (Q i).l1Bss) (fun i => (Q i).l2Bss) hQ.l1_len hQ.l2_len rfl rfl
  refine ⟨joined, hjoin, fun i => ?_, by rw [hval, hnat, Nat.add_comm]; rfl⟩
  obtain ⟨w, hw, hlen, -⟩ := joinBoolean_eq (show (Q i).l1Bss.bitLen < 32 by rw [hQ.l1_len i]; omega)
    (show (Q i).l1Bss.bitLen + (Q i).l2Bss.bitLen ≤ 32 by rw [hQ.l1_len i, hQ.l2_len i]; exact hsum)
  rw [hjoin i, Option.some.injEq] at hw
  rw [hw, hlen, hQ.l1_len i, hQ.l2_len i]

/-- One bit as a value. -/
theorem new_bit (b : Bool) : ∃ v, BooleanValue.new 1 (BitVec.ofNat 32 b.toNat) = some v ∧ v.bitLen = 1 ∧
    v.value = BitVec.ofNat 32 b.toNat := by
  have hlt : (BitVec.ofNat 32 b.toNat).toNat < 2^1 := by cases b <;> decide
  exact ⟨_, BooleanValue.new_eq (by decide) hlt, rfl, rfl⟩

theorem xorAll_bits {v : Fin n → BooleanValue} {b : Fin n → Bool} (hv : ∀ i, (v i).value = BitVec.ofNat 32 (b i).toNat) :
    ((xorAll fun i => (v i).value).toNat : Scalar) = ofBit (∑ i, b i) := by
  have hbits : (xorAll fun i => (v i).value) = BitVec.ofNat 32 (∑ i, b i).toNat := by
    apply BitVec.eq_of_getLsbD_eq
    intro k hk
    have hbit : ∀ c : Bool, (BitVec.ofNat 32 c.toNat).getLsbD k = if k = 0 then c else 0 := fun c => by
      cases k with
      | zero => cases c <;> rfl
      | succ k => cases c <;> simp [BitVec.getLsbD_ofNat, Nat.testBit_succ] <;> rfl
    rw [getLsbD_xorAll, hbit, Finset.sum_congr rfl fun i _ => by rw [hv i, hbit]]
    by_cases h0 : k = 0
    · simp [h0]
    · simp [h0]
  rw [hbits, ofBit]
  cases (∑ i, b i) <;> rfl

variable {G : Type} [AddCommGroup G] [Module Scalar G] [Ristretto G] [LawfulRistretto G]

/-- The constant party learns the sum of all commitments. -/
theorem aggregateCommitments_lockstep {P : Fin n → MpcProvider} (hP : ∀ i, (P i).partyConst = decide (i = p))
    (c : Fin n → Commitment G) :
    Lockstep Msg.kind wire (fun out => ∀ i, out i = if i = p then some ⟨∑ j, (c j).c⟩ else none)
      fun i => (P i).aggregateCommitments (c i) := by
  refine .round (fun i => .commit (c i)) (fun i => .commit (c i)) .commit _ (fun i => rfl) (fun i => rfl)
    (fun i => wire_commit i (c i)) fun dl hdl => ?_
  choose l hl hperm using fun i => forall₂_of_perm (R := fun m (d : Commitment G) => m = Msg.commit d)
    (fun j => rfl) (hdl i)
  have hmap : ∀ i, (dl i).mapM Msg.asCommit = some (l i) := fun i =>
    mapM_eq_some ((hl i).imp fun m d h => by rw [h]; rfl)
  have hsum : ∀ i, Commitment.aggregate (l i ++ [c i]) = ⟨∑ j, (c j).c⟩ := fun i => by
    have hperm' : (l i ++ [c i]).Perm (c i :: (peers i).map c) :=
      (List.perm_append_singleton (c i) (l i)).trans ((hperm i).cons (c i))
    rw [Commitment.aggregate_perm hperm', ← sum_peers (fun j => (c j).c) i]
    have hc := Commitment.aggregate_c (c i :: (peers i).map c)
    rw [List.map_cons, List.sum_cons, List.map_map] at hc
    exact congrArg Commitment.mk hc
  refine .lift hmap (.ret fun i => ?_)
  rw [hP i, hsum i]
  by_cases hi : i = p
  · rw [if_pos hi, if_pos (decide_eq_true hi)]
  · rw [if_neg hi, if_neg (by simpa using hi)]

variable {SK VK Sig : Type} {sk : Fin n → SK} {cell : ℕ → ℕ → ℕ → Bool} {s used bits usedBits : ℕ}
  {S : Fin n → PRCServer SK VK} {Q : Fin n → PRCQuery}

theorem convB2A_lockstep (hn : 2 ≤ n) (hS : Serving S p sk m1 m2 cell s used bits usedBits)
    {vs : List (Fin n → BooleanValue)} (hlen : SameLen vs) (hpos : 0 < ConvLayer.totalBits (vs.map (· p)))
    (hsize : ConvLayer.totalBits (vs.map (· p)) < 2^32)
    (hroom : usedBits + ConvLayer.totalBits (vs.map (· p)) ≤ bits) :
    Lockstep Msg.kind (wire (G := G)) (fun out =>
      (∃ ys : List (Fin n → ArithValueT), (∀ i, (out i).1 = ys.map (· i)) ∧ List.Forall₂ Converts vs ys) ∧
      Serving (fun i => (out i).2) p sk m1 m2 cell s used bits (usedBits + ConvLayer.totalBits (vs.map (· p))))
      fun i => (S i).convB2A (vs.map (· i)) := by
  obtain ⟨a, b, c, hready⟩ := hS.ready
  obtain ⟨l, r, hdabits⟩ := hS.dabits
  have hconv := ConvLayer.interact_lockstep (G := G) hn hlen hpos hsize hdabits hroom
  have hconst : (fun i => (ConvLayer.mk (decide (i = p))).interact (G := G) (vs.map (· i))
      (S i).mpcProvider.dabitProvider) =
      fun i => (ConvLayer.mk (S i).mpcProvider.partyConst).interact (vs.map (· i)) (S i).mpcProvider.dabitProvider :=
    funext fun i => by rw [hready.partyConst_eq i]
  rw [hconst] at hconv
  refine (hconv.bind fun out hout => .ret (b := fun i =>
    ((out i).1, { (S i).mpcProvider with dabitProvider := (out i).2 })) (Q := fun out =>
      (∃ ys : List (Fin n → ArithValueT), (∀ i, (out i).1 = ys.map (· i)) ∧ List.Forall₂ Converts vs ys) ∧
      (∃ a b c, Ready (fun i => (out i).2) p s a b c used) ∧
      ∃ l r, DabitShares (fun i => (out i).2.dabitProvider) l r bits
        (usedBits + ConvLayer.totalBits (vs.map (· p)))) ?_).bind fun out hout => .ret ?_
  · exact ⟨hout.1, ⟨a, b, c, hready.layers_eq, hready.partyConst_eq, hready.beaver⟩, l, r, hout.2⟩
  · exact ⟨hout.1, hS.db, hS.key, hout.2.1, hout.2.2⟩

variable [Ed25519 SK VK Sig]

/-- The token that the constant party gives out: its signature on a commitment to the index and the bit. -/
def issuedToken (G : Type) [AddCommGroup G] [Module Scalar G] [Ristretto G] (sk : SK) (rnd : Scalar) (idx : ℕ)
    (bit : Bool) : PRCToken G Sig :=
  ⟨none, Ed25519.sign sk (Commitment.commit ⟨rnd, (idx : ℕ), ofBit bit⟩ : Commitment G).serialize⟩

theorem certify_lockstep (hn : 2 ≤ n) (hS : Serving S p sk m1 m2 cell s used bits usedBits)
    (hQ : Queries Q m1 m2) (hm : Servable m1 m2) (share : Fin n → Bool) (hroom : usedBits + (m1 + m2 + 1) ≤ bits) :
    Lockstep Msg.kind wire (fun out => (∀ i, (out i).1 = if i = p then
        some (issuedToken G (sk p) (∑ j, (Q j).rndAss) (row Q * 2^m1 + column Q) (∑ j, share j)) else none) ∧
      Serving (fun i => (out i).2) p sk m1 m2 cell s used bits (usedBits + (m1 + m2 + 1)))
      fun i => (S i).certify (Q i) (share i) := by
  obtain ⟨joined, hjoin, hlen, hidx⟩ := join_queries hQ hm
  choose record hrecord hrlen hrval using fun i => new_bit (share i)
  have hsame : SameLen [joined, record] := by
    simp only [SameLen, List.mem_cons, List.not_mem_nil, or_false, forall_eq_or_imp, forall_eq]
    exact ⟨fun i j => (hlen i).trans (hlen j).symm, fun i j => (hrlen i).trans (hrlen j).symm⟩
  have htotal : ConvLayer.totalBits ([joined, record].map (· p)) = m1 + m2 + 1 := by
    simp [ConvLayer.totalBits, hlen, hrlen]
  have hsum := hm.sum_le
  have hconv := convB2A_lockstep (G := G) hn hS hsame (by rw [htotal]; omega) (by rw [htotal]; omega)
    (by rw [htotal]; exact hroom)
  rw [htotal] at hconv
  refine .lift hjoin (.lift hrecord (hconv.bind fun out hout => ?_))
  obtain ⟨⟨ys, hys, hall⟩, hS'⟩ := hout
  rcases hall with _ | ⟨hy, _ | ⟨hz, _ | _⟩⟩
  rename_i y z
  obtain ⟨a, b, c, hready⟩ := hS'.ready
  refine .lift (a := fun i => y i) (fun i => by rw [hys i]; rfl)
    (.lift (a := fun i => z i) (fun i => by rw [hys i]; rfl) ?_)
  refine (aggregateCommitments_lockstep hready.partyConst_eq fun i =>
    .commit ⟨(Q i).rndAss, y i, z i⟩).bind fun agg hagg => .ret ⟨fun i => ?_, hS'⟩
  change (agg i).map _ = _
  rw [hagg i]
  by_cases hi : i = p
  · rw [if_pos hi, if_pos hi, Option.map_some, hS'.key i, hi, Commitment.commit_sum_ofFn, hy.1, hz.1, hidx,
      xorAll_bits hrval]
    rfl
  · rw [if_neg hi, if_neg hi]
    rfl

/-- What all servers return to one query: shares of the record bit, and the token of the constant party. -/
structure Certified (G : Type) [AddCommGroup G] [Module Scalar G] [Ristretto G] (p : Fin n) (sk : Fin n → SK)
    (m1 : ℕ) (cell : ℕ → ℕ → ℕ → Bool) (Q : Fin n → PRCQuery) (out : Fin n → Bool × Option (PRCToken G Sig)) :
    Prop where
  share : ∑ i, (out i).1 = cell 0 (row Q) (column Q)
  token : ∀ i, (out i).2 = if i = p then some (issuedToken G (sk p) (∑ j, (Q j).rndAss)
    (row Q * 2^m1 + column Q) (cell 0 (row Q) (column Q))) else none

/-- One query at all servers. -/
theorem prcProtocolShare_lockstep (hn : 2 ≤ n) (hS : Serving S p sk m1 m2 cell s used bits usedBits)
    (hQ : Queries Q m1 m2) (hm : Servable m1 m2) (hroom : used + queryBytes m1 m2 ≤ (s+7)/8)
    (hbits : usedBits + (m1 + m2 + 1) ≤ bits) :
    Lockstep Msg.kind wire (fun out =>
      Certified G p sk m1 cell Q (fun i => (out i).1 : Fin n → Bool × Option (PRCToken G Sig)) ∧
      Serving (fun i => (out i).2) p sk m1 m2 cell s (used + queryBytes m1 m2) bits (usedBits + (m1 + m2 + 1)))
      fun i => (S i).prcProtocolShare (Q i) := by
  apply (recRetrieve_lockstep hS hQ hm hroom).bind
  intro out hout
  refine (certify_lockstep hn hout.2 hQ hm (fun i => (out i).1) hbits).bind fun toks htoks => ?_
  exact .ret ⟨⟨hout.1, fun i => by rw [← hout.1]; exact htoks.1 i⟩, htoks.2⟩

/-- Query after query at all servers, as long as the preprocessed material lasts. -/
theorem serve_lockstep (hn : 2 ≤ n) (hS : Serving S p sk m1 m2 cell s used bits usedBits) (hm : Servable m1 m2)
    {Qs : List (Fin n → PRCQuery)} (hQs : ∀ Q ∈ Qs, Queries Q m1 m2)
    (hroom : used + Qs.length*queryBytes m1 m2 ≤ (s+7)/8) (hbits : usedBits + Qs.length*(m1 + m2 + 1) ≤ bits) :
    Lockstep Msg.kind wire (fun out => (∃ outs : List (Fin n → Bool × Option (PRCToken G Sig)),
      (∀ i, (out i).1 = outs.map (· i)) ∧ List.Forall₂ (Certified G p sk m1 cell) Qs outs) ∧
      Serving (fun i => (out i).2) p sk m1 m2 cell s (used + Qs.length*queryBytes m1 m2) bits
        (usedBits + Qs.length*(m1 + m2 + 1)))
      fun i => (S i).serve (Qs.map (· i)) := by
  induction Qs generalizing S used usedBits with
  | nil =>
    refine .ret ⟨⟨[], fun _ => rfl, .nil⟩, ?_⟩
    rwa [List.length_nil, Nat.zero_mul, Nat.zero_mul]
  | cons Q Qs ih =>
    have hstep : ∀ u c, u + (Qs.length + 1)*c = u + c + Qs.length*c := fun u c => by ring
    rw [List.length_cons, hstep] at hroom hbits
    simp only [List.length_cons, hstep]
    apply (prcProtocolShare_lockstep hn hS (hQs Q (by simp)) hm (by omega) (by omega)).bind
    intro out hout
    refine (ih hout.2 (fun Q' hQ' => hQs Q' (by simp [hQ'])) (by omega) (by omega)).bind fun outs houts => ?_
    obtain ⟨⟨outs', houts', hall⟩, hS'⟩ := houts
    refine .ret ⟨⟨(fun i => (out i).1) :: outs', fun i => ?_, .cons hout.1 hall⟩, hS'⟩
    rw [List.map_cons, ← houts' i]

end Certify
end PrivRecCert.Prc
