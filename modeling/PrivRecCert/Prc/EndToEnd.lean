import PrivRecCert.Prc.Admission
import PrivRecCert.Rounds.Termination

/-! The whole protocol: the client asks for index after index, all servers answer, and the client learns
from the token of the first server which value the record bit has, and is convinced of no other one. -/
namespace PrivRecCert.Prc
open CorRnd SimdArray Rounds Sharing
open scoped BigOperators

variable {SK VK Sig G R : Type} [Ed25519 SK VK Sig] [ScalarRng R] [AddCommGroup G] [Module Scalar G] [Ristretto G]
variable {n : ℕ}

/-- What the client has for one index: its own state, and the queries for all servers. -/
structure Asked (n : ℕ) where
  idx : ℕ
  st : PRCClientSt
  queries : Fin n → PRCQuery

/-- The servers' answers to one request: shares of the record bit, and a token of the first server only.
The client finds it to be a token for this bit and for no other word. -/
structure Answered (SK : Type) {VK Sig : Type} [Ed25519 SK VK Sig] (first : Fin n) (pk : VK) (db : PRCDatabase)
    (x : Asked n) (bit : Bool) (out : Fin n → Bool × Option (PRCToken G Sig)) : Prop where
  record : db.getRecordBit x.idx 0 = some bit
  share : ∑ i, (out i).1 = bit
  others : ∀ i, i ≠ first → (out i).2 = none
  token : ∃ token, (out first).2 = some token ∧ ∀ v : U32,
    ((token.checkForRecVal SK x.st v pk).1 = true ↔ v = BitVec.ofNat 32 bit.toNat) ∧
    ((token.checkForRecVal SK x.st v pk).1 = true → (token.checkForRecVal SK x.st v pk).2.verify SK pk = .ok ())

/-- Words are told apart as scalars. -/
theorem fromU32_eq_ofBit {v : U32} {bit : Bool} : ArithValueT.fromU32 v = ofBit bit ↔ v = BitVec.ofNat 32 bit.toNat := by
  have hbit : bit.toNat < 2 := bit.toNat_lt
  have hsmall : ∀ m < 2^32, ((m : ℕ) : Scalar).val = m := fun m hm =>
    ZMod.val_natCast_of_lt (hm.trans (by unfold groupOrder; omega))
  constructor
  · intro h
    have hval := congrArg ZMod.val h
    rw [ArithValueT.fromU32, ofBit, hsmall _ v.isLt, hsmall _ (by omega)] at hval
    rw [← hval, BitVec.ofNat_toNat, BitVec.setWidth_eq]
  · rintro rfl
    rw [ArithValueT.fromU32, BitVec.toNat_ofNat, Nat.mod_eq_of_lt (by omega)]
    rfl

/-- A token that has been checked verifies. -/
theorem verify_checked (token : PRCToken G Sig) (st : PRCClientSt) (v : U32) (pk : VK)
    (h : (token.checkForRecVal SK st v pk).1 = true) : (token.checkForRecVal SK st v pk).2.verify SK pk = .ok () := by
  rw [PRCToken.checkForRecVal] at h ⊢
  split_ifs at h ⊢ with hsig
  exact if_pos hsig

variable [LawfulRistretto G]

/-- The client recognises a token for the bit that was certified, and for no other word. -/
theorem checkForRecVal_issued [LawfulEd25519 G SK] (hG : Commitment.FullOrder G) (sk : SK) (st : PRCClientSt) {idx : ℕ}
    (hst : st.idx = (idx : ℕ)) (bit : Bool) (v : U32) :
    (((issuedToken G sk st.crnd idx bit).checkForRecVal SK st v (Ed25519.verifyingKey sk)).1 = true ↔
      v = BitVec.ofNat 32 bit.toNat) := by
  have hcommit : (st.getCommitment v : Commitment G).serialize =
      (Commitment.commit ⟨st.crnd, (idx : ℕ), ofBit bit⟩ : Commitment G).serialize ↔ v = BitVec.ofNat 32 bit.toNat := by
    rw [PRCClientSt.getCommitment, hst, ← fromU32_eq_ofBit]
    constructor
    · intro h
      exact (Commitment.commit_binding hG (Commitment.serialize_injective h)).1 rfl rfl
    · intro h
      rw [h]
  have hsig : ∀ a b : Commitment G, Ed25519.verifyStrict SK (Ed25519.verifyingKey sk) b.serialize
      (Ed25519.sign sk a.serialize) = true ↔ b.serialize = a.serialize := LawfulEd25519.verifyStrict_sign sk
  rw [← hcommit, ← hsig, PRCToken.checkForRecVal]
  split_ifs with h
  · exact iff_of_true rfl h
  · exact iff_of_false (by simp) h

variable {m1 m2 : ℕ}

/-- What the servers return to a request is what the client can use. -/
theorem Certified.answered [LawfulEd25519 G SK] (hG : Commitment.FullOrder G) {p : Fin n} {sk : Fin n → SK}
    {db : PRCDatabase} {cell : ℕ → ℕ → ℕ → Bool} (hdb : db.Holds 1 (2^m2) (2^m1) cell) {x : Asked n}
    (hidx : x.idx < 2^m1*2^m2) (hsize : m1 + m2 ≤ 32) (hcol : column x.queries = x.idx % 2^m1)
    (hrow : row x.queries = x.idx / 2^m1) (hrnd : ∑ i, (x.queries i).rndAss = x.st.crnd)
    (hst : x.st.idx = ArithValueT.fromU32 (BitVec.ofNat 32 x.idx)) {out : Fin n → Bool × Option (PRCToken G Sig)}
    (h : Certified G p sk m1 cell x.queries out) :
    Answered SK p (Ed25519.verifyingKey (sk p)) db x (cell 0 (row x.queries) (column x.queries)) out := by
  have hpow : 2^m1*2^m2 ≤ 2^32 := by
    rw [← pow_add]
    exact Nat.pow_le_pow_right (by decide) hsize
  have hsplit : x.idx = row x.queries * 2^m1 + column x.queries := by
    rw [hrow, hcol, Nat.mul_comm]
    exact (Nat.div_add_mod _ _).symm
  have hst' : x.st.idx = (x.idx : ℕ) := by
    rw [hst, ArithValueT.fromU32, BitVec.toNat_ofNat, Nat.mod_eq_of_lt (by omega)]
  have hbit := PRCDatabase.getRecordBit_eq hdb Nat.zero_lt_one (i := row x.queries) (j := column x.queries)
    (by rw [hrow]; exact Nat.div_lt_of_lt_mul hidx) (by rw [hcol]; exact Nat.mod_lt _ (Nat.two_pow_pos m1))
  rw [← hsplit] at hbit
  refine ⟨hbit, h.share, fun i hi => by rw [h.token i, if_neg hi], _, by rw [h.token p, if_pos rfl], fun v => ⟨?_, ?_⟩⟩
  · rw [hrnd, ← hsplit]
    exact checkForRecVal_issued hG (sk p) x.st hst' _ v
  · exact verify_checked _ _ _ _

variable {chacha : ChaCha8Rng.Keystream} {c : SystemConfig} {q : ℕ} {sk : Fin c.peers.length → SK}
  {S : Fin c.peers.length → PRCServer SK VK}

/-- The client can ask for every index in the database. -/
theorem asked_exists (h1 : c.dbConfig.l1Dim = 2^m1) (h2 : c.dbConfig.l2Dim = 2^m2) (hm : Servable m1 m2)
    (hn : 1 ≤ c.peers.length) {asks : List (ℕ × R)} (hasks : ∀ a ∈ asks, a.1 < 2^m1*2^m2) :
    ∃ xs : List (Asked c.peers.length), List.Forall₂ (fun a x => x.idx = a.1 ∧ ∃ rng',
        c.client.queryAllServers a.1 a.2 = some ((x.st, List.ofFn x.queries), rng')) asks xs ∧
      ∀ x ∈ xs, x.idx < 2^m1*2^m2 ∧ Queries x.queries m1 m2 ∧ column x.queries = x.idx % 2^m1 ∧
        row x.queries = x.idx / 2^m1 ∧ ∑ i, (x.queries i).rndAss = x.st.crnd ∧
        x.st.idx = ArithValueT.fromU32 (BitVec.ofNat 32 x.idx) := by
  have hone := hm.one_le
  have hle := hm.le
  have hsum := hm.sum_le
  induction asks with
  | nil => exact ⟨[], .nil, by simp⟩
  | cons a asks ih =>
    obtain ⟨xs, hxs, hall⟩ := ih fun a' ha' => hasks a' (by simp [ha'])
    obtain ⟨st, Q, rng', hquery, hQ⟩ := PRCClient.queryAllServers_eq (c := c.client) h1 h2 (by omega) (by omega)
      hn rfl (hasks a (by simp)) a.2
    refine ⟨⟨a.1, st, Q⟩ :: xs, .cons ⟨rfl, rng', hquery⟩ hxs, fun x hx => ?_⟩
    rcases List.mem_cons.mp hx with rfl | hx
    · exact ⟨hasks a (by simp), hQ⟩
    · exact hall x hx

/-- The servers of one configuration certify every record bit that the client asks for: however their
steps interleave, nobody panics, the run ends, and it ends with these answers. -/
theorem Started.certifies [LawfulEd25519 G SK] (hG : Commitment.FullOrder G) (h : Started chacha c q sk S)
    (hn : c.peers.length ≤ 256) (hl2 : 2 ≤ c.dbConfig.l2Dim)
    (hsize : c.dbConfig.l1Dim * c.dbConfig.l2Dim ≤ 2^32) {asks : List (ℕ × R)}
    (hasks : ∀ a ∈ asks, a.1 < c.dbConfig.l1Dim * c.dbConfig.l2Dim) (hk : asks.length ≤ q) :
    ∃ xs : List (Asked c.peers.length), List.Forall₂ (fun a x => x.idx = a.1 ∧ ∃ rng',
        c.client.queryAllServers a.1 a.2 = some ((x.st, List.ofFn x.queries), rng')) asks xs ∧
      ∀ order : List (Fin c.peers.length), order.Perm (List.finRange c.peers.length) →
        ∃ handlers m, (ChannelManager.new c.peers.length).getHandlers order = some (handlers, m) ∧
          ∀ s, Reachable (endpoint (G := G) handlers) (fun i => (S i).serve (xs.map fun x => x.queries i)) .new s →
            (∀ i, s.phase i ≠ .panicked) ∧ Acc (fun t' t => Step (endpoint handlers) t t') s ∧
            (∃ t, Relation.ReflTransGen (Step (endpoint handlers)) s t ∧
              ∃ b : Fin c.peers.length → _, ∀ i, t.phase i = .ready (.ret (b i))) ∧
            ∀ b : Fin c.peers.length → _, (∀ i, s.phase i = .ready (.ret (b i))) →
              ∃ outs : List (Fin c.peers.length → Bool × Option (PRCToken G Sig)),
                (∀ i, (b i).1 = outs.map (· i)) ∧
                List.Forall₂ (fun x out => ∃ bit, Answered SK h.first (S h.first).pk (S h.first).db x bit out) xs outs := by
  obtain ⟨m1, m2, h1, h2, hm⟩ := h.servable hl2 hsize
  obtain ⟨db, cell, perQ, -, hdb, hS, hperQ, hserving⟩ := h.serving h1 h2
  have hone := hm.one_le
  have hsum := hm.sum_le
  have hparties := h.parties
  rw [h1, h2] at hasks
  obtain ⟨xs, hxs, hall⟩ := asked_exists h1 h2 hm (by omega) hasks
  refine ⟨xs, hxs, fun order horder => ?_⟩
  -- the preprocessing lasts for all requests
  have hlen : (xs.map Asked.queries).length ≤ q := by rwa [List.length_map, ← hxs.length_eq]
  have hest := Option.some.inj (hperQ.symm.trans (beaverPerQ_eq h1 h2 hsum))
  have hbytes := queryBytes_le m1 m2
  have hfit : (xs.map Asked.queries).length*queryBytes m1 m2 ≤ (q*perQ+7)/8 := queries_fit hlen (by omega)
  have hbits : (xs.map Asked.queries).length*(m1 + m2 + 1) ≤ q*36 := Nat.mul_le_mul hlen (by omega)
  have hQs : ∀ Q ∈ xs.map Asked.queries, Queries Q m1 m2 := fun Q hQ => by
    obtain ⟨x, hx, rfl⟩ := List.mem_map.mp hQ
    exact (hall x hx).2.1
  have hrun := serve_lockstep (G := G) hparties hserving hm hQs (by omega) (by omega)
  simp only [List.map_map] at hrun
  -- the requests are answered in lockstep, hence in every interleaving
  obtain ⟨handlers, m, hm', hgood⟩ := lockstep_good hn hrun horder
  refine ⟨handlers, m, hm', fun s hs => ⟨(hgood s hs).no_panic, (step_wellFounded _).apply s,
    finishes s fun t ht => (hgood t (hs.trans ht)).progress, fun b hb => ?_⟩⟩
  obtain ⟨⟨outs, houts, hcert⟩, -⟩ := (hgood s hs).result b hb
  rw [List.forall₂_map_left_iff] at hcert
  refine ⟨outs, houts, ((List.forall₂_and_left xs outs).mpr ⟨hall, hcert⟩).imp fun x out hx => ?_⟩
  obtain ⟨⟨hidx, -, hcol, hrow, hrnd, hst⟩, hout⟩ := hx
  rw [(hS h.first).1, (hS h.first).2]
  exact ⟨_, hout.answered hG hdb hidx hsum hcol hrow hrnd hst⟩

/-- The client asks two servers for the last record but two. -/
theorem certifies_two : ∃ (S : Fin 2 → PRCServer Scalar Scalar) (h : Started (fun _ _ => 0) smallSystem 1 (fun _ => 7) S)
    (x : Asked 2), x.idx = 13 ∧
      (∃ rng', smallSystem.client.queryAllServers 13 zeroRng = some ((x.st, List.ofFn x.queries), rng')) ∧
      ∃ handlers m, (ChannelManager.new 2).getHandlers [1, 0] = some (handlers, m) ∧
        ∀ s, Reachable (endpoint (G := Scalar) handlers) (fun i => (S i).serve [x.queries i]) .new s →
          (∀ i, s.phase i ≠ .panicked) ∧
          ∀ b : Fin 2 → _, (∀ i, s.phase i = .ready (.ret (b i))) →
            ∃ out bit, (∀ i, (b i).1 = [out i]) ∧ Answered Scalar h.first (S h.first).pk (S h.first).db x bit out := by
  obtain ⟨S, hS⟩ := smallSystem_started
  have hasks : ∀ a ∈ [(13, zeroRng)], a.1 < smallSystem.dbConfig.l1Dim * smallSystem.dbConfig.l2Dim := by decide
  obtain ⟨xs, hxs, hrun⟩ := hS.certifies Commitment.fullOrder_scalar (by decide) (by decide) (by decide) hasks (by decide)
  obtain _ | ⟨⟨hidx, hquery⟩, _ | _⟩ := hxs
  have horder : List.Perm ([1, 0] : List (Fin 2)) (List.finRange 2) := by decide
  obtain ⟨handlers, m, hm, hall⟩ := hrun _ horder
  refine ⟨S, hS, _, hidx, hquery, handlers, m, hm, fun s hs => ⟨(hall s hs).1, fun b hb => ?_⟩⟩
  obtain ⟨outs, houts, hanswered⟩ := (hall s hs).2.2.2 b hb
  obtain _ | ⟨⟨bit, hbit⟩, _ | _⟩ := hanswered
  exact ⟨_, bit, houts, hbit⟩

end PrivRecCert.Prc
