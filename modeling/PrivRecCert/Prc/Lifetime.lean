import PrivRecCert.Prc.Reports
import PrivRecCert.Prc.Spending
import PrivRecCert.Rounds.Outcome

/-! How long the preprocessed material lasts. What was set aside for the expected number of queries also serves more of
them, up to a number that depends on the dimensions of the database, and nobody ever reports on one query more. -/
namespace PrivRecCert.Prc
open CorRnd SimdArray Rounds

section Serve
variable {SK VK Sig G : Type} [AddCommGroup G] [Module Scalar G] [Ristretto G] [LawfulRistretto G]
  [Ed25519 SK VK Sig] {S S' : PRCServer SK VK} {m1 m2 n : ℕ} {kind : ConnectionKind}
  {handlers : Fin n → List (PeerConnection n)} {capacity : ℕ}

/-- Query after query, what all of them use up together. -/
theorem program_spends (hS : S.Idle m2) {queries : List PRCQuery}
    (hqueries : ∀ query ∈ queries, query.l1Bss.bitLen = m1 ∧ query.l2Bss.bitLen = m2) (hm1 : 1 ≤ m1) (hm2 : 1 ≤ m2)
    {i : Fin n} (h : ((metered G SK VK Sig kind handlers capacity).program i S queries).Yields S') :
    S.Spends S' (queries.length*queryBytes m1 m2) (queries.length*(m1 + m2 + 1)) := by
  induction queries generalizing S with
  | nil =>
    obtain rfl := Proc.yields_ret h
    rw [List.length_nil, Nat.zero_mul, Nat.zero_mul]
    exact .refl S'
  | cons query queries ih =>
    obtain ⟨h1, h2⟩ := hqueries query List.mem_cons_self
    obtain ⟨S₁, hfirst, hrest⟩ := Proc.yields_bind h
    obtain ⟨⟨token, S₂⟩, hprotocol, hret⟩ := Proc.yields_bind hfirst
    obtain rfl := Proc.yields_ret hret
    have hsized := (PRCServer.prcProtocol_sized hS h1 h2 hm1 hm2 : Proc.Sized (Msg.frameLength (G := G) 0)
      (fun out : Option (PRCToken G Sig) × PRCServer SK VK => out.2.Idle m2) _ _)
    have hspends := (PRCServer.prcProtocol_spends hS h1 h2 hm1 hm2 hprotocol).trans
      (ih (hsized.yields hprotocol) (fun q hq => hqueries q (List.mem_cons_of_mem _ hq)) hrest)
    have hstep : ∀ c, c + queries.length*c = (queries.length+1)*c := fun c => by ring
    rwa [hstep, hstep] at hspends

/-- A server that has come to the end of its queries had triples and daBits for all of them. -/
theorem PRCServer.Spends.le {bytes bits size length : ℕ} (h : S.Spends S' bytes bits)
    (hbeaver : ∃ fs, fs ≠ [] ∧ S.mpcProvider.beaverProvider.Holds size fs 0)
    (hdabit : ∃ l, l.length = length ∧ S.mpcProvider.dabitProvider.Holds l 0) :
    bytes ≤ (size+7)/8 ∧ bits ≤ length := by
  obtain ⟨fs, hfs, ⟨d, hd, hrep⟩, hused⟩ := hbeaver
  obtain ⟨l, rfl, hl, hused'⟩ := hdabit
  have hfits := h.beaver.fits d hd (by rw [hused]; exact Nat.zero_le _)
  have hfits' := h.dabit.fits l hl (by rw [hused']; exact Nat.zero_le _)
  rw [h.beaver.used, hused, Nat.zero_add, D2BitArray.innerByteSize_eq hrep hfs] at hfits
  rw [h.dabit.used, hused', Nat.zero_add] at hfits'
  exact ⟨hfits, hfits'⟩

end Serve

section System
variable {SK VK Sig G : Type} [AddCommGroup G] [Module Scalar G] [Ristretto G] [LawfulRistretto G] [Ed25519 SK VK Sig]
  {chacha : ChaCha8Rng.Keystream} {c : SystemConfig} {q : ℕ} {sk : Fin c.peers.length → SK}
  {S : Fin c.peers.length → PRCServer SK VK} {kind : ConnectionKind}
  {handlers : Fin c.peers.length → List (PeerConnection c.peers.length)} {capacity : ℕ}
  {Qs : List (Fin c.peers.length → PRCQuery)}

/-- Up to its lifetime a system serves all queries in every interleaving, with a report for each, and beyond it no
server ever reports on another one. -/
theorem Started.lifetime_iff (h : Started chacha c q sk S) (hn : c.peers.length ≤ 256) (hl2 : 2 ≤ c.dbConfig.l2Dim)
    (hsize : c.dbConfig.l1Dim * c.dbConfig.l2Dim ≤ 2^32) (hcapacity : 2 < capacity)
    (hfit : ∀ i : Fin c.peers.length, c.queryTraffic kind + (setUpTraffic kind i).sent < 2^32 ∧
      c.queryTraffic kind + (setUpTraffic kind i).received < 2^32)
    (hQs : ∀ Q ∈ Qs, Queries Q (Nat.log 2 c.dbConfig.l1Dim) (Nat.log 2 c.dbConfig.l2Dim)) :
    q ≤ c.lifetime q ∧ ∀ s, Runs G Sig S (fun i => Qs.map (· i)) kind handlers capacity s →
      (Qs.length ≤ c.lifetime q → (∀ i, s.net.phase i ≠ .panicked) ∧
        ∃ t, Runs G Sig S (fun i => Qs.map (· i)) kind handlers capacity t ∧
          Relation.ReflTransGen (Session.Step (metered G SK VK Sig kind handlers capacity)) s t ∧
          ∀ i, (t.reports i).length = Qs.length) ∧
      ∀ i, (s.reports i).length ≤ c.lifetime q := by
  refine ⟨h.le_lifetime hl2 hsize, fun s hs => ⟨fun hk => hs.completes h hl2 hQs hn hsize hk hcapacity hfit,
    fun i => ?_⟩⟩
  obtain ⟨m1, m2, h1, h2, hm⟩ := h.servable hl2 hsize
  obtain ⟨db, cell, perQ, -, -, -, hperQ, hserving⟩ := h.serving h1 h2
  have hlog1 : Nat.log 2 c.dbConfig.l1Dim = m1 := by rw [h1, Nat.log_pow (by decide)]
  have hlog2 : Nat.log 2 c.dbConfig.l2Dim = m2 := by rw [h2, Nat.log_pow (by decide)]
  rw [hlog1, hlog2] at hQs
  -- what a party has reported on, it has taken the material for
  obtain ⟨S', hyields, -, -⟩ := Session.Reachable.reported_yields (hs.session h.parties).2 i
  have hspends := program_spends (h.idle h2 i) (fun query hquery => asked hQs i query (List.mem_of_mem_take hquery))
    (hm.one_le.trans hm.le) hm.one_le hyields
  have hlen : ((Qs.map (· i)).take (s.reports i).length).length = (s.reports i).length := by
    have hall := Session.Reachable.reports_length (hs.session h.parties).2 i
    rw [List.length_take]
    omega
  obtain ⟨x, y, z, hready⟩ := hserving.ready
  obtain ⟨l, r, hdabits⟩ := hserving.dabits
  rw [hlen] at hspends
  have hlasts := hspends.le ⟨_, List.cons_ne_nil _ _, hready.beaver.holds i⟩ ⟨l i, hdabits.length i, hdabits.holds i⟩
  exact (SystemConfig.le_lifetime_iff h1 h2 hm.sum_le hperQ _).mpr hlasts

/-- What is set aside for one query of the small system lasts for five of them, and not for six. -/
theorem lifetime_two : ∃ (S : Fin 2 → PRCServer Scalar Scalar) (handlers : Fin 2 → List (PeerConnection 2))
    (Q : Fin 2 → PRCQuery), Started (fun _ _ => 0) smallSystem 1 (fun _ => (7 : Scalar)) S ∧ Queries Q 3 1 ∧
    (∃ t, Runs Scalar (Scalar × List U8) S (fun i => List.replicate 5 (Q i)) .channel handlers 100 t ∧
      ∀ i, (t.reports i).length = 5) ∧
    ∀ s, Runs Scalar (Scalar × List U8) S (fun i => List.replicate 6 (Q i)) .channel handlers 100 s →
      ∀ i, (s.reports i).length ≤ 5 := by
  obtain ⟨S, hS⟩ := smallSystem_started
  obtain ⟨handlers, m, hm, -⟩ := ChannelManager.getHandlers_eq (List.nodup_finRange 2) fun a _ =>
    ChannelManager.holds_new a (List.finRange 2)
  have hlog1 : Nat.log 2 smallSystem.dbConfig.l1Dim = 3 := by decide
  have hlog2 : Nat.log 2 smallSystem.dbConfig.l2Dim = 1 := by decide
  have hlasts : smallSystem.lifetime 1 = 5 := by
    have hbytes : queryBytes 3 1 = 3 := by simp [queryBytes, Circuit.oheBytes, BitArray.divCeil_eight]
    rw [SystemConfig.lifetime, hlog1, hlog2, hbytes]
    rfl
  have hfit : ∀ i : Fin smallSystem.peers.length,
      smallSystem.queryTraffic .channel + (setUpTraffic .channel i).sent < 2^32 ∧
      smallSystem.queryTraffic .channel + (setUpTraffic .channel i).received < 2^32 := by
    rw [smallSystem_queryTraffic]
    decide
  let Q : Fin smallSystem.peers.length → PRCQuery := fun _ =>
    ⟨⟨3, 5, by decide, by decide⟩, ⟨1, 1, by decide, by decide⟩, 0⟩
  have hQ : Queries Q 3 1 := ⟨fun _ => rfl, fun _ => rfl⟩
  have hQs : ∀ k, ∀ Q' ∈ List.replicate k Q, Queries Q' (Nat.log 2 smallSystem.dbConfig.l1Dim)
      (Nat.log 2 smallSystem.dbConfig.l2Dim) := fun k Q' hQ' => by
    rw [List.eq_of_mem_replicate hQ', hlog1, hlog2]
    exact hQ
  have hlife : ∀ k s, Runs Scalar (Scalar × List U8) S (fun i => List.replicate k (Q i)) .channel
      (channelHandlers handlers) 100 s → _ := fun k s hs => (hS.lifetime_iff (by decide) (by decide) (by decide)
    (show 2 < 100 by decide) hfit (hQs k)).2 s (by simpa only [List.map_replicate] using hs)
  simp only [hlasts, List.length_replicate, List.map_replicate] at hlife
  obtain ⟨t, ht, -, hreports⟩ := ((hlife 5 _ (.channel (.refl _) hm .refl)).1 le_rfl).2
  exact ⟨S, _, Q, hS, hQ, ⟨t, ht, hreports⟩, fun s hs => (hlife 6 s hs).2⟩

end System
end PrivRecCert.Prc
