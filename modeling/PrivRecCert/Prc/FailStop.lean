import PrivRecCert.Prc.Answering
import PrivRecCert.Rounds.Crash

/-! Servers that stop. Whichever servers stop and whenever, those that come to their end have answered as in an
undisturbed run: `receive_all` passes over a closed connection, and the assertion on the number of entries then fails,
so that no incomplete round is ever summed up or signed. -/
namespace PrivRecCert.Prc
open CorRnd SimdArray Rounds

variable {G : Type}

/-- One frame fills one slot by one entry at most. -/
theorem MpcMessageHandler.handleCmd_slots {h h' : MpcMessageHandler G} {id : U8} {cmd : Cmd G}
    (hh : h.handleCmd id cmd = some h') (kd : Kind) : (h'.slots kd).length ≤ (h.slots kd).length + 1 := by
  cases cmd with
  | handshake peerId => cases hh
  | beaverExchange senderId size dataA dataB =>
    simp only [handleCmd] at hh
    split_ifs at hh
    simp only [Option.bind_eq_bind, Option.bind_eq_some_iff, Option.some.injEq] at hh
    obtain ⟨a, -, b, -, rfl⟩ := hh
    cases kd <;> simp [slots]
  | dabitExchange senderId size data =>
    simp only [handleCmd] at hh
    split_ifs at hh
    simp only [Option.bind_eq_bind, Option.bind_eq_some_iff, Option.some.injEq] at hh
    obtain ⟨a, -, rfl⟩ := hh
    cases kd <;> simp [slots]
  | aggCommit senderId c =>
    simp only [handleCmd] at hh
    split_ifs at hh
    obtain rfl := Option.some.inj hh
    cases kd <;> simp [slots]

/-- A receive that returns has found one entry for each peer. -/
theorem MpcMessageHandler.receive_slots {h : MpcMessageHandler G} {peerNum : ℕ} {kd : Kind}
    {r : List (Msg G) × MpcMessageHandler G} (hr : h.receive peerNum kd = some r) : (h.slots kd).length = peerNum := by
  cases kd with
  | beaver | dabit | commit =>
    simp only [receive] at hr
    split_ifs at hr with hlen
    simpa [slots] using hlen

section Strict
variable {n : ℕ} [AddCommGroup G] [Module Scalar G] [Ristretto G] {kind : ConnectionKind}
  {handlers : Fin n → List (PeerConnection n)}

theorem peerEndpoint_strict (hcon : Connected kind handlers) (capacity : ℕ) :
    (peerEndpoint (G := G) handlers capacity).Strict MpcMessageHandler.slots where
  absorb i h frame h' kd hh := by
    obtain ⟨cmd, -, hh⟩ := Option.bind_eq_some_iff.mp hh
    exact MpcMessageHandler.handleCmd_slots hh kd
  collect i kd h r hr := by
    obtain ⟨js, hjs, hi⟩ := hcon.links i
    have hlen : _ = ((handlers i).map PeerConnection.link).length := MpcMessageHandler.receive_slots hr
    rw [hlen, hi, List.length_map, hjs.length_eq, peers_length]

end Strict

variable {SK VK Sig R : Type} [Ed25519 SK VK Sig] [ScalarRng R] [AddCommGroup G] [Module Scalar G] [Ristretto G]
  [LawfulRistretto G] {chacha : ChaCha8Rng.Keystream} {c : SystemConfig} {q : ℕ} {sk : Fin c.peers.length → SK}
  {S : Fin c.peers.length → PRCServer SK VK} {kind : ConnectionKind}
  {handlers : Fin c.peers.length → List (PeerConnection c.peers.length)} {capacity : ℕ}

/-- Servers may stop at any moment. Those that finish have the answers of one run in which nobody stops, whatever a
receive has returned came from all peers, and nobody who is left waits for ever. -/
theorem Started.fail_stop [LawfulEd25519 G SK] (hG : Commitment.FullOrder G) (h : Started chacha c q sk S)
    (hn : c.peers.length ≤ 256) (hl2 : 2 ≤ c.dbConfig.l2Dim) (hsize : c.dbConfig.l1Dim * c.dbConfig.l2Dim ≤ 2^32)
    (hset : SetUp G kind handlers capacity) {asks : List (ℕ × R)}
    (hasks : ∀ a ∈ asks, a.1 < c.dbConfig.l1Dim * c.dbConfig.l2Dim) (hk : asks.length ≤ q) :
    ∃ xs : List (Asked c.peers.length), List.Forall₂ (fun a x => x.idx = a.1 ∧ ∃ rng',
        c.client.queryAllServers a.1 a.2 = some ((x.st, List.ofFn x.queries), rng')) asks xs ∧
      ∀ s, Crash.Reachable (peerEndpoint (G := G) handlers capacity)
          (fun i => (S i).serve (xs.map fun x => x.queries i)) .new s →
        (∃ outs : List (Fin c.peers.length → Bool × Option (PRCToken G Sig)),
          List.Forall₂ (fun x out => ∃ bit, Answered SK h.first (S h.first).pk (S h.first).db x bit out) xs outs ∧
          ∀ i b, s.phase i = .ready (.ret b) → b.1 = outs.map (· i)) ∧
        (∀ (i : Fin c.peers.length) (r : ℕ) (l : List (Msg G)), (s.got i)[r]? = some l →
          ∃ (kd : Kind) (w : Fin c.peers.length → Msg G),
            (∀ j, ∃ m, (s.sent j)[r]? = some m ∧ m.kind = kd ∧ wire j m = some (w j)) ∧ l.Perm (others w i)) ∧
        ((∀ i, s.phase i = .panicked ∨ ∃ b, s.phase i = .ready (.ret b)) ∨
          ∃ t, Crash.Step (peerEndpoint (G := G) handlers capacity) s t) ∧
        Acc (fun t s => Crash.Move (peerEndpoint (G := G) handlers capacity) s t) s := by
  obtain ⟨xs, hxs, hrun⟩ := h.answers_lockstep (G := G) hG hl2 hsize hasks hk
  obtain ⟨hcon, hcapacity⟩ := hset.connected h.parties
  refine ⟨xs, hxs, fun s hs => ?_⟩
  obtain ⟨⟨b, ⟨outs, houts, hanswered⟩, hb⟩, hgot, hprogress, hacc⟩ :=
    hrun.survives (linkEndpoint_lawful hn hcon.links hcapacity) (peerEndpoint_strict hcon capacity)
      (funext fun kd => by cases kd <;> rfl) hs
  refine ⟨⟨outs, hanswered, fun i x hx => ?_⟩, hgot, hprogress, hacc⟩
  rw [hb i x hx, houts i]

/-- Two servers with one query: also when one of them stops, the other one's answer is right. -/
theorem fail_stop_two : ∃ (S : Fin 2 → PRCServer Scalar Scalar) (h : Started (fun _ _ => 0) smallSystem 1 (fun _ => 7) S)
    (x : Asked 2) (handlers : Fin 2 → List (PeerConnection 2)), x.idx = 13 ∧ SetUp Scalar .channel handlers 100 ∧
      ∀ s, Crash.Reachable (peerEndpoint (G := Scalar) handlers 100) (fun i => (S i).serve [x.queries i]) .new s →
        ∃ out bit, Answered Scalar h.first (S h.first).pk (S h.first).db x bit out ∧
          ∀ i b, s.phase i = .ready (.ret b) → b.1 = [out i] := by
  obtain ⟨S, hS⟩ := smallSystem_started
  obtain ⟨handlers, hset⟩ := SetUp.two (G := Scalar)
  have hasks : ∀ a ∈ [(13, zeroRng)], a.1 < smallSystem.dbConfig.l1Dim * smallSystem.dbConfig.l2Dim := by decide
  obtain ⟨xs, hxs, hrun⟩ := hS.fail_stop Commitment.fullOrder_scalar (by decide) (by decide) (by decide) hset
    hasks (by decide)
  obtain _ | ⟨⟨hidx, -⟩, _ | _⟩ := hxs
  refine ⟨S, hS, _, handlers, hidx, hset, fun s hs => ?_⟩
  obtain ⟨outs, hanswered, hall⟩ := (hrun s hs).1
  obtain _ | ⟨⟨bit, hbit⟩, _ | _⟩ := hanswered
  exact ⟨_, bit, hbit, hall⟩

end PrivRecCert.Prc
