import PrivRecCert.Prc.EndToEnd
import PrivRecCert.Prc.Reports

/-! What the servers answer, whatever carries their messages. The two connection factories come to the same, and the
programs of the servers run in lockstep up to the answers that the client can use. -/
namespace PrivRecCert.Prc
open CorRnd SimdArray Rounds Sharing
open scoped BigOperators

section SetUp
variable {n : ℕ} (G : Type) [AddCommGroup G] [Module Scalar G] [Ristretto G]

/-- The handlers that one `ChannelManager` gives out in some order, or those that the parties get after `listen` and
`connect`, with the number of frames that a connection takes. -/
inductive SetUp : ConnectionKind → (Fin n → List (PeerConnection n)) → ℕ → Prop
  | channel {order handlers m} (horder : order.Perm (List.finRange n))
      (hget : (ChannelManager.new n).getHandlers order = some (handlers, m)) :
      SetUp .channel (channelHandlers handlers) 100
  | tcp {infos t order capacity} (h : TcpSetup.Reachable G infos t) (hready : ∀ i, t.visited i = some (order i))
      (hcapacity : 2 < capacity) : SetUp .tcp (tcpHandlers order) capacity

variable {G} {kind : ConnectionKind} {handlers : Fin n → List (PeerConnection n)} {capacity : ℕ}

theorem SetUp.connected (hn : 2 ≤ n) (h : SetUp G kind handlers capacity) : Connected kind handlers ∧ 2 < capacity := by
  cases h with
  | channel horder hget => exact ⟨connected_channels horder hget, by decide⟩
  | tcp h hready hcapacity => exact ⟨connected_tcp hn h hready, hcapacity⟩

/-- Two parties that share a `ChannelManager`. -/
theorem SetUp.two : ∃ handlers : Fin 2 → List (PeerConnection 2), SetUp G .channel handlers 100 := by
  obtain ⟨handlers, m, hm, -⟩ := ChannelManager.getHandlers_eq (List.nodup_finRange 2) fun a _ =>
    ChannelManager.holds_new a (List.finRange 2)
  exact ⟨_, .channel (.refl _) hm⟩

end SetUp

section Messages
variable {n : ℕ} {G : Type} [AddCommGroup G] [Module Scalar G] [Ristretto G]

/-- The message handling of handlers with these connections. A channel takes `capacity` frames. -/
abbrev peerEndpoint (handlers : Fin n → List (PeerConnection n)) (capacity : ℕ) :
    Endpoint n (Msg G) Kind (List U8) (MpcMessageHandler G) :=
  linkEndpoint (fun i => (handlers i).map PeerConnection.link) capacity

end Messages

variable {SK VK Sig G R : Type} [Ed25519 SK VK Sig] [ScalarRng R] [AddCommGroup G] [Module Scalar G] [Ristretto G]
  [LawfulRistretto G] {chacha : ChaCha8Rng.Keystream} {c : SystemConfig} {q : ℕ} {sk : Fin c.peers.length → SK}
  {S : Fin c.peers.length → PRCServer SK VK}

/-- The client can ask for any indices, and the servers serve what it asks for in lockstep. -/
theorem Started.answers_lockstep [LawfulEd25519 G SK] (hG : Commitment.FullOrder G) (h : Started chacha c q sk S)
    (hl2 : 2 ≤ c.dbConfig.l2Dim) (hsize : c.dbConfig.l1Dim * c.dbConfig.l2Dim ≤ 2^32) {asks : List (ℕ × R)}
    (hasks : ∀ a ∈ asks, a.1 < c.dbConfig.l1Dim * c.dbConfig.l2Dim) (hk : asks.length ≤ q) :
    ∃ xs : List (Asked c.peers.length), List.Forall₂ (fun a x => x.idx = a.1 ∧ ∃ rng',
        c.client.queryAllServers a.1 a.2 = some ((x.st, List.ofFn x.queries), rng')) asks xs ∧
      Lockstep Msg.kind wire (fun b : Fin c.peers.length → List (Bool × Option (PRCToken G Sig)) × PRCServer SK VK =>
        ∃ outs : List (Fin c.peers.length → Bool × Option (PRCToken G Sig)), (∀ i, (b i).1 = outs.map (· i)) ∧
          List.Forall₂ (fun x out => ∃ bit, Answered SK h.first (S h.first).pk (S h.first).db x bit out) xs outs)
        fun i => (S i).serve (xs.map fun x => x.queries i) := by
  obtain ⟨m1, m2, h1, h2, hm⟩ := h.servable hl2 hsize
  obtain ⟨db, cell, perQ, -, hdb, hS, hperQ, hserving⟩ := h.serving h1 h2
  have hsum := hm.sum_le
  have hparties := h.parties
  rw [h1, h2] at hasks
  obtain ⟨xs, hxs, hall⟩ := asked_exists h1 h2 hm (by omega) hasks
  -- the preprocessing lasts for all requests
  have hlen : (xs.map Asked.queries).length ≤ q := by rwa [List.length_map, ← hxs.length_eq]
  have hest := Option.some.inj (hperQ.symm.trans (beaverPerQ_eq h1 h2 hsum))
  have hbytes := queryBytes_le m1 m2
  have hfit : (xs.map Asked.queries).length*queryBytes m1 m2 ≤ (q*perQ+7)/8 := queries_fit hlen (by omega)
  have hbits : (xs.map Asked.queries).length*(m1 + m2 + 1) ≤ q*36 := Nat.mul_le_mul hlen (by omega)
  have hQs : ∀ Q ∈ xs.map Asked.queries, Queries Q m1 m2 := fun Q hQ => by
    obtain ⟨x, hx, rfl⟩ := List.mem_map.mp hQ
    exact (hall x hx).2.1
  have hrun := serve_lockstep (G := G) hparties hserving hm hQs (by omega) (by omega)
  simp only [List.map_map] at hrun
  refine ⟨xs, hxs, hrun.mono fun b hb => ?_⟩
  obtain ⟨⟨outs, houts, hcert⟩, -⟩ := hb
  rw [List.forall₂_map_left_iff] at hcert
  refine ⟨outs, houts, ((List.forall₂_and_left xs outs).mpr ⟨hall, hcert⟩).imp fun x out hx => ?_⟩
  obtain ⟨⟨hidx, -, hcol, hrow, hrnd, hst⟩, hout⟩ := hx
  rw [(hS h.first).1, (hS h.first).2]
  exact ⟨_, hout.answered hG hdb hidx hsum hcol hrow hrnd hst⟩

end PrivRecCert.Prc
