import PrivRecCert.Prc.Admission
import PrivRecCert.Prc.FrameSizes
import PrivRecCert.Prc.TcpSession
import PrivRecCert.Rounds.SessionRuns

/-! The traffic that the servers report. Every connection counts the bytes it sends and receives, whatever they are
for, and the counters are read and cleared after each query. Over TCP they have counted a handshake before the first
query begins, which the first report includes. -/
namespace PrivRecCert.Prc
open Function CorRnd SimdArray Rounds Sharing

variable {n : ℕ}

inductive ConnectionKind : Type
  | channel
  | tcp
  deriving DecidableEq

/-- The bytes that go before a frame: over TCP, its length. -/
def ConnectionKind.overhead : ConnectionKind → ℕ
  | channel => 0
  | tcp => 4

/-- What a frame of `len` bytes adds to a counter. The length is cast to a `u32`. -/
def ConnectionKind.bytes (kind : ConnectionKind) (len : ℕ) : ℕ := len % 2^32 + kind.overhead

/-- A connection of a handler, with its counters. -/
structure PeerConnection (n : ℕ) where
  link : Link n
  stat : NetStat

def ChannelConnection.peer (c : ChannelConnection n) : PeerConnection n := ⟨c.link, c.stat⟩

def TcpConnection.peer (c : TcpConnection n) : PeerConnection n := ⟨c.link, c.stat⟩

namespace NetStat

/-- The counters as their connection uses them. -/
def tally : Tally NetStat where
  zero := .zero
  addSent := addSent
  addReceived := addReceived
  add := add
  sent := sent
  received := received

theorem tally_lawful : tally.Lawful where
  zero := ⟨rfl, rfl⟩
  addSent t b u h := by
    change addSent t b = some u at h
    unfold addSent at h
    split_ifs at h
    obtain rfl := Option.some.inj h
    exact ⟨rfl, rfl⟩
  addReceived t b u h := by
    change addReceived t b = some u at h
    unfold addReceived at h
    split_ifs at h
    obtain rfl := Option.some.inj h
    exact ⟨rfl, rfl⟩
  add t u v h := by
    change add t u = some v at h
    unfold add at h
    split_ifs at h
    obtain rfl := Option.some.inj h
    exact ⟨rfl, rfl⟩

theorem tally_holds : tally.Holds (2^32) where
  addSent _ _ h := ⟨_, if_pos h⟩
  addReceived _ _ h := ⟨_, if_pos h⟩
  add _ _ hsent hreceived := ⟨_, if_pos ⟨hsent, hreceived⟩⟩

end NetStat

section Endpoint
variable {G : Type} [AddCommGroup G] [Module Scalar G] [Ristretto G]

/-- The message handling of parties that hold the connections `links`, of which each takes `capacity` frames. -/
def linkEndpoint (links : Fin n → List (Link n)) (capacity : ℕ) :
    Endpoint n (Msg G) Kind (List U8) (MpcMessageHandler G) where
  sender i j := (((links i).find? (·.peerId = some (j : ℕ))).map Link.sender).getD (i, i)
  receiver i j := (((links i).find? (·.peerId = some (j : ℕ))).map Link.receiver).getD (i, i)
  encode i m := (m.toCmd (ownerId i)).serialize
  absorb i h frame := do h.handleCmd (ownerId i) (← Cmd.deserialize frame)
  collect i kd h := h.receive (links i).length kd
  capacity := capacity

/-- The handlers of a `ChannelManager` are a case of this. -/
theorem linkEndpoint_channels (handlers : Fin n → List (ChannelConnection n)) :
    linkEndpoint (G := G) (fun i => (handlers i).map ChannelConnection.link) 100 = endpoint handlers := by
  have hfind : ∀ i (j : Fin n), ((handlers i).map ChannelConnection.link).find? (fun l => l.peerId = some (j : ℕ)) =
      ((handlers i).find? (·.peerId = j)).map ChannelConnection.link := by
    intro i j
    rw [List.find?_map]
    refine congrArg (Option.map _) (congrFun (congrArg List.find? (funext fun c => ?_)) _)
    simp only [comp_apply, ChannelConnection.link, Option.some.injEq, Fin.val_inj]
  simp only [linkEndpoint, endpoint, hfind, Option.map_map, List.length_map]
  rfl

/-- The connection that leads to a peer. -/
theorem find_peer {A : Type} {js : List (Fin n)} {f : Fin n → A} {p : A → Option ℕ}
    (hf : ∀ j, p (f j) = some (j : ℕ)) {j : Fin n} (h : j ∈ js) :
    (js.map f).find? (fun a => p a = some (j : ℕ)) = some (f j) := by
  cases hfind : (js.map f).find? (fun a => p a = some (j : ℕ)) with
  | none =>
    exact absurd (decide_eq_true (hf j)) (List.find?_eq_none.mp hfind _ (List.mem_map_of_mem h))
  | some a =>
    obtain ⟨k, -, rfl⟩ := List.mem_map.mp (List.mem_of_find?_eq_some hfind)
    have hk := List.find?_some hfind
    rw [decide_eq_true_iff, hf k] at hk
    rw [Fin.ext (Option.some.inj hk)]

variable {links : Fin n → List (Link n)} {capacity : ℕ}

theorem find_peer_none {A : Type} {js : List (Fin n)} {f : Fin n → A} {p : A → Option ℕ}
    (hf : ∀ j, p (f j) = some (j : ℕ)) {j : Fin n} (h : j ∉ js) :
    (js.map f).find? (fun a => p a = some (j : ℕ)) = none := by
  rw [List.find?_eq_none]
  intro a ha
  obtain ⟨k, hk, rfl⟩ := List.mem_map.mp ha
  rw [decide_eq_true_iff, hf k]
  intro he
  exact h (Fin.ext (Option.some.inj he) ▸ hk)

theorem linkEndpoint_sender (hlinks : ∀ i, ∃ js : List (Fin n), js.Perm (peers i) ∧ links i = js.map (Link.between i))
    (i j : Fin n) : (linkEndpoint (G := G) links capacity).sender i j = (i, j) ∧
      (linkEndpoint (G := G) links capacity).receiver i j = (j, i) := by
  obtain ⟨js, hjs, hi⟩ := hlinks i
  simp only [linkEndpoint, hi]
  by_cases hij : j = i
  · subst hij
    have hj : j ∉ js := fun hmem => mem_peers.mp (hjs.mem_iff.mp hmem) rfl
    rw [find_peer_none (f := Link.between j) (p := Link.peerId) (fun _ => rfl) hj]
    exact ⟨rfl, rfl⟩
  · rw [find_peer (f := Link.between i) (p := Link.peerId) (fun _ => rfl) (hjs.mem_iff.mpr (mem_peers.mpr hij))]
    exact ⟨rfl, rfl⟩

/-- Whoever holds streams of its own only sends and receives on those. -/
theorem linkEndpoint_own {i : Fin n} (hown : ∀ l ∈ links i, l.sender.1 = i ∧ l.receiver.2 = i) (j : Fin n) :
    ((linkEndpoint (G := G) links capacity).sender i j).1 = i ∧
      ((linkEndpoint (G := G) links capacity).receiver i j).2 = i := by
  simp only [linkEndpoint]
  cases hfind : (links i).find? (·.peerId = some (j : ℕ)) with
  | none => exact ⟨rfl, rfl⟩
  | some l => exact hown l (List.mem_of_find?_eq_some hfind)

theorem linkEndpoint_lawful [LawfulRistretto G] (hn : n ≤ 256)
    (hlinks : ∀ i, ∃ js : List (Fin n), js.Perm (peers i) ∧ links i = js.map (Link.between i))
    (hcapacity : 2 < capacity) :
    Lawful (linkEndpoint (G := G) links capacity) Msg.kind wire MpcMessageHandler.slots where
  sender i j _ := (linkEndpoint_sender hlinks i j).1
  receiver i j _ := (linkEndpoint_sender hlinks i j).2
  absorb := (endpoint_lawful (G := G) hn fun a => rfl).absorb
  collect i kd st hlen := by
    obtain ⟨js, hjs, hi⟩ := hlinks i
    apply MpcMessageHandler.receive_eq
    rw [hlen, hi, List.length_map, hjs.length_eq, peers_length]
  capacity := hcapacity

end Endpoint

/-- The connections of the handlers that come from one `ChannelManager`. -/
def channelHandlers (handlers : Fin n → List (ChannelConnection n)) (i : Fin n) : List (PeerConnection n) :=
  (handlers i).map ChannelConnection.peer

/-- The connections of the handlers after `listen` and `connect`, each party having visited its own in some order. -/
def tcpHandlers (order : Fin n → Connections n) (i : Fin n) : List (PeerConnection n) :=
  (TcpSetup.getHandler i (order i)).map TcpConnection.peer

/-- The counters of the connection of `i` to `j` when its set-up ends. -/
def opening (kind : ConnectionKind) (i j : Fin n) : NetStat :=
  match kind with
  | .channel => .zero
  | .tcp => if j < i then ⟨6, 0⟩ else ⟨0, 6⟩

/-- One connection to each peer, with the counters that the set-up leaves. -/
def Connected (kind : ConnectionKind) (handlers : Fin n → List (PeerConnection n)) : Prop :=
  ∀ i, ∃ js : List (Fin n), js.Perm (peers i) ∧ handlers i = js.map fun j => ⟨Link.between i j, opening kind i j⟩

theorem connected_channels {order : List (Fin n)} (horder : order.Perm (List.finRange n))
    {handlers : Fin n → List (ChannelConnection n)} {m : ChannelManager n}
    (h : (ChannelManager.new n).getHandlers order = some (handlers, m)) :
    Connected .channel (channelHandlers handlers) := by
  obtain ⟨handlers', m', hm', hconn⟩ := ChannelManager.getHandlers_eq
    (horder.nodup_iff.mpr (List.nodup_finRange n)) fun a _ => ChannelManager.holds_new a (List.finRange n)
  obtain ⟨rfl, -⟩ := Prod.mk.inj (Option.some.inj (h.symm.trans hm'))
  intro i
  refine ⟨_, .refl _, ?_⟩
  rw [channelHandlers, hconn i (horder.mem_iff.mpr (List.mem_finRange i)), List.map_map]
  rfl

theorem connected_entries (hn : n ≤ 256) {order : Fin n → Connections n}
    (horder : ∀ i, (order i).Perm ((peers i).map (TcpSetup.entry i))) : Connected .tcp (tcpHandlers order) := by
  intro i
  obtain ⟨js, hi, hjs⟩ : Relation.Comp (· = List.map (TcpSetup.entry i) ·) List.Perm (order i) (peers i) := by
    rw [List.eq_map_comp_perm]
    exact horder i
  refine ⟨js, hjs, ?_⟩
  rw [tcpHandlers, hi, TcpSetup.getHandler_eq hn i fun j hj => mem_peers.mp (hjs.mem_iff.mp hj), List.map_map]
  refine List.map_congr_left fun j _ => ?_
  simp only [comp_apply, TcpConnection.peer, TcpSetup.entry_link hn, TcpSetup.entry_stat, opening]

theorem connected_tcp {G : Type} [AddCommGroup G] [Module Scalar G] [Ristretto G] (hn : 2 ≤ n) {infos : List (Fin n)}
    {t : TcpSetup n} (h : TcpSetup.Reachable G infos t) {order : Fin n → Connections n}
    (hready : ∀ i, t.visited i = some (order i)) : Connected .tcp (tcpHandlers order) := by
  refine connected_entries (h.valid.parties_le hn fun i => ⟨_, hready i⟩) fun i => ?_
  obtain ⟨hfiled, hlen⟩ := h.valid.visited i (order i) (hready i)
  obtain ⟨js, hjs, hi⟩ := hfiled.peers hlen
  rw [hi]
  exact hjs.map _

theorem Connected.links {kind : ConnectionKind} {handlers : Fin n → List (PeerConnection n)}
    (h : Connected kind handlers) (i : Fin n) : ∃ js : List (Fin n), js.Perm (peers i) ∧
      (handlers i).map PeerConnection.link = js.map (Link.between i) := by
  obtain ⟨js, hjs, hi⟩ := h i
  refine ⟨js, hjs, ?_⟩
  rw [hi, List.map_map]
  rfl

/-- The counters of the connection to a peer. -/
def statTo (cons : List (PeerConnection n)) (j : Fin n) : NetStat :=
  ((cons.find? (·.link.peerId = some (j : ℕ))).map PeerConnection.stat).getD .zero

theorem Connected.stat {kind : ConnectionKind} {handlers : Fin n → List (PeerConnection n)}
    (h : Connected kind handlers) {i j : Fin n} (hij : j ≠ i) : statTo (handlers i) j = opening kind i j := by
  obtain ⟨js, hjs, hi⟩ := h i
  have hfind := find_peer (f := fun j => (⟨Link.between i j, opening kind i j⟩ : PeerConnection n))
    (p := fun p => p.link.peerId) (fun _ => rfl) (hjs.mem_iff.mpr (mem_peers.mpr hij))
  rw [statTo, hi, hfind]
  rfl

/-- What the set-up leaves in the counters of one party: over TCP, six bytes for each handshake that it has sent to a
party before it, and six for each that it has got from a party after it. -/
def setUpTraffic (kind : ConnectionKind) (i : Fin n) : NetStat :=
  match kind with
  | .channel => .zero
  | .tcp => ⟨i*6, (n-1-i)*6⟩

/-- One number for each peer that comes before, and one for each that comes after. -/
theorem sum_before (i : Fin n) (c : ℕ) : ((peers i).map fun j => if j < i then c else 0).sum = i*c := by
  have hall := sum_peers (fun j => if j < i then c else 0) i
  rw [if_neg (lt_irrefl i), zero_add] at hall
  rw [hall, ← Finset.sum_filter, Finset.sum_const, Finset.filter_gt_eq_Iio, Fin.card_Iio, smul_eq_mul]

theorem sum_after (i : Fin n) (c : ℕ) : ((peers i).map fun j => if i < j then c else 0).sum = (n-1-i)*c := by
  have hall := sum_peers (fun j => if i < j then c else 0) i
  rw [if_neg (lt_irrefl i), zero_add] at hall
  rw [hall, ← Finset.sum_filter, Finset.sum_const, Finset.filter_lt_eq_Ioi, Fin.card_Ioi, smul_eq_mul]

theorem sum_opening (kind : ConnectionKind) (i : Fin n) :
    ((peers i).map fun j => (opening kind i j).sent).sum = (setUpTraffic kind i).sent ∧
    ((peers i).map fun j => (opening kind i j).received).sum = (setUpTraffic kind i).received := by
  cases kind with
  | channel =>
    have hzero : ((peers i).map fun _ => 0).sum = 0 := by rw [List.map_const', List.sum_replicate, smul_zero]
    exact ⟨hzero, hzero⟩
  | tcp =>
    rw [setUpTraffic, ← sum_before, ← sum_after]
    constructor
    · refine congrArg List.sum (List.map_congr_left fun j _ => ?_)
      unfold opening
      split_ifs
      · rfl
      · rfl
    · refine congrArg List.sum (List.map_congr_left fun j hj => ?_)
      have hne := mem_peers.mp hj
      unfold opening
      split_ifs with h1 h2 h2
      · exact absurd (h1.trans h2) (lt_irrefl j)
      · rfl
      · rfl
      · exact absurd (le_antisymm (not_lt.mp h2) (not_lt.mp h1)) hne

section Session
variable {G SK VK Sig : Type} [AddCommGroup G] [Module Scalar G] [Ristretto G] [Ed25519 SK VK Sig]

/-- Servers with their queries, counters and reports. -/
abbrev ServerSession (n : ℕ) (G SK VK : Type) : Type :=
  Rounds.Session n (Msg G) Kind (List U8) (MpcMessageHandler G) (PRCServer SK VK) PRCQuery NetStat

/-- The servers over their connections. After each query a server calls `get_then_reset_netstat`. -/
def metered (G SK VK Sig : Type) [AddCommGroup G] [Module Scalar G] [Ristretto G] [Ed25519 SK VK Sig]
    (kind : ConnectionKind) (handlers : Fin n → List (PeerConnection n)) (capacity : ℕ) :
    Metered n (Msg G) Kind (List U8) (MpcMessageHandler G) (PRCServer SK VK) PRCQuery NetStat where
  endpoint := linkEndpoint (fun i => (handlers i).map PeerConnection.link) capacity
  tally := NetStat.tally
  cost frame := kind.bytes frame.length
  connections i := (handlers i).map fun p => p.link.sender.2
  serve _ S query := do
    let ((_ : Option (PRCToken G Sig)), S) ← S.prcProtocol query
    return S

/-- All servers before their first query. -/
def startSession (G : Type) {SK VK : Type} (Sig : Type) [AddCommGroup G] [Module Scalar G] [Ristretto G]
    [Ed25519 SK VK Sig] (kind : ConnectionKind) (handlers : Fin n → List (PeerConnection n)) (capacity : ℕ)
    (S : Fin n → PRCServer SK VK) (queue : Fin n → List PRCQuery) : ServerSession n G SK VK :=
  .init (metered G SK VK Sig kind handlers capacity) S queue
    (fun i => statTo (handlers i)) (fun _ => []) .new

/-- The bytes of one query: what a server sends to all peers together, and what it receives from them. -/
def queryTraffic (kind : ConnectionKind) (n m1 m2 : ℕ) : ℕ :=
  (n-1)*((frameLengths m1 m2).map (· + kind.overhead)).sum

/-- Where the traffic fits a `u32`, so does the length of each frame. -/
theorem bytes_eq {kind : ConnectionKind} {m1 m2 : ℕ} (hn : 2 ≤ n) (hfit : queryTraffic kind n m1 m2 < 2^32) :
    (frameLengths m1 m2).map kind.bytes = (frameLengths m1 m2).map (· + kind.overhead) := by
  refine List.map_congr_left fun len hlen => ?_
  have hframe : len + kind.overhead ≤ ((frameLengths m1 m2).map (· + kind.overhead)).sum :=
    List.single_le_sum (fun _ _ => Nat.zero_le _) _ (List.mem_map_of_mem (f := (· + kind.overhead)) hlen)
  have hone : 1*((frameLengths m1 m2).map (· + kind.overhead)).sum ≤ queryTraffic kind n m1 m2 :=
    Nat.mul_le_mul_right _ (by omega)
  rw [ConnectionKind.bytes, Nat.mod_eq_of_lt (by omega)]

variable {kind : ConnectionKind} {handlers : Fin n → List (PeerConnection n)} {capacity m1 m2 : ℕ}

theorem metered_connections (hcon : Connected kind handlers) (i : Fin n) :
    ((metered G SK VK Sig kind handlers capacity).connections i).Perm (peers i) := by
  obtain ⟨js, hjs, hi⟩ := hcon i
  have hids : (metered G SK VK Sig kind handlers capacity).connections i = js := by
    change (handlers i).map _ = _
    rw [hi, List.map_map]
    exact List.map_id' js
  rwa [hids]

/-- Query after query, the servers send frames of the same lengths. -/
theorem metered_regular [LawfulRistretto G] (hcon : Connected kind handlers) (hm1 : 1 ≤ m1)
    (hm2 : 1 ≤ m2) : (metered G SK VK Sig kind handlers capacity).Regular
      ((frameLengths m1 m2).map kind.bytes) (fun _ S => S.Idle m2)
      fun _ query => query.l1Bss.bitLen = m1 ∧ query.l2Bss.bitLen = m2 where
  tally := NetStat.tally_lawful
  sender i j _ := (linkEndpoint_sender (hcon.links) i j).1
  receiver i j _ := (linkEndpoint_sender (hcon.links) i j).2
  connections i j hj := mem_peers.mp ((metered_connections hcon i).mem_iff.mp hj)
  serve i S query hS hquery := by
    have hquery := PRCServer.prcProtocol_sized (G := G) (o := ownerId i) hS hquery.1 hquery.2 hm1 hm2
    have hserve : Proc.Sized (Msg.frameLength (ownerId i)) (fun S => S.Idle m2) (frameLengths m1 m2)
        ((metered G SK VK Sig kind handlers capacity).serve i S query) := hquery.finish fun out hout => .ret hout
    exact hserve.measure kind.bytes

variable {S : Fin n → PRCServer SK VK} {queue : Fin n → List PRCQuery}
  {s : ServerSession n G SK VK}

theorem sum_shown (hcon : Connected kind handlers) (hn : 2 ≤ n) (hfit : queryTraffic kind n m1 m2 < 2^32) (r : ℕ)
    (i : Fin n) (f : NetStat → ℕ) :
    (((metered G SK VK Sig kind handlers capacity).connections i).map fun j =>
      shown (f (statTo (handlers i) j)) ((frameLengths m1 m2).map kind.bytes) r (frameLengths m1 m2).length).sum =
    queryTraffic kind n m1 m2 + if r = 0 then ((peers i).map fun j => f (opening kind i j)).sum else 0 := by
  have hshown : ∀ j ∈ peers i, shown (f (statTo (handlers i) j)) ((frameLengths m1 m2).map kind.bytes) r
      (frameLengths m1 m2).length = (if r = 0 then f (opening kind i j) else 0) +
        ((frameLengths m1 m2).map kind.bytes).sum := by
    intro j hj
    rw [shown, hcon.stat (mem_peers.mp hj), List.take_of_length_le (List.length_map _).le]
  have hopening : ((peers i).map fun j => if r = 0 then f (opening kind i j) else 0).sum =
      if r = 0 then ((peers i).map fun j => f (opening kind i j)).sum else 0 := by
    split_ifs
    · rfl
    · rw [List.map_const', List.sum_replicate, smul_zero]
  rw [((metered_connections hcon i).map _).sum_eq, List.map_congr_left hshown, List.sum_map_add, hopening,
    List.map_const', List.sum_replicate, peers_length, smul_eq_mul, Nat.add_comm, bytes_eq hn hfit]
  rfl

/-- Every report is exact, but for what the set-up over TCP leaves for the first one. -/
theorem report_eq [LawfulRistretto G] (hcon : Connected kind handlers) (hn : 2 ≤ n) (hm1 : 1 ≤ m1) (hm2 : 1 ≤ m2)
    (hfit : queryTraffic kind n m1 m2 < 2^32) (hS : ∀ i, (S i).Idle m2)
    (hqueue : ∀ i, ∀ query ∈ queue i, query.l1Bss.bitLen = m1 ∧ query.l2Bss.bitLen = m2)
    (hs : Session.Reachable (metered G SK VK Sig kind handlers capacity)
      (startSession G Sig kind handlers capacity S queue) s)
    {i : Fin n} {r : ℕ} {report : NetStat} (hreport : (s.reports i)[r]? = some report) :
    report.sent = queryTraffic kind n m1 m2 + (if r = 0 then (setUpTraffic kind i).sent else 0) ∧
    report.received = queryTraffic kind n m1 m2 + if r = 0 then (setUpTraffic kind i).received else 0 := by
  obtain ⟨out, inn, L⟩ := Session.Reachable.books (metered_regular hcon hm1 hm2) hS hqueue (fun _ => rfl) hs
  obtain ⟨hsent, hreceived⟩ := (L.party i).reported r report hreport
  rw [List.length_map] at hsent hreceived
  rw [← (sum_opening kind i).1, ← (sum_opening kind i).2]
  exact ⟨hsent.trans (sum_shown hcon hn hfit r i NetStat.sent),
    hreceived.trans (sum_shown hcon hn hfit r i NetStat.received)⟩

end Session
end PrivRecCert.Prc
