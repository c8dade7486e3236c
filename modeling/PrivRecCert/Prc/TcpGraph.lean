import PrivRecCert.Prc.FrameParser
import PrivRecCert.Prc.TcpSetup

/-! The graph of connections. However the steps of the set-up interleave, a connection that is filed under the
number of a peer leads to that peer, so a handler with one connection for each peer has them all. Which of them
comes first is up to the order in which a hash map is visited. -/
namespace PrivRecCert.Prc
open Function CorRnd SimdArray Rounds

variable {n : ℕ}

/-- A connection as its holder sees it: the number of the peer, and the two channels. -/
structure Link (n : ℕ) where
  peerId : Option ℕ
  sender : Fin n × Fin n
  receiver : Fin n × Fin n

def ChannelConnection.link (c : ChannelConnection n) : Link n := ⟨some c.peerId, c.sender, c.receiver⟩

def TcpConnection.link (c : TcpConnection n) : Link n := ⟨c.receiverId, c.sender, c.receiver⟩

/-- `get_aggregator`: the first peer, for everybody but the aggregator. -/
def getAggregator (ownerId : U8) (peers : List (Link n)) : Option (Link n) := if ownerId = 0 then none else peers[0]?

/-- What a party expects of its handler, given the connections that all parties hold: one connection to each of the
others, of which a frame gets to that peer's connection to the party and to no other one, and the first of which
leads to the aggregator. -/
structure Connects (held : Fin n → List (Link n)) (i : Fin n) (cons : List (Link n)) : Prop where
  complete : (cons.map Link.peerId).Perm ((peers i).map fun j => some j.val)
  delivered : ∀ c ∈ cons, ∀ k, ∀ c' ∈ held k, c'.receiver = c.sender ↔ c.peerId = some (k : ℕ) ∧ c'.peerId = some (i : ℕ)
  aggregator : (i : ℕ) ≠ 0 → ∃ c, getAggregator (ownerId i) cons = some c ∧ c.peerId = some 0

/-- The connection of `i` to `j`. -/
def Link.between (i j : Fin n) : Link n := ⟨some j, (i, j), (j, i)⟩

theorem between_delivered (i j k l : Fin n) : (Link.between k l).receiver = (Link.between i j).sender ↔
    (Link.between i j).peerId = some (k : ℕ) ∧ (Link.between k l).peerId = some (i : ℕ) := by
  simp only [Link.between, Prod.mk.injEq, Option.some.injEq, Fin.val_inj]
  constructor
  · rintro ⟨rfl, rfl⟩
    exact ⟨rfl, rfl⟩
  · rintro ⟨rfl, rfl⟩
    exact ⟨rfl, rfl⟩

theorem ownerId_eq_zero (hn : n ≤ 256) (i : Fin n) : ownerId i = 0 ↔ (i : ℕ) = 0 := by
  have hi := i.isLt
  rw [ownerId, ← BitVec.toNat_inj, BitVec.toNat_ofNat, Nat.mod_eq_of_lt (by omega)]
  rfl

/-- A handler with one connection to each peer does all that is expected but for the place of the aggregator. -/
theorem connects_iff (hn : n ≤ 256) {held : Fin n → List (Link n)} (hheld : ∀ k, ∀ c ∈ held k, ∃ l, c = Link.between k l)
    {i : Fin n} {order : List (Fin n)} (horder : order.Perm (peers i)) :
    Connects held i (order.map (Link.between i)) ↔ (i : ℕ) = 0 ∨ (order.map Fin.val).head? = some 0 := by
  have hfirst : (order.map (Link.between i))[0]? = order.head?.map (Link.between i) := by
    rw [← List.head?_eq_getElem?, List.head?_map]
  constructor
  · intro h
    by_cases hi : (i : ℕ) = 0
    · exact .inl hi
    · obtain ⟨c, hc, hpeer⟩ := h.aggregator hi
      rw [getAggregator, if_neg (mt (ownerId_eq_zero hn i).mp hi), hfirst] at hc
      obtain ⟨j, hj, rfl⟩ := Option.map_eq_some_iff.mp hc
      rw [List.head?_map, hj]
      exact .inr hpeer
  · intro h
    refine ⟨?_, ?_, fun hi => ?_⟩
    · rw [List.map_map]
      exact horder.map _
    · intro c hc k c' hc'
      obtain ⟨j, -, rfl⟩ := List.mem_map.mp hc
      obtain ⟨l, rfl⟩ := hheld k c' hc'
      exact between_delivered i j k l
    · rw [getAggregator, if_neg (mt (ownerId_eq_zero hn i).mp hi), hfirst]
      rcases h with hzero | hzero
      · exact absurd hzero hi
      · rw [List.head?_map] at hzero
        obtain ⟨j, hj, hj0⟩ := Option.map_eq_some_iff.mp hzero
        exact ⟨Link.between i j, by rw [hj]; rfl, congrArg some hj0⟩

namespace TcpSetup
variable {G : Type} [AddCommGroup G] [Module Scalar G] [Ristretto G] {infos : List (Fin n)} {s s' : TcpSetup n}

/-- The connection of `i` to `j` once the handshake is through. A handshake tells the low byte of a number. -/
def entry (i j : Fin n) : ℕ × TcpConnection n :=
  if j < i then (j, ⟨⟨6, 0⟩, some j, (i, j), true⟩)
  else ((ownerId j).toNat, ⟨⟨0, 6⟩, some (ownerId j).toNat, (j, i), false⟩)

theorem ownerId_toNat (hn : n ≤ 256) (j : Fin n) : (ownerId j).toNat = j := by
  have hj := j.isLt
  rw [ownerId, BitVec.toNat_ofNat, Nat.mod_eq_of_lt (by omega)]

theorem entry_fst (hn : n ≤ 256) (i j : Fin n) : (entry i j).1 = j := by
  unfold entry
  split_ifs
  · rfl
  · exact ownerId_toNat hn j

theorem entry_link (hn : n ≤ 256) (i j : Fin n) : (entry i j).2.link = Link.between i j := by
  unfold entry
  split_ifs
  · rfl
  · rw [ownerId_toNat hn j]
    rfl

theorem handshakeFrame_eq (i : Fin n) : handshakeFrame G i = [1, ownerId i] := rfl

/-- What a handshake tells the party that listens. -/
theorem handleNew_eq {i j : Fin n} (hij : i < j) :
    handleNewListenConnection G ⟨.zero, none, (j, i), false⟩ (handshakeFrame G j) = some (entry i j) := by
  have hread : (Cmd.deserialize [1, ownerId j] : Option (Cmd G)) = some (.handshake (ownerId j)) := rfl
  have hstat : NetStat.zero.addReceived (tcpBytes [1, ownerId j]) = some ⟨0, 6⟩ := rfl
  rw [entry, if_neg (not_lt_of_gt hij), handleNewListenConnection, handshakeFrame_eq, hread, hstat]
  rfl

/-- The connection that party `i` is setting up leads to the peer it is meant for. -/
def DiallingTo (i : Fin n) : Dialling n → Prop
  | .idle => True
  | .connected j con => j < i ∧ con = ⟨.zero, some (j : ℕ), (i, j), true⟩
  | .greeted j con => j < i ∧ ((j : ℕ), con) = entry i j

/-- The connection whose handshake party `i` waits for comes from a party with a higher number. -/
def ListeningFrom (i : Fin n) : Listening n → Prop
  | .idle => True
  | .waiting con => ∃ j, i < j ∧ con = ⟨.zero, none, (j, i), false⟩
  | .panicked => False

def Incoming (i : Fin n) (streams : List (Fin n × Fin n)) : Prop := ∀ x ∈ streams, ∃ j, i < j ∧ x = (j, i)

/-- At most one connection for each peer, and none that leads elsewhere. -/
structure Filed (i : Fin n) (m : Connections n) : Prop where
  entries : ∀ e ∈ m, ∃ j, j ≠ i ∧ e = entry i j
  nodup : (m.map Prod.fst).Nodup

def Complete (i : Fin n) (v : Option (Connections n)) : Prop :=
  ∀ order, v = some order → Filed i order ∧ order.length = n-1

/-- Nothing but the handshake of the party that dials. -/
def Greeting (G : Type) [AddCommGroup G] [Module Scalar G] [Ristretto G] (x : Fin n × Fin n) (frames : List (List U8)) :
    Prop := ∀ frame ∈ frames, frame = handshakeFrame G x.1

structure Valid (G : Type) [AddCommGroup G] [Module Scalar G] [Ristretto G] (s : TcpSetup n) : Prop where
  dialling : ∀ i, DiallingTo i (s.dialling i)
  listening : ∀ i, ListeningFrom i (s.listening i)
  backlog : ∀ i, Incoming i (s.backlog i)
  wire : ∀ x, Greeting G x (s.wire x)
  connections : ∀ i, Filed i (s.connections i)
  visited : ∀ i, Complete i (s.visited i)

/-- Filing one more connection. -/
theorem Filed.insert {m : Connections n} {i j : Fin n} (hm : Filed i m) (hij : j ≠ i) {e : ℕ × TcpConnection n}
    (he : e = entry i j) : Filed i (m.insert e.1 e.2) := by
  subst he
  constructor
  · intro e' he'
    rcases List.mem_cons.mp he' with rfl | hmem
    · exact ⟨j, hij, rfl⟩
    · exact hm.entries e' (List.mem_of_mem_filter hmem)
  · rw [Connections.insert, List.map_cons, List.nodup_cons]
    constructor
    · intro hmem
      obtain ⟨e', he', hkey⟩ := List.mem_map.mp hmem
      exact of_decide_eq_true (List.mem_filter.mp he').2 hkey
    · exact hm.nodup.sublist (List.filter_sublist.map Prod.fst)

theorem Filed.perm {m order : Connections n} {i : Fin n} (hm : Filed i m) (h : order.Perm m) : Filed i order :=
  ⟨fun e he => hm.entries e (h.mem_iff.mp he), (h.map Prod.fst).nodup_iff.mpr hm.nodup⟩

theorem valid_init (infos : List (Fin n)) : Valid G (init infos) where
  dialling _ := trivial
  listening _ := trivial
  backlog _ _ hx := absurd hx List.not_mem_nil
  wire _ _ hframe := absurd hframe List.not_mem_nil
  connections _ := ⟨fun _ he => absurd he List.not_mem_nil, List.nodup_nil⟩
  visited _ _ hv := absurd hv.symm (Option.some_ne_none _)

/-- The frame that a listening party finds on a new stream. -/
theorem Valid.frame_eq (V : Valid G s) {i j : Fin n} {frame : List U8} {rest : List (List U8)}
    (hframe : s.wire (j, i) = frame :: rest) : frame = handshakeFrame G j :=
  V.wire (j, i) frame (by rw [hframe]; exact List.mem_cons_self)

/-- Whoever waits for a handshake gets one, and takes the connection for what it is. -/
theorem Valid.welcomed (V : Valid G s) {i : Fin n} {con : TcpConnection n} {frame : List U8} {rest : List (List U8)}
    (h : s.listening i = .waiting con) (hframe : s.wire con.receiver = frame :: rest) :
    ∃ j, i < j ∧ con = ⟨.zero, none, (j, i), false⟩ ∧ handleNewListenConnection G con frame = some (entry i j) := by
  have hlisten := V.listening i
  rw [h] at hlisten
  obtain ⟨j, hij, rfl⟩ := hlisten
  exact ⟨j, hij, rfl, by rw [V.frame_eq hframe, handleNew_eq hij]⟩

/-- No step files a connection under a number that is not the peer's. -/
theorem Valid.step (V : Valid G s) (h : Step G s s') : Valid G s' := by
  cases h with
  | skip i j rest h htodo hj => exact ⟨V.dialling, V.listening, V.backlog, V.wire, V.connections, V.visited⟩
  | dial i j rest h htodo hj =>
    have hdial := (forall_update_iff s.dialling DiallingTo).mpr
      ⟨show DiallingTo i (.connected j ⟨.zero, some j, (i, j), true⟩) from ⟨hj, rfl⟩, fun a _ => V.dialling a⟩
    have hback : Incoming j (s.backlog j ++ [(i, j)]) := by
      intro x hx
      rcases List.mem_append.mp hx with hmem | hmem
      · exact V.backlog j x hmem
      · exact ⟨i, hj, List.mem_singleton.mp hmem⟩
    exact { V with
      dialling := hdial
      backlog := (forall_update_iff s.backlog Incoming).mpr ⟨hback, fun a _ => V.backlog a⟩ }
  | greet i j con stat h hstat =>
    have hdial := V.dialling i
    rw [h] at hdial
    obtain ⟨hij, rfl⟩ := hdial
    obtain rfl : (⟨6, 0⟩ : NetStat) = stat := Option.some.inj hstat
    have hgreeted : DiallingTo i (.greeted j ⟨⟨6, 0⟩, some j, (i, j), true⟩) := ⟨hij, by rw [entry, if_pos hij]⟩
    have hwire : Greeting G (i, j) (s.wire (i, j) ++ [handshakeFrame G i]) := by
      intro frame hframe
      rcases List.mem_append.mp hframe with hmem | hmem
      · exact V.wire (i, j) frame hmem
      · exact List.mem_singleton.mp hmem
    exact { V with
      dialling := (forall_update_iff s.dialling DiallingTo).mpr ⟨hgreeted, fun a _ => V.dialling a⟩
      wire := (forall_update_iff s.wire (Greeting G)).mpr ⟨hwire, fun x _ => V.wire x⟩ }
  | file i j con h =>
    have hdial := V.dialling i
    rw [h] at hdial
    obtain ⟨hij, he⟩ := hdial
    have hfiled := (V.connections i).insert (ne_of_lt hij) he
    exact { V with
      dialling := (forall_update_iff s.dialling DiallingTo).mpr ⟨trivial, fun a _ => V.dialling a⟩
      connections := (forall_update_iff s.connections Filed).mpr ⟨hfiled, fun a _ => V.connections a⟩ }
  | accept i x rest h hx =>
    obtain ⟨j, hij, rfl⟩ := V.backlog i x (by rw [hx]; exact List.mem_cons_self)
    have hwait : ListeningFrom i (.waiting ⟨.zero, none, (j, i), false⟩) := ⟨j, hij, rfl⟩
    have hrest : Incoming i rest := fun y hy => V.backlog i y (by rw [hx]; exact List.mem_cons_of_mem _ hy)
    exact { V with
      listening := (forall_update_iff s.listening ListeningFrom).mpr ⟨hwait, fun a _ => V.listening a⟩
      backlog := (forall_update_iff s.backlog Incoming).mpr ⟨hrest, fun a _ => V.backlog a⟩ }
  | welcome i con frame rest id con' h hframe hnew =>
    obtain ⟨j, hij, rfl, hentry⟩ := V.welcomed h hframe
    have hfiled := (V.connections i).insert (ne_of_gt hij) (Option.some.inj (hnew.symm.trans hentry))
    have hwire : Greeting G (j, i) rest := by
      intro f hf
      refine V.wire (j, i) f ?_
      rw [show s.wire (j, i) = frame :: rest from hframe]
      exact List.mem_cons_of_mem _ hf
    exact { V with
      listening := (forall_update_iff s.listening ListeningFrom).mpr ⟨trivial, fun a _ => V.listening a⟩
      wire := (forall_update_iff s.wire (Greeting G)).mpr ⟨hwire, fun x _ => V.wire x⟩
      connections := (forall_update_iff s.connections Filed).mpr ⟨hfiled, fun a _ => V.connections a⟩ }
  | reject i con frame rest h hframe hnew =>
    obtain ⟨j, -, -, hentry⟩ := V.welcomed h hframe
    cases hnew.symm.trans hentry
  | ready i order htodo h hvisited hlen horder =>
    have hcomplete : Complete i (some order) := by
      intro order' he
      obtain rfl := Option.some.inj he
      exact ⟨(V.connections i).perm horder, horder.length_eq.trans hlen⟩
    exact { V with
      visited := (forall_update_iff s.visited Complete).mpr ⟨hcomplete, fun a _ => V.visited a⟩ }

theorem Reachable.valid (h : Reachable G infos s) : Valid G s := by
  induction h with
  | refl => exact valid_init infos
  | tail _ hstep ih => exact ih.step hstep

/-- The connections that a party has on file. -/
def held (s : TcpSetup n) (k : Fin n) : List (Link n) := (s.connections k).map fun e => e.2.link

theorem Filed.link (hn : n ≤ 256) {m : Connections n} {i : Fin n} (hm : Filed i m) :
    ∀ c ∈ m.map (fun e => e.2.link), ∃ j, c = Link.between i j := by
  intro c hc
  obtain ⟨e, he, rfl⟩ := List.mem_map.mp hc
  obtain ⟨j, -, rfl⟩ := hm.entries e he
  exact ⟨j, entry_link hn i j⟩

/-- As many entries as there are peers are one entry for each of them. -/
theorem Filed.peers {order : Connections n} {i : Fin n} (h : Filed i order) (hlen : order.length = n-1) :
    ∃ js : List (Fin n), js.Perm (peers i) ∧ order = js.map (entry i) := by
  have hall : ∀ l : Connections n, (∀ e ∈ l, ∃ j, j ≠ i ∧ e = entry i j) →
      ∃ js : List (Fin n), l = js.map (entry i) ∧ ∀ j ∈ js, j ≠ i := by
    intro l hl
    induction l with
    | nil => exact ⟨[], rfl, fun j hj => absurd hj List.not_mem_nil⟩
    | cons e l ih =>
      obtain ⟨js, rfl, hjs⟩ := ih fun e' he' => hl e' (List.mem_cons_of_mem _ he')
      obtain ⟨j, hj, rfl⟩ := hl e List.mem_cons_self
      exact ⟨j :: js, rfl, List.forall_mem_cons.mpr ⟨hj, hjs⟩⟩
  obtain ⟨js, rfl, hjs⟩ := hall order h.entries
  have hnd := h.nodup
  rw [List.map_map] at hnd
  refine ⟨js, ?_, rfl⟩
  apply (List.subperm_of_subset hnd.of_map fun j hj => mem_peers.mpr (hjs j hj)).perm_of_length_le
  rw [List.length_map] at hlen
  rw [peers_length, hlen]

/-- No connection is filed under the party's own number. -/
theorem getHandler_eq (hn : n ≤ 256) (i : Fin n) {js : List (Fin n)} (hjs : ∀ j ∈ js, j ≠ i) :
    getHandler i (js.map (entry i)) = js.map fun j => (entry i j).2 := by
  have hkeep : (js.map (entry i)).filter (fun e => e.1 ≠ (i : ℕ)) = js.map (entry i) := by
    apply List.filter_eq_self.mpr
    intro e he
    obtain ⟨j, hj, rfl⟩ := List.mem_map.mp he
    rw [entry_fst hn]
    exact decide_eq_true fun hval => hjs j hj (Fin.ext hval)
  rw [getHandler, hkeep, List.map_map]
  rfl

theorem getHandler_link (hn : n ≤ 256) (i : Fin n) {js : List (Fin n)} (hjs : ∀ j ∈ js, j ≠ i) :
    (getHandler i (js.map (entry i))).map TcpConnection.link = js.map (Link.between i) := by
  rw [getHandler_eq hn i hjs, List.map_map]
  exact List.map_congr_left fun j _ => entry_link hn i j

end TcpSetup

/-- In the order of their numbers, the first peer is party 0. -/
theorem peers_head (i : Fin n) : (i : ℕ) = 0 ∨ ((peers i).map Fin.val).head? = some 0 := by
  cases n with
  | zero => exact i.elim0
  | succ n =>
    by_cases hi : i = 0
    · exact .inl (by rw [hi]; rfl)
    · right
      have hpeers : peers i = 0 :: ((List.finRange n).map Fin.succ).filter fun x => x ≠ i := by
        rw [peers, List.finRange_succ]
        exact List.filter_cons_of_pos (decide_eq_true (Ne.symm hi))
      rw [hpeers]
      rfl

/-- The handlers of a `ChannelManager`, in whatever order they are asked for, do all that is expected. -/
theorem channels_connect (hn : n ≤ 256) {order : List (Fin n)} (horder : order.Perm (List.finRange n)) :
    ∃ handlers m, (ChannelManager.new n).getHandlers order = some (handlers, m) ∧
      ∀ i, Connects (fun k => (handlers k).map ChannelConnection.link) i ((handlers i).map ChannelConnection.link) := by
  obtain ⟨handlers, m, hm, hconn⟩ := ChannelManager.getHandlers_eq
    (horder.nodup_iff.mpr (List.nodup_finRange n)) fun a _ => ChannelManager.holds_new a (List.finRange n)
  have hlinks : ∀ i, (handlers i).map ChannelConnection.link = (peers i).map (Link.between i) := by
    intro i
    rw [hconn i (horder.mem_iff.mpr (List.mem_finRange i)), List.map_map]
    rfl
  refine ⟨handlers, m, hm, fun i => ?_⟩
  rw [hlinks i]
  refine (connects_iff hn (fun k c hc => ?_) (.refl _)).mpr ?_
  · rw [hlinks k] at hc
    obtain ⟨l, -, rfl⟩ := List.mem_map.mp hc
    exact ⟨l, rfl⟩
  · exact peers_head i

namespace TcpSetup

/-- Three parties, of which the last two get their handlers: party 1 comes across party 2 first. -/
theorem three_reachable : ∃ s : TcpSetup 3, Reachable CheckedScalar [0, 1, 2] s ∧
    s.visited 1 = some [entry 1 2, entry 1 0] ∧ s.visited 2 = some [entry 2 0, entry 2 1] := by
  refine ⟨_, ((((((((((((((((Relation.ReflTransGen.refl.tail
    (.dial 1 0 [1, 2] rfl rfl (by decide))).tail
    (.greet 1 0 _ _ rfl rfl)).tail
    (.file 1 0 _ rfl)).tail
    (.skip 1 1 [2] rfl rfl (by decide))).tail
    (.skip 1 2 [] rfl rfl (by decide))).tail
    (.dial 2 0 [1, 2] rfl rfl (by decide))).tail
    (.greet 2 0 _ _ rfl rfl)).tail
    (.file 2 0 _ rfl)).tail
    (.dial 2 1 [2] rfl rfl (by decide))).tail
    (.greet 2 1 _ _ rfl rfl)).tail
    (.accept 1 _ _ rfl rfl)).tail
    (.welcome 1 _ _ _ _ _ rfl rfl rfl)).tail
    (.file 2 1 _ rfl)).tail
    (.skip 2 2 [] rfl rfl (by decide))).tail
    (.ready 1 [entry 1 2, entry 1 0] rfl rfl rfl rfl (by decide))).tail
    (.ready 2 [entry 2 0, entry 2 1] rfl rfl rfl rfl (by decide))), rfl, rfl⟩

end TcpSetup

section Tcp
variable (G : Type) [AddCommGroup G] [Module Scalar G] [Ristretto G]

/-- Both ways to connect `n` parties give every handler one connection to each of the others, and frames get where
they are sent. With channels the first one always leads to the aggregator; over TCP it does when the map is visited
in an order that begins with party 0. -/
theorem handlers_connect_iff (hn : n ≤ 256) :
    (∀ order : List (Fin n), order.Perm (List.finRange n) → ∃ handlers m,
      (ChannelManager.new n).getHandlers order = some (handlers, m) ∧ ∀ i,
        Connects (fun k => (handlers k).map ChannelConnection.link) i ((handlers i).map ChannelConnection.link)) ∧
    ∀ (infos : List (Fin n)), infos.Perm (List.finRange n) → ∀ s, TcpSetup.Reachable G infos s →
      ∀ (i : Fin n) (order : Connections n), s.visited i = some order →
        (Connects s.held i ((TcpSetup.getHandler i order).map TcpConnection.link) ↔
          (i : ℕ) = 0 ∨ (order.map Prod.fst).head? = some 0) := by
  refine ⟨fun order horder => channels_connect hn horder, fun infos _ s hs i order hvisited => ?_⟩
  have V := hs.valid
  obtain ⟨hfiled, hlen⟩ := V.visited i order hvisited
  obtain ⟨js, hjs, rfl⟩ := hfiled.peers hlen
  have hkeys : (js.map (TcpSetup.entry i)).map Prod.fst = js.map Fin.val := by
    rw [List.map_map]
    exact List.map_congr_left fun j _ => TcpSetup.entry_fst hn i j
  rw [TcpSetup.getHandler_link hn i fun j hj => mem_peers.mp (hjs.mem_iff.mp hj), hkeys]
  exact connects_iff hn (fun k => (V.connections k).link hn) hjs

end Tcp

/-- Three parties: party 2 has party 0 in the first place of its handler, and party 1 has not. -/
theorem handlers_connect_three : ∃ s : TcpSetup 3,
    Connects s.held 2 ((TcpSetup.getHandler 2 [TcpSetup.entry 2 0, TcpSetup.entry 2 1]).map TcpConnection.link) ∧
    ¬ Connects s.held 1 ((TcpSetup.getHandler 1 [TcpSetup.entry 1 2, TcpSetup.entry 1 0]).map TcpConnection.link) := by
  obtain ⟨s, hs, hone, htwo⟩ := TcpSetup.three_reachable
  have hconnect := (handlers_connect_iff (n := 3) CheckedScalar (by decide)).2 [0, 1, 2] (by decide) s hs
  exact ⟨s, (hconnect 2 _ htwo).mpr (by decide), mt (hconnect 1 _ hone).mp (by decide)⟩

/-- A party whose map is not visited in the order of the numbers asks the wrong peer to aggregate. -/
theorem handlers_connect_fails : ¬ ∀ n, 2 ≤ n → n ≤ 256 → ∀ infos : List (Fin n), infos.Perm (List.finRange n) →
    ∀ s, TcpSetup.Reachable CheckedScalar infos s → ∀ (i : Fin n) (order : Connections n), s.visited i = some order →
      Connects s.held i ((TcpSetup.getHandler i order).map TcpConnection.link) := by
  intro h
  obtain ⟨s, hs, hone, -⟩ := TcpSetup.three_reachable
  have hconnects := h 3 (by decide) (by decide) [0, 1, 2] (by decide) s hs 1 _ hone
  obtain ⟨c, hc, hpeer⟩ := hconnects.aggregator (by decide)
  have hfirst : some (Link.between 1 2) = some c := hc
  obtain rfl := Option.some.inj hfirst
  exact absurd hpeer (by decide)

end PrivRecCert.Prc
