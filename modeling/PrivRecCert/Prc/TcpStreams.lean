import PrivRecCert.Prc.MainLoopRuns
import PrivRecCert.Rounds.StreamedStall

/-! The main loops over TCP streams. A broadcast waits until all its frames are written, and nobody reads before that,
so the servers come to an end exactly when every stream has room for the longest frame. -/
namespace PrivRecCert.Prc
open CorRnd SimdArray Rounds PrivRecCert.Streams Bytes

/-- A length goes before its frame as a `u32`, low byte first. -/
def tcpFraming : Framing U8 where
  width := 4
  limit := 2^32
  encode len := leBytes 4 (len % 2^32)
  decode := ofLeBytes
  width_pos := by decide
  encode_length len := leBytes_length 4 _
  decode_encode len h := by rw [Nat.mod_eq_of_lt h, ofLeBytes_leBytes (by omega)]

section Spec
variable {n : ℕ} {G SK VK Sig R : Type} [AddCommGroup G] [Module Scalar G] [Ristretto G] [Ed25519 SK VK Sig]
  [ScalarRng R] {capacity m1 m2 : ℕ} {client : PRCClient} {handlers : Fin n → List (PeerConnection n)}

theorem mainLoop_wired (hcon : Connected .tcp handlers) :
    Streamed.Wired (mainLoop G SK VK Sig R .tcp handlers capacity client) ConnectionKind.tcp.bytes where
  sender i j _ := (linkEndpoint_sender (hcon.links) i j).1
  receiver i j _ := (linkEndpoint_sender (hcon.links) i j).2
  connections i j hj := by
    have hperm : ((metered G SK VK Sig .tcp handlers capacity).connections i).Perm (peers i) :=
      metered_connections hcon i
    exact mem_peers.mp (hperm.mem_iff.mp hj)
  cost _ := rfl

/-- The frames of the main loop have the lengths of the frames of a query. -/
theorem mainLoop_speaks [LawfulRistretto G] (kind : ConnectionKind) (hc : client.Suits m1 m2)
    (hn : 1 ≤ client.partyNum) {good : List U8 → Prop} (hgood : ∀ f : List U8, f.length ∈ frameLengths m1 m2 → good f) :
    (mainLoop G SK VK Sig R kind handlers capacity client).Speaks good (fun _ s => s.server.Idle m2)
      fun _ _ => True := by
  intro i s _ hs _
  have hsized : Proc.Sized (Msg.frameLength (G := G) (ownerId i)) (fun s' : RunState SK VK R => s'.server.Idle m2)
      (frameLengths m1 m2) (s.repetition G Sig client) := repetition_sized hc hn hs
  exact hsized.speaks fun m hm => hgood _ hm

/-- Frames of a query whose traffic fits a `u32` have lengths that do. -/
theorem frameLengths_lt {kind : ConnectionKind} (hn : 2 ≤ n) (hfit : queryTraffic kind n m1 m2 < 2^32) {len : ℕ}
    (hlen : len ∈ frameLengths m1 m2) : len < 2^32 := by
  have hframe : len + kind.overhead ≤ ((frameLengths m1 m2).map (· + kind.overhead)).sum :=
    List.single_le_sum (fun _ _ => Nat.zero_le _) _ (List.mem_map_of_mem (f := (· + kind.overhead)) hlen)
  have hone : 1*((frameLengths m1 m2).map (· + kind.overhead)).sum ≤ queryTraffic kind n m1 m2 :=
    Nat.mul_le_mul_right _ (by omega)
  omega

end Spec

section Streams
variable {G SK VK Sig R : Type} [AddCommGroup G] [Module Scalar G] [Ristretto G] [LawfulRistretto G]
  [Ed25519 SK VK Sig] [ScalarRng R] {capacity m1 m2 reps room : ℕ} {client : PRCClient}
  {handlers : Fin client.partyNum → List (PeerConnection client.partyNum)} {db : PRCDatabase}
  {p : Fin client.partyNum} {idxs : List ℕ} {s : Fin client.partyNum → RunState SK VK R}
  {d : Streamed client.partyNum (Msg G) Kind U8 (MpcMessageHandler G) (RunState SK VK R) Unit NetStat}

namespace Running

/-- What the servers do over streams they also do over connections that carry whole frames. -/
theorem framewise (hs : Running G .tcp handlers capacity db p m1 m2 reps idxs s) (hc : client.Suits m1 m2)
    (hn : 2 ≤ client.partyNum) (hcon : Connected .tcp handlers)
    (hfit : queryTraffic .tcp client.partyNum m1 m2 < 2^32)
    (hd : Streamed.Reachable (mainLoop G SK VK Sig R .tcp handlers capacity client) tcpFraming
      ConnectionKind.tcp.bytes room (mainStart client G Sig .tcp handlers capacity reps s) d) :
    ∃ chan stat, Session.Reachable (mainLoop G SK VK Sig R .tcp handlers capacity client)
      (mainStart client G Sig .tcp handlers capacity reps s) (d.frames chan stat) := by
  obtain ⟨chan, stat, -, hsession⟩ := Streamed.Reachable.stands (mainLoop_wired hcon) rfl
    (fun u hu => Streamed.session_fitting hs.lawful MpcMessageHandler.slots_new hs.lockstep hs.regular hs.fits
      (mainLoop_speaks .tcp hc (by omega) fun f hf => frameLengths_lt hn hfit hf) (fun _ hf => hf) hs.idle
      (fun _ _ _ => trivial) hu) hd
  exact ⟨chan, stat, hsession⟩

/-- With room for every frame all repetitions come to an end. -/
theorem flows (hs : Running G .tcp handlers capacity db p m1 m2 reps idxs s) (hc : client.Suits m1 m2)
    (hn : 2 ≤ client.partyNum) (hcon : Connected .tcp handlers)
    (hfit : queryTraffic .tcp client.partyNum m1 m2 < 2^32) (hroom : ∀ len ∈ frameLengths m1 m2, 4 + len ≤ room)
    (hd : Streamed.Reachable (mainLoop G SK VK Sig R .tcp handlers capacity client) tcpFraming
      ConnectionKind.tcp.bytes room (mainStart client G Sig .tcp handlers capacity reps s) d) :
    ∃ e, Relation.ReflTransGen (Streamed.Step (mainLoop G SK VK Sig R .tcp handlers capacity client) tcpFraming
      ConnectionKind.tcp.bytes room) d e ∧ ∀ i, (e.session.reports i).length = reps := by
  obtain ⟨-, e, he, hlen⟩ := Streamed.completes hs.lawful MpcMessageHandler.slots_new hs.lockstep hs.regular hs.fits
    (mainLoop_wired hcon) (mainLoop_speaks .tcp hc (by omega) fun f hf => ⟨hroom _ hf, frameLengths_lt hn hfit hf⟩)
    hs.idle (fun _ _ _ => trivial) hd
  exact ⟨e, he, fun i => (hlen i).trans List.length_replicate⟩

/-- With too little room for some frame nobody gets past it. -/
theorem stalls (hs : Running G .tcp handlers capacity db p m1 m2 reps idxs s) (hc : client.Suits m1 m2)
    (hn : 2 ≤ client.partyNum) (hcon : Connected .tcp handlers)
    (hfit : queryTraffic .tcp client.partyNum m1 m2 < 2^32) {len : ℕ} (hlen : len ∈ frameLengths m1 m2)
    (hlong : room < 4 + len)
    (hd : Streamed.Reachable (mainLoop G SK VK Sig R .tcp handlers capacity client) tcpFraming
      ConnectionKind.tcp.bytes room (mainStart client G Sig .tcp handlers capacity reps s) d)
    (i : Fin client.partyNum) : d.session.reports i = [] := by
  have hlt := frameLengths_lt hn hfit hlen
  obtain ⟨r, hr⟩ := List.mem_iff_getElem?.mp hlen
  have hcost : ((frameLengths m1 m2).map ConnectionKind.tcp.bytes)[r]? = some (len + 4) := by
    rw [List.getElem?_map, hr, Option.map_some, ConnectionKind.bytes, Nat.mod_eq_of_lt hlt]
    rfl
  have hshort := Streamed.blocks hn hs.lawful MpcMessageHandler.slots_new hs.lockstep hs.regular hs.fits
    (mainLoop_wired hcon) (mainLoop_speaks .tcp hc (by omega) fun f hf => frameLengths_lt hn hfit hf) hs.idle
    (fun _ _ _ => trivial) hcost (fun len' hlen' => ?_) hd i
  · exact hshort.reports
  · change len' % 2^32 + 4 = len + 4 at hlen'
    change room < 4 + len'
    have hle := Nat.mod_le len' (2^32)
    omega

end Running
end Streams

section Program
variable {SK VK Sig G : Type} [AddCommGroup G] [Module Scalar G] [Ristretto G] [LawfulRistretto G] [Ed25519 SK VK Sig]
  {chacha : ChaCha8Rng.Keystream} {args : Cli} {c : SystemConfig} {sk : Fin args.partyNum → SK}
  {S : Fin args.partyNum → RunState SK VK ChaCha8Rng}

/-- The program over TCP streams that have room for `room` bytes each. Whatever the interleaving and whatever pieces
the bytes travel in, nobody panics, every report is exact and whoever is done has the right logs. The repetitions come
to an end exactly when there is room for the longest frame, and otherwise nobody gets to the end of the first one. -/
theorem Launched.streams_finish_iff [LawfulEd25519 G SK] (hG : Commitment.FullOrder G) (h : Launched chacha args c sk S)
    (hl2 : 2 ≤ args.dbL2) (hsize : args.dbL1 * args.dbL2 ≤ 2^32)
    (hfit : args.queryTraffic .tcp + 6*(args.partyNum-1) < 2^32) {infos : List (Fin args.partyNum)}
    {t : TcpSetup args.partyNum} (hset : TcpSetup.Reachable G infos t)
    {order : Fin args.partyNum → Connections args.partyNum} (hready : ∀ i, t.visited i = some (order i))
    {capacity : ℕ} (hcapacity : 2 < capacity) (room : ℕ) :
    ∃ idxs rng, (args.client c).asks args.repNum (Cli.rng chacha) = some (idxs, rng) ∧
      (∀ d, Streamed.Reachable (args.mainLoop c G SK order capacity) tcpFraming ConnectionKind.tcp.bytes room
          (args.mainStart c G order capacity S) d →
        (∀ i, d.session.net.phase i ≠ .panicked) ∧
        (∀ (i : Fin args.partyNum) (r : ℕ) (report : NetStat), (d.session.reports i)[r]? = some report →
          report = ⟨args.queryTraffic .tcp + (if r = 0 then (setUpTraffic .tcp i).sent else 0),
            args.queryTraffic .tcp + if r = 0 then (setUpTraffic .tcp i).received else 0⟩) ∧
        (∀ i, d.session.queue i = [] → ∃ a, d.session.net.phase i = .ready (.ret a) ∧
          a.Done (S h.first).server.db (i = h.first) (Nat.log 2 args.dbL1) (Nat.log 2 args.dbL2) idxs) ∧
        ((∃ i, d.session.reports i ≠ []) →
          ∀ len ∈ frameLengths (Nat.log 2 args.dbL1) (Nat.log 2 args.dbL2), 4 + len ≤ room)) ∧
      ((∀ d, Streamed.Reachable (args.mainLoop c G SK order capacity) tcpFraming ConnectionKind.tcp.bytes room
          (args.mainStart c G order capacity S) d →
        ∃ e, Relation.ReflTransGen (Streamed.Step (args.mainLoop c G SK order capacity) tcpFraming
          ConnectionKind.tcp.bytes room) d e ∧ ∀ i, (e.session.reports i).length = args.repNum) ↔
        ∀ len ∈ frameLengths (Nat.log 2 args.dbL1) (Nat.log 2 args.dbL2), 4 + len ≤ room) := by
  obtain ⟨cell, perQ, hc, hmaterial, hbits, hs⟩ := h.looping hl2 hsize
  have hsum := hc.servable.sum_le
  have hone := hc.servable.one_le
  have hle := hc.servable.le
  have hn : 2 ≤ args.partyNum := h.parties
  have hn' : 1 ≤ (args.client c).partyNum := (Nat.le_succ 1).trans hn
  obtain ⟨idxs, rng, hasks, -⟩ := PRCClient.asks_exists hc.l1Dim hc.l2Dim (by omega) (by omega) hn' hc.parties
    args.repNum (Cli.rng chacha)
  have hcon := connected_tcp hn hset hready
  have h256 := hset.valid.parties_le hn fun i => ⟨_, hready i⟩
  have hquery : args.queryTraffic .tcp < 2^32 := (Nat.le_add_right _ _).trans_lt hfit
  have hfit' : ∀ i : Fin args.partyNum, args.queryTraffic .tcp + (setUpTraffic .tcp i).sent < 2^32 ∧
      args.queryTraffic .tcp + (setUpTraffic .tcp i).received < 2^32 := fun i => by
    have hi := i.isLt
    simp only [setUpTraffic]
    omega
  have hrunning := hs.running hG hc hn h256 hmaterial hbits hcon hcapacity hfit' hasks
  have hreported : ∀ d, Streamed.Reachable (args.mainLoop c G SK order capacity) tcpFraming ConnectionKind.tcp.bytes
      room (args.mainStart c G order capacity S) d → (∃ i, d.session.reports i ≠ []) →
      ∀ len ∈ frameLengths (Nat.log 2 args.dbL1) (Nat.log 2 args.dbL2), 4 + len ≤ room := by
    rintro d hd ⟨i, hi⟩ len hlen
    by_contra hlong
    exact hi (hrunning.stalls hc hn hcon hquery hlen (by omega) hd i)
  refine ⟨idxs, rng, hasks, fun d hd => ?_, fun hall => ?_, fun hroom d hd => hrunning.flows hc hn hcon hquery hroom hd⟩
  · obtain ⟨chan, stat, hsession⟩ := hrunning.framewise hc hn hcon hquery hd
    obtain ⟨hsafe, hdone, -⟩ := hrunning.runs hsession
    exact ⟨hsafe, fun i r report hreport => mainLoop_report hc hn hs.idle hcon hquery hsession hreport, hdone,
      hreported d hd⟩
  · obtain ⟨e, he, hlen⟩ := hall _ .refl
    refine hreported e he ⟨h.first, fun hnil => ?_⟩
    have hreps := h.reps
    have hzero := hlen h.first
    rw [hnil, List.length_nil] at hzero
    omega

theorem smallFrames : frameLengths 3 1 = [8, 8, 8, 7, 34] := by
  have hlayers : layerSizes 3 1 = [1, 1] := by
    simp [layerSizes, Circuit.oheGates]
    rfl
  rw [frameLengths, hlayers]
  rfl

/-- Two servers: streams of 38 bytes will do, and streams of 37 bytes will not. -/
theorem streams_finish_two : ∃ (S : Fin 2 → RunState Scalar Scalar ChaCha8Rng) (order : Fin 2 → Connections 2),
    Launched (fun _ _ => 0) smallArgs smallSystem (fun _ => (7 : Scalar)) S ∧
    (∀ d, Streamed.Reachable (smallArgs.mainLoop smallSystem Scalar Scalar order 3) tcpFraming
      ConnectionKind.tcp.bytes 38 (smallArgs.mainStart smallSystem Scalar order 3 S) d →
      ∃ e, Relation.ReflTransGen (Streamed.Step (smallArgs.mainLoop smallSystem Scalar Scalar order 3) tcpFraming
        ConnectionKind.tcp.bytes 38) d e ∧ ∀ i, (e.session.reports i).length = 1) ∧
    ∀ d, Streamed.Reachable (smallArgs.mainLoop smallSystem Scalar Scalar order 3) tcpFraming
      ConnectionKind.tcp.bytes 37 (smallArgs.mainStart smallSystem Scalar order 3 S) d →
      ∀ i, d.session.reports i = [] := by
  obtain ⟨S, hS⟩ := smallArgs_launched
  obtain ⟨order, t, ht, hready⟩ : ∃ (order : Fin 2 → Connections 2) (t : TcpSetup 2),
      TcpSetup.Reachable Scalar [0, 1] t ∧ ∀ i, t.visited i = some (order i) := ⟨_, TcpSetup.two_reachable⟩
  have htraffic : smallArgs.queryTraffic .tcp = 85 := smallSystem_traffic
  have hall := hS.streams_finish_iff Commitment.fullOrder_scalar (by decide) (by decide) (by rw [htraffic]; decide) ht
    hready (show 2 < 3 by decide)
  have hlog : Nat.log 2 8 = 3 ∧ Nat.log 2 2 = 1 := by decide
  refine ⟨S, order, hS, ?_, fun d hd i => ?_⟩
  · obtain ⟨idxs, rng, -, -, hiff⟩ := hall 38
    refine hiff.mpr ?_
    change ∀ len ∈ frameLengths (Nat.log 2 8) (Nat.log 2 2), _
    rw [hlog.1, hlog.2, smallFrames]
    decide
  · by_contra hne
    obtain ⟨idxs, rng, -, hruns, -⟩ := hall 37
    have hroom := (hruns d hd).2.2.2 ⟨i, hne⟩
    change ∀ len ∈ frameLengths (Nat.log 2 8) (Nat.log 2 2), _ at hroom
    rw [hlog.1, hlog.2, smallFrames] at hroom
    exact absurd hroom (by decide)

end Program
end PrivRecCert.Prc
