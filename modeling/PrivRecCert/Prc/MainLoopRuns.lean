import PrivRecCert.Prc.MainLoopSpec
import PrivRecCert.Rounds.Outcome

/-! The servers of one system in their main loops, over channels or over TCP. -/
namespace PrivRecCert.Prc
open CorRnd SimdArray Rounds

theorem MpcMessageHandler.slots_new {G : Type} : MpcMessageHandler.slots (.new : MpcMessageHandler G) = fun _ => [] :=
  funext fun kd => by cases kd <;> rfl

section Program
variable {n : ℕ} (G SK VK Sig R : Type) [AddCommGroup G] [Module Scalar G] [Ristretto G] [Ed25519 SK VK Sig]
  [ScalarRng R]

/-- The main loops of all servers over their connections. After each query a server calls `get_then_reset_netstat`. -/
def mainLoop (kind : ConnectionKind) (handlers : Fin n → List (PeerConnection n)) (capacity : ℕ) (client : PRCClient) :
    Metered n (Msg G) Kind (List U8) (MpcMessageHandler G) (RunState SK VK R) Unit NetStat where
  endpoint := linkEndpoint (fun i => (handlers i).map PeerConnection.link) capacity
  tally := NetStat.tally
  cost frame := kind.bytes frame.length
  connections i := (handlers i).map fun p => p.link.sender.2
  serve _ s _ := s.repetition G Sig client

end Program

section Spec
variable {n : ℕ} {G SK VK Sig R : Type} [AddCommGroup G] [Module Scalar G] [Ristretto G] [Ed25519 SK VK Sig]
  [ScalarRng R] {kind : ConnectionKind} {capacity m1 m2 k size bits : ℕ} {client : PRCClient}

theorem MpcProvider.getPreprocStat_layers {p : MpcProvider} {out : (ℕ × ℕ) × MpcProvider}
    (h : p.getPreprocStat = some out) : out.2.layers = p.layers := by
  simp only [getPreprocStat, Option.bind_eq_bind, Option.bind_eq_some_iff, Option.some.injEq] at h
  obtain ⟨_, -, _, -, rfl⟩ := h
  rfl

/-- Repetition after repetition, a server sends frames of the same lengths. -/
theorem repetition_sized [LawfulRistretto G] {o : U8} (hc : client.Suits m1 m2) (hn : 1 ≤ client.partyNum)
    {s : RunState SK VK R} (hs : s.server.Idle m2) : Proc.Sized (Msg.frameLength (G := G) o)
      (fun s' : RunState SK VK R => s'.server.Idle m2) (frameLengths m1 m2) (s.repetition G Sig client) := by
  have hone := hc.servable.one_le
  have hle := hc.servable.le
  have hsum := hc.servable.sum_le
  refine .lift fun out hidx => .lift fun out' hquery => ?_
  have hlt := PRCClient.nextIdx_lt hc.l1Dim hc.l2Dim hidx
  obtain ⟨h1, h2⟩ := PRCClient.querySingleServer_bitLen hc.l1Dim hc.l2Dim (by omega) (by omega) hn hc.parties hlt hquery
  have hprotocol := (PRCServer.prcProtocol_sized hs h1 h2 (hone.trans hle) hone : Proc.Sized (Msg.frameLength (G := G) o)
    (fun out : Option (PRCToken G Sig) × PRCServer SK VK => out.2.Idle m2) (frameLengths m1 m2) _)
  refine hprotocol.finish fun resp hresp => .lift fun stat hstat => .lift fun checks _ => .ret ⟨?_, hresp.l2Dim⟩
  exact (MpcProvider.getPreprocStat_layers hstat).trans hresp.layers

variable {handlers : Fin n → List (PeerConnection n)}

theorem mainLoop_regular [LawfulRistretto G] (hcon : Connected kind handlers) (hc : client.Suits m1 m2)
    (hn : 1 ≤ client.partyNum) : (mainLoop G SK VK Sig R kind handlers capacity client).Regular
      ((frameLengths m1 m2).map kind.bytes) (fun _ s => s.server.Idle m2) fun _ _ => True where
  tally := NetStat.tally_lawful
  sender i j _ := (linkEndpoint_sender (hcon.links) i j).1
  receiver i j _ := (linkEndpoint_sender (hcon.links) i j).2
  connections i j hj := by
    have hperm : ((metered G SK VK Sig kind handlers capacity).connections i).Perm (peers i) :=
      metered_connections hcon i
    exact mem_peers.mp (hperm.mem_iff.mp hj)
  serve _ _ _ hs _ := (repetition_sized hc hn hs).measure kind.bytes

theorem mainLoop_fits (hcon : Connected kind handlers) (hn : 2 ≤ n) (hfit : ∀ i : Fin n,
      queryTraffic kind n m1 m2 + (setUpTraffic kind i).sent < 2^32 ∧
      queryTraffic kind n m1 m2 + (setUpTraffic kind i).received < 2^32) :
    (mainLoop G SK VK Sig R kind handlers capacity client).Fits ((frameLengths m1 m2).map kind.bytes)
      (fun i => statTo (handlers i)) (2^32) := by
  have hfits : (metered G SK VK Sig kind handlers capacity).Fits ((frameLengths m1 m2).map kind.bytes)
      (fun i => statTo (handlers i)) (2^32) := metered_fits hcon hn hfit
  exact ⟨hfits.holds, hfits.complete, hfits.sent, hfits.received⟩

end Spec

/-- Providers that have just been filled have nothing to report. -/
theorem SystemConfig.init_unreported {chacha : ChaCha8Rng.Keystream} {c : SystemConfig} {id q : ℕ}
    {out : BeaverProvider × DaBitProvider} (h : c.initSeededCorrelatedRandomness chacha id q = some out) :
    out.1.lastReport = 0 ∧ out.2.lastReport = 0 := by
  simp only [initSeededCorrelatedRandomness, Option.bind_eq_bind, Option.bind_eq_some_iff, Option.some.injEq] at h
  obtain ⟨_, -, _, -, _, -, p, hp, d, hd, rfl⟩ := h
  constructor
  · unfold genBeaverProvider at hp
    split_ifs at hp
    · obtain ⟨_, -, hp⟩ := Option.bind_eq_some_iff.mp hp
      simp only [BeaverProvider.generateAsDealer, Option.bind_eq_bind, Option.bind_eq_some_iff, Option.some.injEq] at hp
      obtain ⟨_, -, _, -, _, -, _, -, _, -, _, -, _, -, _, -, _, -, _, -, _, -, rfl⟩ := hp
      rfl
    · obtain ⟨_, -, hp⟩ := Option.bind_eq_some_iff.mp hp
      obtain ⟨_, -, hp⟩ := Option.bind_eq_some_iff.mp hp
      rw [← Option.some.inj hp]
      rfl
  · unfold genDabitProvider at hd
    split_ifs at hd
    · obtain ⟨_, -, hd⟩ := Option.bind_eq_some_iff.mp hd
      obtain ⟨_, -, hd⟩ := Option.bind_eq_some_iff.mp hd
      rw [← Option.some.inj hd]
    · obtain ⟨_, -, hd⟩ := Option.bind_eq_some_iff.mp hd
      rw [← Option.some.inj hd]
      rfl

section Launch
variable {SK VK Sig G R : Type} [AddCommGroup G] [Module Scalar G] [Ristretto G] [LawfulRistretto G]
  [Ed25519 SK VK Sig] [ScalarRng R] {kind : ConnectionKind} {capacity m1 m2 k size bits : ℕ} {client : PRCClient}
  {handlers : Fin client.partyNum → List (PeerConnection client.partyNum)} {rng₀ : R} {db : PRCDatabase}
  {p : Fin client.partyNum} {sk : Fin client.partyNum → SK} {cell : ℕ → ℕ → ℕ → Bool}
  {s : Fin client.partyNum → RunState SK VK R}

/-- All repetitions at all servers, for as long as the preprocessed material lasts. -/
theorem mainLoop_lockstep [LawfulEd25519 G SK] (hG : Commitment.FullOrder G) (hc : client.Suits m1 m2)
    (hn : 2 ≤ client.partyNum) (hs : Looping client rng₀ db p sk m1 m2 cell size bits k s) (reps : ℕ)
    (hroom : (k+reps)*queryBytes m1 m2 ≤ (size+7)/8) (hbits : (k+reps)*(m1 + m2 + 1) ≤ bits) :
    Lockstep Msg.kind (wire (G := G)) (Looping client rng₀ db p sk m1 m2 cell size bits (k+reps)) fun i =>
      (mainLoop G SK VK Sig R kind handlers capacity client).program i (s i) (List.replicate reps ()) := by
  induction reps generalizing k s with
  | zero => exact .ret hs
  | succ reps ih =>
    rw [← Nat.add_assoc, Nat.add_right_comm] at hroom hbits ⊢
    have hle : ∀ c, (k+1)*c ≤ (k+1+reps)*c := fun c => Nat.mul_le_mul_right c (Nat.le_add_right _ _)
    have hfirst : Lockstep Msg.kind (wire (G := G)) (Looping client rng₀ db p sk m1 m2 cell size bits (k+1)) fun i =>
        (mainLoop G SK VK Sig R kind handlers capacity client).serve i (s i) () :=
      repetition_lockstep hG hc hn hs ((hle _).trans hroom) ((hle _).trans hbits)
    exact hfirst.bind fun s' hs' => ih hs' hroom hbits

/-- All servers of a system, each with its own number and otherwise the same arguments. -/
structure Launched (chacha : ChaCha8Rng.Keystream) (args : Cli) (c : SystemConfig) (sk : Fin args.partyNum → SK)
    (S : Fin args.partyNum → RunState SK VK ChaCha8Rng) : Prop where
  config : args.config = some c
  parties : 2 ≤ args.partyNum
  reps : 1 ≤ args.repNum
  servers : ∀ i : Fin args.partyNum, Cli.start chacha { args with id := i } (sk i) = some (S i)

/-- The generator that every server makes for its client. -/
def Cli.rng (chacha : ChaCha8Rng.Keystream) : ChaCha8Rng := .fromSeed chacha (.replicate 32 13)

namespace Launched
variable {chacha : ChaCha8Rng.Keystream} {args : Cli} {c : SystemConfig} {sk : Fin args.partyNum → SK}
  {S : Fin args.partyNum → RunState SK VK ChaCha8Rng}

def first (h : Launched chacha args c sk S) : Fin args.partyNum := ⟨0, by have := h.parties; omega⟩

/-- The servers of one configuration, with one generator and nothing in their logs. -/
theorem split (h : Launched chacha args c sk S) : (∀ i, (S i).rng = Cli.rng chacha ∧ (S i).log = []) ∧
    ∀ i : Fin args.partyNum, PRCServer.newWithMessageHandler chacha i c args.repNum (sk i) = some (S i).server := by
  refine ⟨fun i => ?_, fun i => ?_⟩
  all_goals
    have hi := h.servers i
    simp only [Cli.start, Option.bind_eq_bind, Option.bind_eq_some_iff, Option.some.injEq] at hi
    obtain ⟨c', hc', -, -, server, hserver, hS⟩ := hi
    obtain rfl := Option.some.inj (h.config.symm.trans hc')
    rw [← hS]
  · exact ⟨rfl, rfl⟩
  · exact hserver

/-- The servers before their first repetition. -/
theorem looping (h : Launched chacha args c sk S) (hl2 : 2 ≤ args.dbL2) (hsize : args.dbL1 * args.dbL2 ≤ 2^32) :
    ∃ cell perQ, (args.client c).Suits (Nat.log 2 args.dbL1) (Nat.log 2 args.dbL2) ∧
      args.repNum*queryBytes (Nat.log 2 args.dbL1) (Nat.log 2 args.dbL2) ≤ (args.repNum*perQ+7)/8 ∧
      args.repNum*(Nat.log 2 args.dbL1 + Nat.log 2 args.dbL2 + 1) ≤ args.repNum*36 ∧
      Looping (args.client c) (Cli.rng chacha) (S h.first).server.db h.first sk (Nat.log 2 args.dbL1)
        (Nat.log 2 args.dbL2) cell (args.repNum*perQ) (args.repNum*36) 0 S := by
  obtain ⟨hlen, hnum, hdb⟩ := Cli.config_eq h.config
  obtain ⟨hrng, hservers⟩ := h.split
  have hparties := h.parties
  have hreps := h.reps
  have hfirst : h.first = ⟨0, by omega⟩ := rfl
  generalize h.first = p at hfirst ⊢
  clear h
  obtain ⟨id, n, l1, l2, reps, port⟩ := args
  obtain rfl : c.peers.length = n := hlen
  have hstarted : Started chacha c reps sk fun i => (S i).server := ⟨hparties, hreps, by rw [hdb], hservers⟩
  have hl1Dim : c.dbConfig.l1Dim = l1 := by rw [hdb]
  have hl2Dim : c.dbConfig.l2Dim = l2 := by rw [hdb]
  obtain ⟨m1, m2, h1, h2, hm⟩ := hstarted.servable (hl2Dim ▸ hl2) (hl1Dim ▸ hl2Dim ▸ hsize)
  obtain ⟨db, cell, perQ, -, hholds, hS, hperQ, hserving⟩ := hstarted.serving h1 h2
  obtain ⟨_, bp, dp, -, hinit, hsplit⟩ := hstarted.split
  have hsum := hm.sum_le
  have hest := Option.some.inj (hperQ.symm.trans (beaverPerQ_eq h1 h2 hsum))
  have hbytes := queryBytes_le m1 m2
  have hlog1 : Nat.log 2 l1 = m1 := by rw [← hl1Dim, h1, Nat.log_pow (by decide)]
  have hlog2 : Nat.log 2 l2 = m2 := by rw [← hl2Dim, h2, Nat.log_pow (by decide)]
  obtain ⟨a, b, c', hready⟩ := hserving.ready
  obtain ⟨l, r, hdabits⟩ := hserving.dabits
  simp only [hlog1, hlog2]
  refine ⟨cell, perQ, ⟨hl1Dim.symm.trans h1, hl2Dim.symm.trans h2, rfl, hnum, hm⟩, queries_fit le_rfl (by omega),
    Nat.mul_le_mul_left _ (by omega), ?_⟩
  refine ⟨?_, fun i => by rw [hsplit i], fun i => ?_, fun i => (hS i).2, fun i => ?_,
    fun i => ?_, ⟨[], _, rfl, fun i => ⟨(hrng i).1, by rw [(hrng i).2]; rfl⟩⟩, fun i r hr => ?_⟩
  · rw [Nat.zero_mul, Nat.zero_mul, hfirst]
    exact hserving
  · rw [(hS i).1, (hS p).1]
  · rw [(hready.beaver.holds i).used_eq, hsplit i]
    exact (SystemConfig.init_unreported (hinit i)).1
  · rw [(hdabits.holds i).used_eq, hsplit i]
    exact (SystemConfig.init_unreported (hinit i)).2
  · rw [(hrng i).2] at hr
    cases hr

end Launched

/-- All servers before their first repetition. -/
def mainStart (client : PRCClient) (G Sig : Type) [AddCommGroup G] [Module Scalar G] [Ristretto G]
    [Ed25519 SK VK Sig] (kind : ConnectionKind) (handlers : Fin client.partyNum → List (PeerConnection client.partyNum))
    (capacity reps : ℕ) (s : Fin client.partyNum → RunState SK VK R) :
    Rounds.Session client.partyNum (Msg G) Kind (List U8) (MpcMessageHandler G) (RunState SK VK R) Unit NetStat :=
  .init (mainLoop G SK VK Sig R kind handlers capacity client) s (fun _ => List.replicate reps ())
    (fun i => statTo (handlers i)) (fun _ => []) .new

/-- The logs of a server that is done: all repetitions, in the order in which every other server has them. -/
structure RunState.Done (db : PRCDatabase) (first : Prop) [Decidable first] (m1 m2 : ℕ) (idxs : List ℕ)
    (s : RunState SK VK R) : Prop where
  asked : s.log.map Repetition.idx = idxs
  exact : ∀ r ∈ s.log, r.Exact db first m1 m2

variable {reps : ℕ} {u : Rounds.Session client.partyNum (Msg G) Kind (List U8) (MpcMessageHandler G)
  (RunState SK VK R) Unit NetStat}

theorem Looping.idle (hs : Looping client rng₀ db p sk m1 m2 cell size bits k s) (i : Fin client.partyNum) :
    (s i).server.Idle m2 := hs.serving.idle i

/-- Every report of every run of the main loops. -/
theorem mainLoop_report (hc : client.Suits m1 m2) (hn : 2 ≤ client.partyNum) (hs : ∀ i, (s i).server.Idle m2)
    (hcon : Connected kind handlers) (hfit : queryTraffic kind client.partyNum m1 m2 < 2^32)
    (hu : Session.Reachable (mainLoop G SK VK Sig R kind handlers capacity client)
      (mainStart client G Sig kind handlers capacity reps s) u)
    {i : Fin client.partyNum} {r : ℕ} {report : NetStat} (hreport : (u.reports i)[r]? = some report) :
    report = ⟨queryTraffic kind client.partyNum m1 m2 + (if r = 0 then (setUpTraffic kind i).sent else 0),
      queryTraffic kind client.partyNum m1 m2 + if r = 0 then (setUpTraffic kind i).received else 0⟩ := by
  obtain ⟨out, inn, L⟩ := Session.Reachable.books (mainLoop_regular hcon hc (by omega)) hs (fun _ _ _ => trivial)
    (fun _ => rfl) hu
  obtain ⟨hsent, hreceived⟩ := (L.party i).reported r report hreport
  have hshown : ∀ f : NetStat → ℕ, (((metered G SK VK Sig kind handlers capacity).connections i).map fun j =>
      shown (f (statTo (handlers i) j)) ((frameLengths m1 m2).map kind.bytes) r (frameLengths m1 m2).length).sum =
      queryTraffic kind client.partyNum m1 m2 +
        if r = 0 then ((peers i).map fun j => f (opening kind i j)).sum else 0 := fun f =>
    sum_shown hcon hn hfit r i f
  rw [List.length_map] at hsent hreceived
  have hsent' := hsent.trans (hshown NetStat.sent)
  have hreceived' := hreceived.trans (hshown NetStat.received)
  rw [(sum_opening kind i).1] at hsent'
  rw [(sum_opening kind i).2] at hreceived'
  rw [← hsent', ← hreceived']
  rfl

/-- What the runs of the main loops rest on, `idxs` being what all servers ask for. -/
structure Running (G : Type) {Sig : Type} [AddCommGroup G] [Module Scalar G] [Ristretto G] [Ed25519 SK VK Sig]
    (kind : ConnectionKind) (handlers : Fin client.partyNum → List (PeerConnection client.partyNum)) (capacity : ℕ)
    (db : PRCDatabase) (p : Fin client.partyNum) (m1 m2 reps : ℕ) (idxs : List ℕ)
    (s : Fin client.partyNum → RunState SK VK R) : Prop where
  lawful : Lawful (mainLoop G SK VK Sig R kind handlers capacity client).endpoint Msg.kind wire
    MpcMessageHandler.slots
  lockstep : Lockstep Msg.kind (wire (G := G)) (fun b => ∀ i, (b i).Done db (i = p) m1 m2 idxs) fun i =>
    (mainLoop G SK VK Sig R kind handlers capacity client).program i (s i) (List.replicate reps ())
  regular : (mainLoop G SK VK Sig R kind handlers capacity client).Regular ((frameLengths m1 m2).map kind.bytes)
    (fun _ s => s.server.Idle m2) fun _ _ => True
  fits : (mainLoop G SK VK Sig R kind handlers capacity client).Fits ((frameLengths m1 m2).map kind.bytes)
    (fun i => statTo (handlers i)) (2^32)
  idle : ∀ i, (s i).server.Idle m2

theorem Looping.running [LawfulEd25519 G SK] (hG : Commitment.FullOrder G) (hc : client.Suits m1 m2)
    (hn : 2 ≤ client.partyNum) (h256 : client.partyNum ≤ 256)
    (hs : Looping client rng₀ db p sk m1 m2 cell size bits 0 s) (hroom : reps*queryBytes m1 m2 ≤ (size+7)/8)
    (hbits : reps*(m1 + m2 + 1) ≤ bits) (hcon : Connected kind handlers) (hcapacity : 2 < capacity)
    (hfit : ∀ i : Fin client.partyNum, queryTraffic kind client.partyNum m1 m2 + (setUpTraffic kind i).sent < 2^32 ∧
      queryTraffic kind client.partyNum m1 m2 + (setUpTraffic kind i).received < 2^32)
    {idxs : List ℕ} {rng : R} (hasks : client.asks reps rng₀ = some (idxs, rng)) :
    Running G kind handlers capacity db p m1 m2 reps idxs s where
  lawful := linkEndpoint_lawful h256 hcon.links hcapacity
  lockstep := by
    have hrun : Lockstep Msg.kind (wire (G := G)) (Looping client rng₀ db p sk m1 m2 cell size bits (0+reps)) fun i =>
        (mainLoop G SK VK Sig R kind handlers capacity client).program i (s i) (List.replicate reps ()) :=
      mainLoop_lockstep hG hc hn hs reps (by rwa [Nat.zero_add]) (by rwa [Nat.zero_add])
    refine hrun.mono fun b hb i => ⟨?_, hb.log i⟩
    obtain ⟨idxs', rng', hasks', hall⟩ := hb.asked
    rw [Nat.zero_add, hasks] at hasks'
    obtain ⟨rfl, -⟩ := Prod.mk.inj (Option.some.inj hasks')
    exact (hall i).2
  regular := mainLoop_regular hcon hc (by omega)
  fits := mainLoop_fits hcon hn hfit
  idle := hs.idle

namespace Running
variable {idxs : List ℕ}

omit [LawfulRistretto G] in
/-- Nobody panics, whoever is done has the right logs, and all can be done. -/
theorem runs (hs : Running G kind handlers capacity db p m1 m2 reps idxs s)
    (hu : Session.Reachable (mainLoop G SK VK Sig R kind handlers capacity client)
      (mainStart client G Sig kind handlers capacity reps s) u) :
    (∀ i, u.net.phase i ≠ .panicked) ∧
    (∀ i, u.queue i = [] → ∃ a, u.net.phase i = .ready (.ret a) ∧ a.Done db (i = p) m1 m2 idxs) ∧
    ∃ t, Relation.ReflTransGen (Session.Step (mainLoop G SK VK Sig R kind handlers capacity client)) u t ∧
      ∀ i, t.queue i = [] ∧ (t.reports i).length = reps := by
  obtain ⟨hsafe, t, hsteps, hlen⟩ := Session.completes hs.lawful MpcMessageHandler.slots_new hs.lockstep hs.regular
    hs.fits hs.idle (fun _ _ _ => trivial) (fun _ => rfl) hu
  obtain ⟨b, hb, hdone⟩ := Session.Reachable.outcome hs.lawful MpcMessageHandler.slots_new hs.lockstep hs.regular
    hs.fits hs.idle (fun _ _ _ => trivial) (fun _ => rfl) hu
  have hqueue : ∀ i, t.queue i = [] := fun i => by
    have hall := Session.Reachable.reports_length (hu.trans hsteps) i
    rw [hlen i] at hall
    exact List.length_eq_zero_iff.mp (Nat.add_eq_left.mp hall)
  exact ⟨hsafe, fun i hi => ⟨b i, hdone i hi, hb i⟩, t, hsteps, fun i =>
    ⟨hqueue i, (hlen i).trans List.length_replicate⟩⟩

end Running
end Launch

section Program
variable {SK VK Sig G : Type} [AddCommGroup G] [Module Scalar G] [Ristretto G] [LawfulRistretto G] [Ed25519 SK VK Sig]
  {chacha : ChaCha8Rng.Keystream} {args : Cli} {c : SystemConfig} {sk : Fin args.partyNum → SK}
  {S : Fin args.partyNum → RunState SK VK ChaCha8Rng}

/-- What a server reports for a query, without what the set-up leaves. -/
def Cli.queryTraffic (args : Cli) (kind : ConnectionKind) : ℕ :=
  Prc.queryTraffic kind args.partyNum (Nat.log 2 args.dbL1) (Nat.log 2 args.dbL2)

/-- The main loops of a system that connects over TCP. -/
abbrev Cli.mainLoop (args : Cli) (c : SystemConfig) (G SK : Type) {VK Sig : Type} [AddCommGroup G] [Module Scalar G]
    [Ristretto G] [Ed25519 SK VK Sig] (order : Fin args.partyNum → Connections args.partyNum) (capacity : ℕ) :
    Metered args.partyNum (Msg G) Kind (List U8) (MpcMessageHandler G) (RunState SK VK ChaCha8Rng) Unit NetStat :=
  Prc.mainLoop G SK VK Sig ChaCha8Rng .tcp (tcpHandlers order) capacity (args.client c)

abbrev Cli.mainStart (args : Cli) (c : SystemConfig) (G : Type) {SK VK Sig : Type} [AddCommGroup G] [Module Scalar G]
    [Ristretto G] [Ed25519 SK VK Sig] (order : Fin args.partyNum → Connections args.partyNum) (capacity : ℕ)
    (S : Fin args.partyNum → RunState SK VK ChaCha8Rng) :
    Rounds.Session args.partyNum (Msg G) Kind (List U8) (MpcMessageHandler G) (RunState SK VK ChaCha8Rng) Unit NetStat :=
  Prc.mainStart (args.client c) G Sig .tcp (tcpHandlers order) capacity args.repNum S

/-- The arguments of two servers with eight columns of two rows, for one repetition. -/
def smallArgs : Cli := ⟨0, 2, 8, 2, 1, 9000⟩

theorem smallArgs_launched : ∃ S, Launched (fun _ _ => 0) smallArgs smallSystem (fun _ => (7 : Scalar)) S := by
  obtain ⟨S, hS⟩ := smallSystem_started
  have hconfig : ∀ i, Cli.config { smallArgs with id := i } = some smallSystem := fun i => by rfl
  refine ⟨fun i => ⟨S i, Cli.rng fun _ _ => 0, []⟩, hconfig 0, by decide, by decide, fun i => ?_⟩
  have hserver : PRCServer.newWithMessageHandler (fun _ _ => 0) i smallSystem 1 (7 : Scalar) = some (S i) := hS.servers i
  exact (Cli.start_eq (hconfig i) i.isLt (7 : Scalar)).trans (congrArg (Option.map _) hserver)

end Program
end PrivRecCert.Prc
