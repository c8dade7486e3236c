import PrivRecCert.Prc.Traffic

/-! The reports of a run of queries. Over channels every report is exact, and over TCP every report but the first: its
counters begin with the handshakes, which nobody clears. -/
namespace PrivRecCert.Prc
open Function CorRnd SimdArray Rounds

variable {n : ℕ}

/-- The runs over connections of one kind. Over TCP, a server begins with its queries when it has its own handler. -/
inductive Runs (G : Type) {SK VK : Type} (Sig : Type) [AddCommGroup G] [Module Scalar G] [Ristretto G]
    [Ed25519 SK VK Sig] (S : Fin n → PRCServer SK VK) (queue : Fin n → List PRCQuery) :
    ConnectionKind → (Fin n → List (PeerConnection n)) → ℕ →
      ServerSession n G SK VK → Prop
  | channel {order handlers m s} (horder : order.Perm (List.finRange n))
      (hget : (ChannelManager.new n).getHandlers order = some (handlers, m))
      (hs : Session.Reachable (metered G SK VK Sig .channel (channelHandlers handlers) 100)
        (startSession G Sig .channel (channelHandlers handlers) 100 S queue) s) :
      Runs G Sig S queue .channel (channelHandlers handlers) 100 s
  | tcp {infos t order capacity s} (hinfos : infos.Perm (List.finRange n))
      (hs : Relation.ReflTransGen (Deploy G (metered G SK VK Sig .tcp (tcpHandlers order) capacity) order)
        (.init infos, startSession G Sig .tcp (tcpHandlers order) capacity S queue) (t, s))
      (hready : ∀ i, t.visited i = some (order i)) : Runs G Sig S queue .tcp (tcpHandlers order) capacity s

theorem TcpSetup.entry_ends (i j : Fin n) : (TcpSetup.entry i j).2.sender = (i, j) ∧
    (TcpSetup.entry i j).2.receiver = (j, i) := by
  unfold TcpSetup.entry
  split_ifs
  · exact ⟨rfl, rfl⟩
  · exact ⟨rfl, rfl⟩

section Runs
variable {G SK VK Sig : Type} [AddCommGroup G] [Module Scalar G] [Ristretto G] [Ed25519 SK VK Sig]
  {kind : ConnectionKind} {handlers : Fin n → List (PeerConnection n)} {capacity : ℕ} {S : Fin n → PRCServer SK VK}
  {queue : Fin n → List PRCQuery} {order : Fin n → Connections n}
  {s t : ServerSession n G SK VK}

/-- Whatever is on file leads from the party itself. -/
theorem tied_tcp (order : Fin n → Connections n) (capacity : ℕ) :
    Tied (metered G SK VK Sig .tcp (tcpHandlers order) capacity) order := by
  intro i hi j
  refine linkEndpoint_own (fun l hl => ?_) j
  obtain ⟨p, hp, rfl⟩ := List.mem_map.mp hl
  obtain ⟨con, hcon, rfl⟩ := List.mem_map.mp hp
  obtain ⟨e, he, rfl⟩ := List.mem_map.mp hcon
  obtain ⟨hfiled, -⟩ := hi (order i) rfl
  obtain ⟨k, -, rfl⟩ := hfiled.entries e (List.mem_of_mem_filter he)
  obtain ⟨hsender, hreceiver⟩ := TcpSetup.entry_ends i k
  exact ⟨congrArg Prod.fst hsender, congrArg Prod.snd hreceiver⟩

/-- Both kinds of connections come to the same: one connection to each peer, and a session that starts on the
counters of the set-up. -/
theorem Runs.session (hn : 2 ≤ n) (h : Runs G Sig S queue kind handlers capacity s) : Connected kind handlers ∧
    Session.Reachable (metered G SK VK Sig kind handlers capacity)
      (startSession G Sig kind handlers capacity S queue) s := by
  cases h with
  | channel horder hget hs => exact ⟨connected_channels horder hget, hs⟩
  | @tcp infos t order _ _ hinfos hs hready =>
    obtain ⟨hsession, ahead, hsetup⟩ := Deploy.session hinfos (tied_tcp order capacity) rfl hs hready
    exact ⟨connected_tcp hn hsetup hready, hsession⟩

/-- Servers that have their handlers go on with their queries. -/
theorem Runs.tail (h : Runs G Sig S queue kind handlers capacity s)
    (hstep : Session.Step (metered G SK VK Sig kind handlers capacity) s t) :
    Runs G Sig S queue kind handlers capacity t := by
  cases h with
  | channel horder hget hs => exact .channel horder hget (hs.tail hstep)
  | tcp hinfos hs hready => exact .tcp hinfos (hs.tail (.serve hstep fun i _ => hready i)) hready

theorem Runs.trans (h : Runs G Sig S queue kind handlers capacity s)
    (hsteps : Relation.ReflTransGen (Session.Step (metered G SK VK Sig kind handlers capacity)) s t) :
    Runs G Sig S queue kind handlers capacity t := by
  induction hsteps with
  | refl => exact h
  | tail _ hstep ih => exact ih.tail hstep

/-- The set-up by itself is a run in which no server has begun. -/
theorem Runs.of_setup {infos : List (Fin n)} (hinfos : infos.Perm (List.finRange n)) {t : TcpSetup n}
    (h : TcpSetup.Reachable G infos t) (hready : ∀ i, t.visited i = some (order i)) :
    Runs G Sig S queue .tcp (tcpHandlers order) capacity
      (startSession G Sig .tcp (tcpHandlers order) capacity S queue) := by
  have hrun : Relation.ReflTransGen (Deploy G (metered G SK VK Sig .tcp (tcpHandlers order) capacity) order)
      (.init infos, startSession G Sig .tcp (tcpHandlers order) capacity S queue)
      (t, (startSession G Sig .tcp (tcpHandlers order) capacity S queue).rewired t.wire) := Deploy.of_setup rfl h
  have hwire : t.wire = fun _ => [] := funext fun x => h.wire_eq_nil hinfos (hready x.2) x.1
  rw [hwire] at hrun
  exact .tcp hinfos hrun hready

end Runs

section Whole
variable {G SK VK Sig : Type} [AddCommGroup G] [Module Scalar G] [Ristretto G] [LawfulRistretto G] [Ed25519 SK VK Sig]
  {kind : ConnectionKind} {handlers : Fin n → List (PeerConnection n)} {capacity m1 m2 : ℕ}

/-- All queries at all servers, for as long as the preprocessed material lasts. -/
theorem program_lockstep (hn : 2 ≤ n) {S : Fin n → PRCServer SK VK} {p : Fin n} {sk : Fin n → SK}
    {cell : ℕ → ℕ → ℕ → Bool} {bytes used bits usedBits : ℕ} (hS : Serving S p sk m1 m2 cell bytes used bits usedBits)
    (hm : Servable m1 m2) {Qs : List (Fin n → PRCQuery)} (hQs : ∀ Q ∈ Qs, Queries Q m1 m2)
    (hroom : used + Qs.length*queryBytes m1 m2 ≤ (bytes+7)/8) (hbits : usedBits + Qs.length*(m1 + m2 + 1) ≤ bits) :
    Lockstep Msg.kind wire (fun _ => True) fun i =>
      (metered G SK VK Sig kind handlers capacity).program i (S i) (Qs.map (· i)) := by
  induction Qs generalizing S used usedBits with
  | nil => exact .ret trivial
  | cons Q Qs ih =>
    have hstep : ∀ u c, u + (Qs.length + 1)*c = u + c + Qs.length*c := fun u c => by ring
    rw [List.length_cons, hstep] at hroom hbits
    have hquery := (prcProtocolShare_lockstep hn hS (hQs Q List.mem_cons_self) hm
      (Nat.le_trans (Nat.le_add_right _ _) hroom) (Nat.le_trans (Nat.le_add_right _ _) hbits) :
        Lockstep Msg.kind (wire (G := G)) (fun out : Fin n → (Bool × Option (PRCToken G Sig)) × PRCServer SK VK => _) _)
    have hprotocol : Lockstep Msg.kind (wire (G := G)) (fun out : Fin n → Option (PRCToken G Sig) × PRCServer SK VK =>
        Serving (fun i => (out i).2) p sk m1 m2 cell bytes (used + queryBytes m1 m2) bits (usedBits + (m1 + m2 + 1)))
        fun i => (S i).prcProtocol (Q i) := hquery.bind fun out hout => .ret hout.2
    have hserve : Lockstep Msg.kind (wire (G := G)) (fun S' : Fin n → PRCServer SK VK =>
        Serving S' p sk m1 m2 cell bytes (used + queryBytes m1 m2) bits (usedBits + (m1 + m2 + 1)))
        fun i => (metered G SK VK Sig kind handlers capacity).serve i (S i) (Q i) :=
      hprotocol.bind fun out hout => .ret hout
    exact hserve.bind fun S' hS' => ih hS' (fun Q' hQ' => hQs Q' (List.mem_cons_of_mem _ hQ')) hroom hbits

omit [LawfulRistretto G] in
/-- What one query adds to the counters stays below the limit, also on top of what the set-up leaves in them. -/
theorem metered_fits (hcon : Connected kind handlers) (hn : 2 ≤ n) (hfit : ∀ i : Fin n,
      queryTraffic kind n m1 m2 + (setUpTraffic kind i).sent < 2^32 ∧
      queryTraffic kind n m1 m2 + (setUpTraffic kind i).received < 2^32) :
    (metered G SK VK Sig kind handlers capacity).Fits ((frameLengths m1 m2).map kind.bytes)
      (fun i => statTo (handlers i)) (2^32) := by
  have hquery : queryTraffic kind n m1 m2 < 2^32 := lt_of_le_of_lt (Nat.le_add_right _ _) (hfit ⟨0, by omega⟩).1
  have hshown : ∀ f : NetStat → ℕ, ∀ i, (((metered G SK VK Sig kind handlers capacity).connections i).map fun j =>
      f (statTo (handlers i) j) + ((frameLengths m1 m2).map kind.bytes).sum).sum =
      queryTraffic kind n m1 m2 + ((peers i).map fun j => f (opening kind i j)).sum := by
    intro f i
    have hfirst : (((metered G SK VK Sig kind handlers capacity).connections i).map _).sum = _ :=
      sum_shown hcon hn hquery 0 i f
    simp only [shown, if_pos, List.take_of_length_le (List.length_map _).le] at hfirst
    exact hfirst
  exact {
    holds := NetStat.tally_holds
    complete := fun i j hj => (metered_connections hcon i).mem_iff.mpr (mem_peers.mpr hj)
    sent := fun i => ((hshown NetStat.sent i).trans (by rw [(sum_opening kind i).1])).trans_lt (hfit i).1
    received := fun i => ((hshown NetStat.received i).trans (by rw [(sum_opening kind i).2])).trans_lt (hfit i).2 }

end Whole

theorem asked {Qs : List (Fin n → PRCQuery)} {m1 m2 : ℕ} (hQs : ∀ Q ∈ Qs, Queries Q m1 m2) (i : Fin n) :
    ∀ query ∈ Qs.map (· i), query.l1Bss.bitLen = m1 ∧ query.l2Bss.bitLen = m2 := by
  intro query hquery
  obtain ⟨Q, hQ, rfl⟩ := List.mem_map.mp hquery
  exact ⟨(hQs Q hQ).l1_len i, (hQs Q hQ).l2_len i⟩

/-- What every server reports for a query: a number that depends on the number of servers, the dimensions of the
database and the kind of the connections. -/
def SystemConfig.queryTraffic (c : SystemConfig) (kind : ConnectionKind) : ℕ :=
  Prc.queryTraffic kind c.peers.length (Nat.log 2 c.dbConfig.l1Dim) (Nat.log 2 c.dbConfig.l2Dim)

/-- The number of queries for which what is set aside for `q` of them lasts. -/
def SystemConfig.lifetime (c : SystemConfig) (q : ℕ) : ℕ :=
  min ((q*((5*c.dbConfig.l2Dim+1)/2 + (3*c.dbConfig.l1Dim+1)/2 + 96) + 7)/8 /
      queryBytes (Nat.log 2 c.dbConfig.l1Dim) (Nat.log 2 c.dbConfig.l2Dim))
    (q*36 / (Nat.log 2 c.dbConfig.l1Dim + Nat.log 2 c.dbConfig.l2Dim + 1))

section System
variable {G SK VK Sig : Type} [AddCommGroup G] [Module Scalar G] [Ristretto G] [LawfulRistretto G] [Ed25519 SK VK Sig]
  {chacha : ChaCha8Rng.Keystream} {c : SystemConfig} {q : ℕ} {sk : Fin c.peers.length → SK}
  {S : Fin c.peers.length → PRCServer SK VK} {kind : ConnectionKind}
  {handlers : Fin c.peers.length → List (PeerConnection c.peers.length)} {capacity : ℕ}
  {Qs : List (Fin c.peers.length → PRCQuery)}
  {s : ServerSession c.peers.length G SK VK}

omit [AddCommGroup G] [Module Scalar G] [Ristretto G] [LawfulRistretto G] in
theorem Started.idle (h : Started chacha c q sk S) {m2 : ℕ} (h2 : c.dbConfig.l2Dim = 2^m2) (i : Fin c.peers.length) :
    (S i).Idle m2 := by
  obtain ⟨m1, _, h1, -⟩ := h.dims
  obtain ⟨db, cell, perQ, -, hcell, hdb, -⟩ := h.serving h1 h2
  obtain ⟨_, bp, dp, -, -, hS⟩ := h.split
  exact ⟨by rw [hS i]; rfl, by rw [(hdb i).1, hcell.l2Dim_eq]⟩

/-- There are triples and daBits for so many queries. -/
theorem SystemConfig.le_lifetime_iff {m1 m2 perQ : ℕ} (h1 : c.dbConfig.l1Dim = 2^m1) (h2 : c.dbConfig.l2Dim = 2^m2)
    (hm : m1 + m2 ≤ 32) (hperQ : c.beaverPerQ = some perQ) (k : ℕ) :
    k ≤ c.lifetime q ↔ k*queryBytes m1 m2 ≤ (q*perQ+7)/8 ∧ k*(m1 + m2 + 1) ≤ q*36 := by
  have hlog1 : Nat.log 2 c.dbConfig.l1Dim = m1 := by rw [h1, Nat.log_pow (by decide)]
  have hlog2 : Nat.log 2 c.dbConfig.l2Dim = m2 := by rw [h2, Nat.log_pow (by decide)]
  have hest : perQ = (5*c.dbConfig.l2Dim+1)/2 + (3*c.dbConfig.l1Dim+1)/2 + 96 := by
    rw [h1, h2]
    exact Option.some.inj (hperQ.symm.trans (beaverPerQ_eq h1 h2 hm))
  have hpos : 0 < queryBytes m1 m2 := by
    have hcell : 0 < 2^m2 := Nat.two_pow_pos m2
    rw [queryBytes]
    omega
  rw [SystemConfig.lifetime, hlog1, hlog2, ← hest, le_min_iff]
  exact and_congr (Nat.le_div_iff_mul_le hpos) (Nat.le_div_iff_mul_le (Nat.succ_pos _))

omit [AddCommGroup G] [Module Scalar G] [Ristretto G] [LawfulRistretto G] in
theorem Started.le_lifetime (h : Started chacha c q sk S) (hl2 : 2 ≤ c.dbConfig.l2Dim)
    (hsize : c.dbConfig.l1Dim * c.dbConfig.l2Dim ≤ 2^32) : q ≤ c.lifetime q := by
  obtain ⟨m1, m2, h1, h2, hm⟩ := h.servable hl2 hsize
  obtain ⟨db, cell, perQ, -, -, -, hperQ, -⟩ := h.serving h1 h2
  have hsum := hm.sum_le
  have hest := Option.some.inj (hperQ.symm.trans (beaverPerQ_eq h1 h2 hsum))
  have hle := queryBytes_le m1 m2
  exact (SystemConfig.le_lifetime_iff h1 h2 hsum hperQ q).mpr
    ⟨queries_fit le_rfl (by omega), Nat.mul_le_mul_left _ (by omega)⟩

/-- Every report of every run. -/
theorem Runs.reported (h : Started chacha c q sk S) (hl2 : 2 ≤ c.dbConfig.l2Dim)
    (hQs : ∀ Q ∈ Qs, Queries Q (Nat.log 2 c.dbConfig.l1Dim) (Nat.log 2 c.dbConfig.l2Dim))
    (hfit : c.queryTraffic kind < 2^32) (hs : Runs G Sig S (fun i => Qs.map (· i)) kind handlers capacity s)
    {i : Fin c.peers.length} {r : ℕ} {report : NetStat} (hreport : (s.reports i)[r]? = some report) :
    report = ⟨c.queryTraffic kind + (if r = 0 then (setUpTraffic kind i).sent else 0),
      c.queryTraffic kind + if r = 0 then (setUpTraffic kind i).received else 0⟩ := by
  obtain ⟨m1, m2, h1, h2, hle, -⟩ := h.dims
  have hm2 : 1 ≤ m2 := Nat.pos_of_ne_zero fun h0 => by rw [h2, h0] at hl2; omega
  have hlog1 : Nat.log 2 c.dbConfig.l1Dim = m1 := by rw [h1, Nat.log_pow (by decide)]
  have hlog2 : Nat.log 2 c.dbConfig.l2Dim = m2 := by rw [h2, Nat.log_pow (by decide)]
  rw [hlog1, hlog2] at hQs
  rw [SystemConfig.queryTraffic, hlog1, hlog2] at hfit ⊢
  obtain ⟨hcon, hsession⟩ := hs.session h.parties
  obtain ⟨hsent, hreceived⟩ :=
    report_eq hcon h.parties (hm2.trans hle) hm2 hfit (h.idle h2) (asked hQs) hsession hreport
  rw [← hsent, ← hreceived]

/-- As many queries as the material lasts for are served to their end, with a report for each. -/
theorem Runs.completes (h : Started chacha c q sk S) (hl2 : 2 ≤ c.dbConfig.l2Dim)
    (hQs : ∀ Q ∈ Qs, Queries Q (Nat.log 2 c.dbConfig.l1Dim) (Nat.log 2 c.dbConfig.l2Dim))
    (hs : Runs G Sig S (fun i => Qs.map (· i)) kind handlers capacity s) (hn : c.peers.length ≤ 256)
    (hsize : c.dbConfig.l1Dim * c.dbConfig.l2Dim ≤ 2^32) (hk : Qs.length ≤ c.lifetime q) (hcapacity : 2 < capacity)
    (hfit : ∀ i : Fin c.peers.length, c.queryTraffic kind + (setUpTraffic kind i).sent < 2^32 ∧
      c.queryTraffic kind + (setUpTraffic kind i).received < 2^32) :
    (∀ i, s.net.phase i ≠ .panicked) ∧
      ∃ t, Runs G Sig S (fun i => Qs.map (· i)) kind handlers capacity t ∧
        Relation.ReflTransGen (Session.Step (metered G SK VK Sig kind handlers capacity)) s t ∧
        ∀ i, (t.reports i).length = Qs.length := by
  obtain ⟨m1, m2, h1, h2, hm⟩ := h.servable hl2 hsize
  obtain ⟨db, cell, perQ, -, -, -, hperQ, hS⟩ := h.serving h1 h2
  have hlog1 : Nat.log 2 c.dbConfig.l1Dim = m1 := by rw [h1, Nat.log_pow (by decide)]
  have hlog2 : Nat.log 2 c.dbConfig.l2Dim = m2 := by rw [h2, Nat.log_pow (by decide)]
  rw [hlog1, hlog2] at hQs
  rw [SystemConfig.queryTraffic, hlog1, hlog2] at hfit
  obtain ⟨hcon, hsession⟩ := hs.session h.parties
  have hone := hm.one_le
  obtain ⟨hbytes, hbits⟩ := (SystemConfig.le_lifetime_iff h1 h2 hm.sum_le hperQ _).mp hk
  have hrun : Lockstep Msg.kind (wire (G := G)) (fun _ => True) fun i =>
      (metered G SK VK Sig kind handlers capacity).program i (S i) (Qs.map (· i)) :=
    program_lockstep h.parties hS hm hQs (by rwa [Nat.zero_add]) (by rwa [Nat.zero_add])
  obtain ⟨hsafe, t, hsteps, hlen⟩ := Session.completes (linkEndpoint_lawful hn hcon.links hcapacity)
    (funext fun kd => by cases kd <;> rfl) hrun (metered_regular hcon (hone.trans hm.le) hone)
    (metered_fits hcon h.parties hfit) (h.idle h2) (asked hQs) (fun _ => rfl) hsession
  exact ⟨hsafe, t, hs.trans hsteps, hsteps, fun i => (hlen i).trans (List.length_map _)⟩

/-- Reports are exact, but for the first one over TCP. -/
theorem reports_exact_iff (h : Started chacha c q sk S) (hl2 : 2 ≤ c.dbConfig.l2Dim)
    (hQs : ∀ Q ∈ Qs, Queries Q (Nat.log 2 c.dbConfig.l1Dim) (Nat.log 2 c.dbConfig.l2Dim))
    (hfit : c.queryTraffic kind < 2^32) (hs : Runs G Sig S (fun i => Qs.map (· i)) kind handlers capacity s) :
    (∀ i r report, (s.reports i)[r]? = some report →
      (report = ⟨c.queryTraffic kind, c.queryTraffic kind⟩ ↔ kind = .channel ∨ 1 ≤ r)) ∧
    (c.peers.length ≤ 256 → c.dbConfig.l1Dim * c.dbConfig.l2Dim ≤ 2^32 → Qs.length ≤ q → 2 < capacity →
      (∀ i : Fin c.peers.length, c.queryTraffic kind + (setUpTraffic kind i).sent < 2^32 ∧
        c.queryTraffic kind + (setUpTraffic kind i).received < 2^32) →
      (∀ i, s.net.phase i ≠ .panicked) ∧
        ∃ t, Runs G Sig S (fun i => Qs.map (· i)) kind handlers capacity t ∧
          Relation.ReflTransGen (Session.Step (metered G SK VK Sig kind handlers capacity)) s t ∧
          ∀ i, (t.reports i).length = Qs.length) := by
  refine ⟨fun i r report hreport => ?_, fun hn hsize hk =>
    hs.completes h hl2 hQs hn hsize (hk.trans (h.le_lifetime hl2 hsize))⟩
  rw [hs.reported h hl2 hQs hfit hreport]
  constructor
  · intro hexact
    obtain ⟨hsent, hreceived⟩ := NetStat.mk.inj hexact
    cases kind with
    | channel => exact .inl rfl
    | tcp =>
      right
      by_contra hr
      rw [if_pos (by omega)] at hsent hreceived
      change _ + (i : ℕ)*6 = _ at hsent
      change _ + (c.peers.length-1-i)*6 = _ at hreceived
      have hparties := h.parties
      omega
  · rintro (rfl | hr)
    · simp only [setUpTraffic, NetStat.zero, ite_self, Nat.add_zero]
    · rw [if_neg (by omega), if_neg (by omega), Nat.add_zero]

end System

/-- The set-up of two parties. -/
theorem TcpSetup.two_reachable : ∃ s : TcpSetup 2, TcpSetup.Reachable Scalar [0, 1] s ∧
    ∀ i, s.visited i = some [TcpSetup.entry i (1-i)] := by
  refine ⟨_, (((((((((Relation.ReflTransGen.refl.tail
    (.skip 0 0 [1] rfl rfl (by decide))).tail
    (.skip 0 1 [] rfl rfl (by decide))).tail
    (.dial 1 0 [1] rfl rfl (by decide))).tail
    (.greet 1 0 _ _ rfl rfl)).tail
    (.file 1 0 _ rfl)).tail
    (.skip 1 1 [] rfl rfl (by decide))).tail
    (.accept 0 _ _ rfl rfl)).tail
    (.welcome 0 _ _ _ _ _ rfl rfl rfl)).tail
    (.ready 0 [TcpSetup.entry 0 1] rfl rfl rfl rfl (.refl _))).tail
    (.ready 1 [TcpSetup.entry 1 0] rfl rfl rfl rfl (.refl _)), fun i => ?_⟩
  match i with
  | 0 => rfl
  | 1 => rfl

theorem smallSystem_queryTraffic (kind : ConnectionKind) : smallSystem.queryTraffic kind = 65 + 5*kind.overhead := by
  have hlog : Nat.log 2 8 = 3 ∧ Nat.log 2 2 = 1 := by decide
  have hlayers : layerSizes 3 1 = [1, 1] := by
    simp [layerSizes, Circuit.oheGates]
    rfl
  change queryTraffic kind 2 (Nat.log 2 8) (Nat.log 2 2) = _
  rw [hlog.1, hlog.2, queryTraffic, frameLengths, hlayers]
  cases kind with
  | channel => rfl
  | tcp => rfl

theorem smallSystem_traffic : smallSystem.queryTraffic .tcp = 85 := smallSystem_queryTraffic .tcp

/-- The same query twice. -/
def smallQueries : List (Fin 2 → PRCQuery) :=
  List.replicate 2 fun _ => ⟨⟨3, 5, by decide, by decide⟩, ⟨1, 1, by decide, by decide⟩, 0⟩

theorem smallQueries_asked : ∀ Q ∈ smallQueries, Queries Q (Nat.log 2 8) (Nat.log 2 2) := by
  have hlog : Nat.log 2 8 = 3 ∧ Nat.log 2 2 = 1 := by decide
  intro Q hQ
  obtain rfl := List.eq_of_mem_replicate hQ
  rw [hlog.1, hlog.2]
  exact ⟨fun _ => rfl, fun _ => rfl⟩

/-- Two queries over TCP, with their reports. -/
theorem smallSystem_run : ∃ (S : Fin 2 → PRCServer Scalar Scalar) (handlers : Fin 2 → List (PeerConnection 2))
    (s : ServerSession 2 Scalar Scalar Scalar),
    Started (fun _ _ => 0) smallSystem 2 (fun _ => 7) S ∧
    Runs Scalar (Scalar × List U8) S (fun i => smallQueries.map (· i)) .tcp handlers 3 s ∧
    ∀ i, (s.reports i).length = 2 := by
  obtain ⟨S, hS⟩ : ∃ S, Started (fun _ _ => 0) smallSystem 2 (fun _ => (7 : Scalar)) S :=
    started_exists (by decide) (by decide) rfl rfl ⟨by decide, by decide, by decide, by decide, by decide⟩
      (show smallSystem.beaverPerQ = some 113 by decide) (by decide) (by decide) _
  obtain ⟨t, ht, hready⟩ := TcpSetup.two_reachable
  have hsetup : Runs Scalar (Scalar × List U8) S (fun i => smallQueries.map (· i)) .tcp _ 3 _ :=
    .of_setup (show [0, 1].Perm (List.finRange 2) by decide) ht hready
  have hfit : ∀ i : Fin 2, smallSystem.queryTraffic .tcp + (setUpTraffic .tcp i).sent < 2^32 ∧
      smallSystem.queryTraffic .tcp + (setUpTraffic .tcp i).received < 2^32 := by
    rw [smallSystem_traffic]
    decide
  have hlasts : smallQueries.length ≤ smallSystem.lifetime 2 := hS.le_lifetime (by decide) (by decide)
  obtain ⟨-, s, hs, -, hlen⟩ := hsetup.completes hS (by decide) smallQueries_asked (by decide) (by decide) hlasts
    (by decide) hfit
  exact ⟨S, _, s, hS, hs, hlen⟩

/-- Two servers that have both answered two queries over TCP. -/
theorem reports_exact_iff_two : ∃ (S : Fin 2 → PRCServer Scalar Scalar) (handlers : Fin 2 → List (PeerConnection 2))
    (s : ServerSession 2 Scalar Scalar Scalar),
    Started (fun _ _ => 0) smallSystem 2 (fun _ => 7) S ∧
    Runs Scalar (Scalar × List U8) S (fun i => smallQueries.map (· i)) .tcp handlers 3 s ∧
    ∀ i, ∃ first second, s.reports i = [first, second] ∧ first ≠ ⟨85, 85⟩ ∧ second = ⟨85, 85⟩ := by
  obtain ⟨S, handlers, s, hS, hs, hlen⟩ := smallSystem_run
  refine ⟨S, handlers, s, hS, hs, fun i => ?_⟩
  obtain ⟨first, second, hreports⟩ := List.length_eq_two.mp (hlen i)
  have hexact := (reports_exact_iff hS (by decide) smallQueries_asked (by rw [smallSystem_traffic]; decide) hs).1 i
  rw [smallSystem_traffic, hreports] at hexact
  refine ⟨first, second, hreports, fun hfirst => ?_, (hexact 1 second rfl).mpr (.inr le_rfl)⟩
  rcases (hexact 0 first rfl).mp hfirst with hkind | hzero
  · cases hkind
  · exact absurd hzero (by decide)

/-- Party 1 has sent its handshake before its first query, and reports it with the query. -/
theorem reports_exact_fails : ¬ ∀ (c : SystemConfig) (q : ℕ) (sk : Fin c.peers.length → Scalar)
    (S : Fin c.peers.length → PRCServer Scalar Scalar), Started (fun _ _ => 0) c q sk S → 2 ≤ c.dbConfig.l2Dim →
      ∀ Qs : List (Fin c.peers.length → PRCQuery),
      (∀ Q ∈ Qs, Queries Q (Nat.log 2 c.dbConfig.l1Dim) (Nat.log 2 c.dbConfig.l2Dim)) →
      ∀ kind, c.queryTraffic kind < 2^32 →
      ∀ handlers capacity (s : ServerSession c.peers.length Scalar Scalar Scalar),
      Runs Scalar (Scalar × List U8) S (fun i => Qs.map (· i)) kind handlers capacity s →
      ∀ (i : Fin c.peers.length) (r : ℕ) (report : NetStat), (s.reports i)[r]? = some report →
        report.sent = report.received := by
  intro h
  obtain ⟨S, handlers, s, hS, hs, hlen⟩ := smallSystem_run
  have hfit : smallSystem.queryTraffic .tcp < 2^32 := by
    rw [smallSystem_traffic]
    decide
  obtain ⟨first, second, hreports⟩ := List.length_eq_two.mp (hlen 1)
  have hfirst : (s.reports 1)[0]? = some first := by rw [hreports]; rfl
  have hequal := h smallSystem 2 _ S hS (by decide) smallQueries smallQueries_asked .tcp hfit handlers 3 s hs
    (1 : Fin 2) 0 first hfirst
  have hreport := hs.reported hS (by decide) smallQueries_asked hfit hfirst
  rw [hreport, smallSystem_traffic] at hequal
  exact absurd hequal (by decide)

end PrivRecCert.Prc
