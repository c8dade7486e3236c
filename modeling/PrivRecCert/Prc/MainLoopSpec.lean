import PrivRecCert.Prc.Answering
import PrivRecCert.Prc.MainLoop
import PrivRecCert.Prc.Spending

/-! Repetition after repetition, the servers ask for the same record, and the first one logs a check that accepts its
bit and one that rejects the other. -/
namespace PrivRecCert.Prc
open CorRnd SimdArray Rounds Sharing
open scoped BigOperators

section Peers

/-- The peers are listed by their numbers. -/
def SystemConfig.Numbered (c : SystemConfig) : Prop := c.peers.map PeerInfo.id = List.range c.peers.length

theorem SystemConfig.Numbered.getPeerIdx_eq {c : SystemConfig} (hc : c.Numbered) {i : ℕ} (hi : i < c.peers.length) :
    c.getPeerIdx i = some i := by
  have hid : ∀ (j : ℕ) (hj : j < c.peers.length), c.peers[j].id = j := fun j hj => by
    have hget := congrArg (fun l => l[j]?) hc
    simp only [List.getElem?_map, List.getElem?_eq_getElem hj, List.getElem?_range hj, Option.map_some] at hget
    exact Option.some.inj hget
  rw [SystemConfig.getPeerIdx, List.findIdx?_eq_some_iff_getElem]
  refine ⟨hi, decide_eq_true (hid i hi), fun j hj => ?_⟩
  rw [hid j (hj.trans hi)]
  exact fun he => hj.ne (of_decide_eq_true he)

theorem SystemConfig.Numbered.getPeerInfo_exists {c : SystemConfig} (hc : c.Numbered) {i : ℕ}
    (hi : i < c.peers.length) : ∃ peer, c.getPeerInfo i = some peer := by
  obtain ⟨peer, hmem, hid⟩ := List.mem_map.mp (hc ▸ List.mem_range.mpr hi)
  cases hfind : c.getPeerInfo i with
  | none => exact absurd (decide_eq_true hid) (List.find?_eq_none.mp hfind peer hmem)
  | some peer => exact ⟨peer, rfl⟩

theorem localhostPeer_id {basePort i : ℕ} {peer : PeerInfo} (h : localhostPeer basePort i = some peer) : peer.id = i := by
  unfold localhostPeer at h
  split_ifs at h
  rw [← Option.some.inj h]

/-- The configuration of the program, as far as its arguments determine it. -/
theorem Cli.config_eq {args : Cli} {c : SystemConfig} (h : args.config = some c) : c.peers.length = args.partyNum ∧
    c.Numbered ∧ c.dbConfig = ⟨1, args.dbL1, args.dbL2, some (.replicate 32 42)⟩ := by
  obtain ⟨infos, hinfos, hc⟩ := Option.bind_eq_some_iff.mp h
  obtain rfl := Option.some.inj hc
  have hall := forall₂_of_mapM hinfos
  have hlen : infos.length = args.partyNum := by rw [← hall.length_eq, List.length_range]
  have hids : infos.map PeerInfo.id = List.range args.partyNum := by
    have heq : List.Forall₂ (fun i id => i = id) (List.range args.partyNum) (infos.map PeerInfo.id) :=
      List.forall₂_map_right_iff.mpr (hall.imp fun i peer hpeer => (localhostPeer_id hpeer).symm)
    exact (List.forall₂_eq_eq_eq ▸ heq : List.range args.partyNum = _).symm
  exact ⟨hlen, hids.trans (congrArg List.range hlen.symm), rfl⟩

/-- Whoever has a number of its own starts with its server. -/
theorem Cli.start_eq {SK VK Sig : Type} [Ed25519 SK VK Sig] {chacha : ChaCha8Rng.Keystream} {args : Cli}
    {c : SystemConfig} (h : args.config = some c) (hid : args.id < args.partyNum) (sk : SK) :
    args.start chacha sk = (PRCServer.newWithMessageHandler chacha args.id c args.repNum sk).map fun server =>
      ⟨server, .fromSeed chacha (.replicate 32 13), []⟩ := by
  obtain ⟨hlen, hnum, -⟩ := Cli.config_eq h
  obtain ⟨peer, hpeer⟩ := hnum.getPeerInfo_exists (hid.trans_eq hlen.symm)
  rw [start, h, Option.bind_eq_bind, Option.bind_some, hpeer, Option.bind_eq_bind, Option.bind_some]
  cases PRCServer.newWithMessageHandler chacha args.id c args.repNum sk with
  | none => rfl
  | some server => rfl

end Peers

namespace PRCClient
variable {R : Type} [ScalarRng R] {c : PRCClient} {m1 m2 idx : ℕ} {rng rng' : R}

/-- The indices of the first repetitions. They depend on the generator alone. -/
def asks (c : PRCClient) : ℕ → R → Option (List ℕ × R)
  | 0, rng => some ([], rng)
  | k+1, rng => do
    let (idxs, rng) ← c.asks k rng
    let (idx, rng) ← c.nextIdx rng
    let (_, rng) ← c.queryAllServers idx rng
    some (idxs ++ [idx], rng)

theorem nextIdx_eq (h1 : c.dbConf.l1Dim = 2^m1) (h2 : c.dbConf.l2Dim = 2^m2) (rng : R) :
    ∃ idx rng', c.nextIdx rng = some (idx, rng') ∧ idx < 2^m1*2^m2 := by
  have hpos : 0 < 2^m1*2^m2 := Nat.mul_pos (Nat.two_pow_pos m1) (Nat.two_pow_pos m2)
  have hsize : c.totalDbSize = 2^m1*2^m2 := by rw [totalDbSize, DBConfig.getMaxSize, h1, h2]
  refine ⟨(ScalarRng.nextU32 rng).1.toNat % (2^m1*2^m2), (ScalarRng.nextU32 rng).2, ?_, Nat.mod_lt _ hpos⟩
  rw [nextIdx, hsize]
  exact if_neg hpos.ne'

theorem nextIdx_lt (h1 : c.dbConf.l1Dim = 2^m1) (h2 : c.dbConf.l2Dim = 2^m2) (h : c.nextIdx rng = some (idx, rng')) :
    idx < 2^m1*2^m2 := by
  obtain ⟨idx', rng'', heq, hlt⟩ := nextIdx_eq h1 h2 rng
  obtain ⟨rfl, -⟩ := Prod.mk.inj (Option.some.inj (h.symm.trans heq))
  exact hlt

theorem asks_exists (h1 : c.dbConf.l1Dim = 2^m1) (h2 : c.dbConf.l2Dim = 2^m2) (hm1 : m1 < 32) (hm2 : m2 < 32)
    (hn : 1 ≤ c.partyNum) (hparty : c.sysConf.getPartyNum = c.partyNum) (k : ℕ) (rng : R) :
    ∃ idxs rng', c.asks k rng = some (idxs, rng') ∧ idxs.length = k ∧ ∀ idx ∈ idxs, idx < 2^m1*2^m2 := by
  induction k with
  | zero => exact ⟨[], rng, rfl, rfl, by simp⟩
  | succ k ih =>
    obtain ⟨idxs, rng₁, hasks, hlen, hall⟩ := ih
    obtain ⟨idx, rng₂, hidx, hlt⟩ := nextIdx_eq h1 h2 rng₁
    obtain ⟨st, Q, rng₃, hquery, -⟩ := queryAllServers_eq h1 h2 hm1 hm2 hn hparty hlt rng₂
    refine ⟨idxs ++ [idx], rng₃, ?_, by rw [List.length_append, hlen, List.length_singleton], fun x hx => ?_⟩
    · simp only [asks, hasks, hidx, hquery, Option.bind_eq_bind, Option.bind_some]
    · rcases List.mem_append.mp hx with hold | hnew
      · exact hall x hold
      · rwa [List.mem_singleton.mp hnew]

theorem querySingleServer_of {n i : ℕ} {st : PRCClientSt} {Q : Fin n → PRCQuery}
    (h : c.queryAllServers idx rng = some ((st, List.ofFn Q), rng')) (hi : i < n) (hpeer : c.sysConf.getPeerIdx i = some i) :
    c.querySingleServer idx i rng = some ((st, Q ⟨i, hi⟩), rng') := by
  simp [querySingleServer, h, hpeer, hi]

/-- A query for any server has shares of `m1` and `m2` bits. -/
theorem querySingleServer_bitLen (h1 : c.dbConf.l1Dim = 2^m1) (h2 : c.dbConf.l2Dim = 2^m2) (hm1 : m1 < 32)
    (hm2 : m2 < 32) (hn : 1 ≤ c.partyNum) (hparty : c.sysConf.getPartyNum = c.partyNum) (hidx : idx < 2^m1*2^m2)
    {serverId : ℕ} {out : (PRCClientSt × PRCQuery) × R} (h : c.querySingleServer idx serverId rng = some out) :
    out.1.2.l1Bss.bitLen = m1 ∧ out.1.2.l2Bss.bitLen = m2 := by
  obtain ⟨st, Q, rng', hquery, hQ, -⟩ := queryAllServers_eq h1 h2 hm1 hm2 hn hparty hidx rng
  simp only [querySingleServer, hquery, Option.bind_eq_bind, Option.bind_some, Option.bind_eq_some_iff] at h
  obtain ⟨k, -, query, hget, hout⟩ := h
  obtain rfl := Option.some.inj hout
  obtain ⟨i, rfl⟩ := List.mem_ofFn.mp (List.mem_of_getElem? hget)
  exact ⟨hQ.l1_len i, hQ.l2_len i⟩

end PRCClient

section Token
variable {SK VK Sig G : Type} [AddCommGroup G] [Module Scalar G] [Ristretto G] [Ed25519 SK VK Sig]

theorem PRCToken.checkForRecVal_sig (token : PRCToken G Sig) (st : PRCClientSt) (v : U32) (pk : VK) :
    (token.checkForRecVal SK st v pk).2.sig = token.sig := by
  rw [checkForRecVal]
  split_ifs
  · rfl
  · rfl

/-- Only the signature matters to a check. -/
theorem PRCToken.checkForRecVal_congr {token token' : PRCToken G Sig} (h : token.sig = token'.sig) (st : PRCClientSt)
    (v : U32) (pk : VK) : (token.checkForRecVal SK st v pk).1 = (token'.checkForRecVal SK st v pk).1 := by
  rw [checkForRecVal, checkForRecVal, h]
  split_ifs
  · rfl
  · rfl

theorem PRCToken.checkForRecVal_false {token : PRCToken G Sig} {st : PRCClientSt} {v : U32} {pk : VK}
    (h : (token.checkForRecVal SK st v pk).1 = false) : (token.checkForRecVal SK st v pk).2 = token := by
  rw [checkForRecVal] at h ⊢
  split_ifs at h ⊢
  rfl

/-- A token that is good for one bit only: one check accepts, the other one does not, and the assertion holds. -/
theorem PRCToken.checkBoth_eq {token : PRCToken G Sig} {st : PRCClientSt} {pk : VK} {bit : Bool}
    (h : ∀ v : U32, (token.checkForRecVal SK st v pk).1 = true ↔ v = BitVec.ofNat 32 bit.toNat) :
    token.checkBoth SK st pk = some (!bit, bit) := by
  have hsig : (token.checkForRecVal SK st 0 pk).2.sig = token.sig := checkForRecVal_sig token st 0 pk
  have hsecond : ((token.checkForRecVal SK st 0 pk).2.checkForRecVal SK st 1 pk).1 =
      (token.checkForRecVal SK st 1 pk).1 := checkForRecVal_congr hsig st 1 pk
  have hverify : _ → (token.checkForRecVal SK st 0 pk).2.verify SK pk = .ok () := verify_checked token st 0 pk
  have hverify' : _ → ((token.checkForRecVal SK st 0 pk).2.checkForRecVal SK st 1 pk).2.verify SK pk = .ok () :=
    verify_checked _ st 1 pk
  simp only [checkBoth]
  cases bit with
  | false =>
    have h0 : (token.checkForRecVal SK st 0 pk).1 = true := (h 0).mpr rfl
    have h1 : (token.checkForRecVal SK st 1 pk).1 = false := by
      rw [Bool.eq_false_iff]
      exact fun he => absurd ((h 1).mp he) (by decide)
    rw [h1] at hsecond
    rw [hsecond, checkForRecVal_false hsecond, hverify h0, h0]
    rfl
  | true =>
    have h0 : (token.checkForRecVal SK st 0 pk).1 = false := by
      rw [Bool.eq_false_iff]
      exact fun he => absurd ((h 0).mp he) (by decide)
    have h1 : (token.checkForRecVal SK st 1 pk).1 = true := (h 1).mpr rfl
    rw [h1] at hsecond
    rw [hverify' hsecond, hsecond, h0]
    rfl

end Token

section Loop
variable {SK VK Sig G R : Type} [AddCommGroup G] [Module Scalar G] [Ristretto G] [Ed25519 SK VK Sig] [ScalarRng R]
  {m1 m2 k size bits : ℕ}

/-- What a server keeps of one repetition. The first server has a token for the record bit, and for nothing else. -/
structure Repetition.Exact (db : PRCDatabase) (first : Prop) [Decidable first] (m1 m2 : ℕ) (r : Repetition) : Prop where
  checks : ∃ bit, db.getRecordBit r.idx 0 = some bit ∧ r.checks = if first then some (!bit, bit) else none
  btUsed : r.btUsed = 8*queryBytes m1 m2
  dabitUse : r.dabitUse = m1 + m2 + 1

/-- A client for databases of this shape. -/
structure PRCClient.Suits (client : PRCClient) (m1 m2 : ℕ) : Prop where
  l1Dim : client.dbConf.l1Dim = 2^m1
  l2Dim : client.dbConf.l2Dim = 2^m2
  parties : client.sysConf.getPartyNum = client.partyNum
  numbered : client.sysConf.Numbered
  servable : Servable m1 m2

theorem Serving.idle {n : ℕ} {S : Fin n → PRCServer SK VK} {p : Fin n} {sk : Fin n → SK} {cell : ℕ → ℕ → ℕ → Bool}
    {used usedBits : ℕ} (h : Serving S p sk m1 m2 cell size used bits usedBits) (i : Fin n) : (S i).Idle m2 := by
  obtain ⟨a, b, c, hready⟩ := h.ready
  exact ⟨hready.layers_eq i, (h.db i).l2Dim_eq⟩

/-- The servers between two repetitions, `k` of which are done. -/
structure Looping (client : PRCClient) (rng₀ : R) (db : PRCDatabase) (p : Fin client.partyNum)
    (sk : Fin client.partyNum → SK) (m1 m2 : ℕ) (cell : ℕ → ℕ → ℕ → Bool) (size bits k : ℕ)
    (s : Fin client.partyNum → RunState SK VK R) : Prop where
  serving : Serving (fun i => (s i).server) p sk m1 m2 cell size (k*queryBytes m1 m2) bits (k*(m1 + m2 + 1))
  id : ∀ i, (s i).server.id = i
  stored : ∀ i, (s i).server.db = db
  pk : ∀ i, (s i).server.pk = Ed25519.verifyingKey (sk i)
  beaver : ∀ i, (s i).server.mpcProvider.beaverProvider.lastReport = (s i).server.mpcProvider.beaverProvider.used
  dabit : ∀ i, (s i).server.mpcProvider.dabitProvider.lastReport = (s i).server.mpcProvider.dabitProvider.used
  asked : ∃ idxs rng, client.asks k rng₀ = some (idxs, rng) ∧
    ∀ i, (s i).rng = rng ∧ (s i).log.map Repetition.idx = idxs
  log : ∀ i, ∀ r ∈ (s i).log, r.Exact db (i = p) m1 m2

/-- Everything that has been handed out is in some report. -/
def MpcProvider.reported (P : MpcProvider) : MpcProvider :=
  { P with
    beaverProvider := { P.beaverProvider with lastReport := P.beaverProvider.used }
    dabitProvider := { P.dabitProvider with lastReport := P.dabitProvider.used } }

/-- The statistics of one query, when all that came before is in earlier reports. -/
theorem MpcProvider.getPreprocStat_eq {P P' : MpcProvider} {bytes dabits : ℕ}
    (hb : P.beaverProvider.Spends P'.beaverProvider bytes) (hd : P.dabitProvider.Spends P'.dabitProvider dabits)
    (hbeaver : P.beaverProvider.lastReport = P.beaverProvider.used)
    (hdabit : P.dabitProvider.lastReport = P.dabitProvider.used) :
    P'.getPreprocStat = some ((8*bytes, dabits), P'.reported) := by
  have hb' : P'.beaverProvider.used = P'.beaverProvider.lastReport + bytes := by rw [hb.lastReport, hbeaver, hb.used]
  have hd' : P'.dabitProvider.used = P'.dabitProvider.lastReport + dabits := by rw [hd.lastReport, hdabit, hd.used]
  have hbreport : P'.beaverProvider.reportBeaverUsageThenReset = some (8*bytes, P'.reported.beaverProvider) := by
    rw [BeaverProvider.reportBeaverUsageThenReset, if_pos (by omega), hb', Nat.add_sub_cancel_left, Nat.mul_comm]
    rw [← hb']
    rfl
  have hdreport : P'.dabitProvider.reportDabitUsageThenReset = some (dabits, P'.reported.dabitProvider) := by
    rw [DaBitProvider.reportDabitUsageThenReset, if_pos (by omega), hd', Nat.add_sub_cancel_left]
    rw [← hd']
    rfl
  rw [getPreprocStat, hbreport, Option.bind_eq_bind, Option.bind_some, hdreport]
  rfl

/-- Reports change nothing that the next query needs. -/
theorem Serving.reported {n : ℕ} {S : Fin n → PRCServer SK VK} {p : Fin n} {sk : Fin n → SK}
    {cell : ℕ → ℕ → ℕ → Bool} {used usedBits : ℕ} (h : Serving S p sk m1 m2 cell size used bits usedBits) :
    Serving (fun i => { S i with mpcProvider := (S i).mpcProvider.reported }) p sk m1 m2 cell size used bits usedBits := by
  obtain ⟨a, b, c, hready⟩ := h.ready
  obtain ⟨l, r, hdabits⟩ := h.dabits
  exact {
    db := h.db
    key := h.key
    ready := ⟨a, b, c, hready.layers_eq, hready.partyConst_eq,
      fun i => ⟨(hready.beaver.holds i).storage, (hready.beaver.holds i).used_eq⟩, hready.beaver.triple⟩
    dabits := ⟨l, r, fun i => ⟨(hdabits.holds i).storage, (hdabits.holds i).used_eq⟩, hdabits.length, hdabits.rZ2,
      hdabits.rZp⟩ }

variable [LawfulRistretto G] {client : PRCClient} {rng₀ : R} {db : PRCDatabase} {p : Fin client.partyNum}
  {sk : Fin client.partyNum → SK} {cell : ℕ → ℕ → ℕ → Bool} {s : Fin client.partyNum → RunState SK VK R}

/-- One query at all servers, with the token for the record bit and with what it has used up. -/
theorem prcProtocol_lockstep {n : ℕ} {S : Fin n → PRCServer SK VK} {p : Fin n} {sk : Fin n → SK} {used usedBits : ℕ}
    {Q : Fin n → PRCQuery} (hn : 2 ≤ n) (hS : Serving S p sk m1 m2 cell size used bits usedBits)
    (hQ : Queries Q m1 m2) (hm : Servable m1 m2) (hroom : used + queryBytes m1 m2 ≤ (size+7)/8)
    (hbits : usedBits + (m1 + m2 + 1) ≤ bits) :
    Lockstep Msg.kind (wire (G := G)) (fun out : Fin n → Option (PRCToken G Sig) × PRCServer SK VK =>
      ((∀ i, (out i).1 = if i = p then some (issuedToken G (sk p) (∑ j, (Q j).rndAss) (row Q * 2^m1 + column Q)
          (cell 0 (row Q) (column Q))) else none) ∧
        Serving (fun i => (out i).2) p sk m1 m2 cell size (used + queryBytes m1 m2) bits
          (usedBits + (m1 + m2 + 1))) ∧
      ∀ i, (S i).Spends (out i).2 (queryBytes m1 m2) (m1 + m2 + 1)) fun i => (S i).prcProtocol (Q i) := by
  have hshare := (prcProtocolShare_lockstep hn hS hQ hm hroom hbits :
    Lockstep Msg.kind (wire (G := G)) (fun out : Fin n → (Bool × Option (PRCToken G Sig)) × PRCServer SK VK => _) _)
  have hprotocol : Lockstep Msg.kind (wire (G := G)) (fun out : Fin n → Option (PRCToken G Sig) × PRCServer SK VK =>
      (∀ i, (out i).1 = if i = p then some (issuedToken G (sk p) (∑ j, (Q j).rndAss) (row Q * 2^m1 + column Q)
          (cell 0 (row Q) (column Q))) else none) ∧
        Serving (fun i => (out i).2) p sk m1 m2 cell size (used + queryBytes m1 m2) bits (usedBits + (m1 + m2 + 1)))
      fun i => (S i).prcProtocol (Q i) := hshare.bind fun out hout => .ret ⟨hout.1.token, hout.2⟩
  exact hprotocol.yields fun i out hout => PRCServer.prcProtocol_spends (hS.idle i) (hQ.l1_len i) (hQ.l2_len i)
    (hm.one_le.trans hm.le) hm.one_le hout

/-- One repetition at all servers. -/
theorem repetition_lockstep [LawfulEd25519 G SK] (hG : Commitment.FullOrder G) (hc : client.Suits m1 m2)
    (hn : 2 ≤ client.partyNum) (hs : Looping client rng₀ db p sk m1 m2 cell size bits k s)
    (hroom : (k+1)*queryBytes m1 m2 ≤ (size+7)/8) (hbits : (k+1)*(m1 + m2 + 1) ≤ bits) :
    Lockstep Msg.kind (wire (G := G)) (Looping client rng₀ db p sk m1 m2 cell size bits (k+1))
      fun i => (s i).repetition G Sig client := by
  obtain ⟨idxs, rng, hasks, hsame⟩ := hs.asked
  have hone := hc.servable.one_le
  have hle := hc.servable.le
  have hsum := hc.servable.sum_le
  obtain ⟨idx, rng₁, hidx, hlt⟩ := client.nextIdx_eq hc.l1Dim hc.l2Dim rng
  obtain ⟨st, Q, rng₂, hquery, hQ, hcol, hrow, hrnd, hst⟩ := PRCClient.queryAllServers_eq hc.l1Dim hc.l2Dim
    (by omega) (by omega) (by omega) hc.parties hlt rng₁
  refine .lift (a := fun _ => (idx, rng₁)) (fun i => by rw [(hsame i).1, hidx]) ?_
  refine .lift (a := fun i => ((st, Q i), rng₂)) (fun i => ?_) ?_
  · rw [hs.id i]
    exact PRCClient.querySingleServer_of hquery i.isLt (hc.numbered.getPeerIdx_eq (i.isLt.trans_eq hc.parties.symm))
  have hstep : ∀ c, k*c + c = (k+1)*c := fun c => by ring
  refine (prcProtocol_lockstep hn hs.serving hQ hc.servable (by rwa [hstep]) (by rwa [hstep])).bind fun out hout => ?_
  obtain ⟨⟨htoken, hserving⟩, hspends⟩ := hout
  rw [hstep, hstep] at hserving
  refine .lift (a := fun i => ((8*queryBytes m1 m2, m1 + m2 + 1), (out i).2.mpcProvider.reported)) (fun i =>
    MpcProvider.getPreprocStat_eq (hspends i).beaver (hspends i).dabit (hs.beaver i) (hs.dabit i)) ?_
  have hkept : ∀ i, (out i).2.id = (s i).server.id ∧ (out i).2.db = (s i).server.db ∧ (out i).2.pk = (s i).server.pk :=
    fun i => by rw [(hspends i).rest]; exact ⟨rfl, rfl, rfl⟩
  -- the index in the token is the one that was asked for
  have hsplit : row Q * 2^m1 + column Q = idx := by
    rw [hrow, hcol, Nat.mul_comm]
    exact Nat.div_add_mod _ _
  have hpow : 2^m1*2^m2 ≤ 2^32 := by
    rw [← pow_add]
    exact Nat.pow_le_pow_right (by decide) hsum
  have hst' : st.idx = (idx : ℕ) := by
    rw [hst, ArithValueT.fromU32, BitVec.toNat_ofNat, Nat.mod_eq_of_lt (by omega)]
  have hbit : db.getRecordBit idx 0 = some (cell 0 (row Q) (column Q)) := by
    rw [← hsplit, ← hs.stored p]
    exact PRCDatabase.getRecordBit_eq (hs.serving.db p) Nat.zero_lt_one
      (by rw [hrow]; exact Nat.div_lt_of_lt_mul hlt) (by rw [hcol]; exact Nat.mod_lt _ (Nat.two_pow_pos m1))
  generalize cell 0 (row Q) (column Q) = bit at htoken hbit
  rw [hsplit, hrnd] at htoken
  refine .lift (a := fun i => if i = p then some (!bit, bit) else none) (fun i => ?_) ?_
  · rw [htoken i]
    split_ifs with hi
    · have hboth : (issuedToken G (sk p) st.crnd idx bit : PRCToken G Sig).checkBoth SK st (out i).2.pk =
          some (!bit, bit) := by
        rw [(hkept i).2.2, hs.pk i, hi]
        exact PRCToken.checkBoth_eq (checkForRecVal_issued hG (sk p) st hst' bit)
      exact congrArg (Option.map some) hboth
    · rfl
  refine .ret ⟨hserving.reported, fun i => (hkept i).1.trans (hs.id i), fun i => (hkept i).2.1.trans (hs.stored i),
    fun i => (hkept i).2.2.trans (hs.pk i), fun i => rfl, fun i => rfl, ⟨idxs ++ [idx], rng₂, ?_, fun i => ⟨rfl, ?_⟩⟩,
    fun i r hr => ?_⟩
  · simp only [PRCClient.asks, hasks, hidx, hquery, Option.bind_eq_bind, Option.bind_some]
  · simp only [List.map_append, (hsame i).2, List.map_cons, List.map_nil]
  · rcases List.mem_append.mp hr with hold | hnew
    · exact hs.log i r hold
    · obtain rfl := List.mem_singleton.mp hnew
      exact ⟨⟨bit, hbit, rfl⟩, rfl, rfl⟩

end Loop
end PrivRecCert.Prc
