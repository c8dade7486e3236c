import PrivRecCert.Prc.ClientSpec

/-! The client's secret state beside its queries. The servers are asked for a column and a row of up to
32 bits each, while the state keeps the index cast to one word: both are the same index as long as the
index fits that word. -/
namespace PrivRecCert.Prc
open CorRnd Sharing
open scoped BigOperators

theorem reconstructBoolean_ofFn {n : ℕ} (v : Fin n → BooleanValue) :
    reconstructBoolean (List.ofFn v) = xorAll fun i => (v i).value := by
  rw [reconstructBoolean, xorAll, List.ofFn_eq_map, List.ofFn_eq_map, List.foldl_map, List.foldl_map]

/-- A natural number below the group order is recovered from its scalar. -/
theorem scalar_natCast_inj {a b : ℕ} (ha : a < groupOrder) (hb : b < groupOrder) (h : (a : Scalar) = (b : Scalar)) :
    a = b := by
  have hval := congrArg ZMod.val h
  rwa [ZMod.val_natCast_of_lt ha, ZMod.val_natCast_of_lt hb] at hval

/-- The state keeps the index that the queries are shares of, and the randomness that they share. -/
structure PRCClientSt.Matches (G : Type) [AddCommGroup G] [Module Scalar G] [Ristretto G] (st : PRCClientSt)
    (queries : List PRCQuery) (partyNum l1Dim idx : ℕ) : Prop where
  length : queries.length = partyNum
  column : (reconstructBoolean (queries.map PRCQuery.l1Bss)).toNat = idx % l1Dim
  row : (reconstructBoolean (queries.map PRCQuery.l2Bss)).toNat = idx / l1Dim
  crnd : reconstructArith (queries.map PRCQuery.rndAss) = st.crnd
  asked : (reconstructBoolean (queries.map PRCQuery.l1Bss)).toNat +
    l1Dim * (reconstructBoolean (queries.map PRCQuery.l2Bss)).toNat = idx
  index : st.idx = (idx : ℕ)
  opens : ∀ recValue : U32, st.getCommitment recValue =
    (Commitment.commit ⟨st.crnd, (idx : ℕ), ArithValueT.fromU32 recValue⟩ : Commitment G)

namespace PRCClient
variable {R : Type} [ScalarRng R] {c : PRCClient} {m1 m2 idx : ℕ}

/-- Without servers there is nobody to share among. -/
theorem queryAllServers_of_none (h : c.partyNum = 0) (rng : R) : c.queryAllServers idx rng = none := by
  have hquery : c.queryIndex idx rng = none := by
    apply Option.eq_none_iff_forall_ne_some.mpr
    intro out hout
    obtain ⟨pos, -, hout⟩ := Option.bind_eq_some_iff.mp hout
    obtain ⟨x, -, hout⟩ := Option.bind_eq_some_iff.mp hout
    obtain ⟨y, -, hout⟩ := Option.bind_eq_some_iff.mp hout
    obtain ⟨shares, hshares, -⟩ := Option.bind_eq_some_iff.mp hout
    rw [h, secretShareBoolean, if_pos (Or.inl rfl)] at hshares
    cases hshares
  rw [queryAllServers, hquery]
  rfl

/-- The index in the state is the index modulo the size of a word. -/
theorem state_index_iff (hm1 : m1 ≤ 31) (hm2 : m2 ≤ 31) (hidx : idx < 2^m1*2^m2) :
    ArithValueT.fromU32 (BitVec.ofNat 32 idx) = (idx : ℕ) ↔ idx < 2^32 := by
  have hpow : 2^m1*2^m2 ≤ 2^62 := by
    rw [← pow_add]
    exact Nat.pow_le_pow_right (by decide) (by omega)
  have hbig : 2^62 < groupOrder := by unfold groupOrder; omega
  have hmod : idx % 2^32 < 2^32 := Nat.mod_lt _ (by decide)
  rw [ArithValueT.fromU32, BitVec.toNat_ofNat]
  constructor
  · intro h
    have heq := scalar_natCast_inj (by omega) (by omega) h
    rwa [← heq]
  · intro h
    rw [Nat.mod_eq_of_lt h]

section Match
variable {G : Type} [AddCommGroup G] [Module Scalar G] [Ristretto G]

/-- A matching state stems from some servers and an index of one word. -/
theorem word_of_matches (hparty : c.sysConf.getPartyNum = c.partyNum) (h1 : c.dbConf.l1Dim = 2^m1)
    (h2 : c.dbConf.l2Dim = 2^m2) (hm1 : m1 ≤ 31) (hm2 : m2 ≤ 31) (hidx : idx < 2^m1*2^m2) {rng rng' : R}
    {st : PRCClientSt} {queries : List PRCQuery} (hquery : c.queryAllServers idx rng = some ((st, queries), rng'))
    (hmatch : st.Matches G queries c.partyNum c.dbConf.l1Dim idx) : 1 ≤ c.partyNum ∧ idx < 2^32 := by
  have hn : 1 ≤ c.partyNum := by
    by_contra hn
    rw [queryAllServers_of_none (by omega)] at hquery
    cases hquery
  obtain ⟨st', Q, rng'', hquery', -, -, -, -, hst⟩ :=
    queryAllServers_eq h1 h2 (by omega) (by omega) hn hparty hidx rng
  rw [hquery] at hquery'
  obtain ⟨⟨rfl, rfl⟩, rfl⟩ : (st = st' ∧ queries = List.ofFn Q) ∧ rng' = rng'' := by simpa using hquery'
  exact ⟨hn, (state_index_iff hm1 hm2 hidx).mp (hst.symm.trans hmatch.index)⟩

/-- For an index of one word the client keeps a matching state. -/
theorem matches_of_word (hparty : c.sysConf.getPartyNum = c.partyNum) (h1 : c.dbConf.l1Dim = 2^m1)
    (h2 : c.dbConf.l2Dim = 2^m2) (hm1 : m1 ≤ 31) (hm2 : m2 ≤ 31) (hidx : idx < 2^m1*2^m2) (hn : 1 ≤ c.partyNum)
    (hword : idx < 2^32) (rng : R) : ∃ st queries rng', c.queryAllServers idx rng = some ((st, queries), rng') ∧
      PRCClientSt.Matches G st queries c.partyNum c.dbConf.l1Dim idx := by
  obtain ⟨st, Q, rng', hquery, -, hcol, hrow, hrnd, hst⟩ :=
    queryAllServers_eq h1 h2 (by omega) (by omega) hn hparty hidx rng
  have hindex := hst.trans ((state_index_iff hm1 hm2 hidx).mpr hword)
  have hcol' : (reconstructBoolean ((List.ofFn Q).map PRCQuery.l1Bss)).toNat = idx % 2^m1 := by
    rw [List.map_ofFn, reconstructBoolean_ofFn]
    exact hcol
  have hrow' : (reconstructBoolean ((List.ofFn Q).map PRCQuery.l2Bss)).toNat = idx / 2^m1 := by
    rw [List.map_ofFn, reconstructBoolean_ofFn]
    exact hrow
  rw [h1]
  refine ⟨st, List.ofFn Q, rng', hquery, List.length_ofFn, hcol', hrow', ?_, ?_, hindex, fun recValue => ?_⟩
  · rw [List.map_ofFn, reconstructArith_ofFn]
    exact hrnd
  · rw [hcol', hrow']
    exact Nat.mod_add_div idx (2^m1)
  · rw [PRCClientSt.getCommitment, hindex]

/-- For every admitted index and all randomness, the state matches the queries exactly when there is a
server to ask and the index fits the word that it is cast to. -/
theorem queryAllServers_matches_iff (hparty : c.sysConf.getPartyNum = c.partyNum) (h1 : c.dbConf.l1Dim = 2^m1)
    (h2 : c.dbConf.l2Dim = 2^m2) (hm1 : m1 ≤ 31) (hm2 : m2 ≤ 31) (hidx : idx < c.dbConf.getMaxSize) (rng : R) :
    (∃ st queries rng', c.queryAllServers idx rng = some ((st, queries), rng') ∧
      PRCClientSt.Matches G st queries c.partyNum c.dbConf.l1Dim idx) ↔ 1 ≤ c.partyNum ∧ idx < 2^32 := by
  rw [DBConfig.getMaxSize, h1, h2] at hidx
  constructor
  · rintro ⟨st, queries, rng', hquery, hmatch⟩
    exact word_of_matches hparty h1 h2 hm1 hm2 hidx hquery hmatch
  · rintro ⟨hn, hword⟩
    exact matches_of_word hparty h1 h2 hm1 hm2 hidx hn hword rng

end Match

/-- A client of two servers for a database of `2^33` records. -/
def wideClient : PRCClient where
  partyNum := 2
  dbConf := ⟨1, 2^31, 2^2, none⟩
  sysConf := ⟨[⟨0, Vector.replicate 32 0⟩, ⟨1, Vector.replicate 32 1⟩], ⟨1, 2^31, 2^2, none⟩⟩

/-- The last index that fits a word. -/
theorem wideClient_matches : ∃ st queries rng',
    wideClient.queryAllServers (2^32-1) (⟨fun _ => 0, 0⟩ : ChaCha8Rng) = some ((st, queries), rng') ∧
      PRCClientSt.Matches Scalar st queries 2 (2^31) (2^32-1) :=
  (queryAllServers_matches_iff (c := wideClient) rfl rfl rfl le_rfl (by decide) (by decide) _).mpr
    (by decide)

/-- The first one that does not: the servers are asked for column `0` of row `2`, the state keeps `0`. -/
theorem wideClient_not_matches : wideClient.idxTo2dim (2^32) = some (0, 2) ∧ ¬ ∃ st queries rng',
    wideClient.queryAllServers (2^32) (⟨fun _ => 0, 0⟩ : ChaCha8Rng) = some ((st, queries), rng') ∧
      PRCClientSt.Matches Scalar st queries 2 (2^31) (2^32) := by
  refine ⟨by decide, ?_⟩
  rintro ⟨st, queries, rng', hquery, hmatch⟩
  have hword := word_of_matches (c := wideClient) rfl rfl rfl le_rfl (by decide) (by decide) hquery
    hmatch
  exact absurd hword.2 (by decide)

end PRCClient
end PrivRecCert.Prc
