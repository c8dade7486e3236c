import PrivRecCert.Prc.ServerSpec

/-! What the client sends out: shares of the two halves of the index and of the randomness of the
commitment, one query for each server. -/
namespace PrivRecCert.Prc
open CorRnd Sharing
open scoped BigOperators

section Share
variable {R : Type} [ScalarRng R] {n : ℕ}

theorem secretShareArith_eq (hn : 1 ≤ n) (x : ArithValueT) (rng : R) :
    ∃ shares, secretShareArith x n rng = some (shares, (draws ArithValueT.random (n-1) rng).2) ∧
      shares.length = n ∧ shares.sum = x := by
  have hfold : ∀ (l : List ArithValueT) (y : ArithValueT), l.foldl (fun acc s => acc - s) y = y - l.sum := by
    intro l
    induction l with
    | nil => exact fun y => (sub_zero y).symm
    | cons a l ih =>
      intro y
      rw [List.foldl_cons, ih, List.sum_cons, sub_sub]
  refine ⟨(draws ArithValueT.random (n-1) rng).1 ++ [(draws ArithValueT.random (n-1) rng).1.foldl
    (fun acc s => acc - s) x], by rw [secretShareArith, if_neg (by omega)], ?_, ?_⟩
  · rw [List.length_append, draws_length, List.length_singleton]
    omega
  · rw [List.sum_append, List.sum_singleton, hfold]
    exact add_sub_cancel _ _

theorem secretShareArith_fin (hn : 1 ≤ n) (x : ArithValueT) (rng : R) : ∃ f : Fin n → ArithValueT,
    secretShareArith x n rng = some (List.ofFn f, (draws ArithValueT.random (n-1) rng).2) ∧ ∑ i, f i = x := by
  obtain ⟨shares, hshares, hlen, hsum⟩ := secretShareArith_eq hn x rng
  obtain ⟨f, rfl⟩ : ∃ f : Fin n → ArithValueT, shares = List.ofFn f := by
    obtain rfl := hlen
    exact ⟨shares.get, (List.ofFn_get shares).symm⟩
  exact ⟨f, hshares, by rw [← List.sum_ofFn, hsum]⟩

/-- The shares of a Boolean value, one for each party, the drawn words first. -/
theorem secretShareBoolean_fin (hn : 1 ≤ n) {x : BooleanValue} (hx : x.bitLen < 32) (rng : R) :
    ∃ f : Fin n → BooleanValue,
      secretShareBoolean x n rng = some (List.ofFn f, (draws ScalarRng.nextU32 (n-1) rng).2) ∧
      (∀ i, (f i).bitLen = x.bitLen) ∧ (xorAll fun i => (f i).value) = x.value ∧
      ∀ (i : Fin n) (word : U32), (drawnWords n rng)[(i : ℕ)]? = some word →
        (f i).value.toNat = word.toNat % 2^x.bitLen := by
  obtain ⟨shares, hshares, hspec⟩ := secretShareBoolean_eq hn hx rng
  obtain ⟨f, rfl⟩ : ∃ f : Fin n → BooleanValue, shares = List.ofFn f := by
    obtain rfl := hspec.length_eq
    exact ⟨shares.get, (List.ofFn_get shares).symm⟩
  refine ⟨f, hshares, fun i => hspec.bitLen_eq _ (List.mem_ofFn.mpr ⟨i, rfl⟩), ?_, fun i word hword => ?_⟩
  · rw [← hspec.reconstruct, reconstructBoolean, xorAll, List.ofFn_eq_map, List.ofFn_eq_map, List.foldl_map,
      List.foldl_map]
  · have hlt : (i : ℕ) < n-1 := by
      have hlen := (List.getElem?_eq_some_iff.mp hword).1
      rwa [drawnWords, draws_length] at hlen
    have hi := congrArg (fun l => l[(i : ℕ)]?) hspec.drawn
    simpa [hword, hlt] using hi

end Share

namespace PRCClient
variable {R : Type} [ScalarRng R] {c : PRCClient} {m1 m2 idx : ℕ}

/-- The two halves of an index, as the client shares them. -/
theorem index_halves (h1 : c.dbConf.l1Dim = 2^m1) (h2 : c.dbConf.l2Dim = 2^m2) (hm1 : m1 < 32) (hm2 : m2 < 32)
    (hidx : idx < 2^m1*2^m2) : ∃ x1 x2 : BooleanValue, c.idxTo2dim idx = some (idx % 2^m1, idx / 2^m1) ∧
      BooleanValue.new c.getLogdim.1 (BitVec.ofNat 32 (idx % 2^m1)) = some x1 ∧
      BooleanValue.new c.getLogdim.2 (BitVec.ofNat 32 (idx / 2^m1)) = some x2 ∧
      x1.bitLen = m1 ∧ x2.bitLen = m2 ∧ x1.value.toNat = idx % 2^m1 ∧ x2.value.toNat = idx / 2^m1 := by
  have hcol : idx % 2^m1 < 2^m1 := Nat.mod_lt _ (Nat.two_pow_pos m1)
  have hrow : idx / 2^m1 < 2^m2 := Nat.div_lt_of_lt_mul hidx
  have hp1 : 2^m1 < 2^32 := Nat.pow_lt_pow_right (by decide) hm1
  have hp2 : 2^m2 < 2^32 := Nat.pow_lt_pow_right (by decide) hm2
  have hval : ∀ v < 2^32, (BitVec.ofNat 32 v).toNat = v := fun v hv => by
    rw [BitVec.toNat_ofNat, Nat.mod_eq_of_lt hv]
  have hcolv := hval (idx % 2^m1) (by omega)
  have hrowv := hval (idx / 2^m1) (by omega)
  rw [getLogdim, h1, h2, trailingZeros_two_pow (by omega), trailingZeros_two_pow (by omega)]
  exact ⟨⟨m1, BitVec.ofNat 32 (idx % 2^m1), hm1.le, by rw [hcolv]; exact hcol⟩,
    ⟨m2, BitVec.ofNat 32 (idx / 2^m1), hm2.le, by rw [hrowv]; exact hrow⟩,
    by rw [idxTo2dim, DBConfig.getMaxSize, h1, h2, if_pos hidx], BooleanValue.new_eq _ _, BooleanValue.new_eq _ _,
    rfl, rfl, hcolv, hrowv⟩

section Queries
variable {l1 l2 : ℕ} {x1 x2 : BooleanValue} {f g : Fin c.partyNum → BooleanValue} {rnd : ArithValueT}
  {h : Fin c.partyNum → ArithValueT} {rng rng₁ rng₂ rng₃ rng₄ : R}

/-- One query for every server that the system has, if there are enough shares. -/
theorem queryAllServers_of (hpos : c.idxTo2dim idx = some (l1, l2))
    (hx1 : BooleanValue.new c.getLogdim.1 (BitVec.ofNat 32 l1) = some x1)
    (hx2 : BooleanValue.new c.getLogdim.2 (BitVec.ofNat 32 l2) = some x2)
    (hf : secretShareBoolean x1 c.partyNum rng = some (List.ofFn f, rng₁))
    (hg : secretShareBoolean x2 c.partyNum rng₁ = some (List.ofFn g, rng₂))
    (hrnd : ArithValueT.random rng₂ = (rnd, rng₃))
    (hh : secretShareArith rnd c.partyNum rng₃ = some (List.ofFn h, rng₄)) :
    (∀ hk : c.sysConf.getPartyNum ≤ c.partyNum, c.queryAllServers idx rng =
      some ((⟨ArithValueT.fromU32 (BitVec.ofNat 32 idx), rnd⟩, List.ofFn fun i : Fin c.sysConf.getPartyNum =>
        ⟨f (i.castLE hk), g (i.castLE hk), h (i.castLE hk)⟩), rng₄)) ∧
    (c.partyNum < c.sysConf.getPartyNum → c.queryAllServers idx rng = none) := by
  have hsplit : c.queryAllServers idx rng = ((List.range c.sysConf.getPartyNum).mapM fun i => (do
      some (PRCQuery.mk (← (List.ofFn f)[i]?) (← (List.ofFn g)[i]?) (← (List.ofFn h)[i]?)) : Option PRCQuery)).bind
        fun queries => some ((⟨ArithValueT.fromU32 (BitVec.ofNat 32 idx), rnd⟩, queries), rng₄) := by
    simp only [queryAllServers, queryIndex, queryCommitRnd, hpos, hx1, hx2, hf, hg, hrnd, hh, Option.bind_eq_bind,
      Option.bind_some]
  refine ⟨fun hk => ?_, fun hk => ?_⟩
  · rw [hsplit, mapM_eq_some (?_ : List.Forall₂ _ _ (List.ofFn fun i : Fin c.sysConf.getPartyNum =>
      PRCQuery.mk (f (i.castLE hk)) (g (i.castLE hk)) (h (i.castLE hk))))]
    · rfl
    · refine List.forall₂_iff_get.mpr ⟨by simp, fun i hi hi' => ?_⟩
      have hlt : i < c.sysConf.getPartyNum := by simpa using hi
      have hlt' : i < c.partyNum := by omega
      simp [hlt']
  · rw [hsplit, Option.bind_eq_none_iff]
    intro queries hqueries
    have hall := forall₂_of_mapM hqueries
    have hlast := hall.get (i := c.partyNum) (by simpa using hk) (by rw [← hall.length_eq]; simpa using hk)
    simp at hlast

end Queries

/-- The queries for an index are shares of its column, its row and the client's randomness. -/
theorem queryAllServers_eq (h1 : c.dbConf.l1Dim = 2^m1) (h2 : c.dbConf.l2Dim = 2^m2) (hm1 : m1 < 32) (hm2 : m2 < 32)
    (hn : 1 ≤ c.partyNum) (hparty : c.sysConf.getPartyNum = c.partyNum) (hidx : idx < 2^m1*2^m2) (rng : R) :
    ∃ (st : PRCClientSt) (Q : Fin c.partyNum → PRCQuery) (rng' : R),
      c.queryAllServers idx rng = some ((st, List.ofFn Q), rng') ∧ Queries Q m1 m2 ∧ column Q = idx % 2^m1 ∧
      row Q = idx / 2^m1 ∧ ∑ i, (Q i).rndAss = st.crnd ∧ st.idx = ArithValueT.fromU32 (BitVec.ofNat 32 idx) := by
  obtain ⟨x1, x2, hpos, hx1, hx2, hlen1, hlen2, hval1, hval2⟩ := index_halves h1 h2 hm1 hm2 hidx
  obtain ⟨f, hf, hflen, hfval, -⟩ := secretShareBoolean_fin hn (x := x1) (by omega) rng
  obtain ⟨g, hg, hglen, hgval, -⟩ := secretShareBoolean_fin hn (x := x2) (by omega)
    (draws ScalarRng.nextU32 (c.partyNum-1) rng).2
  obtain ⟨rnd, rng₂, hrnd⟩ : ∃ rnd rng₂, ArithValueT.random (draws ScalarRng.nextU32 (c.partyNum-1)
      (draws ScalarRng.nextU32 (c.partyNum-1) rng).2).2 = (rnd, rng₂) := ⟨_, _, rfl⟩
  obtain ⟨h, hh, hhsum⟩ := secretShareArith_fin hn rnd rng₂
  have hquery := (queryAllServers_of hpos hx1 hx2 hf hg hrnd hh).1 hparty.le
  rw [List.ofFn_congr hparty] at hquery
  refine ⟨_, fun i => ⟨f i, g i, h i⟩, _, hquery, ⟨fun i => (hflen i).trans hlen1, fun i => (hglen i).trans hlen2⟩,
    ?_, ?_, hhsum, rfl⟩
  · rw [column, hfval, hval1]
  · rw [row, hgval, hval2]

theorem bitLen_of_new {bitLen : ℕ} {value : U32} {x : BooleanValue} (h : BooleanValue.new bitLen value = some x) :
    x.bitLen = bitLen := by
  rw [BooleanValue.new] at h
  split_ifs at h
  rw [← Option.some.inj h]

/-- A client that can share the column of an index has fewer than 32 bits for it. -/
theorem log_lt_of_query {rng : R} {out : (PRCClientSt × List PRCQuery) × R} (h1 : c.dbConf.l1Dim = 2^m1) (hm1 : m1 < 64)
    (h : c.queryAllServers idx rng = some out) : m1 < 32 := by
  have hdim : trailingZeros c.dbConf.l1Dim = m1 := by rw [h1, trailingZeros_two_pow hm1]
  obtain ⟨r, hr, -⟩ := Option.bind_eq_some_iff.mp h
  obtain ⟨pos, -, hr⟩ := Option.bind_eq_some_iff.mp hr
  obtain ⟨x, hx, hr⟩ := Option.bind_eq_some_iff.mp hr
  obtain ⟨y, -, hr⟩ := Option.bind_eq_some_iff.mp hr
  obtain ⟨shares, hshares, -⟩ := Option.bind_eq_some_iff.mp hr
  rw [hdim] at hx
  rw [secretShareBoolean] at hshares
  split_ifs at hshares with hbad
  rw [← bitLen_of_new hx]
  omega

end PRCClient
end PrivRecCert.Prc
