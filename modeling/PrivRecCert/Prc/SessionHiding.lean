import PrivRecCert.Prc.QueryHiding

/-! Many queries, one after the other, at a party whose peers all work together against it. Every query is blinded by
material of its own, so the secrets of a session are those of all its queries side by side. -/
namespace PrivRecCert.Prc
open CorRnd SimdArray BitArray Rounds Sharing
open scoped BigOperators

/-- What blinds queries at one server: the masks of triples, the bits of daBits, and a share of the randomness of each
commitment. -/
abbrev Secrets (m t q : ℕ) : Type := Block m × (Fin t → Bool) × (Fin q → Scalar)

/-- The secrets of the first query and those of the remaining ones. -/
def splitSecrets (m r t u q : ℕ) :
    Secrets (m+r) (t+u) (q+1) ≃ (Block m × (Fin t → Bool) × Scalar) × Secrets r u q :=
  (Equiv.prodCongr (splitBlock m r) ((Equiv.prodCongr (Fin.appendEquiv t u).symm
    (Fin.consEquiv fun _ => Scalar).symm).trans (.prodProdProdComm _ _ _ _))).trans (.prodProdProdComm _ _ _ _)

/-- A server and the queries that it is going to answer. -/
abbrev Queue (SK VK : Type) (q : ℕ) : Type := PRCServer SK VK × (Fin q → PRCQuery)

namespace OtherShares
variable {O : OtherShares} {bits used t u : ℕ} {dp dp' : DaBitProvider}

theorem DaBits.first {w : Fin (t+u) → Bool} (h : O.DaBits bits used (t+u) dp w) :
    O.DaBits bits used t dp ((Fin.appendEquiv t u).symm w).1 := by
  obtain ⟨l, hl, hlen, hown, hw⟩ := h.storage
  exact ⟨l, hl, hlen, hown, fun k => hw (Fin.castAdd u k)⟩

theorem DaBits.second {w : Fin (t+u) → Bool} (h : O.DaBits bits used (t+u) dp w) (hspends : dp.Spends dp' t) :
    O.DaBits bits (used+t) u dp' ((Fin.appendEquiv t u).symm w).2 := by
  obtain ⟨l, hl, hlen, hown, hw⟩ := h.storage
  refine ⟨l, ⟨hspends.storage.trans hl.storage, hspends.used.trans (congrArg (· + t) hl.used_eq)⟩, hlen, hown,
    fun k => ?_⟩
  rw [ConvLayer.maskBit, Nat.add_assoc]
  exact hw (Fin.natAdd t k)

theorem DaBits.kept {w : Fin t → Bool} (h : O.DaBits bits used t dp w) (hspends : dp.Spends dp' 0) :
    O.DaBits bits used t dp' w := by
  obtain ⟨l, hl, hlen, hown, hw⟩ := h.storage
  exact ⟨l, ⟨hspends.storage.trans hl.storage, hspends.used.trans hl.used_eq⟩, hlen, hown, hw⟩

section Material
variable {n m : ℕ}

/-- Whatever the others hold, there is material for all masks. -/
theorem exists_material (O : OtherShares) (hm : 0 < m) (hO : ∀ k, 8*m ≤ k → O.c k = (O.a k && O.b k)) (B : Block m)
    (w : Fin t → Bool) : ∃ bp dp, O.Triples (8*m) 0 m bp B ∧ O.DaBits t 0 t dp w := by
  have harray : ∀ f : Bits, (∀ k, 8*m ≤ k → f k = false) → ∃ a : BitArray, a.Represents (8*m) f := fun f hf => by
    obtain ⟨a, -, ha⟩ := new_eq (s := 8*m) (by omega)
    obtain ⟨r, -, hr⟩ := setBits_eq ha (v := fun k => some (f k)) (w := f) (show 0 + 8*m ≤ 8*m by omega) fun _ _ => rfl
    refine ⟨r, hr.congr fun k => ?_⟩
    by_cases hk : k < 8*m
    · rw [if_pos ⟨Nat.zero_le k, by omega⟩, Nat.sub_zero]
    · rw [if_neg (by omega), hf k (by omega)]
  let f : Bits := patch B.1 fun _ => false
  let g : Bits := patch B.2 fun _ => false
  have hf : ∀ (v : Fin (8*m) → Bool) k, 8*m ≤ k → patch v (fun _ => false) k = false := fun v k hk => by
    rw [patch, dif_neg (by omega)]
  have hown : ∀ k, 8*m ≤ k → O.ownC f g k = false := fun k hk => by
    have hfk : f k = false := hf B.1 k hk
    have hgk : g k = false := hf B.2 k hk
    rw [ownC, hfk, hgk, hO k hk, Bool.xor_false, Bool.xor_false, Bool.xor_self]
  obtain ⟨a, ha⟩ := harray f (hf B.1)
  obtain ⟨b, hb⟩ := harray g (hf B.2)
  obtain ⟨c, hc⟩ := harray (O.ownC f g) hown
  have hblock : ∀ v : Fin (8*m) → Bool, (fun k : Fin (8*m) => patch v (fun _ => false) (k + 8*0)) = v := fun v =>
    funext fun k => dif_pos k.isLt
  refine ⟨⟨some ⟨[a, b, c]⟩, 0, 0⟩, ⟨some (List.ofFn fun k => ⟨w k, O.ownRZp k (w k)⟩), 0, 0⟩,
    ⟨f, g, ⟨⟨_, rfl, .cons ha (.cons hb (.cons hc .nil))⟩, rfl⟩, ?_⟩, _, ⟨rfl, rfl⟩, List.length_ofFn, fun k d hd => ?_,
    fun k => ?_⟩
  · exact Prod.ext (hblock B.1) (hblock B.2)
  · obtain ⟨hk, rfl⟩ := List.getElem?_eq_some_iff.mp hd
    simp
  · simp [ConvLayer.maskBit]

/-- What all parties but `j` hold. -/
def others (j : Fin n) (a b c : Fin n → Bits) (l : Fin n → List DaBit) : OtherShares where
  a k := ∑ i ∈ Finset.univ.erase j, a i k
  b k := ∑ i ∈ Finset.univ.erase j, b i k
  c k := ∑ i ∈ Finset.univ.erase j, c i k
  rZ2 k := ∑ i ∈ Finset.univ.erase j, ConvLayer.maskBit (l i) 0 k
  rZp k := ∑ i ∈ Finset.univ.erase j, ConvLayer.maskValue (l i) 0 k

variable {SK VK : Type} {S : Fin n → PRCServer SK VK} {p : Fin n} {sk : Fin n → SK} {m1 m2 s taken : ℕ}
  {cell : ℕ → ℕ → ℕ → Bool}

/-- The servers of a system between two queries: what the others hold fixes the rest of each server's material. -/
theorem of_serving (hS : Serving S p sk m1 m2 cell s used bits taken) (m t : ℕ) (j : Fin n) :
    ∃ (O : OtherShares) (B : Block m) (w : Fin t → Bool), O.Idle (S j).db (decide (j = p)) s used m (S j) B ∧
      O.DaBits bits taken t (S j).mpcProvider.dabitProvider w := by
  obtain ⟨a, b, c, hready⟩ := hS.ready
  obtain ⟨l, r, hl⟩ := hS.dabits
  have hsum : ∀ (f : Fin n → Bits) k, plain f k = ((∑ i ∈ Finset.univ.erase j, f i k) ^^ f j k) := fun f k => by
    rw [plain, ← Finset.sum_erase_add _ _ (Finset.mem_univ j)]
    rfl
  have hc : (others j a b c l).ownC (a j) (b j) = c j := funext fun k => by
    have htriple := hready.beaver.triple k
    rw [hsum a, hsum b, hsum c] at htriple
    change ((((∑ i ∈ Finset.univ.erase j, a i k) ^^ a j k) && ((∑ i ∈ Finset.univ.erase j, b i k) ^^ b j k)) ^^
      (∑ i ∈ Finset.univ.erase j, c i k)) = c j k
    rw [htriple, Bool.xor_comm, ← Bool.xor_assoc, Bool.xor_self, Bool.false_xor]
  refine ⟨others j a b c l, blockAt (a j) (b j) used m, fun k => ConvLayer.maskBit (l j) taken k,
    ⟨rfl, hready.layers_eq j, hready.partyConst_eq j, a j, b j, ?_, rfl⟩, l j, hl.holds j, hl.length j,
    fun k d hd => ?_, fun _ => rfl⟩
  · rw [hc]
    exact hready.beaver.holds j
  · have hk : k < bits := by
      rw [← hl.length j]
      exact (List.getElem?_eq_some_iff.mp hd).1
    have hall : ∀ i, (l i)[k]? = some ⟨ConvLayer.maskBit (l i) 0 k, ConvLayer.maskValue (l i) 0 k⟩ := fun i => by
      have hfit : 0 + bits ≤ (l i).length := by rw [hl.length i, Nat.zero_add]
      have hget := ConvLayer.taken_getElem? hfit hk
      rwa [List.getElem?_take_of_lt hk, List.getElem?_drop, Nat.zero_add] at hget
    obtain rfl := Option.some.inj ((hall j).symm.trans hd)
    have hbits := hl.rZ2 k _ hall
    have hvalues := hl.rZp k _ hall
    rw [← hbits, ← Finset.sum_erase_add _ _ (Finset.mem_univ j), ← Finset.sum_erase_add _ _ (Finset.mem_univ j)]
      at hvalues
    exact eq_sub_iff_add_eq'.mpr hvalues

end Material

variable {SK VK : Type} (O) (db : PRCDatabase) (pc : Bool) (s used bits taken m t : ℕ) {q : ℕ}

/-- The server is about to answer a query with these shares of an index. -/
structure Asked (v : BooleanValue × BooleanValue) (x : PRCServer SK VK × PRCQuery)
    (ω : Block m × (Fin t → Bool) × Scalar) : Prop where
  idle : O.Idle db pc s used m x.1 ω.1
  dabits : O.DaBits bits taken t x.1.mpcProvider.dabitProvider ω.2.1
  query_eq : x.2 = ⟨v.1, v.2, ω.2.2⟩

/-- The server is about to answer queries with these shares of indices. -/
structure Serves (vs : Fin q → BooleanValue × BooleanValue) (x : Queue SK VK q) (ω : Secrets m t q) : Prop where
  idle : O.Idle db pc s used m x.1 ω.1
  dabits : O.DaBits bits taken t x.1.mpcProvider.dabitProvider ω.2.1
  queries_eq : ∀ i, x.2 i = ⟨(vs i).1, (vs i).2, ω.2.2 i⟩

end OtherShares

namespace PRCServer
variable {SK VK Sig G : Type} {S S' : PRCServer SK VK}

/-- A retrieval leaves no layers. -/
theorem recRetrieve_base (hlayers : S.mpcProvider.layers = []) {l1 l2 : BooleanValue} {share : Bool}
    (h : (S.recRetrieve (G := G) l1 l2).Yields (share, S')) :
    S'.mpcProvider.layers = [] ∧ S'.mpcProvider.partyConst = S.mpcProvider.partyConst := by
  obtain ⟨⟨x, p₁⟩, hx, h⟩ := Proc.yields_bind h
  obtain ⟨⟨y, p₂⟩, hy, h⟩ := Proc.yields_bind h
  obtain ⟨p₃, hfirst, h⟩ := Proc.yields_bind h
  obtain ⟨_, -, h⟩ := Proc.yields_bind h
  obtain ⟨o₂, -, h⟩ := Proc.yields_bind h
  obtain ⟨ans, -, h⟩ := Proc.yields_bind h
  obtain ⟨hrelaying, hbase₁, -⟩ := MpcProvider.call_relaying (c := .oheVec l1) (MpcProvider.allRelaying_nil hlayers)
    (Proc.yields_lift hx)
  obtain ⟨-, hbase₂, -⟩ := MpcProvider.call_relaying (c := .oheVec l2) hrelaying (Proc.yields_lift hy)
  obtain ⟨-, hconst, -⟩ := MpcProvider.run_base hfirst
  split_ifs at h
  · obtain ⟨⟨z, p₄⟩, hz, h⟩ := Proc.yields_bind h
    obtain ⟨p₅, hsecond, h⟩ := Proc.yields_bind h
    obtain ⟨_, -, h⟩ := Proc.yields_bind h
    obtain ⟨_, -, h⟩ := Proc.yields_bind h
    obtain ⟨-, rfl⟩ := Prod.mk.inj (Proc.yields_ret h)
    obtain ⟨-, hbase₄, -⟩ := MpcProvider.call_relaying (c := .and ans.bitSize (.input ans) (.input o₂))
      (MpcProvider.allRelaying_nil (p := p₃.clear) rfl) (Proc.yields_lift hz)
    obtain ⟨hnil, hconst₂, -⟩ := MpcProvider.run_base hsecond
    exact ⟨hnil, hconst₂.trans (hbase₄.partyConst.trans (hconst.trans (hbase₁.trans hbase₂).partyConst))⟩
  · obtain ⟨ls, out, h⟩ := h
    cases h

variable [AddCommGroup G] [Module Scalar G] [Ristretto G] [Ed25519 SK VK Sig]

theorem certify_base {query : PRCQuery} {share : Bool} {token : Option (PRCToken G Sig)}
    (h : (S.certify query share).Yields (token, S')) : S'.mpcProvider.layers = S.mpcProvider.layers ∧
      S'.mpcProvider.partyConst = S.mpcProvider.partyConst := by
  obtain ⟨joined, -, h⟩ := Proc.yields_bind h
  obtain ⟨record, -, h⟩ := Proc.yields_bind h
  obtain ⟨⟨arith, S₁⟩, hconv, h⟩ := Proc.yields_bind h
  obtain ⟨_, -, h⟩ := Proc.yields_bind h
  obtain ⟨_, -, h⟩ := Proc.yields_bind h
  obtain ⟨_, -, h⟩ := Proc.yields_bind h
  obtain ⟨-, rfl⟩ := Prod.mk.inj (Proc.yields_ret h)
  obtain ⟨⟨_, _⟩, hrun, hret⟩ := Proc.yields_bind hconv
  obtain ⟨-, rfl⟩ := Prod.mk.inj (Proc.yields_ret hret)
  obtain ⟨⟨_, _⟩, -, hret⟩ := Proc.yields_bind hrun
  obtain ⟨-, rfl⟩ := Prod.mk.inj (Proc.yields_ret hret)
  exact ⟨rfl, rfl⟩

variable {adv : Adversary (Msg G)} {h : List (Rounds.Event (Msg G))} {O : OtherShares} {pc : Bool} {db : PRCDatabase}
  {cell : ℕ → ℕ → ℕ → Bool} {m1 m2 s used bits taken r u q : ℕ} {v v' : BooleanValue × BooleanValue}

/-- What is left for the queries after the first one. -/
theorem idle_next {query : PRCQuery} {ω : Secrets (queryBytes m1 m2 + r) (m1+m2+1 + u) (q+1)}
    (hdb : db.Holds 1 (2^m2) (2^m1) cell) (hm : Servable m1 m2) (h1 : query.l1Bss.bitLen = m1)
    (h2 : query.l2Bss.bitLen = m2) (hidle : O.Idle db pc s used (queryBytes m1 m2 + r) S ω.1)
    (hdabits : O.DaBits bits taken (m1+m2+1 + u) S.mpcProvider.dabitProvider ω.2.1)
    {out : Bool × Option (PRCToken G Sig)} (h : (S.prcProtocolShare query).Yields (out, S')) :
    O.Idle db pc s (used + queryBytes m1 m2) r S' (splitSecrets _ _ _ _ _ ω).2.1 ∧
      O.DaBits bits (taken + (m1+m2+1)) u S'.mpcProvider.dabitProvider (splitSecrets _ _ _ _ _ ω).2.2.1 := by
  have hspends := prcProtocolShare_spends ⟨hidle.layers_eq, by rw [hidle.db_eq, hdb.l2Dim_eq]⟩ h1 h2
    (hm.one_le.trans hm.le) hm.one_le h
  obtain ⟨⟨share, S₁⟩, hretrieve, h⟩ := Proc.yields_bind h
  obtain ⟨⟨token, S₂⟩, hcertify, h⟩ := Proc.yields_bind h
  obtain ⟨-, rfl⟩ := Prod.mk.inj (Proc.yields_ret h)
  obtain ⟨hnil, hconst⟩ := recRetrieve_base hidle.layers_eq hretrieve
  obtain ⟨hlayers, hconst'⟩ := certify_base hcertify
  refine ⟨⟨?_, hlayers.trans hnil, hconst'.trans (hconst.trans hidle.partyConst_eq),
    hidle.triples.second hspends.beaver⟩, hdabits.second hspends.dabit⟩
  rw [hspends.rest]
  exact hidle.db_eq

/-- A query with shares of another index, which are as long, looks the same. -/
theorem prcProtocolShare_hides (hdb : db.Holds 1 (2^m2) (2^m1) cell) (hG : Commitment.Spanned G) (hm : Servable m1 m2)
    (hv : v.1.bitLen = m1 ∧ v.2.bitLen = m2) (hv' : v'.1.bitLen = m1 ∧ v'.2.bitLen = m2)
    (hroom : used + queryBytes m1 m2 ≤ (s+7)/8) (hbits : taken + (m1+m2+1) ≤ bits) :
    Hides adv (O.Asked db pc s used bits taken (queryBytes m1 m2) (m1+m2+1) v)
      (O.Asked db pc s used bits taken (queryBytes m1 m2) (m1+m2+1) v') (fun _ => ()) (fun _ => ()) (fun _ _ => True) h
      (fun x : PRCServer SK VK × PRCQuery =>
        (x.1.prcProtocolShare x.2 : Party G ((Bool × Option (PRCToken G Sig)) × _)))
      fun x : PRCServer SK VK × PRCQuery => x.1.prcProtocolShare x.2 := by
  have hone := hm.one_le.trans hm.le
  have hretrieve : Hides adv
      (fun (x : PRCServer SK VK × PRCQuery) B =>
        O.Idle db pc s used (queryBytes m1 m2) x.1 B ∧ x.2.l1Bss = v.1 ∧ x.2.l2Bss = v.2)
      (fun (x : PRCServer SK VK × PRCQuery) B =>
        O.Idle db pc s used (queryBytes m1 m2) x.1 B ∧ x.2.l1Bss = v'.1 ∧ x.2.l2Bss = v'.2)
      Prod.fst Prod.fst (fun _ _ => True) h
      (fun x => x.1.recRetrieve (G := G) x.2.l1Bss x.2.l2Bss) fun x => x.1.recRetrieve x.2.l1Bss x.2.l2Bss := by
    refine ((recRetrieve_hides hdb hv.1 hv.2 hv'.1 hv'.2 hone hm.one_le hroom).comap (fun _ _ hx => hx.1)
      fun _ _ hx => hx.1).congr (fun x B hx => ?_) fun x B hx => ?_
    · rw [hx.2.1, hx.2.2]
    · rw [hx.2.1, hx.2.2]
  have hcertify : ∀ c c' h', True → Hides adv
      (fun (y : (PRCServer SK VK × PRCQuery) × (Bool × PRCServer SK VK)) ω => y.2.1 = c ∧
        O.Certifying pc bits taken (m1+m2+1) v.1 v.2 (y.2.2, y.1.2) ω)
      (fun (y : (PRCServer SK VK × PRCQuery) × (Bool × PRCServer SK VK)) ω => y.2.1 = c' ∧
        O.Certifying pc bits taken (m1+m2+1) v'.1 v'.2 (y.2.2, y.1.2) ω)
      (fun _ => ()) (fun _ => ()) (fun _ _ => True) h'
      (fun y => (y.2.2.certify y.1.2 y.2.1 : Party G (Option (PRCToken G Sig) × PRCServer SK VK)) >>= fun r =>
        .ret ((y.2.1, r.1), r.2))
      fun y => (y.2.2.certify y.1.2 y.2.1 : Party G (Option (PRCToken G Sig) × PRCServer SK VK)) >>= fun r =>
        .ret ((y.2.1, r.1), r.2) := by
    intro c c' h' _
    have hshare : Hides adv (fun (y : (PRCServer SK VK × PRCQuery) × (Bool × PRCServer SK VK)) ω => y.2.1 = c ∧
          O.Certifying pc bits taken (m1+m2+1) v.1 v.2 (y.2.2, y.1.2) ω)
        (fun (y : (PRCServer SK VK × PRCQuery) × (Bool × PRCServer SK VK)) ω => y.2.1 = c' ∧
          O.Certifying pc bits taken (m1+m2+1) v'.1 v'.2 (y.2.2, y.1.2) ω)
        (fun _ => ()) (fun _ => ()) (fun _ _ => True) h'
        (fun y => (y.2.2.certify y.1.2 c : Party G (Option (PRCToken G Sig) × PRCServer SK VK)))
        fun y => y.2.2.certify y.1.2 c' :=
      Hides.comap (f := fun y : (PRCServer SK VK × PRCQuery) × (Bool × PRCServer SK VK) => (y.2.2, y.1.2))
        (g := fun y : (PRCServer SK VK × PRCQuery) × (Bool × PRCServer SK VK) => (y.2.2, y.1.2))
        (certify_hides hG hv.1 hv.2 hv'.1 hv'.2 hm hbits c c') (fun _ _ hy => hy.2) fun _ _ hy => hy.2
    refine Hides.finish (hshare.congr (fun y _ hy => ?_) fun y _ hy => ?_) (fun _ _ => rfl) fun _ _ => rfl
    · rw [hy.1]
    · rw [hy.1]
  -- what a retrieval leaves for the certification
  have hmid : ∀ (w : BooleanValue × BooleanValue) (x : PRCServer SK VK × PRCQuery) ω r,
      w.1.bitLen = m1 ∧ w.2.bitLen = m2 →
      O.Asked db pc s used bits taken (queryBytes m1 m2) (m1+m2+1) w x ω →
      (x.1.recRetrieve (G := G) x.2.l1Bss x.2.l2Bss).Yields r →
      O.Certifying pc bits taken (m1+m2+1) w.1 w.2 (r.2, x.2) ω.2 := by
    intro w x ω r hw hx hr
    have hspends := recRetrieve_spends ⟨hx.idle.layers_eq, by rw [hx.idle.db_eq, hdb.l2Dim_eq]⟩
      (by rw [hx.query_eq]; exact hw.1) (by rw [hx.query_eq]; exact hw.2) hone hm.one_le hr
    have hconst := (recRetrieve_base hx.idle.layers_eq hr).2.trans hx.idle.partyConst_eq
    refine ⟨hconst, ?_, by rw [hx.query_eq], by rw [hx.query_eq], by rw [hx.query_eq]⟩
    exact hx.dabits.kept hspends.dabit
  exact hretrieve.bind (Equiv.refl _) hcertify
    (fun x ω hx => ⟨⟨hx.idle, by rw [hx.query_eq], by rw [hx.query_eq]⟩, fun r hr => hmid v x ω r hv hx hr⟩)
    fun x ω hx => ⟨⟨hx.idle, by rw [hx.query_eq], by rw [hx.query_eq]⟩, fun r hr => hmid v' x ω r hv' hx hr⟩

/-- What `serve` does after the first query. -/
def serveRest (queries : List PRCQuery) (r : (Bool × Option (PRCToken G Sig)) × PRCServer SK VK) :
    Party G (List (Bool × Option (PRCToken G Sig)) × PRCServer SK VK) :=
  r.2.serve queries >>= fun w => .ret (r.1 :: w.1, w.2)

theorem serve_succ (S : PRCServer SK VK) (Q : Fin (q+1) → PRCQuery) :
    (S.serve (List.ofFn Q) : Party G (List (Bool × Option (PRCToken G Sig)) × _)) =
      S.prcProtocolShare (Q 0) >>= serveRest (List.ofFn fun i => Q i.succ) := by
  rw [List.ofFn_succ]
  rfl

/-- Sessions with other indices look the same. -/
theorem serve_hides (hdb : db.Holds 1 (2^m2) (2^m1) cell) (hG : Commitment.Spanned G) (hm : Servable m1 m2)
    {M T : ℕ} {vs vs' : Fin q → BooleanValue × BooleanValue} (hvs : ∀ i, (vs i).1.bitLen = m1 ∧ (vs i).2.bitLen = m2)
    (hvs' : ∀ i, (vs' i).1.bitLen = m1 ∧ (vs' i).2.bitLen = m2) (hM : M = q*queryBytes m1 m2) (hT : T = q*(m1+m2+1))
    (hroom : used + M ≤ (s+7)/8) (hbits : taken + T ≤ bits) :
    Hides adv (O.Serves db pc s used bits taken M T vs) (O.Serves db pc s used bits taken M T vs') (fun _ => ())
      (fun _ => ()) (fun _ _ => True) h (fun x : Queue SK VK q =>
        (x.1.serve (List.ofFn x.2) : Party G (List (Bool × Option (PRCToken G Sig)) × PRCServer SK VK)))
      fun x : Queue SK VK q =>
        (x.1.serve (List.ofFn x.2) : Party G (List (Bool × Option (PRCToken G Sig)) × PRCServer SK VK)) := by
  induction q generalizing M T used taken h with
  | zero =>
    have hdone : Hides adv (O.Serves db pc s used bits taken M T vs) (O.Serves db pc s used bits taken M T vs')
        (fun _ => ()) (fun _ => ()) (fun _ _ => True) h
        (fun x : Queue SK VK 0 => (.ret ([], x.1) : Party G (List (Bool × Option (PRCToken G Sig)) × PRCServer SK VK)))
        fun x : Queue SK VK 0 => (.ret ([], x.1) : Party G (List (Bool × Option (PRCToken G Sig)) × PRCServer SK VK)) :=
      .ret trivial (fun _ _ _ => rfl) fun _ _ _ => rfl
    exact hdone.congr (fun x _ _ => by rw [List.ofFn_zero]; rfl) fun x _ _ => by rw [List.ofFn_zero]; rfl
  | succ q ih =>
    obtain rfl : M = queryBytes m1 m2 + q*queryBytes m1 m2 := by rw [hM]; ring
    obtain rfl : T = m1+m2+1 + q*(m1+m2+1) := by rw [hT]; ring
    have hfirst : Hides adv
        (fun (x : Queue SK VK (q+1)) ω =>
          O.Asked db pc s used bits taken (queryBytes m1 m2) (m1+m2+1) (vs 0) (x.1, x.2 0) ω)
        (fun (x : Queue SK VK (q+1)) ω =>
          O.Asked db pc s used bits taken (queryBytes m1 m2) (m1+m2+1) (vs' 0) (x.1, x.2 0) ω)
        (fun _ => ()) (fun _ => ()) (fun _ _ => True) h
        (fun x => (x.1.prcProtocolShare (x.2 0) : Party G ((Bool × Option (PRCToken G Sig)) × PRCServer SK VK)))
        fun x => x.1.prcProtocolShare (x.2 0) :=
      Hides.comap (f := fun x : Queue SK VK (q+1) => (x.1, x.2 0)) (g := fun x : Queue SK VK (q+1) => (x.1, x.2 0))
        (prcProtocolShare_hides hdb hG hm (hvs 0) (hvs' 0) (by omega) (by omega)) (fun _ _ hx => hx) fun _ _ hx => hx
    have hrest : ∀ c c' h', True → Hides adv
        (fun (y : Queue SK VK (q+1) × ((Bool × Option (PRCToken G Sig)) × PRCServer SK VK)) ω =>
          () = c ∧ O.Serves db pc s (used + queryBytes m1 m2) bits (taken + (m1+m2+1)) (q*queryBytes m1 m2)
            (q*(m1+m2+1)) (fun i => vs i.succ) (y.2.2, fun i => y.1.2 i.succ) ω)
        (fun (y : Queue SK VK (q+1) × ((Bool × Option (PRCToken G Sig)) × PRCServer SK VK)) ω =>
          () = c' ∧ O.Serves db pc s (used + queryBytes m1 m2) bits (taken + (m1+m2+1)) (q*queryBytes m1 m2)
            (q*(m1+m2+1)) (fun i => vs' i.succ) (y.2.2, fun i => y.1.2 i.succ) ω)
        (fun _ => ()) (fun _ => ()) (fun _ _ => True) h'
        (fun y => (serveRest (List.ofFn fun i => y.1.2 i.succ) y.2 : Party G _))
        fun y => serveRest (List.ofFn fun i => y.1.2 i.succ) y.2 := by
      intro c c' h' _
      have hserve := ih (h := h') (fun i => hvs i.succ) (fun i => hvs' i.succ) rfl rfl
        (show used + queryBytes m1 m2 + q*queryBytes m1 m2 ≤ (s+7)/8 by omega)
        (show taken + (m1+m2+1) + q*(m1+m2+1) ≤ bits by omega)
      exact Hides.finish (Hides.comap
        (f := fun y : Queue SK VK (q+1) × ((Bool × Option (PRCToken G Sig)) × PRCServer SK VK) =>
          (y.2.2, fun i => y.1.2 i.succ))
        (g := fun y : Queue SK VK (q+1) × ((Bool × Option (PRCToken G Sig)) × PRCServer SK VK) =>
          (y.2.2, fun i => y.1.2 i.succ)) hserve (fun _ _ hy => hy.2) fun _ _ hy => hy.2)
        (fun _ _ => rfl) fun _ _ => rfl
    -- a session is its first query and what that one leaves for the remaining ones
    have hsplit : ∀ (ws : Fin (q+1) → BooleanValue × BooleanValue) (x : Queue SK VK (q+1)) ω,
        (∀ i, (ws i).1.bitLen = m1 ∧ (ws i).2.bitLen = m2) →
        O.Serves db pc s used bits taken (queryBytes m1 m2 + q*queryBytes m1 m2) (m1+m2+1 + q*(m1+m2+1)) ws x ω →
        O.Asked db pc s used bits taken (queryBytes m1 m2) (m1+m2+1) (ws 0) (x.1, x.2 0) (splitSecrets _ _ _ _ _ ω).1 ∧
        ∀ r : (Bool × Option (PRCToken G Sig)) × PRCServer SK VK, (x.1.prcProtocolShare (x.2 0)).Yields r →
          O.Serves db pc s (used + queryBytes m1 m2) bits (taken + (m1+m2+1)) (q*queryBytes m1 m2) (q*(m1+m2+1))
            (fun i => ws i.succ) (r.2, fun i => x.2 i.succ) (splitSecrets _ _ _ _ _ ω).2 := by
      intro ws x ω hws hx
      refine ⟨⟨⟨hx.idle.db_eq, hx.idle.layers_eq, hx.idle.partyConst_eq, hx.idle.triples.first⟩, hx.dabits.first,
        hx.queries_eq 0⟩, fun r hr => ?_⟩
      obtain ⟨hidle, hdabits⟩ := idle_next hdb hm (by rw [hx.queries_eq]; exact (hws 0).1)
        (by rw [hx.queries_eq]; exact (hws 0).2) hx.idle hx.dabits hr
      exact ⟨hidle, hdabits, fun i => hx.queries_eq i.succ⟩
    have hboth : Hides adv (O.Serves db pc s used bits taken _ _ vs) (O.Serves db pc s used bits taken _ _ vs')
        (fun _ => ()) (fun _ => ()) (fun _ _ => True) h
        (fun x : Queue SK VK (q+1) => x.1.prcProtocolShare (x.2 0) >>=
          (serveRest (List.ofFn fun i => x.2 i.succ) : _ → Party G (List (Bool × Option (PRCToken G Sig)) × _)))
        fun x : Queue SK VK (q+1) => x.1.prcProtocolShare (x.2 0) >>=
          (serveRest (List.ofFn fun i => x.2 i.succ) : _ → Party G (List (Bool × Option (PRCToken G Sig)) × _)) :=
      hfirst.bind (splitSecrets _ _ _ _ _) hrest (fun x ω hx => hsplit vs x ω hvs hx)
        fun x ω hx => hsplit vs' x ω hvs' hx
    exact hboth.congr (fun x _ _ => serve_succ x.1 x.2) fun x _ _ => serve_succ x.1 x.2

end PRCServer
end PrivRecCert.Prc
