import PrivRecCert.Prc.QueryPrivacy
import PrivRecCert.Prc.SessionHiding
import PrivRecCert.Prc.System

/-! What all servers but one learn of the client's indices in a whole session: nothing, even if they work together,
deviate from the protocol as they like and choose what to send after all that they have seen. They see their own queries
and what the remaining server broadcasts, and both have the same distribution for any indices. -/
namespace PrivRecCert.Prc
open CorRnd Rounds Sharing
open scoped BigOperators

section Shares
variable {R : Type} [ScalarRng R] {n : ℕ}

/-- A sharing depends on the words that are drawn for it only. -/
theorem secretShareBoolean_of_draws (x : BooleanValue) (n : ℕ) : ∃ shares : List U32 → Option (List BooleanValue),
    ∀ rng : R, secretShareBoolean x n rng = (shares (draws ScalarRng.nextU32 (n-1) rng).1).map fun l =>
      (l, (draws ScalarRng.nextU32 (n-1) rng).2) := by
  by_cases hbad : n = 0 ∨ 32 ≤ x.bitLen
  · exact ⟨fun _ => none, fun rng => by rw [secretShareBoolean, if_pos hbad]; rfl⟩
  · refine ⟨fun words => do
      let shares ← words.mapM fun word => BooleanValue.new x.bitLen (word &&& ((1#32 <<< x.bitLen) - 1))
      some (shares ++ [← BooleanValue.new x.bitLen (shares.foldl (fun acc s => acc ^^^ s.value) x.value)]),
      fun rng => ?_⟩
    rw [secretShareBoolean, if_neg hbad]
    simp only [Option.bind_eq_bind, Option.map_bind, Function.comp_def, Option.map_some]

theorem drawn_words (w : Fin (n-1) → U32) (rest : Tape) : draws ScalarRng.nextU32 (n-1)
    (⟨List.ofFn w ++ₛ rest.words, rest.scalars⟩ : Tape) = (List.ofFn w, rest) := by
  have h := draws_words (List.ofFn w) rest.words rest.scalars
  rwa [List.length_ofFn] at h

/-- The shares as a function of the words. -/
theorem secretShareBoolean_words (hn : 1 ≤ n) {x : BooleanValue} (hx : x.bitLen < 32) :
    ∃ f : (Fin (n-1) → U32) → Fin n → BooleanValue, (∀ w i, (f w i).bitLen = x.bitLen) ∧ ∀ w (rest : Tape),
      secretShareBoolean x n (⟨List.ofFn w ++ₛ rest.words, rest.scalars⟩ : Tape) = some (List.ofFn (f w), rest) := by
  obtain ⟨shares, hshares⟩ := secretShareBoolean_of_draws (R := Tape) x n
  have hword : ∀ w : Fin (n-1) → U32, ∃ f : Fin n → BooleanValue, (∀ i, (f i).bitLen = x.bitLen) ∧
      shares (List.ofFn w) = some (List.ofFn f) := fun w => by
    obtain ⟨f, hf, hlen, -, -⟩ := secretShareBoolean_fin hn hx
      (⟨List.ofFn w ++ₛ Stream'.const 0, Stream'.const 0⟩ : Tape)
    rw [hshares, drawn_words w ⟨Stream'.const 0, Stream'.const 0⟩] at hf
    obtain ⟨l, hl, hfl⟩ := Option.map_eq_some_iff.mp hf
    obtain ⟨rfl, -⟩ := Prod.mk.inj hfl
    exact ⟨f, hlen, hl⟩
  choose f hlen hf using hword
  refine ⟨f, hlen, fun w rest => ?_⟩
  rw [hshares, drawn_words, hf]
  rfl

/-- Changing one word makes up for another shared value, except at one party. -/
theorem shares_shifted (hn : 1 ≤ n) {x x' : BooleanValue} (hlen : x'.bitLen = x.bitLen) (hx : x.bitLen < 32)
    {f f' : (Fin (n-1) → U32) → Fin n → BooleanValue}
    (hf : ∀ w (rest : Tape), secretShareBoolean x n (⟨List.ofFn w ++ₛ rest.words, rest.scalars⟩ : Tape) =
      some (List.ofFn (f w), rest))
    (hf' : ∀ w (rest : Tape), secretShareBoolean x' n (⟨List.ofFn w ++ₛ rest.words, rest.scalars⟩ : Tape) =
      some (List.ofFn (f' w), rest)) (j : Fin n) (w : Fin (n-1) → U32) (i : Fin n) (hi : i ≠ j) :
    f w i = f' (shiftWord j (x.value ^^^ x'.value) w) i := by
  let rest : Tape := ⟨Stream'.const 0, Stream'.const 0⟩
  obtain ⟨g, g', hg, hg', hgg⟩ := secretShareBoolean_hidden hn hlen hx j w rest rest
  rw [hf] at hg
  rw [hf'] at hg'
  have hfg := List.ofFn_injective (Prod.mk.inj (Option.some.inj hg)).1
  have hfg' := List.ofFn_injective (Prod.mk.inj (Option.some.inj hg')).1
  rw [hfg, hfg']
  exact hgg i hi

/-- The scalars of a query to the shares of its randomness: each is as random as the others. -/
def scalarShares (k : ℕ) : (Fin (k+1) → Scalar) ≃ (Fin (k+1) → Scalar) where
  toFun s := Fin.snoc (fun i => s i.succ) (s 0 - ∑ i : Fin k, s i.succ)
  invFun f := Fin.cons (∑ i, f i) fun i : Fin k => f i.castSucc
  left_inv s := by
    funext i
    refine Fin.cases ?_ (fun i => ?_) i
    · simp [Fin.sum_univ_castSucc]
    · simp
  right_inv f := by
    funext i
    refine Fin.lastCases ?_ (fun i => ?_) i
    · simp [Fin.sum_univ_castSucc]
    · simp

theorem secretShareArith_scalars (hn : 1 ≤ n) : ∃ e : (Fin n → Scalar) ≃ (Fin n → Scalar),
    ∀ (s : Fin n → Scalar) (rest : Tape), ∃ rnd rng,
      ArithValueT.random (⟨rest.words, List.ofFn s ++ₛ rest.scalars⟩ : Tape) = (rnd, rng) ∧
      secretShareArith rnd n rng = some (List.ofFn (e s), rest) := by
  obtain ⟨k, rfl⟩ : ∃ k, n = k+1 := ⟨n-1, by omega⟩
  refine ⟨scalarShares k, fun s rest =>
    ⟨s 0, ⟨rest.words, (List.ofFn fun i : Fin k => s i.succ) ++ₛ rest.scalars⟩, ?_, ?_⟩⟩
  · rw [List.ofFn_succ]
    rfl
  · have hdraws := draws_scalars (List.ofFn fun i : Fin k => s i.succ) rest.words rest.scalars
    rw [List.length_ofFn] at hdraws
    obtain ⟨shares, hshares, -, hsum⟩ := secretShareArith_eq hn (s 0)
      (⟨rest.words, (List.ofFn fun i : Fin k => s i.succ) ++ₛ rest.scalars⟩ : Tape)
    rw [Nat.add_sub_cancel, hdraws] at hshares
    rw [hshares]
    rw [secretShareArith, if_neg (Nat.succ_ne_zero k), Nat.add_sub_cancel, hdraws] at hshares
    obtain rfl := (Prod.mk.inj (Option.some.inj hshares)).1
    rw [List.sum_append, List.sum_singleton, List.sum_ofFn, ← eq_sub_iff_add_eq'] at hsum
    rw [hsum, scalarShares, Equiv.coe_fn_mk, List.ofFn_succ']
    simp

end Shares
variable {n : ℕ}

/-- The part of a query's cells that fixes what all servers but `j` see: all words, and the other shares of the
randomness. -/
abbrev Seen (n : ℕ) (j : Fin n) : Type := (Fin (n-1) → U32) × (Fin (n-1) → U32) × ({i : Fin n // i ≠ j} → Scalar)

/-- What remains of the cells is one share of the randomness. -/
def Cells.split (e : (Fin n → Scalar) ≃ (Fin n → Scalar)) (j : Fin n) : Cells n ≃ Seen n j × Scalar where
  toFun x :=
    ((x.column, x.row, (Equiv.funSplitAt j Scalar (e x.scalars)).2), (Equiv.funSplitAt j Scalar (e x.scalars)).1)
  invFun y := ⟨y.1.1, y.1.2.1, e.symm ((Equiv.funSplitAt j Scalar).symm (y.2, y.1.2.2))⟩
  left_inv x := by
    change Cells.mk _ _ (e.symm ((Equiv.funSplitAt j Scalar).symm (Equiv.funSplitAt j Scalar (e x.scalars)))) = x
    rw [Equiv.symm_apply_apply, Equiv.symm_apply_apply]
  right_inv y := by simp only [Equiv.apply_symm_apply]

theorem Cells.split_scalars (e : (Fin n → Scalar) ≃ (Fin n → Scalar)) (j : Fin n) (x : Cells n) :
    (Equiv.funSplitAt j Scalar).symm ((split e j x).2, (split e j x).1.2.2) = e x.scalars :=
  (Equiv.funSplitAt j Scalar).symm_apply_apply _

instance : Finite (Cells n) := by
  have hword : Finite U32 := Finite.of_injective BitVec.toFin fun _ _ h => BitVec.eq_of_toFin_eq h
  refine Finite.of_injective (fun x : Cells n => (x.column, x.row, x.scalars)) fun x y h => ?_
  obtain ⟨h1, h2, h3⟩ : x.column = y.column ∧ x.row = y.row ∧ x.scalars = y.scalars := by simpa using h
  obtain ⟨_, _, _⟩ := x
  obtain rfl := h1
  obtain rfl := h2
  obtain rfl := h3
  rfl

noncomputable instance : Fintype (Cells n) := Fintype.ofFinite _

instance : Nonempty (Cells n) := ⟨⟨fun _ => 0, fun _ => 0, fun _ => 0⟩⟩

/-- One word of each Boolean sharing is changed. -/
def Seen.shift (j : Fin n) (d1 d2 : U32) : Seen n j ≃ Seen n j :=
  Equiv.prodCongr ((shiftWord_involutive j d1).toPerm _)
    (Equiv.prodCongr ((shiftWord_involutive j d2).toPerm _) (.refl _))

namespace PRCClient

/-- The queries for an index as a function of the cells, with server `j`'s shares of both halves of the index. -/
structure Asking (c : PRCClient) (m1 m2 idx : ℕ) (j : Fin c.partyNum)
    (split : Cells c.partyNum ≃ Seen c.partyNum j × Scalar) where
  query : Seen c.partyNum j → Scalar → Fin c.partyNum → PRCQuery
  own : Seen c.partyNum j → BooleanValue × BooleanValue
  own_len : ∀ a, (own a).1.bitLen = m1 ∧ (own a).2.bitLen = m2
  own_eq : ∀ a r, query a r j = ⟨(own a).1, (own a).2, r⟩
  queries_eq : ∀ x rest, ∃ st,
    c.queryAllServers idx (x.tape rest) = some ((st, List.ofFn (query (split x).1 (split x).2)), rest)

variable {c : PRCClient} {m1 m2 idx idx' : ℕ}

/-- For any two indices the words can be changed such that the queries of all servers but `j` stay the same. -/
theorem exists_asking (hn : 1 ≤ c.partyNum) (hparty : c.sysConf.getPartyNum = c.partyNum) (h1 : c.dbConf.l1Dim = 2^m1)
    (h2 : c.dbConf.l2Dim = 2^m2) (hm1 : m1 < 32) (hm2 : m2 < 32) (hidx : idx < 2^m1*2^m2) (hidx' : idx' < 2^m1*2^m2)
    (j : Fin c.partyNum) : ∃ split, ∃ (A : c.Asking m1 m2 idx j split) (A' : c.Asking m1 m2 idx' j split)
      (shift : Seen c.partyNum j ≃ Seen c.partyNum j), ∀ a r r' i, i ≠ j → A.query a r i = A'.query (shift a) r' i := by
  obtain ⟨e, he⟩ := secretShareArith_scalars hn
  -- the queries for one index
  have hask : ∀ idx < 2^m1*2^m2, ∃ x1 x2 : BooleanValue, x1.bitLen = m1 ∧ x2.bitLen = m2 ∧
      ∃ f g : (Fin (c.partyNum-1) → U32) → Fin c.partyNum → BooleanValue,
        (∀ w (rest : Tape), secretShareBoolean x1 c.partyNum (⟨List.ofFn w ++ₛ rest.words, rest.scalars⟩ : Tape) =
          some (List.ofFn (f w), rest)) ∧
        (∀ w (rest : Tape), secretShareBoolean x2 c.partyNum (⟨List.ofFn w ++ₛ rest.words, rest.scalars⟩ : Tape) =
          some (List.ofFn (g w), rest)) ∧
        ∃ A : c.Asking m1 m2 idx j (Cells.split e j),
          A.query = fun a r i => ⟨f a.1 i, g a.2.1 i, (Equiv.funSplitAt j Scalar).symm (r, a.2.2) i⟩ := by
    intro idx hidx
    obtain ⟨x1, x2, hpos, hx1, hx2, hlen1, hlen2, -⟩ := index_halves h1 h2 hm1 hm2 hidx
    obtain ⟨f, hflen, hf⟩ := secretShareBoolean_words hn (x := x1) (by omega)
    obtain ⟨g, hglen, hg⟩ := secretShareBoolean_words hn (x := x2) (by omega)
    refine ⟨x1, x2, hlen1, hlen2, f, g, hf, hg, ⟨_, fun a => (f a.1 j, g a.2.1 j),
      fun a => ⟨(hflen _ _).trans hlen1, (hglen _ _).trans hlen2⟩, fun a r => by simp, fun x rest => ?_⟩, rfl⟩
    obtain ⟨rnd, rng, hrnd, hh⟩ := he x.scalars rest
    have hquery := (queryAllServers_of hpos hx1 hx2
      (hf x.column ⟨List.ofFn x.row ++ₛ rest.words, List.ofFn x.scalars ++ₛ rest.scalars⟩)
      (hg x.row ⟨rest.words, List.ofFn x.scalars ++ₛ rest.scalars⟩) hrnd hh).1 hparty.le
    rw [List.ofFn_congr hparty] at hquery
    refine ⟨⟨ArithValueT.fromU32 (BitVec.ofNat 32 idx), rnd⟩, hquery.trans ?_⟩
    rw [Cells.split_scalars]
    rfl
  obtain ⟨x1, x2, hx1, hx2, f, g, hf, hg, A, hA⟩ := hask idx hidx
  obtain ⟨y1, y2, hy1, hy2, f', g', hf', hg', A', hA'⟩ := hask idx' hidx'
  refine ⟨_, A, A', Seen.shift j (x1.value ^^^ y1.value) (x2.value ^^^ y2.value), fun a r r' i hi => ?_⟩
  have hcol := shares_shifted hn (hy1.trans hx1.symm) (by omega) hf hf' j a.1 i hi
  have hrow := shares_shifted hn (hy2.trans hx2.symm) (by omega) hg hg' j a.2.1 i hi
  rw [hA, hA']
  simp [hcol, hrow, hi, Seen.shift]

/-- Queries for indices, one after the other. -/
def askAll {R : Type} [ScalarRng R] (c : PRCClient) : List ℕ → R → Option (List (List PRCQuery) × R)
  | [], rng => some ([], rng)
  | idx :: idxs, rng => do
    let ((_, queries), rng) ← c.queryAllServers idx rng
    let (rest, rng) ← c.askAll idxs rng
    some (queries :: rest, rng)

/-- All that the servers but number `j` see of a session: the queries they get, and what server `j` broadcasts in
between what they send to it. -/
def sessionView {R SK VK Sig : Type} [ScalarRng R] {G : Type} [AddCommGroup G] [Module Scalar G] [Ristretto G]
    [Ed25519 SK VK Sig] (c : PRCClient) (j : ℕ) (S : PRCServer SK VK) (adv : List (List PRCQuery) → Adversary (Msg G))
    (idxs : List ℕ) (rng : R) : Option (List (List PRCQuery) × List (Rounds.Event (Msg G)) × Ending) := do
  let (queries, _) ← c.askAll idxs rng
  let own ← queries.mapM fun query => query[j]?
  let others := queries.map fun query => query.eraseIdx j
  let answers : Party G (List (Bool × Option (PRCToken G Sig)) × PRCServer SK VK) := S.serve own
  some (others, answers.view (adv others) [])

section Session
variable {q : ℕ} {idxs : Fin q → ℕ}

theorem askAll_eq {x : Fin q → Cells c.partyNum} {Q : Fin q → Fin c.partyNum → PRCQuery} (rest : Tape)
    (hQ : ∀ k rest, ∃ st, c.queryAllServers (idxs k) ((x k).tape rest) = some ((st, List.ofFn (Q k)), rest)) :
    c.askAll (List.ofFn idxs) ((List.ofFn x).foldr Cells.tape rest) =
      some (List.ofFn fun k => List.ofFn (Q k), rest) := by
  induction q with
  | zero => rfl
  | succ q ih =>
    obtain ⟨st, hst⟩ := hQ 0 ((List.ofFn fun k : Fin q => x k.succ).foldr Cells.tape rest)
    have htail := ih (x := fun k => x k.succ) (Q := fun k => Q k.succ) fun k rest => hQ k.succ rest
    rw [List.ofFn_succ, List.ofFn_succ, List.ofFn_succ, List.foldr_cons]
    simp only [askAll, hst, htail, Option.bind_eq_bind, Option.bind_some]

variable {SK VK Sig G : Type} [AddCommGroup G] [Module Scalar G] [Ristretto G] [Ed25519 SK VK Sig] {S : PRCServer SK VK}
  {j : Fin c.partyNum} {adv : List (List PRCQuery) → Adversary (Msg G)}

theorem sessionView_eq {x : Fin q → Cells c.partyNum} {Q : Fin q → Fin c.partyNum → PRCQuery} (rest : Tape)
    (hQ : ∀ k rest, ∃ st, c.queryAllServers (idxs k) ((x k).tape rest) = some ((st, List.ofFn (Q k)), rest)) :
    c.sessionView j S adv (List.ofFn idxs) ((List.ofFn x).foldr Cells.tape rest) =
      some (List.ofFn fun k => (List.ofFn (Q k)).eraseIdx j,
        (S.serve (List.ofFn fun k => Q k j) : Party G (List (Bool × Option (PRCToken G Sig)) × _)).view
          (adv (List.ofFn fun k => (List.ofFn (Q k)).eraseIdx j)) []) := by
  have hown : (List.ofFn fun k => List.ofFn (Q k)).mapM (fun query => query[(j : ℕ)]?) =
      some (List.ofFn fun k => Q k j) :=
    mapM_eq_some (List.forall₂_iff_get.mpr ⟨by simp, fun k hk hk' => by simp⟩)
  simp only [sessionView, askAll_eq rest hQ, Option.bind_eq_bind, Option.bind_some, hown, List.map_ofFn]
  rfl

/-- Without one entry, two lists are the same if they differ there only. -/
theorem eraseIdx_ofFn {A : Type} {n : ℕ} {f g : Fin n → A} {j : Fin n} (h : ∀ i, i ≠ j → f i = g i) :
    (List.ofFn f).eraseIdx j = (List.ofFn g).eraseIdx j := by
  refine List.ext_getElem (by simp [List.length_eraseIdx]) fun k hk hk' => ?_
  rw [List.getElem_eraseIdx, List.getElem_eraseIdx]
  split_ifs with hlt
  · rw [List.getElem_ofFn, List.getElem_ofFn, h _ fun heq => by rw [← heq] at hlt; simp at hlt]
  · rw [List.getElem_ofFn, List.getElem_ofFn, h _ fun heq => by rw [← heq] at hlt; simp at hlt]

/-- All that is random in a session, as far as the one server is concerned that keeps to the protocol. -/
abbrev Coins (n m t q : ℕ) : Type := (Fin q → Cells n) × Block m × (Fin t → Bool)

/-- The cells of all queries and the masks of the server's material: one part of them is what the others see in their
queries, and the rest hides the indices. -/
def splitSession {c : PRCClient} {j : Fin c.partyNum} (split : Fin q → (Cells c.partyNum ≃ Seen c.partyNum j × Scalar))
    (m t : ℕ) : Coins c.partyNum m t q ≃ (Fin q → Seen c.partyNum j) × Secrets m t q where
  toFun p := (fun k => (split k (p.1 k)).1, p.2.1, p.2.2, fun k => (split k (p.1 k)).2)
  invFun y := (fun k => (split k).symm (y.1 k, y.2.2.2 k), y.2.1, y.2.2.1)
  left_inv p := by simp
  right_inv y := by simp

variable {s used bits taken : ℕ} {db : PRCDatabase} {pc : Bool} {O : OtherShares} {cell : ℕ → ℕ → ℕ → Bool}
  {idxs' : Fin q → ℕ}

section Asked
variable {split : Fin q → (Cells c.partyNum ≃ Seen c.partyNum j × Scalar)}
  {A : ∀ k, c.Asking m1 m2 (idxs k) j (split k)} {A' : ∀ k, c.Asking m1 m2 (idxs' k) j (split k)}

/-- What the others are asked depends neither on the indices nor on the shares of server `j`. -/
theorem others_eq {shift : Fin q → (Seen c.partyNum j ≃ Seen c.partyNum j)}
    (hshift : ∀ k a r r' i, i ≠ j → (A k).query a r i = (A' k).query (shift k a) r' i) (a : Fin q → Seen c.partyNum j)
    (r r' : Fin q → Scalar) : (List.ofFn fun k => (List.ofFn ((A k).query (a k) (r k))).eraseIdx j) =
      List.ofFn fun k => (List.ofFn ((A' k).query (shift k (a k)) (r' k))).eraseIdx j :=
  congrArg List.ofFn (funext fun k => eraseIdx_ofFn fun i hi => hshift k _ _ _ i hi)

theorem serves_split {m t : ℕ} {x : Coins c.partyNum m t q} (hidle : O.Idle db pc s used m S x.2.1)
    (hdabits : O.DaBits bits taken t S.mpcProvider.dabitProvider x.2.2) :
    O.Serves db pc s used bits taken m t (fun k => (A k).own (split k (x.1 k)).1)
      (S, fun k => (A k).query (split k (x.1 k)).1 (split k (x.1 k)).2 j) (splitSession split m t x).2 :=
  ⟨hidle, hdabits, fun k => (A k).own_eq _ _⟩

end Asked

/-- For any indices there is a bijection of everything random under which all other servers see the same. -/
theorem exists_sessionView_eq (hparty : c.sysConf.getPartyNum = c.partyNum)
    (h1 : c.dbConf.l1Dim = 2^m1) (h2 : c.dbConf.l2Dim = 2^m2) (hm : Servable m1 m2)
    (hdb : db.Holds 1 (2^m2) (2^m1) cell) (hG : Commitment.Spanned G)
    {S : Block (q*queryBytes m1 m2) → (Fin (q*(m1+m2+1)) → Bool) → PRCServer SK VK}
    (hS : ∀ B w, O.Idle db pc s used (q*queryBytes m1 m2) (S B w) B ∧
      O.DaBits bits taken (q*(m1+m2+1)) (S B w).mpcProvider.dabitProvider w)
    (hroom : used + q*queryBytes m1 m2 ≤ (s+7)/8) (hbits : taken + q*(m1+m2+1) ≤ bits)
    (hidxs : ∀ k, idxs k < 2^m1*2^m2) (hidxs' : ∀ k, idxs' k < 2^m1*2^m2) (j : Fin c.partyNum)
    (adv : List (List PRCQuery) → Adversary (Msg G)) (rest : Tape) :
    ∃ e : Coins c.partyNum (q*queryBytes m1 m2) (q*(m1+m2+1)) q ≃ Coins c.partyNum _ _ q, ∀ x, ∃ seen,
      c.sessionView j (S x.2.1 x.2.2) adv (List.ofFn idxs) ((List.ofFn x.1).foldr Cells.tape rest) = some seen ∧
      c.sessionView j (S (e x).2.1 (e x).2.2) adv (List.ofFn idxs') ((List.ofFn (e x).1).foldr Cells.tape rest) =
        some seen := by
  have hsum := hm.sum_le
  have hone := hm.one_le
  have hle := hm.le
  choose split A A' shift hshift using fun k =>
    exists_asking j.pos hparty h1 h2 (by omega) (by omega) (hidxs k) (hidxs' k) j
  let others : (Fin q → Seen c.partyNum j) → List (List PRCQuery) := fun a =>
    List.ofFn fun k => (List.ofFn ((A k).query (a k) 0)).eraseIdx j
  have hothers : ∀ (a : Fin q → Seen c.partyNum j) (r : Fin q → Scalar),
      (List.ofFn fun k => (List.ofFn ((A k).query (a k) (r k))).eraseIdx j) = others a := fun a r =>
    (others_eq hshift a r 0).trans (others_eq hshift a 0 0).symm
  -- the queries of the others are fixed, and with them what they send
  have hserve : ∀ a : Fin q → Seen c.partyNum j, ∃ e : Secrets (q*queryBytes m1 m2) (q*(m1+m2+1)) q ≃ Secrets _ _ q,
      ∀ ω (x x' : Queue SK VK q),
        O.Serves db pc s used bits taken (q*queryBytes m1 m2) (q*(m1+m2+1)) (fun k => (A k).own (a k)) x ω →
        O.Serves db pc s used bits taken (q*queryBytes m1 m2) (q*(m1+m2+1)) (fun k => (A' k).own (shift k (a k))) x'
          (e ω) →
        (x.1.serve (List.ofFn x.2) : Party G (List (Bool × Option (PRCToken G Sig)) × _)).view (adv (others a)) [] =
          (x'.1.serve (List.ofFn x'.2) : Party G (List (Bool × Option (PRCToken G Sig)) × _)).view (adv (others a))
            [] := fun a =>
    (PRCServer.serve_hides hdb hG hm (fun k => (A k).own_len _) (fun k => (A' k).own_len _) rfl rfl hroom hbits).view_eq
  choose e he using hserve
  refine ⟨(splitSession split _ _).trans
    ((Equiv.prodShear (Equiv.piCongrRight shift) e).trans (splitSession split _ _).symm), fun x => ?_⟩
  generalize hx' : ((splitSession split _ _).trans
    ((Equiv.prodShear (Equiv.piCongrRight shift) e).trans (splitSession split _ _).symm)) x = x'
  have hsplit : splitSession split _ _ x' = (fun k => shift k (split k (x.1 k)).1,
      e (splitSession split _ _ x).1 (splitSession split _ _ x).2) := by
    rw [← hx', Equiv.trans_apply, Equiv.trans_apply, Equiv.apply_symm_apply]
    rfl
  have hseen : ∀ k, (split k (x'.1 k)).1 = shift k (split k (x.1 k)).1 := congrFun (congrArg Prod.fst hsplit)
  have hsecrets : (splitSession split _ _ x').2 = e (fun k => (split k (x.1 k)).1) (splitSession split _ _ x).2 :=
    congrArg Prod.snd hsplit
  have hx : O.Serves db pc s used bits taken _ _ _ _ _ := serves_split (A := A) (x := x) (hS _ _).1 (hS _ _).2
  have hy : O.Serves db pc s used bits taken _ _ _ _ _ := serves_split (A := A') (x := x') (hS _ _).1 (hS _ _).2
  rw [hsecrets] at hy
  simp only [hseen] at hy
  have hown := he _ _ _ _ hx hy
  refine ⟨_, sessionView_eq rest fun k rest => (A k).queries_eq (x.1 k) rest, ?_⟩
  rw [sessionView_eq rest fun k rest => (A' k).queries_eq (x'.1 k) rest, hothers]
  simp only [hseen]
  rw [← others_eq hshift _ 0]
  exact congrArg (fun w => some (_, w)) hown.symm

/-- All servers but one, whatever they do together, see a session with some indices exactly as they see one with any
others. The remaining server's material is only assumed to complete what they hold. -/
theorem session_private (hparty : c.sysConf.getPartyNum = c.partyNum)
    (h1 : c.dbConf.l1Dim = 2^m1) (h2 : c.dbConf.l2Dim = 2^m2) (hm : Servable m1 m2)
    (hdb : db.Holds 1 (2^m2) (2^m1) cell) (hG : Commitment.Spanned G)
    {S : Block (q*queryBytes m1 m2) → (Fin (q*(m1+m2+1)) → Bool) → PRCServer SK VK}
    (hS : ∀ B w, O.Idle db pc s used (q*queryBytes m1 m2) (S B w) B ∧
      O.DaBits bits taken (q*(m1+m2+1)) (S B w).mpcProvider.dabitProvider w)
    (hroom : used + q*queryBytes m1 m2 ≤ (s+7)/8) (hbits : taken + q*(m1+m2+1) ≤ bits)
    (hidxs : ∀ k, idxs k < 2^m1*2^m2) (hidxs' : ∀ k, idxs' k < 2^m1*2^m2) (j : Fin c.partyNum)
    (adv : List (List PRCQuery) → Adversary (Msg G)) (rest : Tape) :
    let view (l : List ℕ) (x : Coins c.partyNum (q*queryBytes m1 m2) (q*(m1+m2+1)) q) :=
      c.sessionView j (S x.2.1 x.2.2) adv l ((List.ofFn x.1).foldr Cells.tape rest)
    (∀ x, (view (List.ofFn idxs) x).isSome) ∧
      (PMF.uniformOfFintype _).map (view (List.ofFn idxs)) = (PMF.uniformOfFintype _).map (view (List.ofFn idxs')) := by
  intro view
  obtain ⟨e, he⟩ := exists_sessionView_eq hparty h1 h2 hm hdb hG hS hroom hbits hidxs hidxs' j adv rest
  refine ⟨fun x => ?_, ?_⟩
  · obtain ⟨seen, hseen, -⟩ := he x
    rw [show view (List.ofFn idxs) x = some seen from hseen]
    rfl
  · have hview : view (List.ofFn idxs) = view (List.ofFn idxs') ∘ e := funext fun x => by
      obtain ⟨seen, hseen, hseen'⟩ := he x
      exact hseen.trans hseen'.symm
    rw [hview, ← PMF.map_comp, uniform_map_equiv]

/-- Two servers, of which the second one attacks, and two queries each. -/
theorem session_private_two :
    let c : PRCClient := ⟨2, smallSystem.dbConfig, smallSystem⟩
    ∃ S : Block (2*queryBytes 3 1) → (Fin (2*(3+1+1)) → Bool) → PRCServer Scalar Scalar,
      ∀ (adv : List (List PRCQuery) → Adversary (Msg Scalar)) (rest : Tape),
        let view (l : List ℕ) (x : Coins 2 (2*queryBytes 3 1) (2*(3+1+1)) 2) :=
          c.sessionView 0 (S x.2.1 x.2.2) adv l ((List.ofFn x.1).foldr Cells.tape rest)
        (∀ x, (view [3, 9] x).isSome) ∧
          (PMF.uniformOfFintype _).map (view [3, 9]) = (PMF.uniformOfFintype _).map (view [12, 0]) := by
  intro c
  obtain ⟨S, hS⟩ := smallSystem_started
  obtain ⟨db, cell, -, -, hdb, -⟩ := hS.serving (show smallSystem.dbConfig.l1Dim = 2^3 from rfl)
    (show smallSystem.dbConfig.l2Dim = 2^1 from rfl)
  let O : OtherShares := ⟨fun _ => true, fun _ => false, fun _ => false, fun _ => true, fun _ => 5⟩
  have hpos : 0 < 2*queryBytes 3 1 := by
    rw [queryBytes]
    omega
  choose bp dp hbp hdp using fun (B : Block (2*queryBytes 3 1)) (w : Fin (2*(3+1+1)) → Bool) =>
    O.exists_material hpos (fun _ _ => rfl) B w
  have hG : Commitment.Spanned Scalar := ⟨⟨1+1, mul_one _⟩, ⟨1, mul_one _⟩⟩
  let server : Block (2*queryBytes 3 1) → (Fin (2*(3+1+1)) → Bool) → PRCServer Scalar Scalar := fun B w =>
    ⟨0, smallSystem, db, 7, .new true (bp B w) (dp B w), 7⟩
  have hstock : ∀ B w, O.Idle db true (8*(2*queryBytes 3 1)) 0 (2*queryBytes 3 1) (server B w) B ∧
      O.DaBits (2*(3+1+1)) 0 (2*(3+1+1)) (server B w).mpcProvider.dabitProvider w := fun B w =>
    ⟨⟨rfl, rfl, rfl, hbp B w⟩, hdp B w⟩
  refine ⟨server, fun adv rest => ?_⟩
  exact session_private (c := c) rfl (show c.dbConf.l1Dim = 2^3 from rfl) (show c.dbConf.l2Dim = 2^1 from rfl)
    ⟨by decide, by decide, by decide⟩ hdb hG hstock (by omega) (by omega)
    (show ∀ k : Fin 2, ![3, 9] k < 2^3*2^1 by decide) (show ∀ k : Fin 2, ![12, 0] k < 2^3*2^1 by decide)
    ⟨0, by decide⟩ adv rest

end Session
end PRCClient
end PrivRecCert.Prc
