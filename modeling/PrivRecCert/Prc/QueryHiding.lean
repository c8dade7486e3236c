import PrivRecCert.Prc.OneTimePad
import PrivRecCert.Prc.RetrieveHiding

/-! Queries of a party whose peers all work together against it. After the retrieval the index and the record bit are
blinded by daBits, and their arithmetic shares by the randomness of the commitment. -/
namespace PrivRecCert.Prc
open CorRnd SimdArray BitArray Rounds Sharing
open scoped BigOperators

/-- The provider holds daBits that go with those of the others. The next `t` of its bits are `w`. -/
structure OtherShares.DaBits (O : OtherShares) (bits used t : ℕ) (dp : DaBitProvider) (w : Fin t → Bool) : Prop where
  storage : ∃ l, dp.Holds l used ∧ l.length = bits ∧ (∀ k d, l[k]? = some d → d.rZp = O.ownRZp k d.rZ2) ∧
    ∀ k : Fin t, ConvLayer.maskBit l used k = w k

namespace ConvLayer
variable {G : Type} {adv : Adversary (Msg G)} {h : List (Rounds.Event (Msg G))} {O : OtherShares} {c : ConvLayer}
  {bvs bvs' : List BooleanValue} {l : List DaBit} {bits used t : ℕ} {w : Fin t → Bool} {dp : DaBitProvider}

theorem values_congr {f g : ℕ → Scalar} {bvs : List BooleanValue} {current : ℕ}
    (hfg : ∀ k < current + totalBits bvs, f k = g k) : values f bvs current = values g bvs current := by
  induction bvs generalizing current with
  | nil => rfl
  | cons bv bvs ih =>
    rw [totalBits_cons, ← Nat.add_assoc] at hfg
    rw [values, values, ih hfg]
    congr 1
    refine Finset.sum_congr rfl fun i hi => ?_
    have hlt := Finset.mem_range.mp hi
    rw [hfg (current + i) (by omega)]

theorem values_length (f : ℕ → Scalar) (bvs : List BooleanValue) (current : ℕ) :
    (values f bvs current).length = bvs.length := by
  induction bvs generalizing current with
  | nil => rfl
  | cons bv bvs ih => rw [values, List.length_cons, List.length_cons, ih]

/-- The bits that are given, and nothing after them. -/
def extend (w : Fin t → Bool) (k : ℕ) : Bool := if h : k < t then w ⟨k, h⟩ else false

/-- The arithmetic shares that are made of opened bits, in terms of the daBits. -/
def outcome (O : OtherShares) (c : ConvLayer) (used : ℕ) (bvs : List BooleanValue) (w : Fin t → Bool) (f : BitArray) :
    List ArithValueT :=
  values (fun k => bitShare c.partyConst (O.ownRZp (used + k) (extend w k)) (f.bit k)) bvs 0

/-- What is broadcast, and what is made of the lists that come in, in terms of the daBits. -/
theorem interact_masked (htotal : totalBits bvs = t) (hpos : 0 < t) (hroom : used + t ≤ bits)
    (hdp : O.DaBits bits used t dp w) : ∃ (e : BitArray) (dp' : DaBitProvider) (k : List (Msg G) → Party G _),
      (c.interact bvs dp : Party G _) = .send (.dabit e) (.recv .dabit k) ∧ e.Represents t (extend (padBits bvs t w)) ∧
      ∀ msgs, k msgs = .lift ((msgs.mapM Msg.asDabit).bind e.inplaceReconstruct) >>= fun f =>
        .ret (outcome O c used bvs w f, dp') := by
  obtain ⟨l, hl, hlen, hown, hw⟩ := hdp.storage
  subst htotal
  have hfit : used + totalBits bvs ≤ l.length := hlen.symm ▸ hroom
  obtain ⟨e, dp', hinteract, he, -⟩ := interact_eq (G := G) (c := c) hl hpos hfit
  refine ⟨e, dp', _, hinteract, he.congr fun k => ?_, fun msgs => ?_⟩
  · rw [blinded, extend]
    by_cases hk : k < totalBits bvs
    · rw [if_pos hk, dif_pos hk]
      exact congrArg (flatBits bvs k ^^ ·) (hw ⟨k, hk⟩)
    · rw [if_neg hk, dif_neg hk]
  · rw [finish]
    cases hmap : msgs.mapM Msg.asDabit with
    | none => rfl
    | some shares =>
      rw [Proc.lift_some, Proc.ret_bind, Option.bind_some]
      cases hrec : e.inplaceReconstruct shares with
      | none => rfl
      | some f =>
        obtain ⟨f', hf', hA⟩ := reconstruct_alike (he.alike he) hrec
        obtain rfl : f = f' := Option.some.inj (hrec.symm.trans hf')
        have hfr : f.Represents (totalBits bvs) f.bit :=
          ⟨hA.right, hA.bitSize_eq.symm.trans he.bitSize_eq, fun _ => rfl⟩
        rw [Proc.lift_some, Proc.ret_bind, recombine_eq hfr hfit (by omega)]
        have houtcome : values (fun k => bitShare c.partyConst (maskValue l used k) (f.bit k)) bvs 0 =
            outcome O c used bvs w f := by
          refine values_congr fun k hk => ?_
          rw [Nat.zero_add] at hk
          have hget := taken_getElem? hfit hk
          rw [List.getElem?_take_of_lt hk, List.getElem?_drop] at hget
          rw [show maskValue l used k = _ from hown _ _ hget, extend, dif_pos hk, ← hw ⟨k, hk⟩]
        rw [houtcome]
        rfl

/-- Conversions of values of the same lengths look the same. -/
theorem interact_hides (htotal : totalBits bvs = t) (htotal' : totalBits bvs' = t) (hpos : 0 < t)
    (hroom : used + t ≤ bits) :
    Hides adv (O.DaBits bits used t) (O.DaBits bits used t) Prod.fst Prod.fst
      (fun arith arith' => arith.length = bvs.length ∧ arith'.length = bvs'.length) h (fun dp => c.interact bvs dp)
      fun dp => c.interact bvs' dp := by
  refine .exchange ((padBits bvs t).trans (padBits bvs' t)) .dabit fun w dp₀ dp₀' hdp₀ hdp₀' => ?_
  have hpad : padBits bvs' t (((padBits bvs t).trans (padBits bvs' t)) w) = padBits bvs t w :=
    (padBits bvs' t).left_inv _
  generalize ((padBits bvs t).trans (padBits bvs' t)) w = w' at hdp₀' hpad ⊢
  obtain ⟨e, _, _, -, he, -⟩ := interact_masked (G := G) (c := c) htotal hpos hroom hdp₀
  refine ⟨.dabit e, fun msgs => ⟨((msgs.mapM Msg.asDabit).bind e.inplaceReconstruct).map fun f =>
    (outcome O c used bvs w f, outcome O c used bvs' w' f), fun arith arith' heq => ?_, fun dp hdp => ?_,
    fun dp hdp => ?_⟩⟩
  · obtain ⟨f, -, heq⟩ := Option.map_eq_some_iff.mp heq
    obtain ⟨rfl, rfl⟩ := Prod.mk.inj heq
    exact ⟨values_length _ _ _, values_length _ _ _⟩
  · obtain ⟨e₁, dp', k, hinteract, he₁, hk⟩ := interact_masked (G := G) (c := c) htotal hpos hroom hdp
    obtain rfl := he₁.unique he
    refine ⟨k, hinteract, ?_⟩
    rw [hk]
    exact Proc.ends_lift (Option.map_map _ _ _)
  · obtain ⟨e₁, dp', k, hinteract, he₁, hk⟩ := interact_masked (G := G) (c := c) htotal' hpos hroom hdp
    rw [hpad] at he₁
    obtain rfl := he₁.unique he
    refine ⟨k, hinteract, ?_⟩
    rw [hk]
    exact Proc.ends_lift (Option.map_map _ _ _)

end ConvLayer

namespace Commitment
variable {G : Type} [AddCommGroup G] [Module Scalar G] [Ristretto G]

/-- The group is the one that the base point generates, as far as commitments need it. -/
structure Spanned (G : Type) [AddCommGroup G] [Module Scalar G] [Ristretto G] : Prop where
  g1tIdx : ∃ t : Scalar, t • (Ristretto.basepoint : G) = Ristretto.g1tIdx
  g2tResp : ∃ t : Scalar, t • (Ristretto.basepoint : G) = Ristretto.g2tResp

/-- A commitment to one pair of values is one to any other pair, with other randomness. -/
theorem commit_hiding (hG : Spanned G) (idx resp idx' resp' : Scalar) :
    ∃ d : Scalar, ∀ rnd, (commit ⟨rnd, idx, resp⟩ : Commitment G) = commit ⟨rnd + d, idx', resp'⟩ := by
  obtain ⟨t₁, ht₁⟩ := hG.g1tIdx
  obtain ⟨t₂, ht₂⟩ := hG.g2tResp
  refine ⟨(idx - idx') * t₁ + (resp - resp') * t₂, fun rnd => ?_⟩
  simp only [commit, ← ht₁, ← ht₂, smul_smul, ← add_smul]
  congr 2
  ring

end Commitment

/-- The server is about to certify what it has retrieved for these shares of an index. -/
structure OtherShares.Certifying {SK VK : Type} (O : OtherShares) (pc : Bool) (bits used t : ℕ) (l1 l2 : BooleanValue)
    (x : PRCServer SK VK × PRCQuery) (ω : (Fin t → Bool) × Scalar) : Prop where
  partyConst_eq : x.1.mpcProvider.partyConst = pc
  dabits : O.DaBits bits used t x.1.mpcProvider.dabitProvider ω.1
  l1_eq : x.2.l1Bss = l1
  l2_eq : x.2.l2Bss = l2
  rnd_eq : x.2.rndAss = ω.2

namespace PRCServer
variable {SK VK Sig G : Type} [AddCommGroup G] [Module Scalar G] [Ristretto G] [Ed25519 SK VK Sig]
  {adv : Adversary (Msg G)} {h : List (Rounds.Event (Msg G))} {O : OtherShares} {pc : Bool}
  {m1 m2 bits used : ℕ} {l1 l2 l1' l2' : BooleanValue}

/-- What `certify` does after the conversion. -/
def commitTo (S : PRCServer SK VK) (query : PRCQuery) (r : List ArithValueT × DaBitProvider) :
    Party G (Option (PRCToken G Sig) × PRCServer SK VK) := do
  let mpc := { S.mpcProvider with dabitProvider := r.2 }
  let opening : Opening := ⟨query.rndAss, ← .lift r.1[0]?, ← .lift r.1[1]?⟩
  let aggCommit ← mpc.aggregateCommitments (.commit opening : Commitment G)
  return (aggCommit.map fun commit => ⟨none, Ed25519.sign S.sk commit.serialize⟩, { S with mpcProvider := mpc })

theorem certify_eq {S : PRCServer SK VK} {query : PRCQuery} {joined record : BooleanValue} {share : Bool}
    (hjoined : joinBoolean query.l1Bss query.l2Bss = some joined)
    (hrecord : BooleanValue.new 1 (BitVec.ofNat 32 share.toNat) = some record) :
    (S.certify query share : Party G (Option (PRCToken G Sig) × _)) =
      (ConvLayer.mk S.mpcProvider.partyConst).interact [joined, record] S.mpcProvider.dabitProvider >>=
        S.commitTo query := by
  rw [certify, hjoined, hrecord, Proc.lift_some, Proc.ret_bind, Proc.lift_some, Proc.ret_bind, convB2A,
    MpcProvider.runConvB2A]
  simp only [Proc.bind_assoc, Proc.pure_eq, Proc.ret_bind]
  rfl

theorem commitTo_eq (S : PRCServer SK VK) (query : PRCQuery) (idx resp : ArithValueT) (dp : DaBitProvider) :
    ∃ out : List (Commitment G) → Option (PRCToken G Sig) × PRCServer SK VK, S.commitTo query ([idx, resp], dp) =
      .send (.commit (.commit ⟨query.rndAss, idx, resp⟩)) (.recv .commit fun msgs =>
        .lift (msgs.mapM Msg.asCommit) >>= fun commitments => .ret (out commitments)) :=
  ⟨fun commitments => (Option.map (fun commit => ⟨none, Ed25519.sign S.sk commit.serialize⟩)
    (if S.mpcProvider.partyConst then
      some (Commitment.aggregate (commitments ++ [Commitment.commit ⟨query.rndAss, idx, resp⟩])) else none),
    { S with mpcProvider := { S.mpcProvider with dabitProvider := dp } }), by
    refine congrArg (Proc.send _) (congrArg (Proc.recv _) (funext fun msgs => ?_))
    cases hmap : msgs.mapM Msg.asCommit with
    | none => simp [hmap, bind, Proc.bind]
    | some commitments => simp [hmap, bind, Proc.bind]⟩

/-- The randomness of a commitment hides what is committed to. -/
theorem commitTo_hides (hG : Commitment.Spanned G) {arith arith' : List ArithValueT} (hlen : arith.length = 2)
    (hlen' : arith'.length = 2) :
    Hides adv (fun (x : (PRCServer SK VK × PRCQuery) × (List ArithValueT × DaBitProvider)) r =>
        x.2.1 = arith ∧ x.1.2.rndAss = r)
      (fun (x : (PRCServer SK VK × PRCQuery) × (List ArithValueT × DaBitProvider)) r =>
        x.2.1 = arith' ∧ x.1.2.rndAss = r)
      (fun _ => ()) (fun _ => ()) (fun _ _ => True) h
      (fun x => (x.1.1.commitTo x.1.2 x.2 : Party G (Option (PRCToken G Sig) × _)))
      fun x => x.1.1.commitTo x.1.2 x.2 := by
  obtain ⟨idx, resp, rfl⟩ := List.length_eq_two.mp hlen
  obtain ⟨idx', resp', rfl⟩ := List.length_eq_two.mp hlen'
  obtain ⟨d, hd⟩ := Commitment.commit_hiding hG idx resp idx' resp'
  refine .exchange (Equiv.addRight d) .commit fun r _ _ _ _ => ⟨.commit (.commit ⟨r, idx, resp⟩), fun msgs =>
    ⟨(msgs.mapM Msg.asCommit).map fun _ => ((), ()), fun _ _ _ => trivial, fun x hx => ?_, fun x hx => ?_⟩⟩
  · obtain ⟨⟨S, query⟩, _, dp⟩ := x
    obtain ⟨rfl, rfl⟩ := hx
    obtain ⟨out, hout⟩ := commitTo_eq (G := G) S query idx resp dp
    exact ⟨_, hout, Proc.ends_lift (Option.map_map _ _ _)⟩
  · obtain ⟨⟨S, query⟩, _, dp⟩ := x
    obtain ⟨rfl, hrnd⟩ := hx
    have hrnd : query.rndAss = r + d := hrnd
    obtain ⟨out, hout⟩ := commitTo_eq (G := G) S query idx' resp' dp
    rw [hrnd, ← hd r] at hout
    exact ⟨_, hout, Proc.ends_lift (Option.map_map _ _ _)⟩

/-- Certifications of other indices and other bits look the same. -/
theorem certify_hides (hG : Commitment.Spanned G) (h1 : l1.bitLen = m1) (h2 : l2.bitLen = m2) (h1' : l1'.bitLen = m1)
    (h2' : l2'.bitLen = m2) (hm : Servable m1 m2) (hroom : used + (m1+m2+1) ≤ bits) (share share' : Bool) :
    Hides adv (O.Certifying pc bits used (m1+m2+1) l1 l2) (O.Certifying pc bits used (m1+m2+1) l1' l2') (fun _ => ())
      (fun _ => ()) (fun _ _ => True) h
      (fun x : PRCServer SK VK × PRCQuery => (x.1.certify x.2 share : Party G (Option (PRCToken G Sig) × _)))
      fun x : PRCServer SK VK × PRCQuery => x.1.certify x.2 share' := by
  have hsum := hm.sum_le
  have hone := hm.one_le
  obtain ⟨joined, hjoined, hjlen, -⟩ := joinBoolean_eq (show l1.bitLen < 32 by omega)
    (show l1.bitLen + l2.bitLen ≤ 32 by omega)
  obtain ⟨joined', hjoined', hjlen', -⟩ := joinBoolean_eq (show l1'.bitLen < 32 by omega)
    (show l1'.bitLen + l2'.bitLen ≤ 32 by omega)
  obtain ⟨record, hrecord, hrlen, -⟩ := new_bit share
  obtain ⟨record', hrecord', hrlen', -⟩ := new_bit share'
  have htotal : ConvLayer.totalBits [joined, record] = m1+m2+1 := by
    simp [ConvLayer.totalBits, hjlen, hrlen, h1, h2]
  have htotal' : ConvLayer.totalBits [joined', record'] = m1+m2+1 := by
    simp [ConvLayer.totalBits, hjlen', hrlen', h1', h2']
  have hconv : Hides adv (fun (x : PRCServer SK VK × PRCQuery) w =>
        O.DaBits bits used (m1+m2+1) x.1.mpcProvider.dabitProvider w)
      (fun (x : PRCServer SK VK × PRCQuery) w => O.DaBits bits used (m1+m2+1) x.1.mpcProvider.dabitProvider w)
      Prod.fst Prod.fst (fun arith arith' => arith.length = 2 ∧ arith'.length = 2) h
      (fun x => (ConvLayer.mk pc).interact (G := G) [joined, record] x.1.mpcProvider.dabitProvider)
      fun x => (ConvLayer.mk pc).interact [joined', record'] x.1.mpcProvider.dabitProvider :=
    (ConvLayer.interact_hides htotal htotal' (Nat.succ_pos _) hroom).comap (fun _ _ hx => hx) fun _ _ hx => hx
  have hboth : Hides adv (O.Certifying pc bits used (m1+m2+1) l1 l2) (O.Certifying pc bits used (m1+m2+1) l1' l2')
      (fun _ => ()) (fun _ => ()) (fun _ _ => True) h
      (fun x : PRCServer SK VK × PRCQuery =>
        (ConvLayer.mk pc).interact [joined, record] x.1.mpcProvider.dabitProvider >>=
        (x.1.commitTo x.2 : _ → Party G (Option (PRCToken G Sig) × _)))
      fun x : PRCServer SK VK × PRCQuery =>
        (ConvLayer.mk pc).interact [joined', record'] x.1.mpcProvider.dabitProvider >>=
        x.1.commitTo x.2 :=
    hconv.bind (Equiv.refl _) (fun arith arith' h' hlen => commitTo_hides hG hlen.1 hlen.2)
      (fun x ω hx => ⟨hx.dabits, fun _ _ => hx.rnd_eq⟩) fun x ω hx => ⟨hx.dabits, fun _ _ => hx.rnd_eq⟩
  refine hboth.congr (fun x ω hx => ?_) fun x ω hx => ?_
  · rw [certify_eq (by rw [hx.l1_eq, hx.l2_eq]; exact hjoined) hrecord, hx.partyConst_eq]
  · rw [certify_eq (by rw [hx.l1_eq, hx.l2_eq]; exact hjoined') hrecord', hx.partyConst_eq]

end PRCServer
end PrivRecCert.Prc
