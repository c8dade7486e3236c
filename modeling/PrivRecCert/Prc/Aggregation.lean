import PrivRecCert.Prc.Commitment
import Mathlib.Algebra.BigOperators.Fin
import Mathlib.GroupTheory.OrderOfElement
import Mathlib.Tactic.Abel

/-! Aggregation of commitments and of openings. Committing is linear, so the two agree whatever
the order of the commitments; and with generators of full order every coordinate of an opening is
determined by its commitment and the other two coordinates. -/
namespace PrivRecCert.Prc
open CorRnd

namespace Opening

/-- The coordinates of an aggregate are the sums of the coordinates. -/
theorem aggregate_eq {ops : List Opening} (h : ops ≠ []) : aggregate ops =
    some ⟨(ops.map rnd).sum, (ops.map idx).sum, (ops.map resp).sum⟩ := by
  have hfold : ∀ (l : List Opening) (a : Opening),
      l.foldl (fun agg op => ⟨agg.rnd + op.rnd, agg.idx + op.idx, agg.resp + op.resp⟩) a =
        ⟨a.rnd + (l.map rnd).sum, a.idx + (l.map idx).sum, a.resp + (l.map resp).sum⟩ := by
    intro l
    induction l with
    | nil => simp
    | cons b l ih =>
      intro a
      rw [List.foldl_cons, ih]
      simp [add_assoc]
  cases ops with
  | nil => exact absurd rfl h
  | cons first rest => rw [aggregate, hfold, List.map_cons, List.map_cons, List.map_cons, List.sum_cons,
      List.sum_cons, List.sum_cons]

end Opening

namespace Commitment
variable {G : Type} [AddCommGroup G] [Module Scalar G]

/-- A scalar multiple of a point of full order determines the scalar. -/
theorem smul_cancel {g : G} (hg : addOrderOf g = groupOrder) {r s : Scalar} (h : r • g = s • g) : r = s := by
  have hzero : (r - s) • g = 0 := by rw [sub_smul, h, sub_self]
  have hnat : (r - s).val • g = 0 := by
    rw [← Nat.cast_smul_eq_nsmul Scalar, ZMod.natCast_zmod_val]
    exact hzero
  have hdvd := addOrderOf_dvd_of_nsmul_eq_zero hnat
  rw [hg] at hdvd
  have hval := Nat.eq_zero_of_dvd_of_lt hdvd (ZMod.val_lt _)
  exact sub_eq_zero.mp ((ZMod.val_eq_zero _).mp hval)

variable [Ristretto G]

/-- A generator of full order for each coordinate. -/
structure FullOrder (G : Type) [AddCommGroup G] [Module Scalar G] [Ristretto G] : Prop where
  basepoint : addOrderOf (Ristretto.basepoint : G) = groupOrder
  g1tIdx : addOrderOf (Ristretto.g1tIdx : G) = groupOrder
  g2tResp : addOrderOf (Ristretto.g2tResp : G) = groupOrder

theorem commit_sum (ops : List Opening) :
    (ops.map fun op => (commit op : Commitment G).c).sum =
      (commit ⟨(ops.map Opening.rnd).sum, (ops.map Opening.idx).sum, (ops.map Opening.resp).sum⟩ : Commitment G).c := by
  induction ops with
  | nil => simp [commit]
  | cons op ops ih =>
    rw [List.map_cons, List.sum_cons, ih]
    simp only [List.map_cons, List.sum_cons, commit, add_smul]
    abel

theorem commit_sum_ofFn {n : ℕ} (rnd idx resp : Fin n → Scalar) :
    ∑ j, (commit ⟨rnd j, idx j, resp j⟩ : Commitment G).c =
      (commit ⟨∑ j, rnd j, ∑ j, idx j, ∑ j, resp j⟩ : Commitment G).c := by
  have h := commit_sum (G := G) (List.ofFn fun j => ⟨rnd j, idx j, resp j⟩)
  simpa only [List.map_ofFn, List.sum_ofFn, Function.comp_def] using h

/-- The commitments in whatever order aggregate to a commitment of the aggregated openings. -/
theorem aggregate_commit {ops : List Opening} {commits : List (Commitment G)} (h : ops ≠ [])
    (hperm : commits.Perm (ops.map commit)) : ∃ op, Opening.aggregate ops = some op ∧
      aggregate commits = commit op := by
  refine ⟨_, Opening.aggregate_eq h, ?_⟩
  have hc : (aggregate commits).c = (commit ⟨(ops.map Opening.rnd).sum, (ops.map Opening.idx).sum,
      (ops.map Opening.resp).sum⟩ : Commitment G).c := by
    rw [aggregate_perm hperm, aggregate_c, List.map_map, ← commit_sum]
    rfl
  exact congrArg Commitment.mk hc

/-- Two openings of one commitment that agree in two coordinates agree in the third. -/
theorem commit_binding (hG : FullOrder G) {a b : Opening} (h : (commit a : Commitment G) = commit b) :
    (a.rnd = b.rnd → a.idx = b.idx → a.resp = b.resp) ∧
    (a.rnd = b.rnd → a.resp = b.resp → a.idx = b.idx) ∧
    (a.idx = b.idx → a.resp = b.resp → a.rnd = b.rnd) := by
  have hc : a.rnd • (Ristretto.basepoint : G) + a.idx • Ristretto.g1tIdx + a.resp • Ristretto.g2tResp =
      b.rnd • Ristretto.basepoint + b.idx • Ristretto.g1tIdx + b.resp • Ristretto.g2tResp :=
    congrArg Commitment.c h
  refine ⟨fun h1 h2 => ?_, fun h1 h2 => ?_, fun h1 h2 => ?_⟩
  · rw [h1, h2] at hc
    exact smul_cancel hG.g2tResp (add_left_cancel hc)
  · rw [h1, h2] at hc
    exact smul_cancel hG.g1tIdx (add_left_cancel (add_right_cancel hc))
  · rw [h1, h2] at hc
    exact smul_cancel hG.basepoint (add_right_cancel (add_right_cancel hc))

/-- Aggregation is a homomorphism, and its value determines each aggregated coordinate from the
other two. -/
theorem aggregate_homomorphism [DecidableEq G] :
    (∀ (ops : List Opening) (commits : List (Commitment G)), ops ≠ [] → commits.Perm (ops.map commit) →
      ∃ op, Opening.aggregate ops = some op ∧ aggregate commits = commit op ∧
        (aggregate commits).verify op = true) ∧
    (FullOrder G → ∀ (ops ops' : List Opening) (commits commits' : List (Commitment G)) (op op' : Opening),
      commits.Perm (ops.map commit) → commits'.Perm (ops'.map commit) →
      Opening.aggregate ops = some op → Opening.aggregate ops' = some op' →
      aggregate commits = aggregate commits' →
        (op.rnd = op'.rnd → op.idx = op'.idx → op.resp = op'.resp) ∧
        (op.rnd = op'.rnd → op.resp = op'.resp → op.idx = op'.idx) ∧
        (op.idx = op'.idx → op.resp = op'.resp → op.rnd = op'.rnd)) := by
  constructor
  · intro ops commits hne hperm
    obtain ⟨op, hop, hagg⟩ := aggregate_commit hne hperm
    refine ⟨op, hop, hagg, ?_⟩
    rw [verify, hagg]
    exact decide_eq_true rfl
  · intro hG ops ops' commits commits' op op' hperm hperm' hop hop' heq
    have hne : ops ≠ [] := fun h0 => by rw [h0] at hop; exact nomatch hop
    have hne' : ops' ≠ [] := fun h0 => by rw [h0] at hop'; exact nomatch hop'
    obtain ⟨a, ha, hagg⟩ := aggregate_commit hne hperm
    obtain ⟨b, hb, hagg'⟩ := aggregate_commit hne' hperm'
    have hab : (commit a : Commitment G) = commit b := by rw [← hagg, ← hagg', heq]
    rw [hop, Option.some.injEq] at ha
    rw [hop', Option.some.injEq] at hb
    subst ha hb
    exact commit_binding hG hab

/-- Multiples of a scalar that is not divisible by the odd order. -/
theorem fullOrder_scalar : FullOrder Scalar := by
  have hone : addOrderOf (1 : Scalar) = groupOrder := ZMod.addOrderOf_one groupOrder
  have htwo : addOrderOf (2 : Scalar) = groupOrder := by
    have h := ZMod.addOrderOf_coe 2 (NeZero.ne groupOrder)
    have hgcd : groupOrder.gcd 2 = 1 := by unfold groupOrder; decide
    rwa [hgcd, Nat.div_one] at h
  exact ⟨hone, htwo, hone⟩

/-- Two lists over the scalars themselves, the second commitment list in reverse. -/
theorem aggregate_homomorphism_scalar :
    let ops : List Opening := [⟨1, 2, 3⟩, ⟨4, 5, 6⟩]
    (∃ op, Opening.aggregate ops = some op ∧
      aggregate (ops.reverse.map (commit (G := Scalar))) = commit op ∧
      (aggregate (ops.reverse.map (commit (G := Scalar)))).verify op = true) ∧
    ∀ op op' : Opening, Opening.aggregate ops = some op → Opening.aggregate [op'] = some op' →
      aggregate (ops.reverse.map (commit (G := Scalar))) = aggregate [commit op'] →
        (op.rnd = op'.rnd → op.idx = op'.idx → op.resp = op'.resp) ∧
        (op.rnd = op'.rnd → op.resp = op'.resp → op.idx = op'.idx) ∧
        (op.idx = op'.idx → op.resp = op'.resp → op.rnd = op'.rnd) := by
  intro ops
  have hrev : (ops.reverse.map (commit (G := Scalar))).Perm (ops.map commit) :=
    (List.reverse_perm ops).map _
  constructor
  · exact aggregate_homomorphism.1 ops _ (by simp [ops]) hrev
  · intro op op' hop hop' heq
    exact aggregate_homomorphism.2 fullOrder_scalar ops [op'] _ _ op op' hrev (.refl _) hop hop' heq

end Commitment
end PrivRecCert.Prc
