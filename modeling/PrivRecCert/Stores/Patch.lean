import Mathlib.Data.List.Basic

/-! Stores of cells, and updates that overwrite some of the cells whatever these held before. In a run of such
updates every cell holds what the last update to reach it wrote, so the order of a run shows only in the cells
that several updates write. -/
namespace PrivRecCert.Stores

/-- The cells an update overwrites, and what it writes there. -/
abbrev Patch (ι β : Type) := ι → Option β

namespace Patch
variable {ι β : Type} {f : ι → β} {p : Patch ι β} {ps : List (Patch ι β)}

def apply (p : Patch ι β) (f : ι → β) : ι → β := fun k => (p k).getD (f k)

/-- What the first of several updates to reach a cell writes there. -/
def first (ps : List (Patch ι β)) : Patch ι β := fun k => (ps.filterMap (· k)).head?

/-- What the last of several updates to reach a cell writes there. -/
def last (ps : List (Patch ι β)) : Patch ι β := fun k => (ps.filterMap (· k)).getLast?

theorem apply_last_cons (p : Patch ι β) (ps : List (Patch ι β)) (f : ι → β) :
    (last (p :: ps)).apply f = (last ps).apply (p.apply f) := by
  funext k
  unfold apply last
  cases hp : p k with
  | none => simp only [List.filterMap_cons, hp, Option.getD_none]
  | some b => simp only [List.filterMap_cons, hp, List.getLast?_cons, Option.getD_some]

theorem apply_last_nil (f : ι → β) : (last []).apply f = f := rfl

theorem last_singleton (p : Patch ι β) : last [p] = p := by
  funext k
  unfold last
  cases hp : p k with
  | none => simp only [List.filterMap_cons, hp, List.filterMap_nil, List.getLast?_nil]
  | some b => simp only [List.filterMap_cons, hp, List.filterMap_nil, List.getLast?_singleton]

theorem last_reverse (ps : List (Patch ι β)) : last ps.reverse = first ps := by
  funext k
  unfold last first
  rw [List.filterMap_reverse, List.getLast?_reverse]

/-- Updates that all write the same. -/
theorem first_replicate (n : ℕ) (p : Patch ι β) : first (List.replicate n p) = last (List.replicate n p) := by
  rw [← last_reverse, List.reverse_replicate]

/-- A list without a first element has no last one. -/
theorem getD_head?_eq_iff (l : List β) (b : β) : l.head?.getD b = l.getLast?.getD b ↔ l.head? = l.getLast? := by
  cases l with
  | nil => simp
  | cons a l => rw [List.head?_cons, List.getLast?_cons, Option.getD_some, Option.getD_some, Option.some.injEq]

/-- The first updates and the last ones lead to the same cells only where they write the same. -/
theorem apply_first_eq_iff : (first ps).apply f = (last ps).apply f ↔ first ps = last ps := by
  rw [funext_iff, funext_iff]
  apply forall_congr'
  intro k
  exact getD_head?_eq_iff _ _

end Patch

/-- States with cells, of which only the valid ones matter. -/
structure Store (S ι β : Type) where
  Valid : S → Prop
  content : S → ι → β

namespace Store
variable {S ι β O : Type} {st : Store S ι β} {o o' : S → Option S} {p : Patch ι β} {a : S}

/-- On valid states the update always fails, or it always writes `p`. -/
def Patches (st : Store S ι β) (o : S → Option S) (p : Patch ι β) : Prop :=
  (∀ a, st.Valid a → o a = none) ∨
    ∀ a, st.Valid a → ∃ r, o a = some r ∧ st.Valid r ∧ st.content r = p.apply (st.content a)

theorem Patches.of_none (h : ∀ a, st.Valid a → o a = none) : st.Patches o p := .inl h

theorem Patches.congr (h : st.Patches o p) (heq : ∀ a, st.Valid a → o' a = o a) : st.Patches o' p := by
  rcases h with hnone | hsome
  · exact .inl fun a ha => (heq a ha).trans (hnone a ha)
  · refine .inr fun a ha => ?_
    rw [heq a ha]
    exact hsome a ha

/-- Whether an update fails does not depend on the cells. -/
theorem Patches.none_iff {a b : S} (h : st.Patches o p) (ha : st.Valid a) (hb : st.Valid b) :
    o a = none ↔ o b = none := by
  rcases h with hnone | hsome
  · rw [hnone a ha, hnone b hb]
  · obtain ⟨c, hc, -⟩ := hsome a ha
    obtain ⟨d, hd, -⟩ := hsome b hb
    simp [hc, hd]

/-- An update leads from states with the same cells to results that read the same. -/
theorem Patches.map_eq {γ : Type} {f : S → γ} {a b : S}
    (hread : ∀ a b, st.Valid a → st.Valid b → (f a = f b ↔ st.content a = st.content b))
    (h : st.Patches o p) (ha : st.Valid a) (hb : st.Valid b) (hab : st.content a = st.content b) :
    (o a).map f = (o b).map f := by
  rcases h with hnone | hsome
  · rw [hnone a ha, hnone b hb]
  · obtain ⟨c, hc, hcv, hcc⟩ := hsome a ha
    obtain ⟨d, hd, hdv, hdc⟩ := hsome b hb
    rw [hc, hd, Option.map_some, Option.map_some, (hread c d hcv hdv).mpr (by rw [hcc, hdc, hab])]

/-- A run fails when one of its steps fails on every state. -/
theorem foldlM_none_of_mem {step : S → O → Option S} {os : List O} {x : O} (hx : x ∈ os)
    (h : ∀ a, step a x = none) (a : S) : os.foldlM step a = none := by
  induction os generalizing a with
  | nil => exact absurd hx List.not_mem_nil
  | cons y os ih =>
    rcases List.mem_cons.mp hx with rfl | hmem
    · simp [h a]
    · cases hy : step a y with
      | none => simp [hy]
      | some b => simp [hy, ih hmem b]

/-- A run of updates fails as a whole, or leaves in every cell what the last of them wrote there. -/
theorem Patches.foldlM {step : S → O → Option S} {w : O → Patch ι β} {os : List O}
    (h : ∀ x ∈ os, st.Patches (step · x) (w x)) : st.Patches (fun a => os.foldlM step a) (Patch.last (os.map w)) := by
  induction os with
  | nil => exact .inr fun a ha => ⟨a, rfl, ha, (Patch.apply_last_nil _).symm⟩
  | cons x os ih =>
    rcases h x List.mem_cons_self with hnone | hsome
    · refine .inl fun a ha => ?_
      simp [hnone a ha]
    · rcases ih fun y hy => h y (List.mem_cons_of_mem _ hy) with hrest | hrest
      · refine .inl fun a ha => ?_
        obtain ⟨b, hb, hbv, -⟩ := hsome a ha
        simp [hb, hrest b hbv]
      · refine .inr fun a ha => ?_
        obtain ⟨b, hb, hbv, hbc⟩ := hsome a ha
        obtain ⟨r, hr, hrv, hrc⟩ := hrest b hbv
        refine ⟨r, ?_, hrv, ?_⟩
        · simp [hb, hr]
        · rw [hrc, hbc, List.map_cons, Patch.apply_last_cons]

section Run
variable {step : S → O → Option S} {w : O → Patch ι β} {os : List O}

/-- A run fails exactly when one of its updates fails on the state it starts from. -/
theorem foldlM_eq_none_iff (h : ∀ x ∈ os, st.Patches (step · x) (w x)) (ha : st.Valid a) :
    os.foldlM step a = none ↔ ∃ x ∈ os, step a x = none := by
  induction os generalizing a with
  | nil => simp
  | cons x os ih =>
    rw [List.foldlM_cons]
    rcases h x List.mem_cons_self with hnone | hsome
    · simp [hnone a ha]
    · obtain ⟨b, hb, hbv, -⟩ := hsome a ha
      have htail : ∀ y ∈ os, st.Patches (step · y) (w y) := fun y hy => h y (List.mem_cons_of_mem _ hy)
      have hstate : (∃ y ∈ os, step b y = none) ↔ ∃ y ∈ os, step a y = none := by
        apply exists_congr
        intro y
        apply and_congr_right
        intro hy
        exact (htail y hy).none_iff hbv ha
      simp [show step a x = some b from hb, ih htail hbv, hstate]

/-- A run and the run backwards agree in what is read of the result exactly when an update fails, or the first
update to reach a cell writes there what the last one writes. -/
theorem foldlM_reverse_eq_iff {γ : Type} {read : S → γ}
    (hread : ∀ a b, st.Valid a → st.Valid b → (read a = read b ↔ st.content a = st.content b))
    (h : ∀ x ∈ os, st.Patches (step · x) (w x)) (ha : st.Valid a) :
    (os.reverse.foldlM step a).map read = (os.foldlM step a).map read ↔
      (∃ x ∈ os, step a x = none) ∨ Patch.first (os.map w) = Patch.last (os.map w) := by
  have hback : ∀ x ∈ os.reverse, st.Patches (step · x) (w x) := fun x hx => h x (List.mem_reverse.mp hx)
  have hfail := foldlM_eq_none_iff h ha
  have hfailback := foldlM_eq_none_iff hback ha
  simp only [List.mem_reverse] at hfailback
  by_cases hex : ∃ x ∈ os, step a x = none
  · rw [hfail.mpr hex, hfailback.mpr hex]
    exact iff_of_true rfl (.inl hex)
  · rcases Patches.foldlM h with hnone | hsome
    · exact absurd (hfail.mp (hnone a ha)) hex
    · rcases Patches.foldlM hback with hnone | hsome'
      · exact absurd (hfailback.mp (hnone a ha)) hex
      · obtain ⟨r, hr, hrv, hrc⟩ := hsome a ha
        obtain ⟨r', hr', hrv', hrc'⟩ := hsome' a ha
        simp only at hr hr'
        rw [hr, hr', Option.map_some, Option.map_some, Option.some.injEq, hread r' r hrv' hrv, hrc, hrc',
          List.map_reverse, Patch.last_reverse, Patch.apply_first_eq_iff, or_iff_right hex]

end Run
end Store
end PrivRecCert.Stores
