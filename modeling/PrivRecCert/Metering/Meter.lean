import Mathlib.Data.List.Induction
import Mathlib.Tactic.Common

/-! A store that is handed out piece by piece from its start, counted, and filled again. The counters are
compared with an account of the history, which begins anew whenever the store is filled. -/
namespace PrivRecCert.Metering

variable {P S Piece F : Type}

/-- A call of a method whose panics all come before its assignments: its result, if there is one, and
what it leaves behind. -/
def assigns {A : Type} (f : P → Option (A × P)) (p : P) : Option A × P :=
  match f p with
  | none => (none, p)
  | some (a, p') => (some a, p')

/-- A store with its counters and its methods. `piece s u m` are the `m` elements of `s` from `u` on, and
`unit` is what one element counts for in a report. -/
structure Meter (P S Piece F : Type) where
  storage : P → Option S
  used : P → ℕ
  lastReport : P → ℕ
  size : S → ℕ
  piece : S → ℕ → ℕ → Option Piece
  unit : ℕ
  fill : F → P → Option Unit × P
  take : ℕ → P → Option Piece × P
  report : P → Option ℕ × P

/-- A call from outside. -/
inductive Call (F : Type) : Type
  | fill (f : F)
  | take (reqSize : ℕ)
  | report

/-- What has been taken and reported since the store was last filled. -/
structure Account (S : Type) where
  storage : Option S
  taken : ℕ
  reported : ℕ

namespace Meter
variable (M : Meter P S Piece F)

/-- One call, and its entry in the account. -/
def step (x : P × Account S) : Call F → P × Account S
  | .fill f =>
    let (result, p) := M.fill f x.1
    (p, if result.isSome then ⟨M.storage p, 0, 0⟩ else x.2)
  | .take reqSize =>
    let (result, p) := M.take reqSize x.1
    (p, if result.isSome then { x.2 with taken := x.2.taken + reqSize } else x.2)
  | .report =>
    let (result, p) := M.report x.1
    (p, { x.2 with reported := x.2.reported + result.getD 0 })

/-- A history of calls from a store that has never been filled. -/
def run (p : P) (history : List (Call F)) : P × Account S := history.foldl M.step (p, ⟨none, 0, 0⟩)

theorem run_concat (p : P) (history : List (Call F)) (call : Call F) :
    M.run p (history ++ [call]) = M.step (M.run p history) call := by
  rw [run, List.foldl_append]
  rfl

/-- The counters agree with the account: they are ordered, the next piece begins where the pieces taken so
far end, it is there exactly if it lies in the store, a failing take changes nothing, and the reports with
what they have not covered yet are what was taken. -/
structure Consistent (x : P × Account S) : Prop where
  storage : M.storage x.1 = x.2.storage
  report_le : M.lastReport x.1 ≤ M.used x.1
  used_le : ∀ s, x.2.storage = some s → M.used x.1 ≤ M.size s
  unfilled : x.2.storage = none → M.used x.1 = 0
  succeeds : ∀ m, (M.take m x.1).1.isSome = true ↔ ∃ s, x.2.storage = some s ∧ x.2.taken + m ≤ M.size s
  piece : ∀ m a, (M.take m x.1).1 = some a → ∃ s, x.2.storage = some s ∧ M.piece s x.2.taken m = some a
  failing : ∀ m, (M.take m x.1).1 = none → (M.take m x.1).2 = x.1
  reports : x.2.reported + M.unit*(M.used x.1 - M.lastReport x.1) = M.unit*x.2.taken

/-- Consistent after every call of a history. -/
def ConsistentAlong (p : P) (history : List (Call F)) : Prop :=
  ∀ past, past <+: history → M.Consistent (M.run p past)

/-- Nothing has been taken from the store whenever it is filled. -/
def FilledFresh (p : P) (history : List (Call F)) : Prop :=
  ∀ past f, past ++ [.fill f] <+: history → (M.fill f (M.run p past).1).1 = some () → M.used (M.run p past).1 = 0

/-- What the methods do. `Good` holds of the storages that are ever filled in, and `resets` says whether
filling sets the counters back. -/
structure Lawful (Good : S → Prop) (resets : Bool) : Prop where
  fill_none : ∀ f p, (M.fill f p).1 = none → (M.fill f p).2 = p
  fill_some : ∀ f p, (M.fill f p).1 = some () → (∃ s, M.storage (M.fill f p).2 = some s ∧ Good s) ∧
    M.used (M.fill f p).2 = (if resets then 0 else M.used p) ∧
    M.lastReport (M.fill f p).2 = if resets then 0 else M.lastReport p
  take_some : ∀ m p s, M.storage p = some s → Good s → M.used p + m ≤ M.size s → ∃ a p', M.take m p = (some a, p') ∧
    M.piece s (M.used p) m = some a ∧ M.storage p' = some s ∧ M.used p' = M.used p + m ∧
    M.lastReport p' = M.lastReport p
  take_none : ∀ m p, (∀ s, M.storage p = some s → M.size s < M.used p + m) → M.take m p = (none, p)
  report_some : ∀ p, M.lastReport p ≤ M.used p → ∃ p', M.report p = (some (M.unit*(M.used p - M.lastReport p)), p') ∧
    M.storage p' = M.storage p ∧ M.used p' = M.used p ∧ M.lastReport p' = M.used p

/-- What the account says about the counters, when the store was only filled as it should be. -/
structure Tracks (Good : S → Prop) (x : P × Account S) : Prop where
  storage : M.storage x.1 = x.2.storage
  good : ∀ s, x.2.storage = some s → Good s ∧ M.used x.1 ≤ M.size s
  unfilled : x.2.storage = none → M.used x.1 = 0
  used_eq : M.used x.1 = x.2.taken
  report_le : M.lastReport x.1 ≤ M.used x.1
  reports : x.2.reported + M.unit*(M.used x.1 - M.lastReport x.1) = M.unit*x.2.taken

variable {M} {Good : S → Prop} {resets : Bool} {x : P × Account S} {p : P} {history : List (Call F)}

theorem Tracks.start (hstorage : M.storage p = none) (hused : M.used p = 0) (hreport : M.lastReport p = 0) :
    M.Tracks Good (M.run p []) where
  storage := hstorage
  good s h := absurd h.symm (Option.some_ne_none s)
  unfilled _ := hused
  used_eq := hused
  report_le := by
    change M.lastReport p ≤ M.used p
    omega
  reports := by
    change 0 + M.unit*(M.used p - M.lastReport p) = M.unit*0
    rw [hused, hreport]
    rfl

section Take
variable (hM : M.Lawful Good resets)
include hM

/-- A take either fails and changes nothing, or it hands out the next piece. -/
theorem Tracks.take_cases (hx : M.Tracks Good x) (m : ℕ) :
    ((∀ s, x.2.storage = some s → M.size s < x.2.taken + m) ∧ M.take m x.1 = (none, x.1)) ∨
    ∃ s a p', x.2.storage = some s ∧ x.2.taken + m ≤ M.size s ∧ M.take m x.1 = (some a, p') ∧
      M.piece s x.2.taken m = some a ∧ M.storage p' = some s ∧ M.used p' = x.2.taken + m ∧
      M.lastReport p' = M.lastReport x.1 := by
  by_cases hfits : ∃ s, x.2.storage = some s ∧ x.2.taken + m ≤ M.size s
  · obtain ⟨s, hs, hle⟩ := hfits
    rw [← hx.used_eq] at hle ⊢
    obtain ⟨a, p', htake, hpiece, hstorage, hused, hreport⟩ :=
      hM.take_some m x.1 s (hx.storage.trans hs) (hx.good s hs).1 hle
    exact Or.inr ⟨s, a, p', hs, hle, htake, hpiece, hstorage, hused, hreport⟩
  · have hlt : ∀ s, x.2.storage = some s → M.size s < x.2.taken + m := fun s hs =>
      Nat.lt_of_not_le fun hle => hfits ⟨s, hs, hle⟩
    refine Or.inl ⟨hlt, hM.take_none m x.1 fun s hs => ?_⟩
    rw [hx.used_eq]
    exact hlt s (hx.storage.symm.trans hs)

theorem Tracks.consistent (hx : M.Tracks Good x) : M.Consistent x where
  storage := hx.storage
  report_le := hx.report_le
  used_le s hs := (hx.good s hs).2
  unfilled := hx.unfilled
  succeeds m := by
    rcases hx.take_cases hM m with ⟨hlt, htake⟩ | ⟨s, a, p', hs, hle, htake, -⟩
    · rw [htake]
      refine iff_of_false (by simp) ?_
      rintro ⟨s, hs, hle⟩
      have hsize := hlt s hs
      omega
    · rw [htake]
      exact iff_of_true rfl ⟨s, hs, hle⟩
  piece m a ha := by
    rcases hx.take_cases hM m with ⟨-, htake⟩ | ⟨s, a', p', hs, -, htake, hpiece, -⟩
    · rw [htake] at ha
      cases ha
    · rw [htake] at ha
      exact ⟨s, hs, hpiece.trans ha⟩
  failing m hm := by
    rcases hx.take_cases hM m with ⟨-, htake⟩ | ⟨s, a, p', -, -, htake, -⟩
    · rw [htake]
    · rw [htake] at hm
      cases hm
  reports := hx.reports

/-- One call keeps the account right, unless it fills a store that is in use without setting its counters
back. -/
theorem Tracks.step (hx : M.Tracks Good x) (call : Call F)
    (hfill : ∀ f, call = .fill f → (M.fill f x.1).1 = some () → resets = true ∨ M.used x.1 = 0) :
    M.Tracks Good (M.step x call) := by
  cases call with
  | fill f =>
    rcases hres : (M.fill f x.1).1 with _ | ⟨⟩
    · have hsame : M.step x (.fill f) = x := by
        rw [Meter.step]
        simp only [hres, hM.fill_none f x.1 hres, Option.isSome_none, Bool.false_eq_true, if_false]
      rw [hsame]
      exact hx
    · obtain ⟨⟨s, hs, hgood⟩, hused, hreport⟩ := hM.fill_some f x.1 hres
      have hnext : M.step x (.fill f) = ((M.fill f x.1).2, ⟨some s, 0, 0⟩) := by
        rw [Meter.step]
        simp only [hres, hs, Option.isSome_some, if_true]
      have hzero : M.used (M.fill f x.1).2 = 0 := by
        rcases hfill f rfl hres with hreset | hfresh
        · rw [hused, hreset]
          rfl
        · rw [hused, hfresh, ite_self]
      have hzero' : M.lastReport (M.fill f x.1).2 = 0 := by
        rcases hfill f rfl hres with hreset | hfresh
        · rw [hreport, hreset]
          rfl
        · have hle := hx.report_le
          rw [hreport, show M.lastReport x.1 = 0 by omega, ite_self]
      rw [hnext]
      refine ⟨hs, fun s' hs' => ?_, fun h => absurd h (Option.some_ne_none s), hzero, ?_, ?_⟩
      · obtain rfl : s = s' := Option.some.inj hs'
        exact ⟨hgood, by rw [hzero]; exact Nat.zero_le _⟩
      · rw [hzero']
        exact Nat.zero_le _
      · simp only [hzero, hzero']
        rfl
  | take m =>
    rcases hx.take_cases hM m with ⟨-, htake⟩ | ⟨s, a, p', hs, hle, htake, -, hstorage, hused, hreport⟩
    · have hsame : M.step x (.take m) = x := by
        rw [Meter.step]
        simp only [htake, Option.isSome_none, Bool.false_eq_true, if_false]
      rw [hsame]
      exact hx
    · have hnext : M.step x (.take m) = (p', { x.2 with taken := x.2.taken + m }) := by
        rw [Meter.step]
        simp only [htake, Option.isSome_some, if_true]
      have hle' := hx.report_le
      have hbal := hx.reports
      have heq := hx.used_eq
      rw [hnext]
      refine ⟨hstorage.trans hs.symm, fun s' hs' => ?_, fun h => absurd (hs.symm.trans h) (Option.some_ne_none s),
        hused, ?_, ?_⟩
      · obtain rfl : s = s' := Option.some.inj (hs.symm.trans hs')
        exact ⟨(hx.good s hs).1, by rw [hused]; exact hle⟩
      · rw [hused, hreport]
        omega
      · simp only [hused, hreport]
        rw [heq] at hbal hle'
        rw [Nat.sub_add_comm hle', Nat.mul_add, Nat.mul_add, ← Nat.add_assoc, hbal]
  | report =>
    obtain ⟨p', hrep, hstorage, hused, hreport⟩ := hM.report_some x.1 hx.report_le
    have hnext : M.step x .report =
        (p', { x.2 with reported := x.2.reported + M.unit*(M.used x.1 - M.lastReport x.1) }) := by
      rw [Meter.step]
      simp only [hrep, Option.getD_some]
    rw [hnext]
    refine ⟨hstorage.trans hx.storage, fun s hs => ?_, fun h => hused.trans (hx.unfilled h),
      hused.trans hx.used_eq, ?_, ?_⟩
    · rw [hused]
      exact hx.good s hs
    · exact Nat.le_of_eq (hreport.trans hused.symm)
    · simp only [hused, hreport, Nat.sub_self, Nat.mul_zero, Nat.add_zero]
      exact hx.reports

/-- A whole history. -/
theorem Tracks.run (hstart : M.Tracks Good (M.run p [])) (hfresh : resets = true ∨ M.FilledFresh p history) :
    M.Tracks Good (M.run p history) := by
  induction history using List.reverseRec with
  | nil => exact hstart
  | append_singleton history call ih =>
    have hpast : resets = true ∨ M.FilledFresh p history :=
      hfresh.imp_right fun h past f hpre => h past f (hpre.trans (List.prefix_append history [call]))
    rw [run_concat]
    apply (ih hpast).step hM
    rintro f rfl hf
    exact hfresh.imp_right fun h => h history f (List.prefix_refl _) hf

/-- A meter that sets its counters back is consistent whatever happens; another one exactly if it is only
filled while nothing has been taken from it. -/
theorem consistentAlong_iff (hstart : M.Tracks Good (M.run p [])) :
    M.ConsistentAlong p history ↔ resets = true ∨ M.FilledFresh p history := by
  constructor
  · intro hall
    cases resets with
    | true => exact Or.inl rfl
    | false =>
      refine Or.inr fun past f hpre hf => ?_
      by_contra hused
      have hcons := hall _ hpre
      rw [run_concat] at hcons
      obtain ⟨⟨s, hs, -⟩, hkeep, -⟩ := hM.fill_some f (M.run p past).1 hf
      have hnext : M.step (M.run p past) (.fill f) = ((M.fill f (M.run p past).1).2, ⟨some s, 0, 0⟩) := by
        rw [Meter.step]
        simp only [hf, hs, Option.isSome_some, if_true]
      rw [hnext] at hcons
      simp only [Bool.false_eq_true, if_false] at hkeep
      -- a request for the whole new store is in order, and fails
      have hwhole := (hcons.succeeds (M.size s)).mpr ⟨s, rfl, Nat.le_of_eq (Nat.zero_add _)⟩
      have hfails := hM.take_none (M.size s) (M.fill f (M.run p past).1).2 fun s' hs' => by
        obtain rfl : s = s' := Option.some.inj (hs.symm.trans hs')
        rw [hkeep]
        omega
      rw [hfails] at hwhole
      cases hwhole
  · intro hfresh past hpre
    apply Tracks.consistent hM
    exact Tracks.run hM hstart (hfresh.imp_right fun h past' f hpre' => h past' f (hpre'.trans hpre))

end Take
end Meter
end PrivRecCert.Metering
