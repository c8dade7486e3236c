import PrivRecCert.Rounds.Network
import Mathlib.Data.DFinsupp.WellFounded

/-! No run goes on forever: whatever a step does to the party that takes it, that party is nearer to the
end of its program. So a network that is never stuck finishes. -/
namespace PrivRecCert.Rounds
open Function

variable {n : ℕ} {M K F S α : Type}

/-- What a step can do to the phase of the party that takes it. -/
inductive Phase.Next : Phase n M K F α → Phase n M K F α → Prop
  | begin (m p pending) : Next (.ready (.send m p)) (.sending m pending p)
  | push (m pending p j) (hj : j ∈ pending) : Next (.sending m pending p) (.sending m (pending.erase j) p)
  | finish (m p) : Next (.sending m [] p) (.ready p)
  | listen (kd k pending) : Next (.ready (.recv kd k)) (.receiving kd pending [] k)
  | pop (kd pending held k j f) (hj : j ∈ pending) :
      Next (.receiving kd pending held k) (.receiving kd (pending.erase j) (held ++ [f]) k)
  | handle (kd pending before f after k) :
      Next (.receiving kd pending (before ++ f :: after) k) (.receiving kd pending (before ++ after) k)
  | deliver (kd k l) : Next (.receiving kd [] [] k) (.ready (k l))
  | panic (a) (h : a ≠ .panicked) : Next a .panicked

namespace Phase

/-- A phase from which a party takes finitely many steps only. -/
abbrev Ends (a : Phase n M K F α) : Prop := Acc (fun b a => Next a b) a

theorem ends_panicked : Ends (.panicked : Phase n M K F α) := by
  constructor
  intro b hb
  cases hb with
  | panic _ h => exact absurd rfl h

theorem ends_sending {m : M} {p : Proc M K α} (hp : Ends (.ready p : Phase n M K F α)) (pending : List (Fin n)) :
    Ends (.sending m pending p : Phase n M K F α) := by
  induction hlen : pending.length generalizing pending with
  | zero =>
    obtain rfl := List.length_eq_zero_iff.mp hlen
    constructor
    intro b hb
    cases hb with
    | push _ _ _ j hj => exact absurd hj List.not_mem_nil
    | finish => exact hp
    | panic => exact ends_panicked
  | succ len ih =>
    constructor
    intro b hb
    cases hb with
    | push _ _ _ j hj => exact ih _ (by rw [List.length_erase_of_mem hj, hlen, Nat.add_sub_cancel])
    | finish => exact hp
    | panic => exact ends_panicked

/-- Taking a frame from a channel costs two of what putting it away costs one. -/
theorem ends_receiving {kd : K} {k : List M → Proc M K α} (hk : ∀ l, Ends (.ready (k l) : Phase n M K F α))
    (pending : List (Fin n)) (held : List F) : Ends (.receiving kd pending held k : Phase n M K F α) := by
  induction hsize : 2*pending.length + held.length using Nat.strong_induction_on generalizing pending held with
  | _ size ih =>
    constructor
    intro b hb
    cases hb with
    | pop _ _ _ _ j f hj =>
      have hpos := List.length_pos_of_mem hj
      refine ih _ ?_ _ _ rfl
      rw [List.length_erase_of_mem hj, List.length_append, List.length_singleton]
      omega
    | handle _ _ before f after =>
      refine ih _ ?_ _ _ rfl
      rw [List.length_append, List.length_cons] at hsize
      rw [List.length_append]
      omega
    | deliver _ _ l => exact hk l
    | panic => exact ends_panicked

theorem ends_ready (p : Proc M K α) : Ends (.ready p : Phase n M K F α) := by
  induction p with
  | ret a =>
    constructor
    intro b hb
    cases hb with
    | panic => exact ends_panicked
  | fail =>
    constructor
    intro b hb
    cases hb with
    | panic => exact ends_panicked
  | send m p ih =>
    constructor
    intro b hb
    cases hb with
    | begin => exact ends_sending ih _
    | panic => exact ends_panicked
  | recv kd k ih =>
    constructor
    intro b hb
    cases hb with
    | listen => exact ends_receiving ih _ _
    | panic => exact ends_panicked

theorem next_wellFounded : WellFounded fun b a : Phase n M K F α => Next a b := by
  constructor
  intro a
  cases a with
  | ready p => exact ends_ready p
  | sending m pending p => exact ends_sending (ends_ready p) pending
  | receiving kd pending held k => exact ends_receiving (fun l => ends_ready (k l)) pending held
  | panicked => exact ends_panicked

end Phase

variable {E : Endpoint n M K F S} {s s' : Net n M K F S α}

/-- A step moves one party. -/
theorem Step.phase_next (h : Step E s s') :
    ∃ i a, Phase.Next (s.phase i) a ∧ s'.phase = update s.phase i a := by
  cases h with
  | begin i m p h => exact ⟨i, _, by rw [h]; exact .begin m p _, rfl⟩
  | push i j m pending p h hj => exact ⟨i, _, by rw [h]; exact .push m pending p j hj, rfl⟩
  | finish i m p h => exact ⟨i, _, by rw [h]; exact .finish m p, rfl⟩
  | listen i kd k h => exact ⟨i, _, by rw [h]; exact .listen kd k _, rfl⟩
  | pop i j kd pending held k f rest h hj => exact ⟨i, _, by rw [h]; exact .pop kd pending held k j f hj, rfl⟩
  | handle i kd pending before f after k st h => exact ⟨i, _, by rw [h]; exact .handle kd pending before f after k, rfl⟩
  | reject i kd pending before f after k h => exact ⟨i, _, by rw [h]; exact .panic _ (by simp), rfl⟩
  | deliver i kd k l st h => exact ⟨i, _, by rw [h]; exact .deliver kd k l, rfl⟩
  | missing i kd k h => exact ⟨i, _, by rw [h]; exact .panic _ (by simp), rfl⟩
  | crash i h => exact ⟨i, _, by rw [h]; exact .panic _ (by simp), rfl⟩

/-- The parties cannot go on moving forever. -/
theorem phases_wellFounded : WellFounded fun q p : Fin n → Phase n M K F α =>
    ∃ i a, Phase.Next (p i) a ∧ q = update p i a := by
  have hlex := Pi.Lex.wellFounded (fun i j : Fin n => i < j) fun _ => Phase.next_wellFounded (n := n) (M := M) (K := K)
    (F := F) (α := α)
  apply hlex.mono
  rintro _ p ⟨i, a, hnext, rfl⟩
  refine ⟨i, fun j hj => update_of_ne hj.ne _ _, ?_⟩
  simpa using hnext

/-- There is no infinite run. -/
theorem step_wellFounded (E : Endpoint n M K F S) : WellFounded fun s' s : Net n M K F S α => Step E s s' :=
  (InvImage.wf Net.phase phases_wellFounded).mono fun _ _ h => h.phase_next

/-- A network in which somebody can move until all have finished does finish. -/
theorem finishes (s : Net n M K F S α) (h : ∀ t, Relation.ReflTransGen (Step E) s t →
    (∃ b : Fin n → α, ∀ i, t.phase i = .ready (.ret (b i))) ∨ ∃ t', Step E t t') :
    ∃ t, Relation.ReflTransGen (Step E) s t ∧ ∃ b : Fin n → α, ∀ i, t.phase i = .ready (.ret (b i)) := by
  induction s using (step_wellFounded E).induction with
  | _ s ih =>
    rcases h s .refl with hdone | ⟨s', hs'⟩
    · exact ⟨s, .refl, hdone⟩
    · obtain ⟨t, ht, hb⟩ := ih s' hs' fun t ht => h t (ht.head hs')
      exact ⟨t, ht.head hs', hb⟩

/-- Who has finished stays where it is. -/
theorem Step.ret_stays {s s' : Net n M K F S α} (h : Step E s s') {i : Fin n} {a : α}
    (hret : s.phase i = .ready (.ret a)) : s'.phase i = .ready (.ret a) := by
  have hother : ∀ k ph, s.phase k ≠ .ready (.ret a) → update s.phase k ph i = .ready (.ret a) := fun k ph hne => by
    have hik : i ≠ k := fun he => hne (by rw [← he, hret])
    rw [update_of_ne hik, hret]
  cases h with
  | begin k m p h => exact hother k _ (by simp [h])
  | push k j m pending p h => exact hother k _ (by simp [h])
  | finish k m p h => exact hother k _ (by simp [h])
  | listen k kd next h => exact hother k _ (by simp [h])
  | pop k j kd pending held next f rest h => exact hother k _ (by simp [h])
  | handle k kd pending before f after next st h => exact hother k _ (by simp [h])
  | reject k kd pending before f after next h => exact hother k _ (by simp [h])
  | deliver k kd next l st h => exact hother k _ (by simp [h])
  | missing k kd next h => exact hother k _ (by simp [h])
  | crash k h => exact hother k _ (by simp [h])

theorem ret_stays {s s' : Net n M K F S α} (h : Relation.ReflTransGen (Step E) s s') {i : Fin n} {a : α}
    (hret : s.phase i = .ready (.ret a)) : s'.phase i = .ready (.ret a) := by
  induction h with
  | refl => exact hret
  | tail _ hstep ih => exact hstep.ret_stays ih

end PrivRecCert.Rounds
