import Mathlib.Data.List.FinRange
import Mathlib.Data.List.Perm.Basic

/-! Programs of one party, cut at their communication points. A program either has finished,
has failed, broadcasts a message, or waits for one list of messages of a given kind. -/
namespace PrivRecCert.Rounds

/-- A party's program over messages `M` of kinds `K`, with results in `α`. -/
inductive Proc (M K α : Type) : Type
  | ret (a : α)
  | fail
  | send (m : M) (next : Proc M K α)
  | recv (kind : K) (next : List M → Proc M K α)

namespace Proc
variable {M K α β γ : Type}

def bind : Proc M K α → (α → Proc M K β) → Proc M K β
  | ret a, f => f a
  | fail, _ => fail
  | send m p, f => send m (p.bind f)
  | recv kd k, f => recv kd fun l => (k l).bind f

instance : Monad (Proc M K) where
  pure := ret
  bind := bind

@[simp] theorem pure_eq (a : α) : (Pure.pure a : Proc M K α) = ret a := rfl
@[simp] theorem ret_bind (a : α) (f : α → Proc M K β) : (ret a >>= f) = f a := rfl
@[simp] theorem fail_bind (f : α → Proc M K β) : ((fail : Proc M K α) >>= f) = fail := rfl
@[simp] theorem send_bind (m : M) (p : Proc M K α) (f : α → Proc M K β) :
    (send m p >>= f) = send m (p >>= f) := rfl
@[simp] theorem recv_bind (kd : K) (k : List M → Proc M K α) (f : α → Proc M K β) :
    (recv kd k >>= f) = recv kd fun l => k l >>= f := rfl

theorem bind_assoc (p : Proc M K α) (f : α → Proc M K β) (g : β → Proc M K γ) :
    (p >>= f >>= g) = p >>= fun a => f a >>= g := by
  induction p with
  | ret a => rfl
  | fail => rfl
  | send m p ih => rw [send_bind, send_bind, send_bind, ih]
  | recv kd k ih =>
    rw [recv_bind, recv_bind, recv_bind]
    congr 1
    exact funext ih

theorem bind_ret (p : Proc M K α) : p >>= ret = p := by
  induction p with
  | ret a => rfl
  | fail => rfl
  | send m p ih => rw [send_bind, ih]
  | recv kd k ih =>
    rw [recv_bind]
    congr 1
    exact funext ih

/-- A local computation that may fail, run between two communications. -/
def lift : Option α → Proc M K α
  | some a => ret a
  | none => fail

@[simp] theorem lift_some (a : α) : (lift (some a) : Proc M K α) = ret a := rfl
@[simp] theorem lift_none : (lift (none : Option α) : Proc M K α) = fail := rfl

/-- Run one party against fixed received lists, and keep what it broadcasts. -/
def transcript : Proc M K α → List (List M) → Option (List M × α)
  | ret a, _ => some ([], a)
  | fail, _ => none
  | send m p, ls => (p.transcript ls).map fun r => (m :: r.1, r.2)
  | recv _ _, [] => none
  | recv _ k, l :: ls => (k l).transcript ls

/-- A run through a local computation is a run from its result. -/
theorem transcript_lift {o : Option α} {f : α → Proc M K β} {ls : List (List M)} {r : List M × β}
    (h : (lift o >>= f).transcript ls = some r) : ∃ a, o = some a ∧ (f a).transcript ls = some r := by
  cases o with
  | none => exact nomatch h
  | some a => exact ⟨a, rfl, h⟩

/-- A run through a broadcast and a receive consumes one received list. -/
theorem transcript_exchange {m : M} {kd : K} {k : List M → Proc M K α} {ls : List (List M)} {r : List M × α}
    (h : (send m (recv kd k)).transcript ls = some r) :
    ∃ l ls' r', ls = l :: ls' ∧ (k l).transcript ls' = some r' ∧ r = (m :: r'.1, r'.2) := by
  obtain ⟨r', hr', rfl⟩ := Option.map_eq_some_iff.mp h
  cases ls with
  | nil => exact nomatch hr'
  | cons l ls' => exact ⟨l, ls', r', rfl, hr', rfl⟩

/-- A last local step changes the result only. -/
theorem transcript_bind_ret (p : Proc M K α) (f : α → β) (ls : List (List M)) :
    (p >>= fun a => ret (f a)).transcript ls = (p.transcript ls).map fun r => (r.1, f r.2) := by
  induction p generalizing ls with
  | ret a => rfl
  | fail => rfl
  | send m p ih =>
    rw [send_bind, transcript, transcript, ih, Option.map_map, Option.map_map]
    rfl
  | recv kd k ih =>
    cases ls with
    | nil => rfl
    | cons l ls => exact ih l ls

/-- The program can finish with this result, for some received lists. -/
def Yields (p : Proc M K α) (a : α) : Prop := ∃ ls out, p.transcript ls = some (out, a)

theorem yields_ret {a b : α} (h : (ret a : Proc M K α).Yields b) : b = a := by
  obtain ⟨ls, out, h⟩ := h
  exact (Prod.mk.inj (Option.some.inj h)).2.symm

theorem yields_lift {o : Option α} {a : α} (h : (lift o : Proc M K α).Yields a) : o = some a := by
  cases o with
  | none =>
    obtain ⟨ls, out, h⟩ := h
    exact nomatch h
  | some b => rw [yields_ret h]

theorem Yields.ret (a : α) : (ret a : Proc M K α).Yields a := ⟨[], [], rfl⟩

theorem Yields.send {p : Proc M K α} {a : α} (h : p.Yields a) (m : M) : (send m p).Yields a := by
  obtain ⟨ls, out, h⟩ := h
  exact ⟨ls, m :: out, by rw [transcript, h]; rfl⟩

theorem Yields.recv {k : List M → Proc M K α} {l : List M} {a : α} (h : (k l).Yields a) (kd : K) :
    (recv kd k).Yields a := by
  obtain ⟨ls, out, h⟩ := h
  exact ⟨l :: ls, out, h⟩

/-- A sequence of two programs finishes with what the second one makes of a result of the first one. -/
theorem yields_bind {p : Proc M K α} {f : α → Proc M K β} {b : β} (h : (p >>= f).Yields b) :
    ∃ a, p.Yields a ∧ (f a).Yields b := by
  obtain ⟨ls, out, h⟩ := h
  induction p generalizing ls out with
  | ret a => exact ⟨a, ⟨[], [], rfl⟩, ls, out, h⟩
  | fail => exact nomatch h
  | send m p ih =>
    obtain ⟨⟨out', b'⟩, hr, he⟩ := Option.map_eq_some_iff.mp h
    obtain ⟨-, rfl⟩ := Prod.mk.inj he
    obtain ⟨a, ⟨ls₁, out₁, h₁⟩, h₂⟩ := ih ls out' hr
    exact ⟨a, ⟨ls₁, m :: out₁, by rw [transcript, h₁]; rfl⟩, h₂⟩
  | recv kd k ih =>
    cases ls with
    | nil => exact nomatch h
    | cons l ls =>
      obtain ⟨a, ⟨ls₁, out₁, h₁⟩, h₂⟩ := ih l ls out h
      exact ⟨a, ⟨l :: ls₁, out₁, h₁⟩, h₂⟩

theorem Yields.bind {p : Proc M K α} {f : α → Proc M K β} {a : α} {b : β} (h : p.Yields a) (hf : (f a).Yields b) :
    (p >>= f).Yields b := by
  obtain ⟨ls, out, h⟩ := h
  induction p generalizing ls out with
  | ret a' =>
    obtain rfl := yields_ret ⟨ls, out, h⟩
    exact hf
  | fail => cases h
  | send m p ih =>
    obtain ⟨⟨out', a'⟩, hr, he⟩ := Option.map_eq_some_iff.mp h
    obtain ⟨-, rfl⟩ := Prod.mk.inj he
    exact (ih ls out' hr).send m
  | recv kd k ih =>
    cases ls with
    | nil => cases h
    | cons l ls => exact (ih l ls out h).recv kd

end Proc
end PrivRecCert.Rounds
