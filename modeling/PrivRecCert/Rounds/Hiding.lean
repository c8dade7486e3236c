import PrivRecCert.Rounds.Proc
import Mathlib.Logic.Equiv.Prod

/-! What others learn of a party. Its peers may deliver whatever they like, at any moment and as they see fit; still two
programs look the same to them if for each secret of the one there is exactly one of the other with which all that
passes is the same. -/
namespace PrivRecCert.Rounds

/-- What passes between a party and its peers. -/
inductive Event (M : Type) : Type
  | sent (m : M)
  | got (l : List M)

/-- What the peers deliver next, if anything, after all that has passed. -/
abbrev Adversary (M : Type) : Type := List (Event M) → Option (List M)

inductive Ending : Type
  | done
  | failed
  | waiting

variable {M K α α' β β' : Type}

namespace Proc

/-- All that the peers see of a program, after what has passed before. -/
def view (adv : Adversary M) : Proc M K α → List (Event M) → List (Event M) × Ending
  | ret _, h => (h, .done)
  | fail, h => (h, .failed)
  | send m p, h => p.view adv (h ++ [.sent m])
  | recv _ k, h =>
    match adv h with
    | none => (h, .waiting)
    | some l => (k l).view adv (h ++ [.got l])

/-- Two programs that look the same to the peers. If they end, they do so with related results. -/
inductive Same (adv : Adversary M) (R : α → α' → List (Event M) → Prop) :
    List (Event M) → Proc M K α → Proc M K α' → Prop
  | ret {h a b} (hR : R a b h) : Same adv R h (ret a) (ret b)
  | fail {h} : Same adv R h fail fail
  | send {h p q} (m) (hnext : Same adv R (h ++ [.sent m]) p q) : Same adv R h (send m p) (send m q)
  | wait {h} (kd k k') (hnone : adv h = none) : Same adv R h (recv kd k) (recv kd k')
  | recv {h l} (kd) {k k'} (hsome : adv h = some l) (hnext : Same adv R (h ++ [.got l]) (k l) (k' l)) :
      Same adv R h (recv kd k) (recv kd k')

namespace Same
variable {adv : Adversary M} {R : α → α' → List (Event M) → Prop} {h : List (Event M)} {p : Proc M K α}
  {q : Proc M K α'}

theorem view_eq (hs : Same adv R h p q) : p.view adv h = q.view adv h := by
  induction hs with
  | ret hR => rfl
  | fail => rfl
  | send m _ ih => exact ih
  | wait kd k k' hnone => rw [view, view, hnone]
  | recv kd hsome _ ih =>
    rw [view, view, hsome]
    exact ih

/-- Programs that look the same, one after the other. -/
theorem bind {R' : β → β' → List (Event M) → Prop} {f : α → Proc M K β} {f' : α' → Proc M K β'} (hs : Same adv R h p q)
    (hf : ∀ a b h', p.Yields a → q.Yields b → R a b h' → Same adv R' h' (f a) (f' b)) :
    Same adv R' h (p >>= f) (q >>= f') := by
  induction hs with
  | ret hR => exact hf _ _ _ (.ret _) (.ret _) hR
  | fail => exact .fail
  | send m _ ih => exact .send m (ih fun a b h' ha hb => hf a b h' (ha.send m) (hb.send m))
  | wait kd k k' hnone => exact .wait kd _ _ hnone
  | recv kd hsome _ ih => exact .recv kd hsome (ih fun a b h' ha hb => hf a b h' (ha.recv kd) (hb.recv kd))

end Same

/-- A program that has failed, or has come to a result that shows this much. -/
def Ends {γ : Type} (pub : α → γ) (p : Proc M K α) : Option γ → Prop
  | none => p = fail
  | some c => ∃ a, p = ret a ∧ pub a = c

/-- A local step that may fail, and a result. -/
theorem ends_lift {γ : Type} {x : Option α} {f : α → β} {pub : β → γ} {o : Option γ}
    (ho : o = x.map fun a => pub (f a)) : (lift x >>= fun a => (ret (f a) : Proc M K β)).Ends pub o := by
  subst ho
  cases x with
  | none => rfl
  | some a => exact ⟨f a, rfl, rfl⟩

end Proc

open Proc

variable {σ σ' τ τ' Ω Ω₁ Ω₂ γ γ' δ δ' : Type}

/-- For each secret `ω` that the first program reads from its state there is exactly one that lets the second one look
the same. What the results show depends on the secret only; it is related by `P`. -/
def Hides (adv : Adversary M) (reads : σ → Ω → Prop) (reads' : σ' → Ω → Prop) (pub : α → γ) (pub' : α' → γ')
    (P : γ → γ' → Prop) (h : List (Event M)) (p : σ → Proc M K α) (p' : σ' → Proc M K α') : Prop :=
  ∃ e : Ω ≃ Ω, ∀ ω, ∃ o : Option (γ × γ' × List (Event M)), (∀ c c' h', o = some (c, c', h') → P c c') ∧
    ∀ s s', reads s ω → reads' s' (e ω) → Same adv (fun a b h' => o = some (pub a, pub' b, h')) h (p s) (p' s')

namespace Hides
variable {adv : Adversary M} {reads : σ → Ω → Prop} {reads' : σ' → Ω → Prop} {pub : α → γ} {pub' : α' → γ'}
  {P : γ → γ' → Prop} {h : List (Event M)} {p q : σ → Proc M K α} {p' q' : σ' → Proc M K α'}

/-- To the peers there is no difference. -/
theorem view_eq (hp : Hides adv reads reads' pub pub' P h p p') : ∃ e : Ω ≃ Ω, ∀ ω s s', reads s ω → reads' s' (e ω) →
    (p s).view adv h = (p' s').view adv h := by
  obtain ⟨e, he⟩ := hp
  refine ⟨e, fun ω s s' hs hs' => ?_⟩
  obtain ⟨o, -, ho⟩ := he ω
  exact (ho s s' hs hs').view_eq

/-- Only states from which a secret can be read matter. -/
theorem congr (hp : Hides adv reads reads' pub pub' P h p p') (hq : ∀ s ω, reads s ω → q s = p s)
    (hq' : ∀ s ω, reads' s ω → q' s = p' s) : Hides adv reads reads' pub pub' P h q q' := by
  obtain ⟨e, he⟩ := hp
  refine ⟨e, fun ω => ?_⟩
  obtain ⟨o, hP, ho⟩ := he ω
  exact ⟨o, hP, fun s s' hs hs' => by
    rw [hq s ω hs, hq' s' (e ω) hs']
    exact ho s s' hs hs'⟩

/-- The programs read a part of the states. -/
theorem comap {f : τ → σ} {g : τ' → σ'} {sees : τ → Ω → Prop} {sees' : τ' → Ω → Prop}
    (hp : Hides adv reads reads' pub pub' P h p p') (hf : ∀ t ω, sees t ω → reads (f t) ω)
    (hg : ∀ t ω, sees' t ω → reads' (g t) ω) :
    Hides adv sees sees' pub pub' P h (fun t => p (f t)) (fun t => p' (g t)) := by
  obtain ⟨e, he⟩ := hp
  refine ⟨e, fun ω => ?_⟩
  obtain ⟨o, hP, ho⟩ := he ω
  exact ⟨o, hP, fun t t' ht ht' => ho _ _ (hf t ω ht) (hg t' (e ω) ht')⟩

/-- A program that is done shows what it shows. -/
theorem ret {f : σ → α} {f' : σ' → α'} {c : γ} {c' : γ'} (hP : P c c') (hf : ∀ s ω, reads s ω → pub (f s) = c)
    (hf' : ∀ s ω, reads' s ω → pub' (f' s) = c') :
    Hides adv reads reads' pub pub' P h (fun s => (.ret (f s) : Proc M K α)) fun s => .ret (f' s) := by
  refine ⟨Equiv.refl Ω, fun ω => ⟨some (c, c', h), fun d d' h' ho => ?_, fun s s' hs hs' => .ret ?_⟩⟩
  · obtain ⟨rfl, rfl, -⟩ : c = d ∧ c' = d' ∧ h = h' := by simpa using ho
    exact hP
  · rw [hf s ω hs, hf' s' _ hs']

/-- One exchange. The secrets are in bijection in such a way that the messages are the same, and what is made of the
lists that may come in fails in both programs or in neither. -/
theorem exchange (e : Ω ≃ Ω) (kd : K) (hx : ∀ ω s₀ s₀', reads s₀ ω → reads' s₀' (e ω) → ∃ m, ∀ l,
      ∃ o : Option (γ × γ'), (∀ c c', o = some (c, c') → P c c') ∧
        (∀ s, reads s ω → ∃ k, p s = .send m (.recv kd k) ∧ (k l).Ends pub (o.map Prod.fst)) ∧
        ∀ s, reads' s (e ω) → ∃ k, p' s = .send m (.recv kd k) ∧ (k l).Ends pub' (o.map Prod.snd)) :
    Hides adv reads reads' pub pub' P h p p' := by
  refine ⟨e, fun ω => ?_⟩
  by_cases hread : ∃ s₀ s₀', reads s₀ ω ∧ reads' s₀' (e ω)
  · obtain ⟨s₀, s₀', hs₀, hs₀'⟩ := hread
    obtain ⟨m, hm⟩ := hx ω s₀ s₀' hs₀ hs₀'
    cases hadv : adv (h ++ [.sent m]) with
    | none =>
      refine ⟨none, fun _ _ _ ho => (by cases ho), fun s s' hs hs' => ?_⟩
      obtain ⟨o, -, hleft, hright⟩ := hm []
      obtain ⟨k, hk, -⟩ := hleft s hs
      obtain ⟨k', hk', -⟩ := hright s' hs'
      rw [hk, hk']
      exact .send m (.wait kd k k' hadv)
    | some l =>
      obtain ⟨o, hP, hleft, hright⟩ := hm l
      refine ⟨o.map fun r => (r.1, r.2, h ++ [.sent m] ++ [.got l]), fun c c' h' ho => ?_, fun s s' hs hs' => ?_⟩
      · obtain ⟨⟨d, d'⟩, hr, heq⟩ := Option.map_eq_some_iff.mp ho
        obtain ⟨rfl, rfl, -⟩ : d = c ∧ d' = c' ∧ _ = h' := by simpa using heq
        exact hP d d' hr
      · obtain ⟨k, hk, hend⟩ := hleft s hs
        obtain ⟨k', hk', hend'⟩ := hright s' hs'
        rw [hk, hk']
        refine .send m (.recv kd hadv ?_)
        cases o with
        | none =>
          rw [show k l = .fail from hend, show k' l = .fail from hend']
          exact .fail
        | some r =>
          obtain ⟨a, ha, hpub⟩ := hend
          obtain ⟨b, hb, hpub'⟩ := hend'
          rw [ha, hb]
          refine .ret ?_
          rw [hpub, hpub']
          rfl
  · exact ⟨none, fun _ _ _ ho => (by cases ho), fun s s' hs hs' => absurd ⟨s, s', hs, hs'⟩ hread⟩

/-- A second program that reads a secret of its own, which is the rest of the secret that both of them read. The
bijection of its secrets may depend on the first one. -/
theorem bind {reads₁ : σ → Ω₁ → Prop} {reads₁' : σ' → Ω₁ → Prop} {reads₂ : σ × α → Ω₂ → Prop}
    {reads₂' : σ' × α' → Ω₂ → Prop} {both : σ → Ω → Prop} {both' : σ' → Ω → Prop} {pub₂ : β → δ} {pub₂' : β' → δ'}
    {Q : δ → δ' → Prop} {f : σ → α → Proc M K β} {f' : σ' → α' → Proc M K β'} (e : Ω ≃ Ω₁ × Ω₂)
    (hp : Hides adv reads₁ reads₁' pub pub' P h p p')
    (hf : ∀ c c' h', P c c' → Hides adv (fun x ω => pub x.2 = c ∧ reads₂ x ω) (fun x ω => pub' x.2 = c' ∧ reads₂' x ω)
      pub₂ pub₂' Q h' (fun x => f x.1 x.2) fun x => f' x.1 x.2)
    (hread : ∀ s ω, both s ω → reads₁ s (e ω).1 ∧ ∀ a, (p s).Yields a → reads₂ (s, a) (e ω).2)
    (hread' : ∀ s ω, both' s ω → reads₁' s (e ω).1 ∧ ∀ a, (p' s).Yields a → reads₂' (s, a) (e ω).2) :
    Hides adv both both' pub₂ pub₂' Q h (fun s => p s >>= f s) fun s => p' s >>= f' s := by
  obtain ⟨e₁, he₁⟩ := hp
  choose o₁ hP hsame using he₁
  have htail : ∀ ω₁, ∃ e₂ : Ω₂ ≃ Ω₂, ∀ ω₂, ∃ o₂ : Option (δ × δ' × List (Event M)),
      (∀ d d' h₂, o₂ = some (d, d', h₂) → Q d d') ∧ ∀ x x' h', o₁ ω₁ = some (pub x.2, pub' x'.2, h') →
        reads₂ x ω₂ → reads₂' x' (e₂ ω₂) →
          Same adv (fun a b h₂ => o₂ = some (pub₂ a, pub₂' b, h₂)) h' (f x.1 x.2) (f' x'.1 x'.2) := by
    intro ω₁
    cases ho : o₁ ω₁ with
    | none => exact ⟨Equiv.refl Ω₂, fun ω₂ => ⟨none, fun _ _ _ ho₂ => (by cases ho₂), fun _ _ _ ho₁ => (by cases ho₁)⟩⟩
    | some r =>
      obtain ⟨c, c', h'⟩ := r
      obtain ⟨e₂, he₂⟩ := hf c c' h' (hP ω₁ c c' h' ho)
      refine ⟨e₂, fun ω₂ => ?_⟩
      obtain ⟨o₂, hQ, hsame₂⟩ := he₂ ω₂
      refine ⟨o₂, hQ, fun x x' h'' heq hx hx' => ?_⟩
      obtain ⟨rfl, rfl, rfl⟩ : c = pub x.2 ∧ c' = pub' x'.2 ∧ h' = h'' := by simpa using heq
      exact hsame₂ x x' ⟨rfl, hx⟩ ⟨rfl, hx'⟩
  choose e₂ he₂ using htail
  choose o₂ hQ hsame₂ using he₂
  refine ⟨e.trans ((Equiv.prodShear e₁ e₂).trans e.symm), fun ω => ⟨o₂ (e ω).1 (e ω).2, hQ _ _, fun s s' hs hs' => ?_⟩⟩
  obtain ⟨hs₁, hs₂⟩ := hread s ω hs
  obtain ⟨hs₁', hs₂'⟩ := hread' s' _ hs'
  rw [Equiv.trans_apply, Equiv.trans_apply, Equiv.apply_symm_apply] at hs₁' hs₂'
  exact (hsame _ s s' hs₁ hs₁').bind fun a b h' ha hb ho => hsame₂ _ _ (s, a) (s', b) h' ho (hs₂ a ha) (hs₂' b hb)

/-- A local computation at the end. -/
theorem local_end {pub₂ : β → δ} {pub₂' : β' → δ'} {Q : δ → δ' → Prop} {f : σ → α → Proc M K β}
    {f' : σ' → α' → Proc M K β'} (hp : Hides adv reads reads' pub pub' P h p p')
    (hf : ∀ c c', P c c' → ∃ o : Option (δ × δ'), (∀ d d', o = some (d, d') → Q d d') ∧
      (∀ s ω a, reads s ω → (p s).Yields a → pub a = c → (f s a).Ends pub₂ (o.map Prod.fst)) ∧
      ∀ s ω a, reads' s ω → (p' s).Yields a → pub' a = c' → (f' s a).Ends pub₂' (o.map Prod.snd)) :
    Hides adv reads reads' pub₂ pub₂' Q h (fun s => p s >>= f s) fun s => p' s >>= f' s := by
  obtain ⟨e, he⟩ := hp
  refine ⟨e, fun ω => ?_⟩
  obtain ⟨o, hP, ho⟩ := he ω
  cases o with
  | none =>
    refine ⟨none, fun _ _ _ heq => (by cases heq), fun s s' hs hs' => ?_⟩
    exact (ho s s' hs hs').bind fun a b h' _ _ heq => by cases heq
  | some r =>
    obtain ⟨c, c', h'⟩ := r
    obtain ⟨o₂, hQ, hleft, hright⟩ := hf c c' (hP c c' h' rfl)
    refine ⟨o₂.map fun r => (r.1, r.2, h'), fun d d' h'' heq => ?_, fun s s' hs hs' => ?_⟩
    · obtain ⟨⟨x, x'⟩, hx, heq⟩ := Option.map_eq_some_iff.mp heq
      obtain ⟨rfl, rfl, -⟩ : x = d ∧ x' = d' ∧ _ = h'' := by simpa using heq
      exact hQ x x' hx
    · refine (ho s s' hs hs').bind fun a b h'' ha hb heq => ?_
      obtain ⟨hc, hc', rfl⟩ : c = pub a ∧ c' = pub' b ∧ h' = h'' := by simpa using heq
      have hend := hleft s ω a hs ha hc.symm
      have hend' := hright s' (e ω) b hs' hb hc'.symm
      cases o₂ with
      | none =>
        rw [show f s a = .fail from hend, show f' s' b = .fail from hend']
        exact .fail
      | some r =>
        obtain ⟨d, hd, hpub⟩ := hend
        obtain ⟨d', hd', hpub'⟩ := hend'
        rw [hd, hd']
        refine .ret ?_
        rw [hpub, hpub']
        rfl

/-- A last local step that shows no more than the result before it. -/
theorem finish {pub₂ : β → γ} {pub₂' : β' → γ'} {f : σ → α → β} {f' : σ' → α' → β'}
    (hp : Hides adv reads reads' pub pub' P h p p') (hf : ∀ s a, pub₂ (f s a) = pub a)
    (hf' : ∀ s a, pub₂' (f' s a) = pub' a) :
    Hides adv reads reads' pub₂ pub₂' P h (fun s => p s >>= fun a => .ret (f s a))
      fun s => p' s >>= fun a => .ret (f' s a) :=
  hp.local_end fun c c' hP => ⟨some (c, c'), fun d d' heq => by
    obtain ⟨rfl, rfl⟩ := Prod.mk.inj (Option.some.inj heq)
    exact hP, fun s ω a _ _ ha => ⟨_, rfl, (hf s a).trans ha⟩, fun s ω a _ _ ha => ⟨_, rfl, (hf' s a).trans ha⟩⟩

end Hides
end PrivRecCert.Rounds
