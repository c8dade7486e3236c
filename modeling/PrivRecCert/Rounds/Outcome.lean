import PrivRecCert.Rounds.SessionRuns

/-! What parties come to that finish before the others: their results are those of one joint run, which the others can
still complete. -/
namespace PrivRecCert.Rounds
open Function

variable {n : ℕ} {M K F S A R T α : Type}

/-- Results that some parties already have belong to joint results. -/
theorem Lockstep.outcome [DecidableEq K] {E : Endpoint n M K F S} {kindOf : M → K} {wire : Fin n → M → Option M}
    {slots : S → K → List M} {Q : (Fin n → α) → Prop} (L : Lawful E kindOf wire slots) {procs : Fin n → Proc M K α}
    {empty : S} (hrun : Lockstep kindOf wire Q procs) (hempty : slots empty = fun _ => []) {s : Net n M K F S α}
    (h : Reachable E procs empty s) : ∃ b, Q b ∧ ∀ i a, s.phase i = .ready (.ret a) → a = b i := by
  obtain ⟨t, ht, b, hb⟩ := finishes s fun t ht => (hrun.network L hempty (h.trans ht)).progress
  refine ⟨b, (hrun.network L hempty (h.trans ht)).result b hb, fun i a ha => ?_⟩
  have hstays := ret_stays ht ha
  rw [hb i] at hstays
  exact (Proc.ret.inj (Phase.ready.inj hstays)).symm

/-- A result of a program is one that its sizes promise. -/
theorem Proc.Sized.yields {size : M → ℕ} {Q : α → Prop} {sizes : List ℕ} {p : Proc M K α}
    (h : p.Sized size Q sizes) {a : α} (ha : p.Yields a) : Q a := by
  obtain ⟨ls, out, ha⟩ := ha
  induction h generalizing ls out with
  | ret h => exact (Prod.mk.inj (Option.some.inj ha)).2 ▸ h
  | fail => cases ha
  | round m kd k _ ih =>
    obtain ⟨l, ls', r, -, hr, he⟩ := Proc.transcript_exchange ha
    obtain ⟨-, rfl⟩ := Prod.mk.inj he
    exact ih l ls' r.1 hr

/-- A party may still come to this result. -/
def Phase.Yields (a : α) : Phase n M K F α → Prop
  | .ready p => p.Yields a
  | .sending _ _ p => p.Yields a
  | .receiving _ _ _ k => ∃ l, (k l).Yields a
  | .panicked => False

theorem Phase.Next.yields {ph ph' : Phase n M K F α} (h : Phase.Next ph ph') {a : α} (ha : ph'.Yields a) :
    ph.Yields a := by
  cases h with
  | begin m p pending => exact Proc.Yields.send ha m
  | push m pending p j hj => exact ha
  | finish m p => exact ha
  | listen kd k pending =>
    obtain ⟨l, hl⟩ := ha
    exact Proc.Yields.recv hl kd
  | pop kd pending held k j f hj => exact ha
  | handle kd pending before f after k => exact ha
  | deliver kd k l => exact ⟨l, ha⟩
  | panic ph hne => cases ha

/-- Whatever the others do, a party that finishes does so with a result of its own program. -/
theorem Reachable.yields {E : Endpoint n M K F S} {procs : Fin n → Proc M K α} {empty : S} {s : Net n M K F S α}
    (h : Reachable E procs empty s) {i : Fin n} {a : α} (ha : (s.phase i).Yields a) : (procs i).Yields a := by
  induction h with
  | refl => exact ha
  | tail _ hstep ih =>
    obtain ⟨j, ph, hnext, hphase⟩ := hstep.phase_next
    refine ih ?_
    rw [hphase] at ha
    by_cases hij : i = j
    · subst hij
      rw [update_self] at ha
      exact hnext.yields ha
    · rwa [update_of_ne hij] at ha

namespace Session
variable {X : Metered n M K F S A R T} {s t : Session n M K F S A R T}

/-- With nothing left to do, a party stands at its result. -/
theorem Step.ended (h : Step X s t) (hs : ∀ i, s.queue i = [] → ∃ a, s.net.phase i = .ready (.ret a)) :
    ∀ i, t.queue i = [] → ∃ a, t.net.phase i = .ready (.ret a) := by
  have hother : ∀ k ph, (∀ a, s.net.phase k ≠ .ready (.ret a)) →
      ∀ i, s.queue i = [] → ∃ a, update s.net.phase k ph i = .ready (.ret a) := fun k ph hne i hi => by
    obtain ⟨a, ha⟩ := hs i hi
    have hik : i ≠ k := fun he => hne a (he ▸ ha)
    exact ⟨a, by rw [update_of_ne hik, ha]⟩
  cases h with
  | inner net h hchan =>
    intro i hi
    obtain ⟨a, ha⟩ := hs i hi
    exact ⟨a, h.ret_stays ha⟩
  | push k j m pending p stat h => exact hother k _ (by simp [h])
  | pop k j kd pending held next f rest stat h => exact hother k _ (by simp [h])
  | report k a r rest sum h hqueue hsum =>
    intro i hi
    by_cases hik : i = k
    · subst hik
      simp only [update_self] at hi ⊢
      exact ⟨a, by rw [hi]; rfl⟩
    · simp only [update_of_ne hik] at hi ⊢
      exact hs i hi
  | pushOverflow k j m pending p h => exact hother k _ (by simp [h])
  | popOverflow k j kd pending held next f rest h => exact hother k _ (by simp [h])
  | sumOverflow k a r rest h hqueue hsum =>
    intro i hi
    have hik : i ≠ k := by
      rintro rfl
      rw [hqueue] at hi
      cases hi
    simp only [update_of_ne hik]
    exact hs i hi

variable {start : Fin n → A} {queue : Fin n → List R} {opening : Fin n → Fin n → T} {chan : Fin n × Fin n → List F}
  {empty : S}

theorem Reachable.ended (h : Reachable X (.init X start queue opening chan empty) s) :
    ∀ i, s.queue i = [] → ∃ a, s.net.phase i = .ready (.ret a) := by
  induction h with
  | refl =>
    intro i hi
    change queue i = [] at hi
    exact ⟨start i, by simp only [init, Net.init, hi, Metered.next]⟩
  | tail _ hstep ih => exact hstep.ended ih

/-- One more request at the end. -/
theorem Metered.program_append (X : Metered n M K F S A R T) (i : Fin n) (a : A) (queue : List R) (r : R) :
    X.program i a (queue ++ [r]) = X.program i a queue >>= fun a' => X.serve i a' r := by
  induction queue generalizing a with
  | nil => exact Proc.bind_ret (X.serve i a r)
  | cons r' queue ih =>
    change (X.serve i a r' >>= fun a' => X.program i a' (queue ++ [r])) = (X.serve i a r' >>= _) >>= _
    rw [Proc.bind_assoc]
    exact congrArg (X.serve i a r' >>= ·) (funext ih)

/-- A party has come to a result of its first requests, as many as it has reported on. -/
theorem Reachable.reported_yields (h : Reachable X (.init X start queue opening chan empty) s) (i : Fin n) :
    ∃ a, (X.program i (start i) ((queue i).take (s.reports i).length)).Yields a ∧
      s.queue i = (queue i).drop (s.reports i).length ∧
      ∀ b, (s.net.phase i).Yields b → (X.next i a (s.queue i)).Yields b := by
  induction h with
  | refl => exact ⟨start i, .ret _, rfl, fun b hb => hb⟩
  | @tail s t _ hstep ih =>
    obtain ⟨a, ha, hqueue, hphase⟩ := ih
    rcases hstep.moves with ⟨k, ph, hnext, hph, hq, hr⟩ | ⟨k, a', r, rest, sum, hret, hqk, hph, hq, hr⟩
    · rw [hph, hq, hr]
      refine ⟨a, ha, hqueue, fun b hb => hphase b ?_⟩
      by_cases hk : i = k
      · subst hk
        rw [update_self] at hb
        exact hnext.yields hb
      · rwa [update_of_ne hk] at hb
    · rw [hph, hq, hr]
      by_cases hk : i = k
      · subst hk
        rw [hqk] at hqueue hphase
        have hlt : (s.reports i).length < (queue i).length := by
          by_contra hle
          rw [List.drop_eq_nil_of_le (not_lt.mp hle)] at hqueue
          cases hqueue
        rw [List.drop_eq_getElem_cons hlt] at hqueue
        obtain ⟨hr', hrest⟩ := List.cons.inj hqueue
        rw [update_self, update_self, update_self, List.length_append, List.length_singleton,
          List.take_succ_eq_append_getElem hlt, Metered.program_append, ← hr']
        refine ⟨a', Proc.Yields.bind ha (hphase a' ?_), hrest, fun b hb => hb⟩
        rw [hret]
        exact .ret a'
      · rw [update_of_ne hk, update_of_ne hk, update_of_ne hk]
        exact ⟨a, ha, hqueue, hphase⟩

/-- The parties that have reported on all their requests have results of one joint run of the long programs. -/
theorem Reachable.outcome [DecidableEq K] {kindOf : M → K} {wire : Fin n → M → Option M} {slots : S → K → List M}
    {Q : (Fin n → A) → Prop} {costs : List ℕ} {Inv : Fin n → A → Prop} {Ask : Fin n → R → Prop} {limit : ℕ}
    (L : Lawful X.endpoint kindOf wire slots) (hempty : slots empty = fun _ => [])
    (hrun : Lockstep kindOf wire Q fun i => X.program i (start i) (queue i))
    (hX : X.Regular costs Inv Ask) (hfits : X.Fits costs opening limit) (hstart : ∀ i, Inv i (start i))
    (hqueue : ∀ i, ∀ r ∈ queue i, Ask i r) (hchan : ∀ x, chan x = [])
    (h : Reachable X (.init X start queue opening chan empty) s) :
    ∃ b, Q b ∧ ∀ i, s.queue i = [] → s.net.phase i = .ready (.ret (b i)) := by
  obtain ⟨b, hQ, hb⟩ := hrun.outcome L hempty (h.whole hX hfits hstart hqueue hchan)
  refine ⟨b, hQ, fun i hi => ?_⟩
  obtain ⟨a, ha⟩ := h.ended i hi
  have hwhole : (s.whole X).phase i = .ready (.ret a) := by
    change (s.net.phase i).bind (fun a => X.program i a (s.queue i).tail) = _
    rw [ha, hi]
    rfl
  rw [ha, hb i a hwhole]

end Session
end PrivRecCert.Rounds
