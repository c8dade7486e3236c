import PrivRecCert.Prc.TcpLive

/-! The set-up over TCP from the start of the programs. A party listens before it dials, but it does not wait for the
others to listen: `connect` unwraps, so a party that dials a peer which does not listen yet panics. If that does not
happen, the set-up comes to its end. -/
namespace PrivRecCert.Prc
open Function CorRnd SimdArray Rounds
open scoped BigOperators

/-- The set-up, and who listens already. `refused` is the party whose dial has been refused; what becomes of the others
after that is not followed. -/
structure TcpStart (n : ℕ) where
  setup : TcpSetup n
  listens : Fin n → Bool
  refused : Option (Fin n)

namespace TcpStart
variable {n : ℕ}

/-- Nobody listens yet. -/
def init (infos : List (Fin n)) : TcpStart n := ⟨.init infos, fun _ => false, none⟩

/-- One step of one party. In a step of the set-up, a party that does not listen yet neither dials nor is dialled. -/
inductive Step (G : Type) [AddCommGroup G] [Module Scalar G] [Ristretto G] : TcpStart n → TcpStart n → Prop
  | listen {s} (i) (hrefused : s.refused = none) (h : s.listens i = false) :
      Step G s { s with listens := update s.listens i true }
  | refuse {s} (i j rest) (hrefused : s.refused = none) (hi : s.listens i = true) (h : s.setup.dialling i = .idle)
      (htodo : s.setup.todo i = j :: rest) (hj : j < i) (hlisten : s.listens j = false) :
      Step G s { s with refused := some i }
  | connect {s t} (hrefused : s.refused = none) (h : TcpSetup.Step G s.setup t)
      (hdials : ∀ i, s.listens i = false → t.todo i = s.setup.todo i)
      (hdialled : ∀ j, s.listens j = false → t.backlog j = s.setup.backlog j) :
      Step G s { s with setup := t }

def Reachable (G : Type) [AddCommGroup G] [Module Scalar G] [Ristretto G] (infos : List (Fin n)) :
    TcpStart n → Prop :=
  Relation.ReflTransGen (Step G) (init infos)

variable {G : Type} [AddCommGroup G] [Module Scalar G] [Ristretto G] {infos : List (Fin n)} {s t : TcpStart n}

theorem Reachable.setup (h : Reachable G infos s) : TcpSetup.Reachable G infos s.setup := by
  induction h with
  | refl => exact .refl
  | tail _ hstep ih =>
    cases hstep with
    | listen i hrefused h => exact ih
    | refuse i j rest hrefused hi h htodo hj hlisten => exact ih
    | connect hrefused h hdials hdialled => exact ih.tail h

def silent : Bool → ℕ
  | true => 0
  | false => 1

/-- No more steps than this are left. -/
def work (s : TcpStart n) : ℕ := s.setup.work + ∑ i, silent (s.listens i) + if s.refused = none then 1 else 0

theorem Step.work_lt (h : Step G s t) : t.work < s.work := by
  cases h with
  | listen i hrefused h =>
    have hsum : _ + 1 = _ + 0 := TcpSetup.sum_update silent h true
    simp only [work]
    omega
  | refuse i j rest hrefused hi h htodo hj hlisten =>
    simp only [work, hrefused, if_true, reduceCtorEq, if_false]
    omega
  | connect hrefused h hdials hdialled =>
    have hwork := h.work_lt
    simp only [work]
    omega

theorem step_wellFounded : WellFounded fun t s : TcpStart n => Step G s t :=
  Subrelation.wf (fun h => h.work_lt) (measure work).wf

/-- Every state leads to one in which nothing is left to do. -/
theorem ends (s : TcpStart n) : ∃ t, Relation.ReflTransGen (Step G) s t ∧ ∀ u, ¬ Step G t u := by
  induction s using (step_wellFounded (G := G)).induction with
  | _ s ih =>
    by_cases h : ∃ u, Step G s u
    · obtain ⟨u, hu⟩ := h
      obtain ⟨t, ht, hend⟩ := ih u hu
      exact ⟨t, ht.head hu, hend⟩
    · exact ⟨s, .refl, not_exists.mp h⟩

/-- Once all parties listen, no dial is refused any more. -/
theorem Step.unrefused (h : Step G s t) (hall : ∀ i, s.listens i = true) :
    (∀ i, t.listens i = true) ∧ t.refused = s.refused := by
  cases h with
  | listen i hrefused h => exact absurd ((hall i).symm.trans h) Bool.true_eq_false.mp
  | refuse i j rest hrefused hi h htodo hj hlisten => exact absurd ((hall j).symm.trans hlisten) Bool.true_eq_false.mp
  | connect hrefused h hdials hdialled => exact ⟨hall, rfl⟩

theorem unrefused (h : Relation.ReflTransGen (Step G) s t) (hall : ∀ i, s.listens i = true) :
    (∀ i, t.listens i = true) ∧ t.refused = s.refused := by
  induction h with
  | refl => exact ⟨hall, rfl⟩
  | tail _ hstep ih =>
    obtain ⟨hlistens, hrefused⟩ := hstep.unrefused ih.1
    exact ⟨hlistens, hrefused.trans ih.2⟩

/-- If nothing is left to do although no dial was refused, all parties listen and the set-up is over. -/
theorem listens_of_stuck (hstuck : ∀ t, ¬ Step G s t) (hrefused : s.refused = none) :
    (∀ i, s.listens i = true) ∧ ∀ t, ¬ TcpSetup.Step G s.setup t := by
  have hall : ∀ i, s.listens i = true := fun i => by
    by_contra h
    exact hstuck _ (.listen i hrefused (Bool.not_eq_true _ ▸ h))
  have hnever : ∀ i, s.listens i ≠ false := fun i h => absurd ((hall i).symm.trans h) Bool.true_eq_false.mp
  exact ⟨hall, fun t ht => hstuck _ (.connect hrefused ht (fun i h => absurd h (hnever i)) fun i h =>
    absurd h (hnever i))⟩

/-- The parties can all begin to listen before anybody dials. -/
theorem all_listen (G : Type) [AddCommGroup G] [Module Scalar G] [Ristretto G] (infos l : List (Fin n)) :
    ∃ s, Reachable G infos s ∧ s.refused = none ∧ ∀ i ∈ l, s.listens i = true := by
  induction l with
  | nil => exact ⟨_, .refl, rfl, fun i hi => absurd hi List.not_mem_nil⟩
  | cons i l ih =>
    obtain ⟨s, hs, hrefused, hl⟩ := ih
    cases h : s.listens i with
    | true => exact ⟨s, hs, hrefused, List.forall_mem_cons.mpr ⟨h, hl⟩⟩
    | false =>
      refine ⟨_, hs.tail (.listen i hrefused h), hrefused, fun k hk => ?_⟩
      change update s.listens i true k = true
      by_cases hki : k = i
      · rw [hki, update_self]
      · rw [update_of_ne hki]
        exact hl k ((List.mem_cons.mp hk).resolve_left hki)

/-- A party that does not listen yet lets the dial of a later one fail. -/
theorem refusal {i j : Fin n} (hj : j < i) (hi : s.listens i = true) (hlisten : s.listens j = false)
    (hrefused : s.refused = none) (h : s.setup.dialling i = .idle) {l : List (Fin n)} (htodo : s.setup.todo i = l)
    (hmem : j ∈ l) (hfirst : ∀ k ∈ l, k < i → k = j) :
    ∃ t, Relation.ReflTransGen (Step G) s t ∧ t.refused = some i := by
  induction l generalizing s with
  | nil => exact absurd hmem List.not_mem_nil
  | cons k l ih =>
    by_cases hk : k < i
    · obtain rfl := hfirst k List.mem_cons_self hk
      exact ⟨_, .single (.refuse i k l hrefused hi h htodo hk hlisten), rfl⟩
    · have hskip : Step G s { s with setup := { s.setup with todo := update s.setup.todo i l } } := by
        refine .connect hrefused (.skip i k l h htodo hk) (fun a ha => ?_) fun _ _ => rfl
        refine update_of_ne ?_ _ _
        rintro rfl
        exact absurd (hi.symm.trans ha) Bool.true_eq_false.mp
      have hmem' : j ∈ l := (List.mem_cons.mp hmem).resolve_left fun hjk => hk (hjk ▸ hj)
      obtain ⟨t, ht, hrefuse⟩ := ih (s := { s with setup := { s.setup with todo := update s.setup.todo i l } }) hi
        hlisten hrefused h (update_self _ _ _) hmem' fun a ha => hfirst a (List.mem_cons_of_mem _ ha)
      exact ⟨t, ht.head hskip, hrefuse⟩

end TcpStart

namespace TcpSetup
variable {n : ℕ} {infos : List (Fin n)}

/-- The set-up from the start. A dial can be refused, but not once all parties listen. No listening loop panics, and
every run comes to an end. If the numbers of the parties fit into a byte and no dial was refused, all have their
handlers then; with more parties, party 1 never gets its handler. -/
theorem set_up_ends (G : Type) [AddCommGroup G] [Module Scalar G] [Ristretto G] (hn : 2 ≤ n)
    (hinfos : infos.Perm (List.finRange n)) :
    (∀ s, TcpStart.Reachable G infos s → (∀ i, s.setup.listening i ≠ .panicked) ∧
      Acc (fun t s => TcpStart.Step G s t) s ∧
      ((∀ i, s.listens i = true) → ∀ t, Relation.ReflTransGen (TcpStart.Step G) s t → t.refused = s.refused)) ∧
    (n ≤ 256 → ∀ s, TcpStart.Reachable G infos s → (∀ t, ¬ TcpStart.Step G s t) → s.refused = none →
      ∀ i, ∃ order, s.setup.visited i = some order) ∧
    (256 < n → ∀ s, TcpStart.Reachable G infos s → s.setup.visited ⟨1, hn⟩ = none) ∧
    ∃ s, TcpStart.Reachable G infos s ∧ s.refused = some ⟨1, hn⟩ := by
  refine ⟨fun s hs => ⟨hs.setup.listening_ne, TcpStart.step_wellFounded.apply s, fun hall t ht =>
    (TcpStart.unrefused ht hall).2⟩, fun hle s hs hstuck hrefused => ?_, fun hlt s hs => ?_, ?_⟩
  · exact hs.setup.visited_of_stuck hle hinfos (TcpStart.listens_of_stuck hstuck hrefused).2
  · exact hs.setup.visited_eq_none hlt rfl
  · -- party 1 dials party 0 before anything else happens
    let first : Fin n := ⟨0, by omega⟩
    have hlt : first < ⟨1, hn⟩ := Fin.lt_def.mpr Nat.zero_lt_one
    have hfirst : ∀ k ∈ infos, k < ⟨1, hn⟩ → k = first := fun k _ hk => Fin.ext (Nat.lt_one_iff.mp hk)
    let s : TcpStart n := ⟨.init infos, update (fun _ => false) ⟨1, hn⟩ true, none⟩
    have hlistens : s.listens ⟨1, hn⟩ = true := update_self (⟨1, hn⟩ : Fin n) true fun _ => false
    have hsilent : s.listens first = false := update_of_ne (ne_of_lt hlt) true fun _ => false
    obtain ⟨t, ht, hrefused⟩ := TcpStart.refusal (G := G) hlt hlistens hsilent rfl rfl rfl
      (hinfos.mem_iff.mpr (List.mem_finRange _)) hfirst
    exact ⟨t, ht.head (.listen _ rfl rfl), hrefused⟩

/-- Two parties get their handlers, and of 257 parties one does not. -/
theorem set_up_ends_two : (∃ s : TcpStart 2, TcpStart.Reachable Scalar [0, 1] s ∧ (∀ t, ¬ TcpStart.Step Scalar s t) ∧
      ∀ i, ∃ order, s.setup.visited i = some order) ∧
    ∃ s : TcpStart 257, TcpStart.Reachable Scalar (List.finRange 257) s ∧ (∀ t, ¬ TcpStart.Step Scalar s t) ∧
      s.refused = none ∧ s.setup.visited 1 = none := by
  obtain ⟨halways, htwo, -⟩ := set_up_ends (n := 2) Scalar (by decide) (show [0, 1].Perm (List.finRange 2) by decide)
  obtain ⟨halways', -, hmany, -⟩ := set_up_ends (n := 257) Scalar (by decide) (.refl (List.finRange 257))
  obtain ⟨s, hs, hrefused, hall⟩ := TcpStart.all_listen Scalar [0, 1] (List.finRange 2)
  obtain ⟨t, ht, hend⟩ := TcpStart.ends (G := Scalar) s
  obtain ⟨s', hs', hrefused', hall'⟩ := TcpStart.all_listen Scalar (List.finRange 257) (List.finRange 257)
  obtain ⟨t', ht', hend'⟩ := TcpStart.ends (G := Scalar) s'
  have hnone := (halways s hs).2.2 (fun i => hall i (List.mem_finRange i)) t ht
  have hnone' := (halways' s' hs').2.2 (fun i => hall' i (List.mem_finRange i)) t' ht'
  exact ⟨⟨t, hs.trans ht, hend, htwo (by decide) t (hs.trans ht) hend (hnone.trans hrefused)⟩, t', hs'.trans ht', hend',
    hnone'.trans hrefused', hmany (by decide) t' (hs'.trans ht')⟩

end TcpSetup
end PrivRecCert.Prc
