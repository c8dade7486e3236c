import PrivRecCert.Rounds.NetworkSound
import PrivRecCert.Rounds.Termination

/-! Parties that stop. A party may stop at any moment, by itself or because one of its assertions fails. What is sent
to it from then on is lost, and whoever waits for it learns that the connection is closed. Such a run is an undisturbed
run in which some parties take no more steps, so nobody takes a round for complete that is not. -/
namespace PrivRecCert.Rounds
open Function

variable {n : ℕ} {M K F S α : Type}

namespace Crash

/-- One step of a party. A connection to a party that has stopped swallows what is written, and may be found closed
although frames are still in flight on it. -/
inductive Step (E : Endpoint n M K F S) : Net n M K F S α → Net n M K F S α → Prop
  | live {s s'} (h : Rounds.Step E s s') : Step E s s'
  | drop {s} (i j m pending p) (h : s.phase i = .sending m pending p) (hj : j ∈ pending)
      (hdead : s.phase j = .panicked) :
      Step E s { s with phase := update s.phase i (.sending m (pending.erase j) p) }
  | closed {s} (i j kd pending held k) (h : s.phase i = .receiving kd pending held k) (hj : j ∈ pending)
      (hdead : s.phase j = .panicked) :
      Step E s { s with phase := update s.phase i (.receiving kd (pending.erase j) held k) }

/-- A step of a party, or the end of one. -/
inductive Move (E : Endpoint n M K F S) : Net n M K F S α → Net n M K F S α → Prop
  | step {s s'} (h : Step E s s') : Move E s s'
  | stop {s} (i) (h : s.phase i ≠ .panicked) : Move E s { s with phase := update s.phase i .panicked }

/-- The configurations some interleaving leads to, whoever stops on the way. -/
def Reachable (E : Endpoint n M K F S) (procs : Fin n → Proc M K α) (empty : S) : Net n M K F S α → Prop :=
  Relation.ReflTransGen (Move E) (Net.init procs empty)

end Crash

/-- Frames are stored one by one, and a receive insists on an entry from every peer. -/
structure Endpoint.Strict (E : Endpoint n M K F S) (slots : S → K → List M) : Prop where
  absorb : ∀ i st f st' kd, E.absorb i st f = some st' → (slots st' kd).length ≤ (slots st kd).length + 1
  collect : ∀ i kd st r, E.collect i kd st = some r → (slots st kd).length = n-1

variable [DecidableEq K] {E : Endpoint n M K F S} {kindOf : M → K} {wire : Fin n → M → Option M}
  {slots : S → K → List M} {Q : (Fin n → α) → Prop} {c c' a a' : Net n M K F S α}

namespace Invariant

theorem sending_ne (I : Invariant E kindOf wire slots Q a) {i j : Fin n} {m : M} {pending : List (Fin n)}
    {p : Proc M K α} (h : a.phase i = .sending m pending p) (hj : j ∈ pending) : i ≠ j := by
  rcases I with ⟨b, g, q⟩ | ⟨B, g, W⟩
  · rw [q.phase i] at h
    cases h
  · exact W.sending_ne h hj

theorem receiving_ne (I : Invariant E kindOf wire slots Q a) {i j : Fin n} {kd : K} {pending : List (Fin n)}
    {held : List F} {k : List M → Proc M K α} (h : a.phase i = .receiving kd pending held k) (hj : j ∈ pending) :
    i ≠ j := by
  rcases I with ⟨b, g, q⟩ | ⟨B, g, W⟩
  · rw [q.phase i] at h
    cases h
  · exact W.receiving_ne h hj

/-- A receive has one frame or one entry for every peer that it does not wait for. -/
theorem receiving_count (I : Invariant E kindOf wire slots Q a) {i : Fin n} {kd : K} {pending : List (Fin n)}
    {held : List F} {k : List M → Proc M K α} (h : a.phase i = .receiving kd pending held k) :
    pending.Nodup ∧ pending.length + held.length + (slots (a.store i) kd).length = n-1 := by
  rcases I with ⟨b, g, q⟩ | ⟨B, g, W⟩
  · rw [q.phase i] at h
    cases h
  · have hst := W.stage i
    rw [h] at hst
    obtain ⟨m, handled, held', rfl, -, hperm, -, -, hsl, -⟩ := hst.receiving_inv
    refine ⟨(List.nodup_append.mp (hperm.nodup_iff.mpr (peers_nodup i))).1, ?_⟩
    have hlen := hperm.length_eq
    rw [peers_length, List.length_append, List.length_append] at hlen
    rw [hsl, update_self, List.length_map, List.length_map]
    omega

theorem chan_le (I : Invariant E kindOf wire slots Q a) (L : Lawful E kindOf wire slots) (i j : Fin n) :
    (a.chan (i, j)).length ≤ 2 := (I.good L).chan_le i j

end Invariant

omit [DecidableEq K]

/-- The state of one party. -/
abbrev View (n : ℕ) (M K F S α : Type) : Type := Phase n M K F α × S × List M × List (List M)

def Net.view (s : Net n M K F S α) (i : Fin n) : View n M K F S α := (s.phase i, s.store i, s.sent i, s.got i)

def Net.put (s : Net n M K F S α) (i : Fin n) (v : View n M K F S α) : Net n M K F S α :=
  ⟨update s.phase i v.1, update s.store i v.2.1, s.chan, update s.sent i v.2.2.1, update s.got i v.2.2.2⟩

theorem Net.put_eq {s t : Net n M K F S α} {i : Fin n} {v : View n M K F S α}
    (hphase : t.phase = update s.phase i v.1) (hstore : t.store = update s.store i v.2.1) (hchan : t.chan = s.chan)
    (hsent : t.sent = update s.sent i v.2.2.1) (hgot : t.got = update s.got i v.2.2.2) : t = s.put i v := by
  cases t
  subst hphase hstore hchan hsent hgot
  rfl

theorem Step.put {t t' : Net n M K F S α} {i : Fin n} {v : View n M K F S α}
    (h : Rounds.Step E t t') (hphase : t'.phase = update t.phase i v.1) (hstore : t'.store = update t.store i v.2.1)
    (hchan : t'.chan = t.chan) (hsent : t'.sent = update t.sent i v.2.2.1) (hgot : t'.got = update t.got i v.2.2.2) :
    Rounds.Step E t (t.put i v) := Net.put_eq hphase hstore hchan hsent hgot ▸ h

theorem Net.view_eq {s t : Net n M K F S α} {i : Fin n} (h : t.view i = s.view i) :
    t.phase i = s.phase i ∧ t.store i = s.store i ∧ t.sent i = s.sent i ∧ t.got i = s.got i := by
  obtain ⟨hphase, h⟩ := Prod.mk.inj h
  obtain ⟨hstore, h⟩ := Prod.mk.inj h
  exact ⟨hphase, hstore, Prod.mk.inj h⟩

theorem update_same {A B : Type} [DecidableEq A] {f : A → B} {x : A} {v : B} (h : f x = v) : f = update f x v := by
  rw [← h, update_eq_self]

/-- What a receive can come to without taking a frame from a channel. -/
theorem Step.inv (h : Rounds.Step E c c') :
    (∃ i v, c.phase i ≠ .panicked ∧ c' = c.put i v ∧
      (∀ t : Net n M K F S α, t.view i = c.view i → Rounds.Step E t (t.put i v)) ∧
      ∀ kd pending held k, c.phase i = .receiving kd pending held k →
        (∃ l st, E.collect i kd (c.store i) = some (l, st)) ∨ v.2.2 = (c.sent i, c.got i) ∧ (v.1 = .panicked ∨
          ∃ before f after, held = before ++ f :: after ∧ v.1 = .receiving kd pending (before ++ after) k ∧
            E.absorb i (c.store i) f = some v.2.1)) ∨
    (∃ i j m pending p, c.phase i = .sending m pending p ∧ j ∈ pending ∧ c' = { c with
      phase := update c.phase i (.sending m (pending.erase j) p)
      chan := update c.chan (E.sender i j) (c.chan (E.sender i j) ++ [E.encode i m]) }) ∨
    ∃ i j kd pending held k f rest, c.phase i = .receiving kd pending held k ∧ j ∈ pending ∧
      c.chan (E.receiver i j) = f :: rest ∧ c' = { c with
        phase := update c.phase i (.receiving kd (pending.erase j) (held ++ [f]) k)
        chan := update c.chan (E.receiver i j) rest } := by
  cases h with
  | begin i m p h =>
    refine .inl ⟨i, (.sending m (peers i) p, c.store i, c.sent i ++ [m], c.got i),
      (fun he => by rw [h] at he; cases he), Net.put_eq rfl (update_same rfl) rfl rfl (update_same rfl),
      fun t ht => ?_, fun _ _ _ _ hk => ?_⟩
    · obtain ⟨hphase, hstore, hsent, hgot⟩ := Net.view_eq ht
      exact Step.put (.begin i m p (hphase.trans h)) rfl (update_same hstore) rfl (by rw [hsent]) (update_same hgot)
    · rw [h] at hk
      cases hk
  | push i j m pending p h hj => exact .inr (.inl ⟨i, j, m, pending, p, h, hj, rfl⟩)
  | finish i m p h =>
    refine .inl ⟨i, (.ready p, c.store i, c.sent i, c.got i), (fun he => by rw [h] at he; cases he),
      Net.put_eq rfl (update_same rfl) rfl (update_same rfl) (update_same rfl), fun t ht => ?_, fun _ _ _ _ hk => ?_⟩
    · obtain ⟨hphase, hstore, hsent, hgot⟩ := Net.view_eq ht
      exact Step.put (.finish i m p (hphase.trans h)) rfl (update_same hstore) rfl (update_same hsent)
        (update_same hgot)
    · rw [h] at hk
      cases hk
  | listen i kd k h =>
    refine .inl ⟨i, (.receiving kd (peers i) [] k, c.store i, c.sent i, c.got i), (fun he => by rw [h] at he; cases he),
      Net.put_eq rfl (update_same rfl) rfl (update_same rfl) (update_same rfl), fun t ht => ?_, fun _ _ _ _ hk => ?_⟩
    · obtain ⟨hphase, hstore, hsent, hgot⟩ := Net.view_eq ht
      exact Step.put (.listen i kd k (hphase.trans h)) rfl (update_same hstore) rfl (update_same hsent)
        (update_same hgot)
    · rw [h] at hk
      cases hk
  | pop i j kd pending held k f rest h hj hf => exact .inr (.inr ⟨i, j, kd, pending, held, k, f, rest, h, hj, hf, rfl⟩)
  | handle i kd pending before f after k st h ha =>
    refine .inl ⟨i, (.receiving kd pending (before ++ after) k, st, c.sent i, c.got i),
      (fun he => by rw [h] at he; cases he), Net.put_eq rfl rfl rfl (update_same rfl) (update_same rfl),
      fun t ht => ?_, fun _ _ _ _ hk => ?_⟩
    · obtain ⟨hphase, hstore, hsent, hgot⟩ := Net.view_eq ht
      exact Step.put (.handle i kd pending before f after k st (hphase.trans h) (by rw [hstore, ha])) rfl rfl rfl
        (update_same hsent) (update_same hgot)
    · obtain ⟨rfl, rfl, rfl, rfl⟩ := Phase.receiving.inj (h.symm.trans hk)
      exact .inr ⟨rfl, .inr ⟨before, f, after, rfl, rfl, ha⟩⟩
  | reject i kd pending before f after k h ha =>
    refine .inl ⟨i, (.panicked, c.store i, c.sent i, c.got i), (fun he => by rw [h] at he; cases he),
      Net.put_eq rfl (update_same rfl) rfl (update_same rfl) (update_same rfl), fun t ht => ?_,
      fun _ _ _ _ _ => .inr ⟨rfl, .inl rfl⟩⟩
    obtain ⟨hphase, hstore, hsent, hgot⟩ := Net.view_eq ht
    exact Step.put (.reject i kd pending before f after k (hphase.trans h) (by rw [hstore, ha])) rfl
      (update_same hstore) rfl (update_same hsent) (update_same hgot)
  | deliver i kd k l st h hc =>
    refine .inl ⟨i, (.ready (k l), st, c.sent i, c.got i ++ [l]), (fun he => by rw [h] at he; cases he),
      Net.put_eq rfl rfl rfl (update_same rfl) rfl, fun t ht => ?_, fun _ _ _ _ hk => ?_⟩
    · obtain ⟨hphase, hstore, hsent, hgot⟩ := Net.view_eq ht
      exact Step.put (.deliver i kd k l st (hphase.trans h) (by rw [hstore, hc])) rfl rfl rfl (update_same hsent)
        (by rw [hgot])
    · obtain ⟨rfl, rfl, rfl, rfl⟩ := Phase.receiving.inj (h.symm.trans hk)
      exact .inl ⟨l, st, hc⟩
  | missing i kd k h hc =>
    refine .inl ⟨i, (.panicked, c.store i, c.sent i, c.got i), (fun he => by rw [h] at he; cases he),
      Net.put_eq rfl (update_same rfl) rfl (update_same rfl) (update_same rfl), fun t ht => ?_,
      fun _ _ _ _ _ => .inr ⟨rfl, .inl rfl⟩⟩
    obtain ⟨hphase, hstore, hsent, hgot⟩ := Net.view_eq ht
    exact Step.put (.missing i kd k (hphase.trans h) (by rw [hstore, hc])) rfl (update_same hstore) rfl
      (update_same hsent) (update_same hgot)
  | crash i h =>
    refine .inl ⟨i, (.panicked, c.store i, c.sent i, c.got i), (fun he => by rw [h] at he; cases he),
      Net.put_eq rfl (update_same rfl) rfl (update_same rfl) (update_same rfl), fun t ht => ?_,
      fun _ _ _ _ _ => .inr ⟨rfl, .inl rfl⟩⟩
    obtain ⟨hphase, hstore, hsent, hgot⟩ := Net.view_eq ht
    exact Step.put (.crash i (hphase.trans h)) rfl (update_same hstore) rfl (update_same hsent) (update_same hgot)

namespace Crash

/-- A receive that has found a connection closed: even with all that it still waits for, entries will be missing. -/
def Starved (slots : S → K → List M) (c a : Net n M K F S α) (i : Fin n) : Prop :=
  ∃ kd pending pending' held held' k, c.phase i = .receiving kd pending held k ∧
    a.phase i = .receiving kd pending' held' k ∧ pending.Sublist pending' ∧
    pending.length + held.length + (slots (c.store i) kd).length < n-1 ∧
    (∀ j ∈ pending, c.chan (j, i) = a.chan (j, i)) ∧ ∀ j, (c.chan (j, i)).length ≤ (a.chan (j, i)).length

/-- `a` is where the run would be if those who are lost had taken no more steps. -/
structure Shadow (slots : S → K → List M) (lost : Fin n → Prop) (c a : Net n M K F S α) : Prop where
  phase : ∀ i, ¬ lost i → c.phase i = a.phase i
  store : ∀ i, ¬ lost i → c.store i = a.store i
  chan : ∀ i j, ¬ lost j → c.chan (i, j) = a.chan (i, j)
  sent : c.sent = a.sent
  got : c.got = a.got
  lost : ∀ i, lost i → c.phase i = .panicked ∨ Starved slots c a i

namespace Shadow
variable {lost : Fin n → Prop}

theorem update_agree {A B : Type} [DecidableEq A] {f g : A → B} {x y : A} {v : B} (h : y ≠ x → f y = g y) :
    update f x v y = update g x v y := by
  by_cases hyx : y = x
  · rw [hyx, update_self, update_self]
  · rw [update_of_ne hyx, update_of_ne hyx]
    exact h hyx

/-- Whoever has stopped is lost: nobody stops in an undisturbed run. -/
theorem lost_of_panicked [DecidableEq K] (R : Shadow slots lost c a) (L : Lawful E kindOf wire slots)
    (I : Invariant E kindOf wire slots Q a) {j : Fin n} (h : c.phase j = .panicked) : lost j := by
  by_contra hj
  exact (I.good L).no_panic j ((R.phase j hj).symm.trans h)

theorem view_eq (R : Shadow slots lost c a) {i : Fin n} (hi : ¬ lost i) : a.view i = c.view i := by
  simp only [Net.view, R.phase i hi, R.store i hi, R.sent, R.got]

/-- A party takes the same local step in both runs. -/
theorem put (R : Shadow slots lost c a) {i : Fin n} (hi : ¬ lost i) (v : View n M K F S α) :
    Shadow slots lost (c.put i v) (a.put i v) where
  phase x hx := update_agree fun _ => R.phase x hx
  store x hx := update_agree fun _ => R.store x hx
  chan := R.chan
  sent := by simp only [Net.put, R.sent]
  got := by simp only [Net.put, R.got]
  lost x hx := by
    have hxi : x ≠ i := fun he => hi (he ▸ hx)
    simp only [Starved, Net.put, update_of_ne hxi]
    exact R.lost x hx

/-- A party that is lost, or gets lost, moves by itself. -/
theorem lose (R : Shadow slots lost c a) {i : Fin n} (hchan : ∀ x y, y ≠ i → c'.chan (x, y) = c.chan (x, y))
    (hphase : ∀ x, x ≠ i → c'.phase x = c.phase x) (hstore : ∀ x, x ≠ i → c'.store x = c.store x)
    (hsent : c'.sent = c.sent) (hgot : c'.got = c.got) (hi : c'.phase i = .panicked ∨ Starved slots c' a i) :
    Shadow slots (fun x => lost x ∨ x = i) c' a where
  phase x hx := by
    obtain ⟨hx, hxi⟩ := not_or.mp hx
    rw [hphase x hxi, R.phase x hx]
  store x hx := by
    obtain ⟨hx, hxi⟩ := not_or.mp hx
    rw [hstore x hxi, R.store x hx]
  chan x y hy := by
    obtain ⟨hy, hyi⟩ := not_or.mp hy
    rw [hchan x y hyi, R.chan x y hy]
  sent := hsent.trans R.sent
  got := hgot.trans R.got
  lost x hx := by
    by_cases hxi : x = i
    · rw [hxi]
      exact hi
    · rw [Starved, hphase x hxi, hstore x hxi]
      simp only [hchan _ x hxi]
      exact R.lost x (hx.resolve_right hxi)

/-- A frame that both runs append to a channel. -/
theorem push (R : Shadow slots lost c a) {i j : Fin n} (hi : ¬ lost i) (ph : Phase n M K F α) (f : F) :
    Shadow slots lost
      { c with phase := update c.phase i ph, chan := update c.chan (i, j) (c.chan (i, j) ++ [f]) }
      { a with phase := update a.phase i ph, chan := update a.chan (i, j) (a.chan (i, j) ++ [f]) } where
  phase x hx := update_agree fun _ => R.phase x hx
  store := R.store
  chan x y hy := by
    by_cases hxy : (x, y) = (i, j)
    · obtain ⟨rfl, rfl⟩ := Prod.mk.inj hxy
      simp only [update_self, R.chan x y hy]
    · simp only [update_of_ne hxy, R.chan x y hy]
  sent := R.sent
  got := R.got
  lost x hx := by
    have hxi : x ≠ i := fun he => hi (he ▸ hx)
    refine (R.lost x hx).imp (update_of_ne hxi ..).trans ?_
    rintro ⟨kd, pending, pending', held, held', k, hc, ha, hsub, hlt, hchan, hle⟩
    refine ⟨kd, pending, pending', held, held', k, (update_of_ne hxi ..).trans hc, (update_of_ne hxi ..).trans ha, hsub,
      hlt, fun y hy => ?_, fun y => ?_⟩
    · by_cases hxy : (y, x) = (i, j)
      · obtain ⟨rfl, rfl⟩ := Prod.mk.inj hxy
        simp only [update_self, hchan y hy]
      · simp only [update_of_ne hxy, hchan y hy]
    · by_cases hxy : (y, x) = (i, j)
      · obtain ⟨rfl, rfl⟩ := Prod.mk.inj hxy
        simpa only [update_self, List.length_append] using Nat.add_le_add_right (hle y) _
      · simpa only [update_of_ne hxy] using hle y

/-- A frame that is lost in one run and waits in vain in the other one. -/
theorem drop (R : Shadow slots lost c a) {i j : Fin n} (hi : ¬ lost i) (hj : lost j) (hdead : c.phase j = .panicked)
    (ph : Phase n M K F α) (f : F) : Shadow slots lost { c with phase := update c.phase i ph }
      { a with phase := update a.phase i ph, chan := update a.chan (i, j) (a.chan (i, j) ++ [f]) } where
  phase x hx := update_agree fun _ => R.phase x hx
  store := R.store
  chan x y hy := by
    have hxy : (x, y) ≠ (i, j) := fun he => hy ((Prod.mk.inj he).2 ▸ hj)
    simp only [update_of_ne hxy, R.chan x y hy]
  sent := R.sent
  got := R.got
  lost x hx := by
    have hxi : x ≠ i := fun he => hi (he ▸ hx)
    refine (R.lost x hx).imp (update_of_ne hxi ..).trans ?_
    rintro ⟨kd, pending, pending', held, held', k, hc, ha, hsub, hlt, hchan, hle⟩
    have hxj : x ≠ j := fun he => by
      rw [he, hdead] at hc
      cases hc
    have hyx : ∀ y, (y, x) ≠ (i, j) := fun y he => hxj (Prod.mk.inj he).2
    refine ⟨kd, pending, pending', held, held', k, (update_of_ne hxi ..).trans hc, (update_of_ne hxi ..).trans ha, hsub,
      hlt, fun y hy => ?_, fun y => ?_⟩
    · simp only [update_of_ne (hyx y), hchan y hy]
    · simpa only [update_of_ne (hyx y)] using hle y

/-- A frame that both runs take from a channel. -/
theorem pop (R : Shadow slots lost c a) {i j : Fin n} (hi : ¬ lost i) (ph : Phase n M K F α) (rest : List F) :
    Shadow slots lost { c with phase := update c.phase i ph, chan := update c.chan (j, i) rest }
      { a with phase := update a.phase i ph, chan := update a.chan (j, i) rest } where
  phase x hx := update_agree fun _ => R.phase x hx
  store := R.store
  chan x y hy := update_agree fun _ => R.chan x y hy
  sent := R.sent
  got := R.got
  lost x hx := by
    have hxi : x ≠ i := fun he => hi (he ▸ hx)
    refine (R.lost x hx).imp (update_of_ne hxi ..).trans ?_
    rintro ⟨kd, pending, pending', held, held', k, hc, ha, hsub, hlt, hchan, hle⟩
    have hyx : ∀ y, (y, x) ≠ (j, i) := fun y he => hxi (Prod.mk.inj he).2
    refine ⟨kd, pending, pending', held, held', k, (update_of_ne hxi ..).trans hc, (update_of_ne hxi ..).trans ha, hsub,
      hlt, fun y hy => ?_, fun y => ?_⟩
    · simp only [update_of_ne (hyx y), hchan y hy]
    · simpa only [update_of_ne (hyx y)] using hle y

theorem same_lost {i : Fin n} (hi : lost i) : (fun x => lost x ∨ x = i) = lost :=
  funext fun _ => propext ⟨fun h => h.elim id fun he => he ▸ hi, .inl⟩

/-- Whoever is starved takes no round for complete. -/
theorem starved_put (T : E.Strict slots) (R : Shadow slots lost c a) {i : Fin n} {v : View n M K F S α} (hi : lost i)
    (hlocal : ∀ kd pending held k, c.phase i = .receiving kd pending held k →
      (∃ l st, E.collect i kd (c.store i) = some (l, st)) ∨ v.2.2 = (c.sent i, c.got i) ∧ (v.1 = .panicked ∨
        ∃ before f after, held = before ++ f :: after ∧ v.1 = .receiving kd pending (before ++ after) k ∧
          E.absorb i (c.store i) f = some v.2.1)) (hne : c.phase i ≠ .panicked) :
    Shadow slots lost (c.put i v) a := by
  obtain ⟨kd, pending, pending', held, held', k, hc, ha, hsub, hlt, hchan, hle⟩ := (R.lost i hi).resolve_left hne
  rcases hlocal kd pending held k hc with ⟨l, st, hcollect⟩ | ⟨hv, hmove⟩
  · have hlen := T.collect i kd (c.store i) _ hcollect
    omega
  · obtain ⟨ph, st, o, g⟩ := v
    obtain ⟨rfl, rfl⟩ := Prod.mk.inj hv
    have hlose : Shadow slots (fun x => lost x ∨ x = i) (c.put i (ph, st, c.sent i, c.got i)) a := R.lose (fun x y _ => rfl)
      (fun x hx => update_of_ne hx ..) (fun x hx => update_of_ne hx ..) (update_eq_self ..) (update_eq_self ..) ?_
    · rwa [same_lost hi] at hlose
    · rcases hmove with rfl | ⟨before, f, after, rfl, rfl, habsorb⟩
      · exact .inl (update_self ..)
      · refine .inr ⟨kd, pending, pending', _, held', k, update_self .., ha, hsub, ?_, hchan, hle⟩
        have hone := T.absorb i (c.store i) f st kd habsorb
        rw [List.length_append, List.length_cons] at hlt
        simp only [Net.put, update_self, List.length_append]
        omega

/-- Whoever is starved goes on reading. -/
theorem starved_pop (R : Shadow slots lost c a) {i j : Fin n} {kd : K} {pending : List (Fin n)} {held : List F}
    {k : List M → Proc M K α} {f : F} {rest : List F} (hi : lost i) (h : c.phase i = .receiving kd pending held k)
    (hj : j ∈ pending) (hf : c.chan (j, i) = f :: rest)
    (hnd : ∀ kd pending held k, a.phase i = .receiving kd pending held k → pending.Nodup) :
    Shadow slots lost { c with
      phase := update c.phase i (.receiving kd (pending.erase j) (held ++ [f]) k)
      chan := update c.chan (j, i) rest } a := by
  have hne : c.phase i ≠ .panicked := fun he => by
    rw [h] at he
    cases he
  obtain ⟨kd', pending₁, pending', held₁, held', k', hc, ha, hsub, hlt, hchan, hle⟩ := (R.lost i hi).resolve_left hne
  obtain ⟨rfl, rfl, rfl, rfl⟩ := Phase.receiving.inj (h.symm.trans hc)
  have hlose : Shadow slots (fun x => lost x ∨ x = i) { c with
      phase := update c.phase i (.receiving kd (pending.erase j) (held ++ [f]) k)
      chan := update c.chan (j, i) rest } a := R.lose (fun x y hy => update_of_ne (fun he => hy (Prod.mk.inj he).2) ..)
    (fun x hx => update_of_ne hx ..) (fun _ _ => rfl) rfl rfl ?_
  · rwa [same_lost hi] at hlose
  · refine .inr ⟨kd, pending.erase j, pending', held ++ [f], held', k, update_self .., ha,
      List.erase_sublist.trans hsub, ?_, fun y hy => ?_, fun y => ?_⟩
    · have hpos := List.length_pos_of_mem hj
      rw [List.length_erase_of_mem hj, List.length_append, List.length_singleton]
      change pending.length - 1 + (held.length + 1) + (slots (c.store i) kd).length < n-1
      omega
    · have hyj : (y, i) ≠ (j, i) := fun he =>
        (((hnd _ _ _ _ ha).sublist hsub).mem_erase_iff.mp hy).1 (Prod.mk.inj he).1
      exact (update_of_ne hyj ..).trans (hchan y (List.mem_of_mem_erase hy))
    · by_cases hyj : (y, i) = (j, i)
      · have hj := hle j
        rw [hf, List.length_cons] at hj
        rw [hyj]
        simp only [update_self]
        omega
      · simpa only [update_of_ne hyj] using hle y

section Move
variable [DecidableEq K] (L : Lawful E kindOf wire slots) (T : E.Strict slots) (I : Invariant E kindOf wire slots Q a)
include L T I

/-- What a party does while others may have stopped, it does in the undisturbed run too, unless it is lost. -/
theorem step (R : Shadow slots lost c a) (h : Rounds.Step E c c') :
    ∃ a', (a' = a ∨ Rounds.Step E a a') ∧ Shadow slots lost c' a' := by
  rcases h.inv with ⟨i, v, hne, rfl, hput, hlocal⟩ | ⟨i, j, m, pending, p, hph, hj, rfl⟩ |
      ⟨i, j, kd, pending, held, k, f, rest, hph, hj, hf, rfl⟩
  · by_cases hi : lost i
    · exact ⟨a, .inl rfl, R.starved_put T hi hlocal hne⟩
    · exact ⟨a.put i v, .inr (hput a (R.view_eq hi)), R.put hi v⟩
  · have hi : ¬ lost i := fun hi => by
      rcases R.lost i hi with hdead | ⟨_, _, _, _, _, _, hc, -⟩
      · rw [hph] at hdead
        cases hdead
      · rw [hph] at hc
        cases hc
    have hpha := (R.phase i hi).symm.trans hph
    have hij := I.sending_ne hpha hj
    refine ⟨_, .inr (.push i j m pending p hpha hj ?_), ?_⟩
    · rw [L.sender i j hij]
      exact (I.chan_le L i j).trans_lt L.capacity
    · rw [L.sender i j hij]
      exact R.push hi _ _
  · by_cases hi : lost i
    · obtain ⟨kd', pending₁, pending', held₁, held', k', hc, ha, hsub, -⟩ :=
        (R.lost i hi).resolve_left fun he => by rw [hph] at he; cases he
      obtain ⟨rfl, rfl, rfl, rfl⟩ := Phase.receiving.inj (hph.symm.trans hc)
      rw [L.receiver i j (I.receiving_ne ha (hsub.subset hj))] at hf ⊢
      exact ⟨a, .inl rfl, R.starved_pop hi hph hj hf fun _ _ _ _ h => (I.receiving_count h).1⟩
    · have hpha := (R.phase i hi).symm.trans hph
      have hij := I.receiving_ne hpha hj
      rw [L.receiver i j hij, R.chan j i hi] at hf
      refine ⟨_, .inr (.pop i j kd pending held k f rest hpha hj (by rw [L.receiver i j hij, hf])), ?_⟩
      rw [L.receiver i j hij]
      exact R.pop hi _ rest

/-- Every step and every end of a party leaves the run in the shadow of an undisturbed one. -/
theorem move (R : Shadow slots lost c a) (h : Move E c c') :
    ∃ a' lost', (a' = a ∨ Rounds.Step E a a') ∧ Shadow slots lost' c' a' := by
  cases h with
  | step h =>
    cases h with
    | live h =>
      obtain ⟨a', ha', R'⟩ := R.step L T I h
      exact ⟨a', lost, ha', R'⟩
    | drop i j m pending p hph hj hdead =>
      have hi : ¬ lost i := fun hi => by
        rcases R.lost i hi with hdead | ⟨_, _, _, _, _, _, hc, -⟩
        · rw [hph] at hdead
          cases hdead
        · rw [hph] at hc
          cases hc
      have hpha := (R.phase i hi).symm.trans hph
      have hij := I.sending_ne hpha hj
      refine ⟨_, lost, .inr (.push i j m pending p hpha hj ?_), ?_⟩
      · rw [L.sender i j hij]
        exact (I.chan_le L i j).trans_lt L.capacity
      · rw [L.sender i j hij]
        exact R.drop hi (R.lost_of_panicked L I hdead) hdead _ _
    | closed i j kd pending held k hph hj hdead =>
      have hpos := List.length_pos_of_mem hj
      refine ⟨a, _, .inl rfl, R.lose (i := i) (fun _ _ _ => rfl) (fun x hx => update_of_ne hx ..) (fun _ _ => rfl) rfl
        rfl (.inr ?_)⟩
      by_cases hi : lost i
      · obtain ⟨kd', pending₁, pending', held₁, held', k', hc, ha, hsub, hlt, hchan, hle⟩ :=
          (R.lost i hi).resolve_left fun he => by rw [hph] at he; cases he
        obtain ⟨rfl, rfl, rfl, rfl⟩ := Phase.receiving.inj (hph.symm.trans hc)
        refine ⟨kd, _, pending', held, held', k, update_self .., ha, List.erase_sublist.trans hsub, ?_,
          fun y hy => hchan y (List.mem_of_mem_erase hy), hle⟩
        rw [List.length_erase_of_mem hj]
        change pending.length - 1 + held.length + (slots (c.store i) kd).length < n-1
        omega
      · have hpha := (R.phase i hi).symm.trans hph
        refine ⟨kd, _, pending, held, held, k, update_self .., hpha, List.erase_sublist, ?_,
          fun y _ => R.chan y i hi, fun y => (congrArg List.length (R.chan y i hi)).le⟩
        have hcount := (I.receiving_count hpha).2
        rw [← R.store i hi] at hcount
        rw [List.length_erase_of_mem hj]
        change pending.length - 1 + held.length + (slots (c.store i) kd).length < n-1
        omega
  | stop i hne =>
    exact ⟨a, _, .inl rfl, R.lose (i := i) (fun _ _ _ => rfl) (fun x hx => update_of_ne hx ..) (fun _ _ => rfl) rfl rfl
      (.inl (update_self ..))⟩

end Move
end Shadow
/-- A run with stops is an undisturbed run as far as the parties that are left are concerned. -/
theorem Reachable.shadow [DecidableEq K] (L : Lawful E kindOf wire slots) (T : E.Strict slots)
    {procs : Fin n → Proc M K α} {empty : S} (hrun : Lockstep kindOf wire Q procs) (hempty : slots empty = fun _ => [])
    (h : Reachable E procs empty c) : ∃ a lost, Rounds.Reachable E procs empty a ∧
      Invariant E kindOf wire slots Q a ∧ Shadow slots lost c a := by
  induction h with
  | refl =>
    exact ⟨_, fun _ => False, .refl, .init hrun hempty, fun _ _ => rfl, fun _ _ => rfl, fun _ _ _ => rfl, rfl, rfl,
      fun _ h => h.elim⟩
  | tail _ hmove ih =>
    obtain ⟨a, lost, hreach, I, R⟩ := ih
    obtain ⟨a', lost', ha', R'⟩ := R.move L T I hmove
    rcases ha' with rfl | hstep
    · exact ⟨a', lost', hreach, I, R'⟩
    · exact ⟨a', lost', hreach.tail hstep, I.step L hstep, R'⟩

/-- Where a party can be that cannot move: at its end, or in a receive that waits for a party which has not stopped. -/
theorem blocked [DecidableEq K] (L : Lawful E kindOf wire slots) (I : Invariant E kindOf wire slots Q a)
    {lost : Fin n → Prop} (R : Shadow slots lost c a) (hno : ∀ c', ¬ Step E c c') (i : Fin n) :
    c.phase i = .panicked ∨ (∃ x, ¬ lost i ∧ c.phase i = .ready (.ret x)) ∨
      ∃ kd pending held k j, a.phase i = .receiving kd pending held k ∧ j ∈ pending ∧ a.chan (j, i) = [] ∧
        c.phase j ≠ .panicked := by
  have hlive : ∀ c', ¬ Rounds.Step E c c' := fun c' h => hno c' (.live h)
  have hreceiving : ∀ kd pending held k, c.phase i = .receiving kd pending held k → ∀ pending' held',
      a.phase i = .receiving kd pending' held' k → pending.Sublist pending' →
      (∀ j ∈ pending, c.chan (j, i) = a.chan (j, i)) →
      ∃ j, j ∈ pending' ∧ a.chan (j, i) = [] ∧ c.phase j ≠ .panicked := by
    intro kd pending held k hc pending' held' ha hsub hchan
    cases held with
    | cons f held =>
      cases habsorb : E.absorb i (c.store i) f with
      | none => exact absurd (.reject i kd pending [] f held k hc habsorb) (hlive _)
      | some st => exact absurd (.handle i kd pending [] f held k st hc habsorb) (hlive _)
    | nil =>
      cases pending with
      | nil =>
        cases hcollect : E.collect i kd (c.store i) with
        | none => exact absurd (.missing i kd k hc hcollect) (hlive _)
        | some r => exact absurd (.deliver i kd k r.1 r.2 hc hcollect) (hlive _)
      | cons j pending =>
        have hj : j ∈ pending' := hsub.subset List.mem_cons_self
        refine ⟨j, hj, ?_, fun hdead => hno _ (.closed i j kd _ _ k hc List.mem_cons_self hdead)⟩
        rw [← hchan j List.mem_cons_self]
        cases hf : c.chan (j, i) with
        | nil => rfl
        | cons f rest =>
          rw [← L.receiver i j (I.receiving_ne ha hj)] at hf
          exact absurd (.pop i j kd _ _ k f rest hc List.mem_cons_self hf) (hlive _)
  by_cases hi : lost i
  · rcases R.lost i hi with hdead | ⟨kd, pending, pending', held, held', k, hc, ha, hsub, -, hchan, -⟩
    · exact .inl hdead
    · obtain ⟨j, hj⟩ := hreceiving kd pending held k hc pending' held' ha hsub hchan
      exact .inr (.inr ⟨kd, pending', held', k, j, ha, hj⟩)
  · cases hc : c.phase i with
    | ready p =>
      cases p with
      | ret x => exact .inr (.inl ⟨x, hi, rfl⟩)
      | fail => exact absurd (.crash i hc) (hlive _)
      | send m p => exact absurd (.begin i m p hc) (hlive _)
      | recv kd k => exact absurd (.listen i kd k hc) (hlive _)
    | sending m pending p =>
      cases pending with
      | nil => exact absurd (.finish i m p hc) (hlive _)
      | cons j pending =>
        exfalso
        have hij := I.sending_ne ((R.phase i hi).symm.trans hc) List.mem_cons_self
        have hle : (c.chan (i, j)).length ≤ (a.chan (i, j)).length := by
          by_cases hj : lost j
          · rcases R.lost j hj with hdead | ⟨_, _, _, _, _, _, _, -, -, -, -, hle⟩
            · exact absurd (.drop i j m _ p hc List.mem_cons_self hdead) (hno _)
            · exact hle i
          · rw [R.chan i j hj]
        refine hlive _ (.push i j m _ p hc List.mem_cons_self ?_)
        rw [L.sender i j hij]
        exact (hle.trans (I.chan_le L i j)).trans_lt L.capacity
    | receiving kd pending held k =>
      obtain ⟨j, hj⟩ := hreceiving kd pending held k hc pending held ((R.phase i hi).symm.trans hc) (.refl _)
        fun j _ => R.chan j i hi
      exact .inr (.inr ⟨kd, pending, held, k, j, (R.phase i hi).symm.trans hc, hj⟩)
    | panicked => exact .inl rfl

/-- Parties that wait for parties which have finished or wait as well: there are none. -/
theorem not_waiting [DecidableEq K] {B : Round n M K α kindOf wire Q} {g : Ghost n M} (W : Window E slots B g a)
    (waits : Fin n → Prop) (h : ∀ i, waits i → ∃ kd pending held k j, a.phase i = .receiving kd pending held k ∧
      j ∈ pending ∧ a.chan (j, i) = [] ∧ ((∃ x, a.phase j = .ready (.ret x)) ∨ waits j)) (i : Fin n) : ¬ waits i := by
  -- a party that waits has sent its frames, and takes one from a channel that is empty
  have hpeer : ∀ i, waits i → (∃ m p, B.cur g.d (g.ahead i) i = .send m p) ∧ (∀ j, j ≠ i → g.out i j = 1) ∧
      ∃ j, j ≠ i ∧ (g.ahead j).toNat + g.out j i ≤ (g.ahead i).toNat ∧
        ((∃ x, a.phase j = .ready (.ret x)) ∨ waits j) := by
    intro i hi
    obtain ⟨kd, pending, held, k, j, hph, hj, hnil, hside⟩ := h i hi
    have hst := W.stage i
    rw [hph] at hst
    obtain ⟨m, handled, held', -, hcur, -, hout, hinn, -⟩ := hst.receiving_inv
    have hji := (W.receiving_ne hph hj).symm
    refine ⟨⟨m, _, hcur⟩, hout, j, hji, ?_, hside⟩
    have hlen := congrArg List.length ((W.chan j i hji).symm.trans hnil)
    have hle := (W.stage j).out_le hji.symm
    have hahead := Bool.toNat_le (g.ahead j)
    have hone := Bool.toNat_le (g.ahead i)
    rw [hinn j hji, if_pos hj] at hlen
    simp only [List.length_drop, List.length_take, List.length_cons, List.length_nil] at hlen
    omega
  have hfinished : ∀ j x, a.phase j = .ready (.ret x) → g.ahead j = true ∧ B.cur g.d true j = .ret x := by
    intro j x hph
    have hst := W.stage j
    rw [hph] at hst
    rcases hst.ready_inv with ⟨hcur, -⟩ | ⟨_, _, _, -, hret, -⟩
    · cases hahead : g.ahead j with
      | true => exact ⟨rfl, by rw [← hahead, ← hcur]⟩
      | false =>
        rw [hahead] at hcur
        cases hcur
    · cases hret
  -- so it is a round ahead, and its peer is not
  have hahead : ∀ i, waits i → g.ahead i = true := by
    intro i hi
    obtain ⟨-, -, j, hji, hle, ⟨x, hret⟩ | hj⟩ := hpeer i hi
    · rw [(hfinished j x hret).1, Bool.toNat_true] at hle
      cases hi : g.ahead i with
      | true => rfl
      | false =>
        rw [hi, Bool.toNat_false] at hle
        omega
    · rw [(hpeer j hj).2.1 i hji.symm] at hle
      cases hi : g.ahead i with
      | true => rfl
      | false =>
        rw [hi, Bool.toNat_false] at hle
        omega
  intro hi
  obtain ⟨⟨m, p, hsend⟩, -, j, hji, hle, ⟨x, hret⟩ | hj⟩ := hpeer i hi
  · rw [hahead i hi] at hsend
    cases B.lockstep g.d W.hd true with
    | done b hp _ =>
      rw [hp i] at hsend
      cases hsend
    | round _ _ _ _ hp _ _ _ =>
      have hj := (hfinished j x hret).2
      rw [hp j] at hj
      cases hj
  · rw [hahead i hi, hahead j hj, (hpeer j hj).2.1 i hji.symm, Bool.toNat_true] at hle
    omega

/-- Nobody is left waiting: parties that have neither finished nor stopped can move. -/
theorem progress [DecidableEq K] (L : Lawful E kindOf wire slots) (I : Invariant E kindOf wire slots Q a)
    {lost : Fin n → Prop} (R : Shadow slots lost c a) :
    (∀ i, c.phase i = .panicked ∨ ∃ x, c.phase i = .ready (.ret x)) ∨ ∃ c', Step E c c' := by
  by_contra hcon
  rw [not_or, not_exists] at hcon
  obtain ⟨hunfinished, hno⟩ := hcon
  refine hunfinished fun i => ?_
  rcases blocked L I R hno i with hdead | ⟨x, -, hret⟩ | hwait
  · exact .inl hdead
  · exact .inr ⟨x, hret⟩
  · exfalso
    rcases I with ⟨b, g, q⟩ | ⟨B, g, W⟩
    · obtain ⟨_, _, _, _, _, hph, -⟩ := hwait
      rw [q.phase i] at hph
      cases hph
    · refine not_waiting W (fun i => ∃ kd pending held k j, a.phase i = .receiving kd pending held k ∧
        j ∈ pending ∧ a.chan (j, i) = [] ∧ c.phase j ≠ .panicked) (fun i hi => ?_) i hwait
      obtain ⟨kd, pending, held, k, j, hph, hj, hnil, hdead⟩ := hi
      refine ⟨kd, pending, held, k, j, hph, hj, hnil, ?_⟩
      rcases blocked L (.inr ⟨B, g, W⟩) R hno j with hdead' | ⟨x, hlost, hret⟩ | hwait'
      · exact absurd hdead' hdead
      · exact .inl ⟨x, (R.phase j hlost).symm.trans hret⟩
      · exact .inr hwait'

/-- Steps of a phase, one or more. To find a connection closed is to take a frame from it and to throw it away. -/
abbrev Later : Phase n M K F α → Phase n M K F α → Prop := Relation.TransGen fun q p => Phase.Next p q

theorem Move.later [Inhabited F] (h : Move E c c') : ∃ i ph, Later ph (c.phase i) ∧ c'.phase = update c.phase i ph := by
  cases h with
  | step h =>
    cases h with
    | live h =>
      obtain ⟨i, ph, hnext, hphase⟩ := h.phase_next
      exact ⟨i, ph, .single hnext, hphase⟩
    | drop i j m pending p h hj hdead => exact ⟨i, _, .single (by rw [h]; exact .push m pending p j hj), rfl⟩
    | closed i j kd pending held k h hj hdead =>
      have hpop : Phase.Next (c.phase i) (.receiving kd (pending.erase j) (held ++ [default]) k) := by
        rw [h]
        exact .pop kd pending held k j default hj
      have hhandle := Phase.Next.handle (n := n) (α := α) kd (pending.erase j) held (default : F) [] k
      rw [List.append_nil] at hhandle
      exact ⟨i, _, .head hhandle (.single hpop), rfl⟩
  | stop i hne => exact ⟨i, _, .single (.panic _ hne), rfl⟩

/-- No run goes on forever. -/
theorem move_wellFounded [Inhabited F] (E : Endpoint n M K F S) :
    WellFounded fun c' c : Net n M K F S α => Move E c c' := by
  have hlex := Pi.Lex.wellFounded (fun i j : Fin n => i < j) fun _ =>
    (Phase.next_wellFounded (n := n) (M := M) (K := K) (F := F) (α := α)).transGen
  apply (InvImage.wf Net.phase hlex).mono
  intro c' c h
  obtain ⟨i, ph, hlater, hphase⟩ := h.later
  refine ⟨i, fun j hj => ?_, ?_⟩
  · rw [hphase, update_of_ne hj.ne]
  · rw [hphase]
    simpa using hlater

end Crash

/-- Whoever stops and whenever: the parties that finish have results of one undisturbed run, each receive that returned
did so with the messages of exactly its round, and the parties that are left come to an end, at their result or at a
failed assertion. -/
theorem Lockstep.survives [DecidableEq K] [Inhabited F] (L : Lawful E kindOf wire slots) (T : E.Strict slots)
    {procs : Fin n → Proc M K α} {empty : S} (hrun : Lockstep kindOf wire Q procs) (hempty : slots empty = fun _ => [])
    (h : Crash.Reachable E procs empty c) :
    (∃ b, Q b ∧ ∀ i x, c.phase i = .ready (.ret x) → x = b i) ∧
    (∀ (i : Fin n) (r : ℕ) (l : List M), (c.got i)[r]? = some l → ∃ (kd : K) (w : Fin n → M),
      (∀ j, ∃ m, (c.sent j)[r]? = some m ∧ kindOf m = kd ∧ wire j m = some (w j)) ∧ l.Perm (others w i)) ∧
    ((∀ i, c.phase i = .panicked ∨ ∃ x, c.phase i = .ready (.ret x)) ∨ ∃ c', Crash.Step E c c') ∧
    Acc (fun c' c => Crash.Move E c c') c := by
  obtain ⟨a, lost, hreach, I, R⟩ := h.shadow L T hrun hempty
  refine ⟨?_, ?_, Crash.progress L I R, (Crash.move_wellFounded E).apply c⟩
  · obtain ⟨t, ht, b, hb⟩ := finishes a fun t ht => (hrun.network L hempty (hreach.trans ht)).progress
    refine ⟨b, (hrun.network L hempty (hreach.trans ht)).result b hb, fun i x hx => ?_⟩
    have hi : ¬ lost i := fun hi => by
      rcases R.lost i hi with hdead | ⟨_, _, _, _, _, _, hc, -⟩
      · rw [hx] at hdead
        cases hdead
      · rw [hx] at hc
        cases hc
    have hstays := ret_stays ht ((R.phase i hi).symm.trans hx)
    rw [hb i] at hstays
    exact (Proc.ret.inj (Phase.ready.inj hstays)).symm
  · intro i r l hl
    rw [R.got] at hl
    rw [R.sent]
    exact (I.good L).delivered i r l hl

end PrivRecCert.Rounds
