import PrivRecCert.Rounds.SessionRuns
import PrivRecCert.Rounds.Streamed

/-! A session over byte streams is a session over channels of frames, whatever the pieces in which the bytes travel: a
frame is in its channel from the moment it is handed over until its last byte has been read. -/
namespace PrivRecCert.Rounds
open Function Streams

variable {n : ℕ} {M K F B S A R T α : Type}

/-- A party that has yet to take a frame of `j`, or will never do so. -/
def Phase.Waits (j : Fin n) (ph : Phase n M K F α) : Prop :=
  ph = .panicked ∨ ∃ kd pending held k, ph = .receiving kd pending held k ∧ j ∈ pending

theorem Phase.not_waits_ready {j : Fin n} {p : Proc M K α} : ¬ (.ready p : Phase n M K F α).Waits j := by
  rintro (h | ⟨_, _, _, _, h, -⟩) <;> cases h

theorem Phase.not_waits_sending {j : Fin n} {m : M} {pending : List (Fin n)} {p : Proc M K α} :
    ¬ (.sending m pending p : Phase n M K F α).Waits j := by
  rintro (h | ⟨_, _, _, _, h, -⟩) <;> cases h

/-- Unless it takes the frame, it goes on waiting. -/
theorem Step.waits {E : Endpoint n M K F S} {s s' : Net n M K F S α} (h : Step E s s') (hchan : s'.chan = s.chan)
    {i j : Fin n} (hwaits : (s.phase i).Waits j) : (s'.phase i).Waits j := by
  have hmover : ∀ x ph, (x = i → ph.Waits j) → (update s.phase x ph i).Waits j := by
    intro x ph hx
    by_cases hix : i = x
    · rw [hix, update_self]
      exact hx hix.symm
    · rwa [update_of_ne hix]
  cases h with
  | begin x m p h => exact hmover x _ fun he => absurd (h ▸ he ▸ hwaits) Phase.not_waits_ready
  | push x y m pending p h hy hcap =>
    have hlen := congrArg List.length (congrFun hchan (E.sender x y))
    change (update s.chan (E.sender x y) _ (E.sender x y)).length = _ at hlen
    rw [update_self, List.length_append, List.length_singleton] at hlen
    omega
  | finish x m p h => exact hmover x _ fun he => absurd (h ▸ he ▸ hwaits) Phase.not_waits_sending
  | listen x kd k h => exact hmover x _ fun he => absurd (h ▸ he ▸ hwaits) Phase.not_waits_ready
  | pop x y kd pending held k f rest h hy hf =>
    have hlen := congrArg List.length (congrFun hchan (E.receiver x y))
    change (update s.chan (E.receiver x y) rest (E.receiver x y)).length = _ at hlen
    rw [update_self, hf, List.length_cons] at hlen
    omega
  | handle x kd pending before f after k st h ha =>
    refine hmover x _ fun he => ?_
    rcases hwaits with hdead | ⟨kd', pending', held', k', hph, hj⟩
    · rw [← he, h] at hdead
      cases hdead
    · rw [← he, h] at hph
      obtain ⟨rfl, rfl, -, rfl⟩ := Phase.receiving.inj hph
      exact .inr ⟨kd, pending, _, k, rfl, hj⟩
  | reject x kd pending before f after k h ha => exact hmover x _ fun _ => .inl rfl
  | deliver x kd k l st h hc =>
    refine hmover x _ fun he => ?_
    rcases hwaits with hdead | ⟨kd', pending', held', k', hph, hj⟩
    · rw [← he, h] at hdead
      cases hdead
    · rw [← he, h] at hph
      obtain ⟨-, rfl, -⟩ := Phase.receiving.inj hph
      cases hj
  | missing x kd k h hc => exact hmover x _ fun _ => .inl rfl
  | crash x h => exact hmover x _ fun _ => .inl rfl

namespace Streamed

/-- The session that a state over streams stands for. -/
def frames (c : Streamed n M K B S A R T) (chan : Fin n × Fin n → List (List B)) (stat : Fin n → Fin n → T) :
    Session n M K (List B) S A R T :=
  { c.session with net := { c.session.net with chan := chan }, stat := stat }

/-- What a counter shows that belongs to this reader, and what it would show if frames were counted when they are taken
from their channel. -/
inductive Counts (X : Metered n M K (List B) S A R T) (toll : ℕ → ℕ) (ph : Phase n M K (List B) A) (j : Fin n) :
    Reader B → T → T → Prop
  | fresh {got t} : Counts X toll ph j (.header got) t t
  | counted {len got t u} (h : X.tally.addReceived t (toll len) = some u) (hph : ph.Waits j) :
      Counts X toll ph j (.body len got) u t

/-- The streams carry the frames of the channels. A frame whose length is known has been counted already. -/
structure Stands (X : Metered n M K (List B) S A R T) (φ : Framing B) (toll : ℕ → ℕ) (c : Streamed n M K B S A R T)
    (chan : Fin n × Fin n → List (List B)) (stat : Fin n → Fin n → T) : Prop where
  carries : ∀ i j, i ≠ j → (c.stream (i, j)).Carries φ (chan (i, j))
  counts : ∀ i j, i ≠ j →
    Counts X toll (c.session.net.phase i) j (c.stream (j, i)).reader (c.session.stat i j) (stat i j)

/-- Connections that lead where they should, and cost what their frames cost. -/
structure Wired (X : Metered n M K (List B) S A R T) (toll : ℕ → ℕ) : Prop where
  sender : ∀ i j, i ≠ j → X.endpoint.sender i j = (i, j)
  receiver : ∀ i j, i ≠ j → X.endpoint.receiver i j = (j, i)
  connections : ∀ i, ∀ j ∈ X.connections i, j ≠ i
  cost : ∀ f, X.cost f = toll f.length

/-- What is sent fits: there is room in the channel, and the length can be written. -/
structure Fitting (X : Metered n M K (List B) S A R T) (limit : ℕ) (s : Session n M K (List B) S A R T) : Prop where
  sending : ∀ i j m pending p, s.net.phase i = .sending m pending p → j ∈ pending →
    i ≠ j ∧ (s.net.chan (i, j)).length < X.endpoint.capacity ∧ (X.endpoint.encode i m).length < limit
  receiving : ∀ i j kd pending held k, s.net.phase i = .receiving kd pending held k → j ∈ pending → i ≠ j

section Step
variable {X : Metered n M K (List B) S A R T} {φ : Framing B} {toll : ℕ → ℕ} {room : ℕ}
  {c c' : Streamed n M K B S A R T} {chan chan' : Fin n × Fin n → List (List B)} {stat stat' : Fin n → Fin n → T}

/-- A party that waits for nobody has counted nothing in advance. -/
theorem Counts.eq {ph : Phase n M K (List B) A} {j : Fin n} {reader : Reader B} {t u : T}
    (h : Counts X toll ph j reader u t) (hph : ¬ ph.Waits j) : u = t := by
  cases h with
  | fresh => rfl
  | counted _ hwaits => exact absurd hwaits hph

theorem Counts.header {ph : Phase n M K (List B) A} {j : Fin n} {got : List B} {t u : T}
    (h : Counts X toll ph j (.header got) u t) : u = t := by
  cases h with
  | fresh => rfl

theorem Counts.body {ph : Phase n M K (List B) A} {j : Fin n} {len : ℕ} {got : List B} {t u : T}
    (h : Counts X toll ph j (.body len got) u t) : X.tally.addReceived t (toll len) = some u ∧ ph.Waits j := by
  cases h with
  | counted h hwaits => exact ⟨h, hwaits⟩

theorem Counts.read {ph : Phase n M K (List B) A} {j : Fin n} {st st' : Stream B} {t u : T}
    (h : Counts X toll ph j st.reader u t) (hread : Stream.Read φ st st') : Counts X toll ph j st'.reader u t := by
  rcases hread.reader_inv with ⟨got, got', hst, hst'⟩ | ⟨len, got, got', hst, hst'⟩
  · rw [hst] at h
    rw [hst', h.header]
    exact .fresh
  · rw [hst] at h
    rw [hst']
    exact .counted h.body.1 h.body.2

theorem Counts.renew {ph ph' : Phase n M K (List B) A} {j : Fin n} {reader : Reader B} {t u v : T}
    (h : Counts X toll ph j reader u t) (hph : ¬ ph.Waits j) : Counts X toll ph' j reader v v := by
  cases h with
  | fresh => exact .fresh
  | counted _ hwaits => exact absurd hwaits hph

theorem Counts.phase {ph ph' : Phase n M K (List B) A} {j : Fin n} {reader : Reader B} {t u : T}
    (h : Counts X toll ph j reader u t) (hph : ph.Waits j → ph'.Waits j) : Counts X toll ph' j reader u t := by
  cases h with
  | fresh => exact .fresh
  | counted h hwaits => exact .counted h (hph hwaits)

theorem Stands.total_eq (b : Stands X φ toll c chan stat) (hX : Wired X toll) {i : Fin n} {a : A}
    (h : c.session.net.phase i = .ready (.ret a)) : X.total i (c.session.stat i) = X.total i (stat i) := by
  have hall : ∀ l : List (Fin n), (∀ j ∈ l, j ≠ i) → ∀ t,
      l.foldlM (fun out j => X.tally.add out (c.session.stat i j)) t =
        l.foldlM (fun out j => X.tally.add out (stat i j)) t := by
    intro l
    induction l with
    | nil => exact fun _ _ => rfl
    | cons j l ih =>
      intro hl t
      obtain ⟨hj, hl⟩ := List.forall_mem_cons.mp hl
      have heq := (b.counts i j hj.symm).eq (h ▸ Phase.not_waits_ready)
      rw [List.foldlM_cons, List.foldlM_cons, heq]
      exact congrArg _ (funext fun t => ih hl t)
  exact hall _ (hX.connections i) _

/-- A step of one party changes its own phase, its own counters and the readers of what is sent to it. -/
theorem Stands.turn (b : Stands X φ toll c chan stat) (i : Fin n)
    (hcarries : ∀ x y, x ≠ y → (c'.stream (x, y)).Carries φ (chan' (x, y)))
    (hreader : ∀ x y, x ≠ i → (c'.stream (y, x)).reader = (c.stream (y, x)).reader)
    (hphase : ∀ x, x ≠ i → c'.session.net.phase x = c.session.net.phase x)
    (hmine : ∀ x, x ≠ i → c'.session.stat x = c.session.stat x) (hstat : ∀ x, x ≠ i → stat' x = stat x)
    (hi : ∀ j, i ≠ j →
      Counts X toll (c'.session.net.phase i) j (c'.stream (j, i)).reader (c'.session.stat i j) (stat' i j)) :
    Stands X φ toll c' chan' stat' where
  carries := hcarries
  counts x y hxy := by
    by_cases hx : x = i
    · rw [hx] at hxy ⊢
      exact hi y hxy
    · rw [hreader x y hx, hphase x hx, hmine x hx, hstat x hx]
      exact b.counts x y hxy

/-- One stream changes, and so do the frames it carries. -/
theorem Stands.carries_update (b : Stands X φ toll c chan stat) {x y : Fin n} {stream : Stream B} {fs : List (List B)}
    (h : x ≠ y → stream.Carries φ fs) : ∀ x' y', x' ≠ y' →
      (update c.stream (x, y) stream (x', y')).Carries φ (update chan (x, y) fs (x', y')) := by
  intro x' y' hne
  by_cases he : (x', y') = (x, y)
  · obtain ⟨rfl, rfl⟩ := Prod.mk.inj he
    rw [update_self, update_self]
    exact h hne
  · rw [update_of_ne he, update_of_ne he]
    exact b.carries x' y' hne

theorem reader_update {stream : Fin n × Fin n → Stream B} {x : Fin n × Fin n} {st : Stream B}
    (h : st.reader = (stream x).reader) (y : Fin n × Fin n) : (update stream x st y).reader = (stream y).reader := by
  by_cases hyx : y = x
  · rw [hyx, update_self, h]
  · rw [update_of_ne hyx]

/-- A party that panics has been counting right up to there. -/
theorem Stands.panic (b : Stands X φ toll c chan stat) (i : Fin n) : Stands X φ toll { c with session :=
    { c.session with net := { c.session.net with phase := update c.session.net.phase i .panicked } } } chan stat where
  carries := b.carries
  counts x y hxy := by
    refine (b.counts x y hxy).phase fun hwaits => ?_
    by_cases hx : x = i
    · rw [hx]
      exact .inl (update_self ..)
    · simp only [update_of_ne hx]
      exact hwaits

/-- What a party does over streams it does over channels of frames, or it does nothing there. -/
theorem Stands.step (b : Stands X φ toll c chan stat) (hX : Wired X toll) (hfit : Fitting X φ.limit (c.frames chan stat))
    (h : Step X φ toll room c c') : ∃ chan' stat', Stands X φ toll c' chan' stat' ∧
      (c'.frames chan' stat' = c.frames chan stat ∨ Session.Step X (c.frames chan stat) (c'.frames chan' stat')) := by
  cases h with
  | inner net h hchan hflushed =>
    exact ⟨chan, stat, ⟨b.carries, fun i j hij => (b.counts i j hij).phase (h.waits hchan)⟩,
      .inr (.inner { net with chan := chan } (Session.inner_rewired h hchan chan) rfl)⟩
  | start i j m pending p u h hj hstat =>
    obtain ⟨hij, hcap, hlen⟩ := hfit.sending i j m pending p h hj
    have hmine : ∀ x, i ≠ x → c.session.stat i x = stat i x := fun x hx =>
      (b.counts i x hx).eq (h ▸ Phase.not_waits_sending)
    refine ⟨update chan (i, j) (chan (i, j) ++ [X.endpoint.encode i m]), update stat i (update (stat i) j u),
      b.turn i ?_ (fun x y _ => ?_) (fun x hx => update_of_ne hx ..) (fun x hx => update_of_ne hx ..)
      (fun x hx => update_of_ne hx ..) fun x hx => ?_, .inr ?_⟩
    · rw [hX.sender i j hij]
      exact b.carries_update fun hne => (b.carries i j hne).send hlen
    · exact reader_update (by rfl) _
    · have hxi : (x, i) ≠ X.endpoint.sender i j := by
        rw [hX.sender i j hij]
        exact fun he => hij (Prod.mk.inj he).2
      have hsame : update (c.session.stat i) j u x = update (stat i) j u x := by
        by_cases hxj : x = j
        · rw [hxj, update_self, update_self]
        · rw [update_of_ne hxj, update_of_ne hxj, hmine x hx]
      simp only [move, update_self, update_of_ne hxi, hsame]
      exact (b.counts i x hx).renew (h ▸ Phase.not_waits_sending)
    · have hpush := Session.Step.push (X := X) (s := c.frames chan stat) i j m pending p u h hj
        (by rw [hX.sender i j hij]; exact hcap) (by rw [hX.cost, ← hstat, hmine j hij]; rfl)
      rw [hX.sender i j hij] at hpush
      exact hpush
  | write x stream h =>
    refine ⟨chan, stat, ⟨fun y z hne => ?_, fun y z hne => ?_⟩, .inl rfl⟩
    · by_cases hx : (y, z) = x
      · rw [← hx] at h ⊢
        simp only [update_self]
        exact (b.carries y z hne).write h
      · simp only [update_of_ne hx]
        exact b.carries y z hne
    · rw [reader_update h.reader_eq]
      exact b.counts y z hne
  | read i j kd pending held k stream h hj hread =>
    have hij := hfit.receiving i j kd pending held k h hj
    rw [hX.receiver i j hij] at hread ⊢
    refine ⟨chan, stat, b.turn i (fun x y hne => ?_) (fun x y hx => ?_) (fun _ _ => rfl) (fun _ _ => rfl)
      (fun _ _ => rfl) fun x hx => ?_, .inl rfl⟩
    · by_cases hxy : (x, y) = (j, i)
      · obtain ⟨rfl, rfl⟩ := Prod.mk.inj hxy
        simp only [update_self]
        exact (b.carries x y hne).read hread
      · simp only [update_of_ne hxy]
        exact b.carries x y hne
    · exact congrArg Stream.reader (update_of_ne (fun he => hx (Prod.mk.inj he).2) ..)
    · by_cases hxj : x = j
      · subst hxj
        simp only [update_self]
        exact (b.counts i x hx).read hread
      · have hxi : (x, i) ≠ (j, i) := fun he => hxj (Prod.mk.inj he).1
        simp only [update_of_ne hxi]
        exact b.counts i x hx
  | announce i j kd pending held k got u h hj hreader hfull hstat =>
    have hij := hfit.receiving i j kd pending held k h hj
    rw [hX.receiver i j hij] at hreader ⊢
    obtain ⟨f, rest, hchan, hdecode, hcarries⟩ := (b.carries j i hij.symm).announce hreader hfull
    have hfresh : c.session.stat i j = stat i j := by
      have hcounts := b.counts i j hij
      rw [hreader] at hcounts
      exact hcounts.header
    rw [hdecode] at hstat ⊢
    refine ⟨chan, stat, b.turn i ?_ (fun x y hx => ?_) (fun x hx => update_of_ne hx ..) (fun x hx => update_of_ne hx ..)
      (fun _ _ => rfl) fun x hx => ?_, .inl ?_⟩
    · intro x y hne
      by_cases hxy : (x, y) = (j, i)
      · obtain ⟨rfl, rfl⟩ := Prod.mk.inj hxy
        simp only [update_self]
        exact hcarries
      · simp only [update_of_ne hxy]
        exact b.carries x y hne
    · exact congrArg Stream.reader (update_of_ne (fun he => hx (Prod.mk.inj he).2) ..)
    · have hkeep : update c.session.net.phase i (.receiving kd pending held k) i = c.session.net.phase i := by
        rw [update_self, h]
      by_cases hxj : x = j
      · subst hxj
        simp only [move, update_self]
        rw [hfresh] at hstat
        exact .counted hstat (.inr ⟨kd, pending, held, k, rfl, hj⟩)
      · have hxi : (x, i) ≠ (j, i) := fun he => hxj (Prod.mk.inj he).1
        simp only [move, update_self, update_of_ne hxi, update_of_ne hxj]
        rw [← h]
        exact b.counts i x hx
    · simp only [frames, move, ← h, update_eq_self]
  | take i j kd pending held k len got h hj hreader hfull =>
    have hij := hfit.receiving i j kd pending held k h hj
    rw [hX.receiver i j hij] at hreader ⊢
    obtain ⟨rest, hchan, hcarries⟩ := (b.carries j i hij.symm).take hreader hfull
    have hcounts := b.counts i j hij
    rw [hreader] at hcounts
    refine ⟨update chan (j, i) rest, update stat i (update (stat i) j (c.session.stat i j)), b.turn i ?_
      (fun x y hx => ?_) (fun x hx => update_of_ne hx ..) (fun x hx => update_of_ne hx ..)
      (fun x hx => update_of_ne hx ..) fun x hx => ?_, .inr ?_⟩
    · exact b.carries_update fun _ => hcarries
    · exact congrArg Stream.reader (update_of_ne (fun he => hx (Prod.mk.inj he).2) ..)
    · by_cases hxj : x = j
      · subst hxj
        simp only [move, update_self]
        exact .fresh
      · have hxi : (x, i) ≠ (j, i) := fun he => hxj (Prod.mk.inj he).1
        simp only [move, update_self, update_of_ne hxi, update_of_ne hxj]
        refine (b.counts i x hx).phase fun hwaits => .inr ⟨kd, _, _, k, rfl, ?_⟩
        rcases hwaits with hdead | ⟨kd', pending', held', k', hph, hmem⟩
        · rw [h] at hdead
          cases hdead
        · obtain ⟨-, rfl, -⟩ := Phase.receiving.inj (h.symm.trans hph)
          exact (List.mem_erase_of_ne hxj).mpr hmem
    · have hpop := Session.Step.pop (X := X) (s := c.frames chan stat) i j kd pending held k got rest
        (c.session.stat i j) h hj (by rw [hX.receiver i j hij]; exact hchan)
        (by rw [hX.cost, hfull]; exact hcounts.body.1)
      rw [hX.receiver i j hij] at hpop
      exact hpop
  | report i a r rest sum h hqueue hsum =>
    refine ⟨chan, update stat i fun _ => X.tally.zero, b.turn i b.carries (fun _ _ _ => rfl)
      (fun x hx => update_of_ne hx ..) (fun x hx => update_of_ne hx ..) (fun x hx => update_of_ne hx ..)
      fun x hx => ?_, .inr ?_⟩
    · simp only [update_self]
      exact (b.counts i x hx).renew (h ▸ Phase.not_waits_ready)
    · exact .report (s := c.frames chan stat) i a r rest sum h hqueue (by rw [← hsum, b.total_eq hX h]; rfl)
  | startOverflow i j m pending p h hj hstat =>
    have hij := (hfit.sending i j m pending p h hj).1
    refine ⟨chan, stat, ?_, .inr ?_⟩
    · simp only [move, update_eq_self]
      exact b.panic i
    · simp only [move, update_eq_self]
      refine .pushOverflow (s := c.frames chan stat) i j m pending p h hj ?_
      rw [hX.cost, ← hstat, (b.counts i j hij).eq (h ▸ Phase.not_waits_sending)]
      rfl
  | announceOverflow i j kd pending held k got h hj hreader hfull hstat =>
    have hij := hfit.receiving i j kd pending held k h hj
    rw [hX.receiver i j hij] at hreader
    obtain ⟨f, rest, hchan, hdecode, -⟩ := (b.carries j i hij.symm).announce hreader hfull
    have hcounts := b.counts i j hij
    rw [hreader] at hcounts
    refine ⟨chan, stat, ?_, .inr ?_⟩
    · simp only [move, update_eq_self]
      exact b.panic i
    · simp only [move, update_eq_self]
      refine .popOverflow (s := c.frames chan stat) i j kd pending held k f rest h hj
        (by rw [hX.receiver i j hij]; exact hchan) ?_
      rw [hX.cost, ← hdecode, ← hstat, hcounts.header]
      rfl
  | sumOverflow i a r rest h hqueue hsum =>
    exact ⟨chan, stat, b.panic i, .inr (.sumOverflow (s := c.frames chan stat) i a r rest h hqueue
      (by rw [← hsum, b.total_eq hX h]; rfl))⟩

/-- A run over streams is a run over channels of frames, as long as what is sent fits. -/
theorem Reachable.stands {s₀ : Session n M K (List B) S A R T} (hX : Wired X toll) (hs₀ : s₀.net.chan = fun _ => [])
    (hfit : ∀ s, Session.Reachable X s₀ s → Fitting X φ.limit s) (h : Reachable X φ toll room s₀ c) :
    ∃ chan stat, Stands X φ toll c chan stat ∧ Session.Reachable X s₀ (c.frames chan stat) := by
  induction h with
  | refl =>
    refine ⟨fun _ => [], s₀.stat, ⟨fun _ _ _ => .nil, fun _ _ _ => .fresh⟩, ?_⟩
    have hsame : frames ⟨s₀, fun _ => .empty⟩ (fun _ => []) s₀.stat = s₀ := by
      simp only [frames, ← hs₀]
    rw [hsame]
    exact .refl
  | tail _ hstep ih =>
    obtain ⟨chan, stat, b, hreach⟩ := ih
    obtain ⟨chan', stat', b', hsame | hnext⟩ := b.step hX (hfit _ hreach) hstep
    · exact ⟨chan', stat', b', hsame ▸ hreach⟩
    · exact ⟨chan', stat', b', hreach.tail hnext⟩

end Step
end Streamed
end PrivRecCert.Rounds
