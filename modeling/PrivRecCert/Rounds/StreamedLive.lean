import PrivRecCert.Rounds.StreamedSound

/-! A session over byte streams does not block as long as every stream has room for one frame. A broadcast has to wait
until its frames are written, and the peer may be busy with its own broadcast; but a peer that is so far behind has its
frames on the way already. -/
namespace PrivRecCert.Rounds
open Function Streams
open scoped BigOperators

variable {n : ℕ} {M K F B S A R T α : Type}

namespace Proc

/-- A program that broadcasts messages of one sort only, whatever it receives, and if it finishes its result is in
`Q`. -/
inductive Speaks (ok : M → Prop) (Q : α → Prop) : Proc M K α → Prop
  | ret {a} (h : Q a) : Speaks ok Q (.ret a)
  | fail : Speaks ok Q .fail
  | send {m p} (hm : ok m) (h : Speaks ok Q p) : Speaks ok Q (.send m p)
  | recv {kd k} (h : ∀ l, Speaks ok Q (k l)) : Speaks ok Q (.recv kd k)

theorem Sized.speaks {size : M → ℕ} {Q : α → Prop} {sizes : List ℕ} {p : Proc M K α} {ok : M → Prop}
    (h : Sized size Q sizes p) (hok : ∀ m, size m ∈ sizes → ok m) : p.Speaks ok Q := by
  induction h with
  | ret h => exact .ret h
  | fail => exact .fail
  | round m kd k _ ih =>
    exact .send (hok m List.mem_cons_self) (.recv fun l => ih l fun m' hm' => hok m' (List.mem_cons_of_mem _ hm'))

end Proc

namespace Phase

/-- A party that has only messages of one sort to broadcast. -/
def Speaks (ok : M → Prop) (Q : α → Prop) : Phase n M K F α → Prop
  | .ready p => p.Speaks ok Q
  | .sending m _ p => ok m ∧ p.Speaks ok Q
  | .receiving _ _ _ k => ∀ l, (k l).Speaks ok Q
  | .panicked => True

theorem Next.speaks {ok : M → Prop} {Q : α → Prop} {a b : Phase n M K F α} (h : Next a b) (ha : a.Speaks ok Q) :
    b.Speaks ok Q := by
  cases h with
  | begin m p pending =>
    cases ha with
    | send hm hp => exact ⟨hm, hp⟩
  | push m pending p j hj => exact ha
  | finish m p => exact ha.2
  | listen kd k pending =>
    cases ha with
    | recv hk => exact hk
  | pop kd pending held k j f hj => exact ha
  | handle kd pending before f after k => exact ha
  | deliver kd k l => exact ha l
  | panic a h => trivial

end Phase

section Frames
variable {X : Metered n M K F S A R T} {good : F → Prop} {Inv : Fin n → A → Prop} {Ask : Fin n → R → Prop}
  {s t : Session n M K F S A R T}

/-- All frames, those in the channels and those to come, are of one sort. -/
structure Session.Speaks (X : Metered n M K F S A R T) (good : F → Prop) (Inv : Fin n → A → Prop) (Ask : Fin n → R → Prop)
    (s : Session n M K F S A R T) : Prop where
  phase : ∀ i, (s.net.phase i).Speaks (fun m => good (X.endpoint.encode i m)) (Inv i)
  asks : ∀ i, ∀ r ∈ s.queue i, Ask i r
  chan : ∀ x, ∀ f ∈ s.net.chan x, good f

/-- Requests are served with frames of one sort. -/
def Metered.Speaks (X : Metered n M K F S A R T) (good : F → Prop) (Inv : Fin n → A → Prop) (Ask : Fin n → R → Prop) :
    Prop :=
  ∀ i a r, Inv i a → Ask i r → (X.serve i a r).Speaks (fun m => good (X.endpoint.encode i m)) (Inv i)

theorem Metered.Speaks.next (hX : X.Speaks good Inv Ask) {i : Fin n} {a : A} {queue : List R} (ha : Inv i a)
    (hqueue : ∀ r ∈ queue, Ask i r) : (X.next i a queue).Speaks (fun m => good (X.endpoint.encode i m)) (Inv i) := by
  cases queue with
  | nil => exact .ret ha
  | cons r rest => exact hX i a r ha (hqueue r List.mem_cons_self)

theorem speaks_update {ok : Fin n → M → Prop} {Q : Fin n → α → Prop} {phase : Fin n → Phase n M K F α}
    (h : ∀ i, (phase i).Speaks (ok i) (Q i)) {i : Fin n} {ph : Phase n M K F α} (hph : ph.Speaks (ok i) (Q i))
    (k : Fin n) :
    (update phase i ph k).Speaks (ok k) (Q k) := by
  by_cases hk : k = i
  · rw [hk, update_self]
    exact hph
  · rw [update_of_ne hk]
    exact h k

theorem good_update {chan : Fin n × Fin n → List F} (h : ∀ x, ∀ f ∈ chan x, good f) {y : Fin n × Fin n} {fs : List F}
    (hfs : ∀ f ∈ fs, good f) (x : Fin n × Fin n) : ∀ f ∈ update chan y fs x, good f := by
  by_cases hx : x = y
  · rw [hx, update_self]
    exact hfs
  · rw [update_of_ne hx]
    exact h x

theorem Session.Speaks.step (hX : X.Speaks good Inv Ask) (hs : s.Speaks X good Inv Ask) (h : Session.Step X s t) :
    t.Speaks X good Inv Ask := by
  cases h with
  | inner net h hchan =>
    obtain ⟨i, ph, hnext, hphase⟩ := h.phase_next
    refine ⟨?_, hs.asks, by rw [hchan]; exact hs.chan⟩
    rw [hphase]
    exact speaks_update hs.phase (hnext.speaks (hs.phase i))
  | push i j m pending p stat h hj hcap hstat =>
    have hi := hs.phase i
    rw [h] at hi
    refine ⟨speaks_update hs.phase hi, hs.asks, good_update hs.chan fun f hf => ?_⟩
    rcases List.mem_append.mp hf with hf | hf
    · exact hs.chan _ f hf
    · rw [List.mem_singleton.mp hf]
      exact hi.1
  | pop i j kd pending held k f rest stat h hj hf hstat =>
    have hi := hs.phase i
    rw [h] at hi
    exact ⟨speaks_update hs.phase hi, hs.asks,
      good_update hs.chan fun g hg => hs.chan _ g (hf ▸ List.mem_cons_of_mem _ hg)⟩
  | report i a r rest sum h hqueue hsum =>
    have hi := hs.phase i
    rw [h] at hi
    have hrest : ∀ r' ∈ rest, Ask i r' := fun r' hr' => hs.asks i r' (hqueue ▸ List.mem_cons_of_mem _ hr')
    cases hi with
    | ret ha =>
      refine ⟨speaks_update hs.phase (hX.next ha hrest), fun k => ?_, hs.chan⟩
      change ∀ r' ∈ update s.queue i rest k, _
      by_cases hk : k = i
      · rw [hk, update_self]
        exact hrest
      · rw [update_of_ne hk]
        exact hs.asks k
  | pushOverflow i j m pending p h hj hstat => exact ⟨speaks_update hs.phase trivial, hs.asks, hs.chan⟩
  | popOverflow i j kd pending held k f rest h hj hf hstat => exact ⟨speaks_update hs.phase trivial, hs.asks, hs.chan⟩
  | sumOverflow i a r rest h hqueue hsum => exact ⟨speaks_update hs.phase trivial, hs.asks, hs.chan⟩

end Frames

section Behind
variable {E : Endpoint n M K F S} {kindOf : M → K} {wire : Fin n → M → Option M} {slots : S → K → List M}
  {Q : (Fin n → α) → Prop} {s : Net n M K F S α} [DecidableEq K]

theorem Lockstep.invariant (L : Lawful E kindOf wire slots) {procs : Fin n → Proc M K α} {empty : S}
    (h : Lockstep kindOf wire Q procs) (hempty : slots empty = fun _ => []) (hr : Reachable E procs empty s) :
    Invariant E kindOf wire slots Q s := by
  induction hr with
  | refl => exact .init h hempty
  | tail _ hs ih => exact ih.step L hs

/-- A party that has two frames of `i` to take is in the older round: it has sent at most one frame to anybody since,
it waits for `i` if it waits, and it has not finished. -/
theorem Invariant.behind (I : Invariant E kindOf wire slots Q s) {i j : Fin n} (h : 2 ≤ (s.chan (i, j)).length) :
    (∀ k, (s.chan (j, k)).length ≤ 1) ∧ (∀ b, s.phase j ≠ .ready (.ret b)) ∧
      ∀ kd pending held k, s.phase j = .receiving kd pending held k → i ∈ pending := by
  rcases I with ⟨b, g, q⟩ | ⟨B, g, W⟩
  · rw [q.chan i j] at h
    cases h
  · have hij : i ≠ j := by
      rintro rfl
      rw [W.chan_self i] at h
      cases h
    have hlen := congrArg List.length (W.chan i j hij)
    simp only [List.length_drop, List.length_take, List.length_cons, List.length_nil] at hlen
    have hinn : g.inn j i = 0 := by omega
    have hahead : g.ahead j = false := by
      cases hj : g.ahead j with
      | false => rfl
      | true =>
        rw [hj, Bool.toNat_true] at hlen
        omega
    have hstage := W.stage j
    refine ⟨fun k => ?_, fun b hb => ?_, fun kd pending held k hph => ?_⟩
    · by_cases hjk : j = k
      · rw [← hjk, W.chan_self j]
        exact Nat.zero_le 1
      · have hout := hstage.out_le (Ne.symm hjk)
        rw [W.chan j k hjk, hahead]
        simp only [List.length_drop, List.length_take, List.length_cons, List.length_nil, Bool.toNat_false]
        omega
    · rw [hb, hahead] at hstage
      rcases hstage.ready_inv with ⟨hp, -⟩ | ⟨_, _, _, -, hp, -⟩
      · cases hp
      · cases hp
    · rw [hph] at hstage
      obtain ⟨_, _, _, -, -, -, -, htaken, -⟩ := hstage.receiving_inv
      by_contra hi
      rw [htaken i hij, if_neg hi] at hinn
      cases hinn

end Behind

namespace Streamed
variable {X : Metered n M K (List B) S A R T} {φ : Framing B} {toll : ℕ → ℕ} {room : ℕ}
  {c d : Streamed n M K B S A R T} {chan : Fin n × Fin n → List (List B)} {stat : Fin n → Fin n → T}

/-- A stream that carries a frame which somebody waits for can go on. -/
theorem Stands.receive (b : Stands X φ toll c chan stat) (hX : Wired X toll) (hroom : 0 < room) {i j : Fin n} {kd : K}
    {pending : List (Fin n)} {held : List (List B)} {k : List M → Proc M K A} {f : List B} {rest : List (List B)}
    (hij : i ≠ j) (h : c.session.net.phase i = .receiving kd pending held k) (hj : j ∈ pending)
    (hf : chan (j, i) = f :: rest) : ∃ d, Step X φ toll room c d := by
  have hcarries := b.carries j i hij.symm
  rw [hf] at hcarries
  have hr := hX.receiver i j hij
  rcases hcarries.readable with ⟨got, hreader, hfull⟩ | ⟨len, got, hreader, hfull⟩ | ⟨stream, hread⟩ | ⟨hflight, hunsent⟩
  · cases hstat : X.tally.addReceived (c.session.stat i j) (toll (φ.decode got)) with
    | none => exact ⟨_, .announceOverflow i j kd pending held k got h hj (by rw [hr]; exact hreader) hfull hstat⟩
    | some u => exact ⟨_, .announce i j kd pending held k got u h hj (by rw [hr]; exact hreader) hfull hstat⟩
  · exact ⟨_, .take i j kd pending held k len got h hj (by rw [hr]; exact hreader) hfull⟩
  · exact ⟨_, .read i j kd pending held k stream h hj (by rw [hr]; exact hread)⟩
  · obtain ⟨stream, hw⟩ : ∃ s', Stream.Write room _ s' := Stream.writable hunsent (by rw [hflight]; exact hroom)
    exact ⟨_, .write (j, i) stream hw⟩

/-- Where a party stands that cannot go on by itself. -/
theorem rests (X : Metered n M K (List B) S A R T) (φ : Framing B) (toll : ℕ → ℕ) (room : ℕ)
    (c : Streamed n M K B S A R T) (i : Fin n) :
    (∃ a, c.session.net.phase i = .ready (.ret a) ∧ c.session.queue i = []) ∨ c.session.net.phase i = .panicked ∨
      (∃ m p, c.session.net.phase i = .sending m [] p ∧ ¬ c.Flushed X.endpoint i) ∨
      (∃ kd pending k, c.session.net.phase i = .receiving kd pending [] k ∧ pending ≠ []) ∨
      ∃ d, Step X φ toll room c d := by
  have hinner : ∀ net, Rounds.Step X.endpoint c.session.net net → net.chan = c.session.net.chan →
      (∀ m p, c.session.net.phase i = .sending m [] p → c.Flushed X.endpoint i) →
      (∀ k, k ≠ i → net.phase k = c.session.net.phase k) → ∃ d, Step X φ toll room c d := by
    intro net h hchan hflushed hphase
    refine ⟨_, .inner net h hchan fun k m p hk hne => ?_⟩
    by_cases hki : k = i
    · rw [hki] at hk ⊢
      exact hflushed m p hk
    · exact absurd (hphase k hki) hne
  have hother : ∀ {ph} k, k ≠ i → update c.session.net.phase i ph k = c.session.net.phase k := fun k hk =>
    update_of_ne hk ..
  cases hph : c.session.net.phase i with
  | ready p =>
    have hidle : ∀ m q, c.session.net.phase i = .sending m [] q → c.Flushed X.endpoint i := fun m q hq => by
      rw [hph] at hq
      cases hq
    cases p with
    | ret a =>
      cases hqueue : c.session.queue i with
      | nil => exact .inl ⟨a, rfl, rfl⟩
      | cons r rest =>
        right; right; right; right
        cases hsum : X.total i (c.session.stat i) with
        | none => exact ⟨_, .sumOverflow i a r rest hph hqueue hsum⟩
        | some sum => exact ⟨_, .report i a r rest sum hph hqueue hsum⟩
    | fail => exact .inr (.inr (.inr (.inr (hinner _ (.crash i hph) rfl hidle hother))))
    | send m p => exact .inr (.inr (.inr (.inr (hinner _ (.begin i m p hph) rfl hidle hother))))
    | recv kd k => exact .inr (.inr (.inr (.inr (hinner _ (.listen i kd k hph) rfl hidle hother))))
  | sending m pending p =>
    cases pending with
    | nil =>
      by_cases hflushed : c.Flushed X.endpoint i
      · exact .inr (.inr (.inr (.inr (hinner _ (.finish i m p hph) rfl (fun _ _ _ => hflushed) hother))))
      · exact .inr (.inr (.inl ⟨m, p, rfl, hflushed⟩))
    | cons j pending =>
      right; right; right; right
      cases hstat : X.tally.addSent (c.session.stat i j) (toll (X.endpoint.encode i m).length) with
      | none => exact ⟨_, .startOverflow i j m _ p hph List.mem_cons_self hstat⟩
      | some u => exact ⟨_, .start i j m _ p u hph List.mem_cons_self hstat⟩
  | receiving kd pending held k =>
    have hidle : ∀ m q, c.session.net.phase i = .sending m [] q → c.Flushed X.endpoint i := fun m q hq => by
      rw [hph] at hq
      cases hq
    cases held with
    | cons f held =>
      right; right; right; right
      cases ha : X.endpoint.absorb i (c.session.net.store i) f with
      | none => exact hinner _ (.reject i kd pending [] f held k hph ha) rfl hidle hother
      | some st => exact hinner _ (.handle i kd pending [] f held k st hph ha) rfl hidle hother
    | nil =>
      cases pending with
      | cons j pending => exact .inr (.inr (.inr (.inl ⟨kd, _, k, rfl, List.cons_ne_nil _ _⟩)))
      | nil =>
        right; right; right; right
        cases hc : X.endpoint.collect i kd (c.session.net.store i) with
        | none => exact hinner _ (.missing i kd k hph hc) rfl hidle hother
        | some r => exact hinner _ (.deliver i kd k r.1 r.2 hph hc) rfl hidle hother
  | panicked => exact .inr (.inl rfl)

/-- What is yet to be written on a stream without room is more than one frame. -/
theorem Stands.crowded (b : Stands X φ toll c chan stat) {i j : Fin n} (hij : i ≠ j)
    (hgood : ∀ f ∈ chan (i, j), φ.width + f.length ≤ room) (hunsent : (c.stream (i, j)).unsent ≠ [])
    (hno : ∀ d, ¬ Step X φ toll room c d) : 2 ≤ (chan (i, j)).length := by
  have hfull : room ≤ (c.stream (i, j)).flight.length := by
    by_contra hlt
    obtain ⟨stream, hw⟩ := Stream.writable hunsent (not_le.mp hlt)
    exact hno _ (.write (i, j) stream hw)
  have hpos := List.length_pos_iff.mpr hunsent
  have hlen := (b.carries i j hij).length
  by_contra hfew
  cases hc : chan (i, j) with
  | nil =>
    rw [hc, List.map_nil, List.sum_nil] at hlen
    omega
  | cons f rest =>
    rw [hc, List.length_cons] at hfew
    obtain rfl : rest = [] := List.length_eq_zero_iff.mp (by omega)
    have hf := hgood f (hc ▸ List.mem_cons_self)
    rw [hc, List.map_singleton, List.sum_singleton] at hlen
    omega

/-- A party cannot be kept from finishing a broadcast: the peer that does not read is behind, and can itself go on. -/
theorem Stands.flushes [DecidableEq K] {kindOf : M → K} {wire : Fin n → M → Option M} {slots : S → K → List M}
    {Q : (Fin n → A) → Prop} (b : Stands X φ toll c chan stat) (hX : Wired X toll)
    (I : Invariant X.endpoint kindOf wire slots Q ((c.frames chan stat).whole X))
    (hgood : ∀ x, ∀ f ∈ chan x, φ.width + f.length ≤ room) (hdead : ∀ i, c.session.net.phase i ≠ .panicked)
    (hno : ∀ d, ¬ Step X φ toll room c d) (i : Fin n) : c.Flushed X.endpoint i := by
  intro j hji
  rw [hX.sender i j hji.symm]
  by_contra hunsent
  have htwo := b.crowded hji.symm (hgood (i, j)) hunsent hno
  obtain ⟨hone, hrun, hwaits⟩ := I.behind (i := i) (j := j) htwo
  have hwhole : ((c.frames chan stat).whole X).phase j =
      (c.session.net.phase j).bind fun a => X.program j a (c.session.queue j).tail := rfl
  rcases rests X φ toll room c j with ⟨a, hph, hqueue⟩ | hph | ⟨m, p, hph, hstuck⟩ | ⟨kd, pending, k, hph, -⟩ | ⟨d, hd⟩
  · refine hrun a ?_
    rw [hwhole, hph, hqueue]
    rfl
  · exact hdead j hph
  · -- the peer's own frames are few, so they have room
    apply hstuck
    intro k hkj
    rw [hX.sender j k hkj.symm]
    by_contra hmore
    have hmany := b.crowded hkj.symm (hgood (j, k)) hmore hno
    exact absurd (hone k) (by change ¬ (chan (j, k)).length ≤ 1; omega)
  · -- the peer waits for this party, whose frames are there
    have hi : i ∈ pending := hwaits kd pending [] (fun l => k l >>= fun a => X.program j a (c.session.queue j).tail)
      (by rw [hwhole, hph]; rfl)
    cases hc : chan (i, j) with
    | nil =>
      rw [hc] at htwo
      cases htwo
    | cons f rest =>
      have hf := hgood (i, j) f (hc ▸ List.mem_cons_self)
      have hroom : 0 < room := lt_of_lt_of_le φ.width_pos ((Nat.le_add_right _ _).trans hf)
      obtain ⟨d, hd⟩ := b.receive hX hroom hji hph hi hc
      exact hno d hd
  · exact hno d hd

/-- A session over streams can go on when the one over channels can. -/
theorem Stands.progress [DecidableEq K] {kindOf : M → K} {wire : Fin n → M → Option M} {slots : S → K → List M}
    {Q : (Fin n → A) → Prop} (b : Stands X φ toll c chan stat) (hX : Wired X toll)
    (I : Invariant X.endpoint kindOf wire slots Q ((c.frames chan stat).whole X))
    (hfit : Fitting X φ.limit (c.frames chan stat)) (hgood : ∀ x, ∀ f ∈ chan x, φ.width + f.length ≤ room)
    (hdead : ∀ i, c.session.net.phase i ≠ .panicked) {t : Session n M K (List B) S A R T}
    (h : Session.Step X (c.frames chan stat) t) : ∃ d, Step X φ toll room c d := by
  by_contra hno
  rw [not_exists] at hno
  have hstart : ∀ {i j m pending p}, c.session.net.phase i = .sending m pending p → j ∈ pending → False := by
    intro i j m pending p h hj
    cases hstat : X.tally.addSent (c.session.stat i j) (toll (X.endpoint.encode i m).length) with
    | none => exact hno _ (.startOverflow i j m pending p h hj hstat)
    | some u => exact hno _ (.start i j m pending p u h hj hstat)
  have htake : ∀ {i j kd pending held k f rest}, c.session.net.phase i = .receiving kd pending held k → j ∈ pending →
      chan (X.endpoint.receiver i j) = f :: rest → False := by
    intro i j kd pending held k f rest h hj hf
    have hij := hfit.receiving i j kd pending held k h hj
    rw [hX.receiver i j hij] at hf
    have hlen := hgood (j, i) f (hf ▸ List.mem_cons_self)
    have hroom : 0 < room := lt_of_lt_of_le φ.width_pos ((Nat.le_add_right _ _).trans hlen)
    obtain ⟨d, hd⟩ := b.receive hX hroom hij h hj hf
    exact hno d hd
  have hreport : ∀ {i a r rest}, c.session.net.phase i = .ready (.ret a) → c.session.queue i = r :: rest → False := by
    intro i a r rest h hqueue
    cases hsum : X.total i (c.session.stat i) with
    | none => exact hno _ (.sumOverflow i a r rest h hqueue hsum)
    | some sum => exact hno _ (.report i a r rest sum h hqueue hsum)
  cases h with
  | inner net h hchan =>
    exact hno _ (.inner { net with chan := c.session.net.chan } (Session.inner_rewired h hchan c.session.net.chan) rfl
      fun i _ _ _ _ => b.flushes hX I hgood hdead hno i)
  | push i j m pending p u h hj hcap hstat => exact hstart h hj
  | pop i j kd pending held k f rest u h hj hf hstat => exact htake h hj hf
  | report i a r rest sum h hqueue hsum => exact hreport h hqueue
  | pushOverflow i j m pending p h hj hstat => exact hstart h hj
  | popOverflow i j kd pending held k f rest h hj hf hstat => exact htake h hj hf
  | sumOverflow i a r rest h hqueue hsum => exact hreport h hqueue

theorem load_update {stream : Fin n × Fin n → Stream B} {x : Fin n × Fin n} {st : Stream B}
    (h : st.load < (stream x).load) : ∑ y, (update stream x st y).load < ∑ y, (stream y).load := by
  refine Finset.sum_lt_sum (fun y _ => ?_) ⟨x, Finset.mem_univ x, by rwa [update_self]⟩
  by_cases hy : y = x
  · rw [hy, update_self]
    exact h.le
  · rw [update_of_ne hy]

/-- There is no infinite session over streams: bytes are not moved forever between two steps of the parties. -/
theorem step_wellFounded (X : Metered n M K (List B) S A R T) (φ : Framing B) (toll : ℕ → ℕ) (room : ℕ) :
    WellFounded fun d c : Streamed n M K B S A R T => Step X φ toll room c d := by
  have hlex := WellFounded.prod_lex (WellFounded.prod_lex (wellFounded_lt : WellFounded fun a b : ℕ => a < b)
    (phases_wellFounded : WellFounded fun q p : Fin n → Phase n M K (List B) A => _))
    (wellFounded_lt : WellFounded fun a b : ℕ => a < b)
  apply (InvImage.wf (fun c : Streamed n M K B S A R T =>
    ((∑ i, (c.session.queue i).length, c.session.net.phase), ∑ x, (c.stream x).load)) hlex).mono
  intro d c h
  have hmoves : ∀ i ph, d.session.queue = c.session.queue → d.session.net.phase = update c.session.net.phase i ph →
      Phase.Next (c.session.net.phase i) ph →
      Prod.Lex (Prod.Lex (· < ·) fun q p => ∃ i a, Phase.Next (p i) a ∧ q = update p i a) (· < ·)
        ((∑ i, (d.session.queue i).length, d.session.net.phase), ∑ x, (d.stream x).load)
        ((∑ i, (c.session.queue i).length, c.session.net.phase), ∑ x, (c.stream x).load) := by
    intro i ph hqueue hphase hnext
    rw [hqueue]
    exact .left _ _ (.right _ ⟨i, ph, hnext, hphase⟩)
  cases h with
  | inner net h hchan hflushed =>
    obtain ⟨i, ph, hnext, hphase⟩ := h.phase_next
    exact hmoves i ph rfl hphase hnext
  | start i j m pending p u h hj hstat => exact hmoves i _ rfl rfl (by rw [h]; exact .push m pending p j hj)
  | write x stream h => exact .right _ (load_update h.load_lt)
  | read i j kd pending held k stream h hj hread => exact .right _ (load_update hread.load_lt)
  | announce i j kd pending held k got u h hj hreader hfull hstat =>
    change Prod.Lex _ _ ((_, update c.session.net.phase i _), _) _
    rw [← h, update_eq_self]
    refine .right _ (load_update ?_)
    rw [Stream.load, Stream.load, hreader]
    exact Nat.lt_succ_self _
  | take i j kd pending held k len got h hj hreader hfull =>
    exact hmoves i _ rfl rfl (by rw [h]; exact .pop kd pending held k j got hj)
  | report i a r rest sum h hqueue hsum =>
    refine .left _ _ (.left _ _ (Finset.sum_lt_sum (fun k _ => ?_) ⟨i, Finset.mem_univ i, ?_⟩))
    · change (update c.session.queue i rest k).length ≤ _
      by_cases hk : k = i
      · rw [hk, update_self, hqueue]
        exact Nat.le_succ _
      · rw [update_of_ne hk]
    · change (update c.session.queue i rest i).length < _
      rw [update_self, hqueue]
      exact Nat.lt_succ_self _
  | startOverflow i j m pending p h hj hstat => exact hmoves i _ rfl rfl (by rw [h]; exact .panic _ (by simp))
  | announceOverflow i j kd pending held k got h hj hreader hfull hstat =>
    exact hmoves i _ rfl rfl (by rw [h]; exact .panic _ (by simp))
  | sumOverflow i a r rest h hqueue hsum => exact hmoves i _ rfl rfl (by rw [h]; exact .panic _ (by simp))

section Runs
variable {kindOf : M → K} {wire : Fin n → M → Option M} {slots : S → K → List M} {Q : (Fin n → A) → Prop}
  {costs : List ℕ} {Inv : Fin n → A → Prop} {Ask : Fin n → R → Prop} {opening : Fin n → Fin n → T} {limit : ℕ}
  {start : Fin n → A} {queue : Fin n → List R} {empty : S} {good : List B → Prop}

theorem session_speaks (hspeaks : X.Speaks good Inv Ask) (hstart : ∀ i, Inv i (start i))
    (hqueue : ∀ i, ∀ r ∈ queue i, Ask i r) {s : Session n M K (List B) S A R T}
    (h : Session.Reachable X (.init X start queue opening (fun _ => []) empty) s) : s.Speaks X good Inv Ask := by
  induction h with
  | refl => exact ⟨fun i => hspeaks.next (hstart i) (hqueue i), hqueue, fun _ f hf => absurd hf List.not_mem_nil⟩
  | tail _ hstep ih => exact ih.step hspeaks hstep

/-- In a session whose parties are in lockstep what is sent fits, if its length can be written. -/
theorem session_fitting [DecidableEq K] (L : Lawful X.endpoint kindOf wire slots) (hempty : slots empty = fun _ => [])
    (hrun : Lockstep kindOf wire Q fun i => X.program i (start i) (queue i)) (hX : X.Regular costs Inv Ask)
    (hfits : X.Fits costs opening limit) (hspeaks : X.Speaks good Inv Ask) (hgood : ∀ f, good f → f.length < φ.limit)
    (hstart : ∀ i, Inv i (start i)) (hqueue : ∀ i, ∀ r ∈ queue i, Ask i r) {s : Session n M K (List B) S A R T}
    (h : Session.Reachable X (.init X start queue opening (fun _ => []) empty) s) : Fitting X φ.limit s := by
  obtain ⟨out, inn, ledger⟩ := h.books hX hstart hqueue fun _ => rfl
  have hnet := hrun.network L hempty (Session.Reachable.whole hX hfits hstart hqueue (fun _ => rfl) h)
  have hframes := session_speaks hspeaks hstart hqueue h
  refine ⟨fun i j m pending p hph hj => ⟨ledger.sending_ne hph hj, ?_, ?_⟩, fun i j kd pending held k hph hj =>
    ledger.receiving_ne hph hj⟩
  · exact (hnet.chan_le i j).trans_lt L.capacity
  · have hi := hframes.phase i
    rw [hph] at hi
    exact hgood _ hi.1

/-- The frames whose length can be written and for which there is room. -/
def Framed (φ : Framing B) (room : ℕ) (f : List B) : Prop := φ.width + f.length ≤ room ∧ f.length < φ.limit

/-- Over streams with room for every frame, long programs that run in lockstep make a session in which nobody panics,
and which ends with a report for each request, whatever the interleaving and whatever the pieces. -/
theorem completes [DecidableEq K] (L : Lawful X.endpoint kindOf wire slots) (hempty : slots empty = fun _ => [])
    (hrun : Lockstep kindOf wire Q fun i => X.program i (start i) (queue i)) (hX : X.Regular costs Inv Ask)
    (hfits : X.Fits costs opening limit) (hwired : Wired X toll) (hspeaks : X.Speaks (Framed φ room) Inv Ask)
    (hstart : ∀ i, Inv i (start i)) (hqueue : ∀ i, ∀ r ∈ queue i, Ask i r)
    (h : Reachable X φ toll room (.init X start queue opening (fun _ => []) empty) c) :
    (∀ i, c.session.net.phase i ≠ .panicked) ∧ ∃ d, Relation.ReflTransGen (Step X φ toll room) c d ∧
      ∀ i, (d.session.reports i).length = (queue i).length := by
  have hnet : ∀ {s}, Session.Reachable X (.init X start queue opening (fun _ => []) empty) s →
      Invariant X.endpoint kindOf wire slots Q (s.whole X) := fun hs =>
    hrun.invariant L hempty (Session.Reachable.whole hX hfits hstart hqueue (fun _ => rfl) hs)
  have hfit : ∀ s, Session.Reachable X (.init X start queue opening (fun _ => []) empty) s → Fitting X φ.limit s :=
    fun s => session_fitting L hempty hrun hX hfits hspeaks (fun _ hf => hf.2) hstart hqueue
  have halive : ∀ d, Relation.ReflTransGen (Step X φ toll room) c d → ∀ i, d.session.net.phase i ≠ .panicked := by
    intro d hd i hi
    obtain ⟨chan, stat, -, hs⟩ := Reachable.stands hwired rfl hfit (h.trans hd)
    exact ((hnet hs).good L).no_panic i (Phase.bind_panicked hi)
  refine ⟨halive c .refl, ?_⟩
  have hfinish : ∀ u, Relation.ReflTransGen (Step X φ toll room) c u →
      ∃ d, Relation.ReflTransGen (Step X φ toll room) u d ∧ ∀ i, d.session.queue i = [] := by
    intro u
    induction u using (step_wellFounded X φ toll room).induction with
    | _ u ih =>
      intro hu
      obtain ⟨chan, stat, b, hs⟩ := Reachable.stands hwired rfl hfit (h.trans hu)
      rcases Session.progress ((hnet hs).good L).progress with hdone | ⟨t, ht⟩
      · exact ⟨u, .refl, hdone⟩
      · obtain ⟨v, hv⟩ := b.progress hwired (hnet hs) (hfit _ hs)
          (fun x f hf => ((session_speaks hspeaks hstart hqueue hs).chan x f hf).1) (halive u hu) ht
        obtain ⟨d, hd, hdone⟩ := ih v hv (hu.tail hv)
        exact ⟨d, hd.head hv, hdone⟩
  obtain ⟨d, hd, hdone⟩ := hfinish c .refl
  refine ⟨d, hd, fun i => ?_⟩
  obtain ⟨chan, stat, -, hs⟩ := Reachable.stands hwired rfl hfit (h.trans hd)
  have hlen := Session.Reachable.reports_length hs i
  change (d.session.reports i).length + (d.session.queue i).length = _ at hlen
  rwa [hdone i, List.length_nil, Nat.add_zero] at hlen

end Runs
end Streamed
end PrivRecCert.Rounds
