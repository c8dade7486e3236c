import PrivRecCert.Rounds.SessionRuns

/-! Programs over metered connections that nobody reads off. What a party has counted is what it has sent and taken, so
as long as nobody has broadcast too much, the counters make no difference. -/
namespace PrivRecCert.Rounds
open Function

variable {n : ℕ} {M K F S A R T : Type}

/-- All that the program broadcasts has the size `b`, whatever it receives. -/
inductive Proc.Costs (size : M → ℕ) : ℕ → Proc M K A → Prop
  | ret (a) : Costs size 0 (.ret a)
  | fail (b) : Costs size b .fail
  | send (m) {b p} (h : Costs size b p) : Costs size (size m + b) (.send m p)
  | recv (kd) {b k} (h : ∀ l, Costs size b (k l)) : Costs size b (.recv kd k)

/-- All that a party still broadcasts, after the broadcast that it is in. -/
def Phase.Costs (size : M → ℕ) (b : ℕ) : Phase n M K F A → Prop
  | .ready p => p.Costs size b
  | .sending _ _ p => p.Costs size b
  | .receiving _ _ _ k => ∀ l, (k l).Costs size b
  | .panicked => True

/-- The part of a broadcast that is not yet sent to `j`. Of a party that has panicked nothing is known. -/
def Phase.Owes (size : M → ℕ) (j : Fin n) (d : ℕ) : Phase n M K F A → Prop
  | .sending m pending _ => d = if j ∈ pending then size m else 0
  | .panicked => True
  | _ => d = 0

/-- A party that sends or receives has each of its peers ahead of it at most once, and never itself. -/
def Phase.Apart (i : Fin n) : Phase n M K F A → Prop
  | .sending _ pending _ => pending.Nodup ∧ i ∉ pending
  | .receiving _ pending _ _ => pending.Nodup ∧ i ∉ pending
  | _ => True

theorem Proc.Costs.of_send {size : M → ℕ} {b : ℕ} {m : M} {p : Proc M K A} (h : Proc.Costs size b (.send m p)) :
    ∃ b', p.Costs size b' ∧ b' + size m = b := by
  cases h with
  | @send _ b' _ h => exact ⟨b', h, Nat.add_comm _ _⟩

theorem Proc.Costs.of_recv {size : M → ℕ} {b : ℕ} {kd : K} {k : List M → Proc M K A} (h : Proc.Costs size b (.recv kd k)) :
    ∀ l, (k l).Costs size b := by
  cases h with
  | recv _ h => exact h

theorem Proc.Costs.of_ret {size : M → ℕ} {b : ℕ} {a : A} (h : Proc.Costs size b (.ret a : Proc M K A)) : b = 0 := by
  cases h with
  | ret _ => rfl

/-- What a step does to the party `i` that takes it, which then broadcasts `new`. -/
structure Moved (size : M → ℕ) (i : Fin n) (new : List M) (ph ph' : Phase n M K F A) : Prop where
  apart : ph.Apart i → ph'.Apart i
  costs : ∀ b, ph.Costs size b → ∃ b', ph'.Costs size b' ∧ b' + (new.map size).sum = b

/-- No new broadcast. -/
theorem Moved.quiet {size : M → ℕ} {i : Fin n} {ph ph' : Phase n M K F A} (hapart : ph.Apart i → ph'.Apart i)
    (hcosts : ∀ b, ph.Costs size b → ph'.Costs size b) : Moved size i [] ph ph' :=
  ⟨hapart, fun b hb => ⟨b, hcosts b hb, rfl⟩⟩

/-- A step of a network moves one party, which broadcasts one message or none. If it moves no frame, a new broadcast is
due to everybody. -/
theorem Step.moved {E : Endpoint n M K F S} {s s' : Net n M K F S A} (h : Step E s s') (size : Fin n → M → ℕ) :
    ∃ i ph new, s'.phase = update s.phase i ph ∧ s'.sent = update s.sent i (s.sent i ++ new) ∧
      Moved (size i) i new (s.phase i) ph ∧ (s'.chan = s.chan → ∀ j, i ≠ j → ∀ d, (s.phase i).Owes (size i) j d →
        ph.Owes (size i) j (d + (new.map (size i)).sum)) := by
  have hsame : ∀ i, s.sent = update s.sent i (s.sent i ++ []) := fun i => by rw [List.append_nil, update_eq_self]
  cases h with
  | begin i m p h =>
    refine ⟨i, _, [m], rfl, rfl, ⟨fun _ => ⟨peers_nodup i, fun hi => mem_peers.mp hi rfl⟩, fun b hb => ?_⟩,
      fun _ j hij d hd => ?_⟩
    · rw [h] at hb
      exact hb.of_send
    · rw [h] at hd
      obtain rfl : d = 0 := hd
      exact (Nat.zero_add _).trans (if_pos (mem_peers.mpr hij.symm)).symm
  | push i j m pending p h hj hcap =>
    refine ⟨i, _, [], rfl, hsame i, .quiet (fun ha => ?_) fun b hb => ?_, fun hchan => ?_⟩
    · rw [h] at ha
      exact ⟨ha.1.erase j, fun hi => ha.2 (List.mem_of_mem_erase hi)⟩
    · rwa [h] at hb
    · have hlen := congrArg List.length (congrFun hchan (E.sender i j))
      change (update s.chan (E.sender i j) _ (E.sender i j)).length = _ at hlen
      rw [update_self, List.length_append, List.length_singleton] at hlen
      omega
  | finish i m p h =>
    refine ⟨i, _, [], rfl, hsame i, .quiet (fun _ => trivial) fun b hb => ?_, fun _ j hij d hd => ?_⟩
    · rwa [h] at hb
    · rw [h] at hd
      exact hd.trans (if_neg List.not_mem_nil)
  | listen i kd k h =>
    refine ⟨i, _, [], rfl, hsame i, .quiet (fun _ => ⟨peers_nodup i, fun hi => mem_peers.mp hi rfl⟩) fun b hb => ?_,
      fun _ j hij d hd => ?_⟩
    · rw [h] at hb
      exact hb.of_recv
    · rwa [h] at hd
  | pop i j kd pending held k f rest h hj hf =>
    refine ⟨i, _, [], rfl, hsame i, .quiet (fun ha => ?_) fun b hb => ?_, fun _ j hij d hd => ?_⟩
    · rw [h] at ha
      exact ⟨ha.1.erase j, fun hi => ha.2 (List.mem_of_mem_erase hi)⟩
    · rwa [h] at hb
    · rwa [h] at hd
  | handle i kd pending before f after k st h ha =>
    refine ⟨i, _, [], rfl, hsame i, .quiet (fun ha => ?_) fun b hb => ?_, fun _ j hij d hd => ?_⟩
    · rwa [h] at ha
    · rwa [h] at hb
    · rwa [h] at hd
  | deliver i kd k l st h hc =>
    refine ⟨i, _, [], rfl, hsame i, .quiet (fun _ => trivial) fun b hb => ?_, fun _ j hij d hd => ?_⟩
    · rw [h] at hb
      exact hb l
    · rwa [h] at hd
  | reject i kd pending before f after k h ha =>
    exact ⟨i, _, [], rfl, hsame i, .quiet (fun _ => trivial) fun _ _ => trivial, fun _ _ _ _ _ => trivial⟩
  | missing i kd k h hc =>
    exact ⟨i, _, [], rfl, hsame i, .quiet (fun _ => trivial) fun _ _ => trivial, fun _ _ _ _ _ => trivial⟩
  | crash i h =>
    exact ⟨i, _, [], rfl, hsame i, .quiet (fun _ => trivial) fun _ _ => trivial, fun _ _ _ _ _ => trivial⟩

/-- The counters count, and channel `(i, j)` leads from `i` to `j`. -/
structure Metered.Wired (X : Metered n M K F S A R T) : Prop where
  tally : X.tally.Lawful
  sender : ∀ i j, i ≠ j → X.endpoint.sender i j = (i, j)
  receiver : ∀ i j, i ≠ j → X.endpoint.receiver i j = (j, i)

/-- What a message costs on a connection. -/
def Metered.size (X : Metered n M K F S A R T) (i : Fin n) (m : M) : ℕ := X.cost (X.endpoint.encode i m)

/-- The sizes of all that a party has broadcast. -/
def Net.broadcast (size : Fin n → M → ℕ) (s : Net n M K F S A) (i : Fin n) : ℕ := ((s.sent i).map (size i)).sum

section Plain
variable {E : Endpoint n M K F S} {s s' : Net n M K F S A} {size : Fin n → M → ℕ}

/-- What was broadcast remains broadcast. -/
theorem Step.broadcast_le (h : Step E s s') (i : Fin n) : s.broadcast size i ≤ s'.broadcast size i := by
  obtain ⟨k, ph, new, -, hsent, -, -⟩ := h.moved size
  rw [Net.broadcast, Net.broadcast, hsent]
  by_cases hk : i = k
  · subst hk
    rw [update_self, List.map_append, List.sum_append]
    exact Nat.le_add_right _ _
  · rw [update_of_ne hk]

/-- What was broadcast and what is still to be broadcast are `b` together. -/
def Net.Costs (size : Fin n → M → ℕ) (s : Net n M K F S A) (i : Fin n) (b : ℕ) : Prop :=
  ∃ left, (s.phase i).Costs (size i) left ∧ left + s.broadcast size i = b

theorem Step.costs (h : Step E s s') {i : Fin n} {b : ℕ} (hb : s.Costs size i b) : s'.Costs size i b := by
  obtain ⟨left, hleft, hsum⟩ := hb
  obtain ⟨k, ph, new, hphase, hsent, hmoved, -⟩ := h.moved size
  rw [Net.Costs, hphase, Net.broadcast, hsent]
  by_cases hk : i = k
  · subst hk
    obtain ⟨left', hleft', hsum'⟩ := hmoved.costs left hleft
    rw [update_self, update_self, List.map_append, List.sum_append]
    refine ⟨left', hleft', ?_⟩
    rw [← hsum, ← hsum', Net.broadcast]
    omega
  · rw [update_of_ne hk, update_of_ne hk]
    exact ⟨left, hleft, hsum⟩

theorem Reachable.costs {procs : Fin n → Proc M K A} {empty : S} (h : Reachable E procs empty s) {i : Fin n} {b : ℕ}
    (hb : (procs i).Costs (size i) b) : s.Costs size i b := by
  induction h with
  | refl => exact ⟨b, hb, rfl⟩
  | tail _ hstep ih => exact hstep.costs ih

end Plain

namespace Session

/-- Parties at the start of their programs. -/
def begin (procs : Fin n → Proc M K A) (stat : Fin n → Fin n → T) (empty : S) : Session n M K F S A R T where
  net := Net.init procs empty
  queue _ := []
  stat := stat
  reports _ := []

variable {X : Metered n M K F S A R T} {s t : Session n M K F S A R T} {limit : ℕ}

/-- The counters show what was sent and what was taken. -/
structure Counted (X : Metered n M K F S A R T) (s : Session n M K F S A R T) : Prop where
  queue : ∀ i, s.queue i = []
  apart : ∀ i, (s.net.phase i).Apart i
  sent : ∀ i j, i ≠ j → ∃ d, (s.net.phase i).Owes (X.size i) j d ∧
    X.tally.sent (s.stat i j) + d = s.net.broadcast X.size i
  received : ∀ i j, i ≠ j →
    X.tally.received (s.stat j i) + ((s.net.chan (i, j)).map X.cost).sum = X.tally.sent (s.stat i j)

/-- A step of parties that have nothing to report is one of their network, or a counter overflows. -/
theorem Step.plain (h : Step X s t) (hqueue : ∀ i, s.queue i = []) :
    Rounds.Step X.endpoint s.net t.net ∨
      ∃ i, t = { s with net := { s.net with phase := update s.net.phase i .panicked } } ∧
        ((∃ j m pending p, s.net.phase i = .sending m pending p ∧ j ∈ pending ∧
          X.tally.addSent (s.stat i j) (X.cost (X.endpoint.encode i m)) = none) ∨
        ∃ j kd pending held k f rest, s.net.phase i = .receiving kd pending held k ∧ j ∈ pending ∧
          s.net.chan (X.endpoint.receiver i j) = f :: rest ∧ X.tally.addReceived (s.stat i j) (X.cost f) = none) := by
  cases h with
  | inner net h hchan => exact .inl h
  | push i j m pending p stat h hj hcap hstat => exact .inl (.push i j m pending p h hj hcap)
  | pop i j kd pending held k f rest stat h hj hf hstat => exact .inl (.pop i j kd pending held k f rest h hj hf)
  | report i a r rest sum h hr =>
    rw [hqueue i] at hr
    cases hr
  | pushOverflow i j m pending p h hj hstat => exact .inr ⟨i, rfl, .inl ⟨j, m, pending, p, h, hj, hstat⟩⟩
  | popOverflow i j kd pending held k f rest h hj hf hstat =>
    exact .inr ⟨i, rfl, .inr ⟨j, kd, pending, held, k, f, rest, h, hj, hf, hstat⟩⟩
  | sumOverflow i a r rest h hr =>
    rw [hqueue i] at hr
    cases hr

/-- A step of party `i` leaves what the others have sent as it is. -/
theorem Counted.move (C : Counted X s) {i : Fin n} {ph : Phase n M K F A}
    (hphase : t.net.phase = update s.net.phase i ph) (hqueue : t.queue = s.queue)
    (hother : ∀ k, k ≠ i → t.net.sent k = s.net.sent k ∧ t.stat k = s.stat k)
    (hapart : (s.net.phase i).Apart i → ph.Apart i)
    (hsent : ∀ j, i ≠ j → ∃ d, ph.Owes (X.size i) j d ∧ X.tally.sent (t.stat i j) + d = t.net.broadcast X.size i)
    (hreceived : ∀ a b, a ≠ b →
      X.tally.received (t.stat b a) + ((t.net.chan (a, b)).map X.cost).sum = X.tally.sent (t.stat a b)) :
    Counted X t where
  queue := by rw [hqueue]; exact C.queue
  apart k := by
    rw [hphase]
    by_cases hk : k = i
    · subst hk
      rw [update_self]
      exact hapart (C.apart k)
    · rw [update_of_ne hk]
      exact C.apart k
  sent k j hkj := by
    rw [hphase]
    by_cases hk : k = i
    · subst hk
      rw [update_self]
      exact hsent j hkj
    · rw [update_of_ne hk, Net.broadcast, (hother k hk).1, (hother k hk).2]
      exact C.sent k j hkj
  received := hreceived

theorem Counted.panic (C : Counted X s) (i : Fin n) :
    Counted X { s with net := { s.net with phase := update s.net.phase i .panicked } } :=
  C.move rfl rfl (fun _ _ => ⟨rfl, rfl⟩) (fun _ => trivial) (fun j hij => by
    obtain ⟨d, -, hsum⟩ := C.sent i j hij
    exact ⟨d, trivial, hsum⟩) C.received

theorem Counted.sending (C : Counted X s) {i j : Fin n} {m : M} {pending : List (Fin n)} {p : Proc M K A}
    (h : s.net.phase i = .sending m pending p) (hj : j ∈ pending) : i ≠ j ∧ pending.Nodup ∧
      X.tally.sent (s.stat i j) + X.size i m = s.net.broadcast X.size i := by
  have hapart := C.apart i
  rw [h] at hapart
  have hij : i ≠ j := fun he => hapart.2 (he ▸ hj)
  obtain ⟨d, hd, hsum⟩ := C.sent i j hij
  rw [h] at hd
  obtain rfl : d = X.size i m := hd.trans (if_pos hj)
  exact ⟨hij, hapart.1, hsum⟩

theorem Counted.receiving (C : Counted X s) {i j : Fin n} {kd : K} {pending : List (Fin n)} {held : List F}
    {k : List M → Proc M K A} (h : s.net.phase i = .receiving kd pending held k) (hj : j ∈ pending) : i ≠ j := by
  have hapart := C.apart i
  rw [h] at hapart
  exact fun he => hapart.2 (he ▸ hj)

/-- What a new counter of party `i` for `j` makes of the counts. -/
theorem count_update (count : T → ℕ) (stat : Fin n → Fin n → T) {i j : Fin n} {u : T} {c : ℕ}
    (h : count u = count (stat i j) + c) (a b : Fin n) :
    count (update stat i (update (stat i) j u) a b) = count (stat a b) + if (a, b) = (i, j) then c else 0 := by
  by_cases hedge : (a, b) = (i, j)
  · obtain ⟨rfl, rfl⟩ := Prod.mk.inj hedge
    rw [update_self, update_self, h, if_pos rfl]
  · rw [if_neg hedge, Nat.add_zero]
    by_cases ha : a = i
    · subst ha
      rw [update_self, update_of_ne fun hb => hedge (by rw [hb])]
    · rw [update_of_ne ha]

/-- No step makes the counters wrong. -/
theorem Counted.step (W : X.Wired) (C : Counted X s) (h : Step X s t) : Counted X t := by
  cases h with
  | inner net h hchan =>
    obtain ⟨i, ph, new, hphase, hsent, hmoved, hdue⟩ := h.moved X.size
    refine C.move hphase rfl (fun k hk => ⟨?_, rfl⟩) hmoved.apart (fun j hij => ?_) fun a b hab => ?_
    · change net.sent k = _
      rw [hsent, update_of_ne hk]
    · obtain ⟨d, hd, hsum⟩ := C.sent i j hij
      refine ⟨_, hdue hchan j hij d hd, ?_⟩
      change _ = ((net.sent i).map _).sum
      rw [hsent, update_self, List.map_append, List.sum_append, ← Nat.add_assoc]
      exact congrArg (· + _) hsum
    · change _ + ((net.chan (a, b)).map X.cost).sum = _
      rw [hchan]
      exact C.received a b hab
  | push i j m pending p stat h hj hcap hstat =>
    obtain ⟨hij, hnd, hsum⟩ := C.sending h hj
    obtain ⟨hsent, hreceived⟩ := W.tally.addSent _ _ _ hstat
    have hout : ∀ l, X.tally.sent (update s.stat i (update (s.stat i) j stat) i l) = _ :=
      count_update X.tally.sent s.stat hsent i
    refine C.move rfl rfl (fun k hk => ⟨rfl, update_of_ne hk _ _⟩) (fun hapart => ?_) (fun l hil => ?_)
      fun a b hab => ?_
    · rw [h] at hapart
      exact ⟨hapart.1.erase j, fun hi => hapart.2 (List.mem_of_mem_erase hi)⟩
    · change ∃ d, _ ∧ X.tally.sent (update s.stat i (update (s.stat i) j stat) i l) + d = s.net.broadcast X.size i
      rw [hout]
      by_cases hlj : l = j
      · subst hlj
        exact ⟨0, (if_neg hnd.not_mem_erase).symm, by rw [if_pos rfl, Nat.add_zero]; exact hsum⟩
      · obtain ⟨d, hd, hsum'⟩ := C.sent i l hil
        rw [h] at hd
        refine ⟨d, hd.trans ?_, ?_⟩
        · simp only [List.mem_erase_of_ne hlj]
        · rwa [if_neg fun he => hlj (Prod.mk.inj he).2, Nat.add_zero]
    · change X.tally.received (update s.stat i (update (s.stat i) j stat) b a) +
        ((update s.net.chan (X.endpoint.sender i j) _ (a, b)).map X.cost).sum =
        X.tally.sent (update s.stat i (update (s.stat i) j stat) a b)
      rw [count_update X.tally.received s.stat (hreceived.trans (Nat.add_zero _).symm), ite_self, Nat.add_zero,
        count_update X.tally.sent s.stat hsent, W.sender i j hij, ← C.received a b hab, Nat.add_assoc]
      refine congrArg (X.tally.received (s.stat b a) + ·) ?_
      by_cases hedge : (a, b) = (i, j)
      · rw [hedge, update_self, if_pos rfl, List.map_append, List.sum_append, List.map_singleton, List.sum_singleton]
      · rw [update_of_ne hedge, if_neg hedge, Nat.add_zero]
  | pop i j kd pending held k f rest stat h hj hf hstat =>
    have hij := C.receiving h hj
    obtain ⟨hsent, hreceived⟩ := W.tally.addReceived _ _ _ hstat
    have hsame : ∀ a b, X.tally.sent (update s.stat i (update (s.stat i) j stat) a b) = X.tally.sent (s.stat a b) :=
      fun a b => by rw [count_update X.tally.sent s.stat (hsent.trans (Nat.add_zero _).symm), ite_self, Nat.add_zero]
    rw [W.receiver i j hij] at hf
    refine C.move rfl rfl (fun l hl => ⟨rfl, update_of_ne hl _ _⟩) (fun hapart => ?_) (fun l hil => ?_)
      fun a b hab => ?_
    · rw [h] at hapart
      exact ⟨hapart.1.erase j, fun hi => hapart.2 (List.mem_of_mem_erase hi)⟩
    · obtain ⟨d, hd, hsum⟩ := C.sent i l hil
      rw [h] at hd
      exact ⟨d, hd, (congrArg (· + d) (hsame i l)).trans hsum⟩
    · refine (Eq.trans ?_ (C.received a b hab)).trans (hsame a b).symm
      change X.tally.received (update s.stat i (update (s.stat i) j stat) b a) +
        ((update s.net.chan (X.endpoint.receiver i j) rest (a, b)).map X.cost).sum = _
      rw [count_update X.tally.received s.stat hreceived, W.receiver i j hij, Nat.add_assoc]
      refine congrArg (X.tally.received (s.stat b a) + ·) ?_
      by_cases hedge : (a, b) = (j, i)
      · obtain ⟨rfl, rfl⟩ := Prod.mk.inj hedge
        rw [update_self, if_pos rfl, hf, List.map_cons, List.sum_cons]
      · have hedge' : (b, a) ≠ (i, j) := fun he => hedge (by rw [(Prod.mk.inj he).1, (Prod.mk.inj he).2])
        rw [update_of_ne hedge, if_neg hedge', Nat.zero_add]
  | report i a r rest sum h hqueue hsum =>
    rw [C.queue i] at hqueue
    cases hqueue
  | pushOverflow i j m pending p h hj hstat =>
    exact C.panic i
  | popOverflow i j kd pending held k f rest h hj hf hstat =>
    exact C.panic i
  | sumOverflow i a r rest h hqueue hsum =>
    rw [C.queue i] at hqueue
    cases hqueue

variable {procs : Fin n → Proc M K A} {stat : Fin n → Fin n → T} {empty : S}

/-- Counters that begin with zero are right in every run. -/
theorem Reachable.counted (W : X.Wired)
    (hstat : ∀ i j, i ≠ j → X.tally.sent (stat i j) = 0 ∧ X.tally.received (stat i j) = 0)
    (h : Reachable X (.begin procs stat empty) s) : Counted X s := by
  induction h with
  | refl =>
    refine ⟨fun _ => rfl, fun _ => trivial, fun i j hij => ⟨0, rfl, (hstat i j hij).1⟩, fun i j hij => ?_⟩
    change X.tally.received (stat j i) + 0 = X.tally.sent (stat i j)
    rw [(hstat j i hij.symm).2, (hstat i j hij).1]
  | tail _ hstep ih => exact ih.step W hstep

/-- As long as nobody has broadcast too much, no counter overflows. -/
theorem Counted.addSent (C : Counted X s) (hlimit : X.tally.Holds limit) (hs : ∀ i, s.net.broadcast X.size i < limit)
    {i j : Fin n} {m : M} {pending : List (Fin n)} {p : Proc M K A} (h : s.net.phase i = .sending m pending p)
    (hj : j ∈ pending) : ∃ u, X.tally.addSent (s.stat i j) (X.cost (X.endpoint.encode i m)) = some u :=
  hlimit.addSent _ _ ((C.sending h hj).2.2.trans_lt (hs i))

theorem Counted.addReceived (W : X.Wired) (C : Counted X s) (hlimit : X.tally.Holds limit)
    (hs : ∀ i, s.net.broadcast X.size i < limit) {i j : Fin n} {kd : K} {pending : List (Fin n)} {held : List F}
    {k : List M → Proc M K A} {f : F} {rest : List F} (h : s.net.phase i = .receiving kd pending held k)
    (hj : j ∈ pending) (hf : s.net.chan (X.endpoint.receiver i j) = f :: rest) :
    ∃ u, X.tally.addReceived (s.stat i j) (X.cost f) = some u := by
  have hij := C.receiving h hj
  obtain ⟨d, -, hsum⟩ := C.sent j i hij.symm
  have htaken := C.received j i hij.symm
  rw [W.receiver i j hij] at hf
  rw [hf, List.map_cons, List.sum_cons] at htaken
  have hlt := hs j
  exact hlimit.addReceived _ _ (by omega)

/-- So the counters make no difference: the steps are those of the network. -/
theorem Counted.network (W : X.Wired) (C : Counted X s) (hlimit : X.tally.Holds limit)
    (hs : ∀ i, s.net.broadcast X.size i < limit) (h : Step X s t) : Rounds.Step X.endpoint s.net t.net := by
  rcases h.plain C.queue with hnet | ⟨i, -, ⟨j, m, pending, p, hph, hj, hnone⟩ |
      ⟨j, kd, pending, held, k, f, rest, hph, hj, hf, hnone⟩⟩
  · exact hnet
  · obtain ⟨u, hu⟩ := C.addSent hlimit hs hph hj
    rw [hnone] at hu
    cases hu
  · obtain ⟨u, hu⟩ := C.addReceived W hlimit hs hph hj hf
    rw [hnone] at hu
    cases hu

theorem Counted.of_network (W : X.Wired) (C : Counted X s) (hlimit : X.tally.Holds limit)
    (hs : ∀ i, s.net.broadcast X.size i < limit) {net : Net n M K F S A} (h : Rounds.Step X.endpoint s.net net) :
    ∃ t, Step X s t ∧ t.net = net := by
  cases h with
  | begin i m p h => exact ⟨_, .inner _ (.begin i m p h) rfl, rfl⟩
  | push i j m pending p h hj hcap =>
    obtain ⟨u, hu⟩ := C.addSent hlimit hs h hj
    exact ⟨_, .push i j m pending p u h hj hcap hu, rfl⟩
  | finish i m p h => exact ⟨_, .inner _ (.finish i m p h) rfl, rfl⟩
  | listen i kd k h => exact ⟨_, .inner _ (.listen i kd k h) rfl, rfl⟩
  | pop i j kd pending held k f rest h hj hf =>
    obtain ⟨u, hu⟩ := C.addReceived W hlimit hs h hj hf
    exact ⟨_, .pop i j kd pending held k f rest u h hj hf hu, rfl⟩
  | handle i kd pending before f after k st h ha =>
    exact ⟨_, .inner _ (.handle i kd pending before f after k st h ha) rfl, rfl⟩
  | reject i kd pending before f after k h ha =>
    exact ⟨_, .inner _ (.reject i kd pending before f after k h ha) rfl, rfl⟩
  | deliver i kd k l st h hc => exact ⟨_, .inner _ (.deliver i kd k l st h hc) rfl, rfl⟩
  | missing i kd k h hc => exact ⟨_, .inner _ (.missing i kd k h hc) rfl, rfl⟩
  | crash i h => exact ⟨_, .inner _ (.crash i h) rfl, rfl⟩

theorem Counted.broadcast_le (C : Counted X s) (h : Step X s t) (i : Fin n) :
    s.net.broadcast X.size i ≤ t.net.broadcast X.size i := by
  rcases h.plain C.queue with hnet | ⟨_, rfl, -⟩
  · exact hnet.broadcast_le i
  · exact le_rfl

/-- A run in which nobody has broadcast too much is one of the network without counters. -/
theorem Reachable.network (W : X.Wired)
    (hstat : ∀ i j, i ≠ j → X.tally.sent (stat i j) = 0 ∧ X.tally.received (stat i j) = 0)
    (hlimit : X.tally.Holds limit) (h : Reachable X (.begin procs stat empty) s)
    (hs : ∀ i, s.net.broadcast X.size i < limit) : Rounds.Reachable X.endpoint procs empty s.net := by
  induction h with
  | refl => exact .refl
  | tail hrun hstep ih =>
    have C := Reachable.counted W hstat hrun
    have hbefore := fun i => (C.broadcast_le hstep i).trans_lt (hs i)
    exact (ih hbefore).tail (C.network W hlimit hbefore hstep)

/-- And a run of the network in which nobody has broadcast too much is one with counters. -/
theorem Reachable.of_network (W : X.Wired)
    (hstat : ∀ i j, i ≠ j → X.tally.sent (stat i j) = 0 ∧ X.tally.received (stat i j) = 0)
    (hlimit : X.tally.Holds limit) {net : Net n M K F S A} (h : Rounds.Reachable X.endpoint procs empty net)
    (hs : ∀ i, net.broadcast X.size i < limit) : ∃ s, Reachable X (.begin procs stat empty) s ∧ s.net = net := by
  induction h with
  | refl => exact ⟨_, .refl, rfl⟩
  | tail _ hstep ih =>
    have hbefore := fun i => (hstep.broadcast_le i).trans_lt (hs i)
    obtain ⟨s, hrun, rfl⟩ := ih hbefore
    obtain ⟨t, ht, rfl⟩ := (Reachable.counted W hstat hrun).of_network W hlimit hbefore hstep
    exact ⟨t, hrun.tail ht, rfl⟩

theorem Reachable.costs (W : X.Wired)
    (hstat : ∀ i j, i ≠ j → X.tally.sent (stat i j) = 0 ∧ X.tally.received (stat i j) = 0)
    (h : Reachable X (.begin procs stat empty) s) {i : Fin n} {b : ℕ} (hb : (procs i).Costs (X.size i) b) :
    s.net.Costs X.size i b := by
  induction h with
  | refl => exact ⟨b, hb, rfl⟩
  | @tail u _ hrun hstep ih =>
    rcases hstep.plain (Reachable.counted W hstat hrun).queue with hnet | ⟨k, rfl, -⟩
    · exact hnet.costs ih
    · obtain ⟨left, hleft, hsum⟩ := ih
      refine ⟨left, ?_, hsum⟩
      change (update u.net.phase k .panicked i).Costs _ left
      by_cases hk : i = k
      · subst hk
        rw [update_self]
        trivial
      · rwa [update_of_ne hk]

/-- No counter of bytes sent ever reaches the limit. -/
theorem Reachable.sent_lt (W : X.Wired)
    (hbelow : ∀ t b u, X.tally.addSent t b = some u → X.tally.sent u < limit)
    (hstart : ∀ i j, X.tally.sent (stat i j) < limit) (h : Reachable X (.begin procs stat empty) s) :
    ∀ i j, X.tally.sent (s.stat i j) < limit := by
  induction h with
  | refl => exact hstart
  | @tail s t _ hstep ih =>
    have hnew : ∀ i j u, X.tally.sent u < limit → ∀ a b,
        X.tally.sent (update s.stat i (update (s.stat i) j u) a b) < limit := by
      intro i j u hu a b
      by_cases ha : a = i
      · subst ha
        by_cases hb : b = j
        · subst hb
          rwa [update_self, update_self]
        · rw [update_self, update_of_ne hb]
          exact ih a b
      · rw [update_of_ne ha]
        exact ih a b
    cases hstep with
    | push i j m pending p u h hj hcap hu => exact hnew i j u (hbelow _ _ _ hu)
    | pop i j kd pending held k f rest u h hj hf hu => exact hnew i j u ((W.tally.addReceived _ _ _ hu).1 ▸ ih i j)
    | report i a r rest sum h hqueue hsum =>
      intro k l
      by_cases hk : k = i
      · subst hk
        change X.tally.sent (update s.stat k _ k l) < limit
        rw [update_self, W.tally.zero.1]
        exact Nat.zero_lt_of_lt (ih k l)
      · change X.tally.sent (update s.stat i _ k l) < limit
        rw [update_of_ne hk]
        exact ih k l
    | inner | pushOverflow | popOverflow | sumOverflow => exact ih

/-- Programs that never get stuck without counters, of which one broadcasts too much: in some run somebody panics. -/
theorem overflows (W : X.Wired)
    (hstat : ∀ i j, i ≠ j → X.tally.sent (stat i j) = 0 ∧ X.tally.received (stat i j) = 0)
    (hbelow : ∀ t b u, X.tally.addSent t b = some u → X.tally.sent u < limit)
    (hstart : ∀ i j, X.tally.sent (stat i j) < limit)
    (hlive : ∀ net, Rounds.Reachable X.endpoint procs empty net →
      (∃ b : Fin n → A, ∀ i, net.phase i = .ready (.ret (b i))) ∨ ∃ net', Rounds.Step X.endpoint net net')
    {i j : Fin n} (hij : i ≠ j) {b : ℕ} (hb : (procs i).Costs (X.size i) b)
    (hover : limit ≤ b) : ∃ s, Reachable X (.begin procs stat empty) s ∧ ∃ k, s.net.phase k = .panicked := by
  by_contra hnone
  push Not at hnone
  have hnet : ∀ s, Reachable X (.begin procs stat empty) s → Rounds.Reachable X.endpoint procs empty s.net := by
    intro s hs
    induction hs with
    | refl => exact .refl
    | tail hrun hstep ih =>
      rcases hstep.plain (Reachable.counted W hstat hrun).queue with hnext | ⟨k, rfl, -⟩
      · exact ih.tail hnext
      · exact absurd (update_self _ _ _) (hnone _ (hrun.tail hstep) k)
  have hends : ∀ s, Reachable X (.begin procs stat empty) s → ∃ t, Reachable X (.begin procs stat empty) t ∧
      ∃ b : Fin n → A, ∀ i, t.net.phase i = .ready (.ret (b i)) := by
    intro s
    induction s using (step_wellFounded X).induction with
    | _ s ih =>
      intro hs
      rcases hlive _ (hnet s hs) with hdone | ⟨net', hnext⟩
      · exact ⟨s, hs, hdone⟩
      · obtain ⟨t, ht⟩ := Step.of_net hnext
        exact ih t ht (hs.tail ht)
  obtain ⟨t, ht, result, hresult⟩ := hends _ .refl
  obtain ⟨left, hleft, hsum⟩ := Reachable.costs W hstat ht hb
  obtain ⟨d, hd, hsent⟩ := (Reachable.counted W hstat ht).sent i j hij
  rw [hresult i] at hleft hd
  obtain rfl : d = 0 := hd
  have hzero := Proc.Costs.of_ret hleft
  have hlt := Reachable.sent_lt W hbelow hstart ht i j
  omega

end Session
end PrivRecCert.Rounds
