import PrivRecCert.Rounds.Ledger
import PrivRecCert.Rounds.NetworkSound
import Mathlib.Algebra.BigOperators.Fin
import Mathlib.Algebra.Order.BigOperators.Group.Finset
import Mathlib.Algebra.Order.BigOperators.Group.List

/-! A metered session is a run of one long program for each party, cut where it reports. So what is known about
the long programs carries over: as long as no counter overflows, nobody panics, and the session ends with a report
for each request. -/
namespace PrivRecCert.Rounds
open Function
open scoped BigOperators

variable {n : ℕ} {M K F S A B R T : Type}

/-- The programs go on with `f` when they have finished. -/
def Phase.bind (f : A → Proc M K B) : Phase n M K F A → Phase n M K F B
  | .ready p => .ready (p >>= f)
  | .sending m pending p => .sending m pending (p >>= f)
  | .receiving kd pending held k => .receiving kd pending held fun l => k l >>= f
  | .panicked => .panicked

def Net.bind (s : Net n M K F S A) (f : Fin n → A → Proc M K B) : Net n M K F S B :=
  ⟨fun i => (s.phase i).bind (f i), s.store, s.chan, s.sent, s.got⟩

section Bind
variable {E : Endpoint n M K F S} {s s' : Net n M K F S A} {f : Fin n → A → Proc M K B}

theorem Net.bind_phase {i : Fin n} {ph : Phase n M K F A} (h : s.phase i = ph) : (s.bind f).phase i = ph.bind (f i) := by
  rw [← h]
  rfl

theorem Net.bind_update (phase : Fin n → Phase n M K F A) (i : Fin n) (ph : Phase n M K F A) (store : Fin n → S)
    (chan : Fin n × Fin n → List F) (sent : Fin n → List M) (got : Fin n → List (List M)) (f : Fin n → A → Proc M K B) :
    Net.bind ⟨update phase i ph, store, chan, sent, got⟩ f =
      ⟨update (fun k => (phase k).bind (f k)) i (ph.bind (f i)), store, chan, sent, got⟩ := by
  rw [Net.bind]
  congr 1
  funext k
  change (update phase i ph k).bind (f k) = _
  by_cases hk : k = i
  · subst hk
    rw [update_self, update_self]
  · rw [update_of_ne hk, update_of_ne hk]

/-- A step is one of the longer programs, too. -/
theorem Step.bind (h : Step E s s') (f : Fin n → A → Proc M K B) : Step E (s.bind f) (s'.bind f) := by
  cases h with
  | begin i m p h =>
    rw [Net.bind_update]
    exact .begin i m (p >>= f i) (Net.bind_phase h)
  | push i j m pending p h hj hcap =>
    rw [Net.bind_update]
    exact .push i j m pending (p >>= f i) (Net.bind_phase h) hj hcap
  | finish i m p h =>
    rw [Net.bind_update]
    exact .finish i m (p >>= f i) (Net.bind_phase h)
  | listen i kd k h =>
    rw [Net.bind_update]
    exact .listen i kd (fun l => k l >>= f i) (Net.bind_phase h)
  | pop i j kd pending held k x rest h hj hx =>
    rw [Net.bind_update]
    exact .pop i j kd pending held (fun l => k l >>= f i) x rest (Net.bind_phase h) hj hx
  | handle i kd pending before x after k st h ha =>
    rw [Net.bind_update]
    exact .handle i kd pending before x after (fun l => k l >>= f i) st (Net.bind_phase h) ha
  | reject i kd pending before x after k h ha =>
    rw [Net.bind_update]
    exact .reject i kd pending before x after (fun l => k l >>= f i) (Net.bind_phase h) ha
  | deliver i kd k l st h hc =>
    rw [Net.bind_update]
    exact .deliver i kd (fun l => k l >>= f i) l st (Net.bind_phase h) hc
  | missing i kd k h hc =>
    rw [Net.bind_update]
    exact .missing i kd (fun l => k l >>= f i) (Net.bind_phase h) hc
  | crash i h =>
    rw [Net.bind_update]
    exact .crash i (Net.bind_phase h)

theorem Phase.bind_ready {ph : Phase n M K F A} {g : A → Proc M K B} {r : Proc M K B} (h : ph.bind g = .ready r) :
    ∃ p, ph = .ready p ∧ (p >>= g) = r := by
  cases ph with
  | ready p => exact ⟨p, rfl, Phase.ready.inj h⟩
  | sending m pending p => cases h
  | receiving kd pending held k => cases h
  | panicked => cases h

theorem Phase.bind_sending {ph : Phase n M K F A} {g : A → Proc M K B} {m : M} {pending : List (Fin n)} {r : Proc M K B}
    (h : ph.bind g = .sending m pending r) : ∃ p, ph = .sending m pending p := by
  cases ph with
  | ready p => cases h
  | sending m' pending' p =>
    obtain ⟨rfl, rfl, -⟩ := Phase.sending.inj h
    exact ⟨p, rfl⟩
  | receiving kd pending held k => cases h
  | panicked => cases h

theorem Phase.bind_receiving {ph : Phase n M K F A} {g : A → Proc M K B} {kd : K} {pending : List (Fin n)} {held : List F}
    {r : List M → Proc M K B} (h : ph.bind g = .receiving kd pending held r) :
    ∃ k, ph = .receiving kd pending held k := by
  cases ph with
  | ready p => cases h
  | sending m pending' p => cases h
  | receiving kd' pending' held' k =>
    obtain ⟨rfl, rfl, rfl, -⟩ := Phase.receiving.inj h
    exact ⟨k, rfl⟩
  | panicked => cases h

theorem Phase.bind_panicked {ph : Phase n M K F A} {g : A → Proc M K B} (h : ph = .panicked) : ph.bind g = .panicked := by
  rw [h]
  rfl

/-- A step of the longer programs is one of the programs, unless a program has finished. -/
theorem Step.of_bind {t : Net n M K F S B} (h : Step E (s.bind f) t) :
    (∃ s', Step E s s') ∨ ∃ i a, s.phase i = .ready (.ret a) ∧ ∀ b, f i a ≠ .ret b := by
  cases h with
  | begin i m r h =>
    obtain ⟨p, hph, hp⟩ := Phase.bind_ready h
    cases p with
    | ret a => exact .inr ⟨i, a, hph, fun b hb => by cases hb.symm.trans hp⟩
    | fail => cases hp
    | send m' p => exact .inl ⟨_, .begin i m' p hph⟩
    | recv kd k => cases hp
  | push i j m pending r h hj hcap =>
    obtain ⟨p, hph⟩ := Phase.bind_sending h
    exact .inl ⟨_, .push i j m pending p hph hj hcap⟩
  | finish i m r h =>
    obtain ⟨p, hph⟩ := Phase.bind_sending h
    exact .inl ⟨_, .finish i m p hph⟩
  | listen i kd r h =>
    obtain ⟨p, hph, hp⟩ := Phase.bind_ready h
    cases p with
    | ret a => exact .inr ⟨i, a, hph, fun b hb => by cases hb.symm.trans hp⟩
    | fail => cases hp
    | send m p => cases hp
    | recv kd' k => exact .inl ⟨_, .listen i kd' k hph⟩
  | pop i j kd pending held r x rest h hj hx =>
    obtain ⟨k, hph⟩ := Phase.bind_receiving h
    exact .inl ⟨_, .pop i j kd pending held k x rest hph hj hx⟩
  | handle i kd pending before x after r st h ha =>
    obtain ⟨k, hph⟩ := Phase.bind_receiving h
    exact .inl ⟨_, .handle i kd pending before x after k st hph ha⟩
  | reject i kd pending before x after r h ha =>
    obtain ⟨k, hph⟩ := Phase.bind_receiving h
    exact .inl ⟨_, .reject i kd pending before x after k hph ha⟩
  | deliver i kd r l st h hc =>
    obtain ⟨k, hph⟩ := Phase.bind_receiving h
    exact .inl ⟨_, .deliver i kd k l st hph hc⟩
  | missing i kd r h hc =>
    obtain ⟨k, hph⟩ := Phase.bind_receiving h
    exact .inl ⟨_, .missing i kd k hph hc⟩
  | crash i h =>
    obtain ⟨p, hph, hp⟩ := Phase.bind_ready h
    cases p with
    | ret a => exact .inr ⟨i, a, hph, fun b hb => by cases hb.symm.trans hp⟩
    | fail => exact .inl ⟨_, .crash i hph⟩
    | send m p => cases hp
    | recv kd k => cases hp

end Bind

section Whole
variable {X : Metered n M K F S A R T}

/-- All requests of a party, one after the other. -/
def Metered.program (X : Metered n M K F S A R T) (i : Fin n) : A → List R → Proc M K A
  | a, [] => .ret a
  | a, r :: rest => X.serve i a r >>= fun a' => X.program i a' rest

theorem Metered.next_program (X : Metered n M K F S A R T) (i : Fin n) (a : A) (queue : List R) :
    (X.next i a queue >>= fun a' => X.program i a' queue.tail) = X.program i a queue := by
  cases queue with
  | nil => rfl
  | cons r rest => rfl

/-- The network of the long programs that a session stands for. -/
def Session.whole (X : Metered n M K F S A R T) (s : Session n M K F S A R T) : Net n M K F S A :=
  s.net.bind fun i a => X.program i a (s.queue i).tail

variable {s t : Session n M K F S A R T}

theorem Session.whole_init (start : Fin n → A) (queue : Fin n → List R) (stat : Fin n → Fin n → T)
    {chan : Fin n × Fin n → List F} (hchan : ∀ x, chan x = []) (empty : S) :
    (Session.init X start queue stat chan empty).whole X = Net.init (fun i => X.program i (start i) (queue i)) empty := by
  obtain rfl : chan = fun _ => [] := funext hchan
  rw [Session.whole, Net.bind, Net.init]
  congr 1
  funext i
  exact congrArg Phase.ready (X.next_program i (start i) (queue i))

/-- A step of a session is one of the long programs, or a report between two requests, or some counter overflows. -/
theorem Session.Step.whole (h : Session.Step X s t) :
    t.whole X = s.whole X ∨ Rounds.Step X.endpoint (s.whole X) (t.whole X) ∨ ∃ i,
      (∃ j m pending p, s.net.phase i = .sending m pending p ∧ j ∈ pending ∧
        X.tally.addSent (s.stat i j) (X.cost (X.endpoint.encode i m)) = none) ∨
      (∃ j kd pending held k f rest, s.net.phase i = .receiving kd pending held k ∧ j ∈ pending ∧
        s.net.chan (X.endpoint.receiver i j) = f :: rest ∧ X.tally.addReceived (s.stat i j) (X.cost f) = none) ∨
      ∃ a, s.net.phase i = .ready (.ret a) ∧ s.queue i ≠ [] ∧ X.total i (s.stat i) = none := by
  cases h with
  | inner net h hchan => exact .inr (.inl (h.bind _))
  | push i j m pending p stat h hj hcap hstat => exact .inr (.inl ((Rounds.Step.push i j m pending p h hj hcap).bind _))
  | pop i j kd pending held k f rest stat h hj hf hstat =>
    exact .inr (.inl ((Rounds.Step.pop i j kd pending held k f rest h hj hf).bind _))
  | report i a r rest sum h hqueue hsum =>
    left
    rw [Session.whole, Session.whole, Net.bind, Net.bind]
    congr 1
    funext k
    change (update s.net.phase i _ k).bind (fun a => X.program k a (update s.queue i rest k).tail) = _
    by_cases hk : k = i
    · subst hk
      rw [update_self, update_self, h, hqueue]
      exact congrArg Phase.ready (X.next_program k a rest)
    · rw [update_of_ne hk, update_of_ne hk]
  | pushOverflow i j m pending p h hj hstat => exact .inr (.inr ⟨i, .inl ⟨j, m, pending, p, h, hj, hstat⟩⟩)
  | popOverflow i j kd pending held k f rest h hj hf hstat =>
    exact .inr (.inr ⟨i, .inr (.inl ⟨j, kd, pending, held, k, f, rest, h, hj, hf, hstat⟩)⟩)
  | sumOverflow i a r rest h hqueue hsum =>
    exact .inr (.inr ⟨i, .inr (.inr ⟨a, h, by rw [hqueue]; exact List.cons_ne_nil _ _, hsum⟩)⟩)

end Whole

section Fits
variable {X : Metered n M K F S A R T} {costs : List ℕ} {Inv : Fin n → A → Prop} {Ask : Fin n → R → Prop}
  {opening : Fin n → Fin n → T} {limit : ℕ} {s t : Session n M K F S A R T} {out inn : Fin n → Fin n → ℕ}

/-- What one request costs stays below the limit at every party, also on top of what the counters begin with. -/
structure Metered.Fits (X : Metered n M K F S A R T) (costs : List ℕ) (opening : Fin n → Fin n → T) (limit : ℕ) :
    Prop where
  holds : X.tally.Holds limit
  complete : ∀ i j, j ≠ i → j ∈ X.connections i
  sent : ∀ i, ((X.connections i).map fun j => X.tally.sent (opening i j) + costs.sum).sum < limit
  received : ∀ i, ((X.connections i).map fun j => X.tally.received (opening i j) + costs.sum).sum < limit

theorem shown_le (opening : ℕ) (costs : List ℕ) (d m : ℕ) : shown opening costs d m ≤ opening + costs.sum := by
  have htake : (costs.take m).sum ≤ costs.sum := by
    rw [← List.sum_take_add_sum_drop costs m]
    exact Nat.le_add_right _ _
  have hopening : (if d = 0 then opening else 0) ≤ opening := by
    split_ifs
    · exact le_rfl
    · exact Nat.zero_le _
  exact Nat.add_le_add hopening htake

theorem le_sum_map {l : List (Fin n)} {j : Fin n} (hj : j ∈ l) (f : Fin n → ℕ) : f j ≤ (l.map f).sum :=
  List.single_le_sum (fun _ _ => Nat.zero_le _) _ (List.mem_map_of_mem hj)

/-- Counters that are small enough can be added up. -/
theorem total_some (hX : X.tally.Lawful) (hlimit : X.tally.Holds limit) {i : Fin n} {stat : Fin n → T}
    (hsent : ((X.connections i).map fun j => X.tally.sent (stat j)).sum < limit)
    (hreceived : ((X.connections i).map fun j => X.tally.received (stat j)).sum < limit) :
    ∃ sum, X.total i stat = some sum := by
  have hfold : ∀ (l : List (Fin n)) t, X.tally.sent t + (l.map fun j => X.tally.sent (stat j)).sum < limit →
      X.tally.received t + (l.map fun j => X.tally.received (stat j)).sum < limit →
      ∃ sum, l.foldlM (fun out j => X.tally.add out (stat j)) t = some sum := by
    intro l
    induction l with
    | nil => exact fun t _ _ => ⟨t, rfl⟩
    | cons j l ih =>
      intro t ht ht'
      rw [List.map_cons, List.sum_cons] at ht ht'
      obtain ⟨u, hu⟩ := hlimit.add t (stat j) (by omega) (by omega)
      obtain ⟨husent, hureceived⟩ := hX.add t (stat j) u hu
      obtain ⟨sum, hsum⟩ := ih u (by omega) (by omega)
      exact ⟨sum, by rw [List.foldlM_cons, hu]; exact hsum⟩
  apply hfold
  · rwa [hX.zero.1, Nat.zero_add]
  · rwa [hX.zero.2, Nat.zero_add]

/-- Nothing overflows, so a session takes the steps of the long programs. -/
theorem Ledger.whole (hX : X.Regular costs Inv Ask) (hfits : X.Fits costs opening limit)
    (L : Ledger X costs Inv Ask opening s out inn) (h : Session.Step X s t) :
    t.whole X = s.whole X ∨ Rounds.Step X.endpoint (s.whole X) (t.whole X) := by
  rcases h.whole with hsame | hstep | ⟨i, ⟨j, m, pending, p, hph, hj, hnone⟩ |
      ⟨j, kd, pending, held, k, f, rest, hph, hj, hf, hnone⟩ | ⟨a, hph, hqueue, hnone⟩⟩
  · exact .inl hsame
  · exact .inr hstep
  · have hij := L.sending_ne hph hj
    have B := L.party i
    have hpos := B.position
    rw [hph] at hpos
    obtain ⟨done, todo, kd, k, hdue, -, -, -, -, hout, -⟩ := hpos.sending_inv
    have hdone : out i j - costs.length*(s.reports i).length = done.length := by
      rw [hout j hij.symm, if_pos hj, Nat.add_zero, Nat.add_sub_cancel_left]
    have hnext := shown_succ (dueOf_eq hdue).2 (X.tally.sent (opening i j)) (s.reports i).length
    have hle := shown_le (X.tally.sent (opening i j)) costs (s.reports i).length (done.length+1)
    have hsum := le_sum_map (hfits.complete i j hij.symm) fun j => X.tally.sent (opening i j) + costs.sum
    have hlt := hfits.sent i
    obtain ⟨u, hu⟩ := hfits.holds.addSent (s.stat i j) (X.cost (X.endpoint.encode i m)) (by
      rw [B.sent j hij.symm, hdone]
      omega)
    rw [hnone] at hu
    cases hu
  · have hij := L.receiving_ne hph hj
    have B := L.party i
    have hpos := B.position
    rw [hph] at hpos
    obtain ⟨done, todo, c, hdue, -, -, -, -, hinn⟩ := hpos.receiving_inv
    have hcosts := (dueOf_eq hdue).2
    have hbefore : inn i j = costs.length*(s.reports i).length + done.length := by
      rw [hinn j hij.symm, if_pos hj, Nat.add_zero]
    rw [hX.receiver i j hij] at hf
    obtain ⟨-, -, hcost, -⟩ := L.front hij.symm hf
    rw [hbefore, dueAt_eq hcosts] at hcost
    have hdone : inn i j - costs.length*(s.reports i).length = done.length := by
      rw [hbefore, Nat.add_sub_cancel_left]
    have hnext := shown_succ hcosts (X.tally.received (opening i j)) (s.reports i).length
    have hle := shown_le (X.tally.received (opening i j)) costs (s.reports i).length (done.length+1)
    have hsum := le_sum_map (hfits.complete i j hij.symm) fun j => X.tally.received (opening i j) + costs.sum
    have hlt := hfits.received i
    obtain ⟨u, hu⟩ := hfits.holds.addReceived (s.stat i j) (X.cost f) (by
      rw [B.received j hij.symm, hdone, hcost]
      omega)
    rw [hnone] at hu
    cases hu
  · have B := L.party i
    have hall : ∀ (f g : Fin n → ℕ), (∀ j, j ≠ i → f j ≤ g j) →
        ((X.connections i).map f).sum ≤ ((X.connections i).map g).sum := fun f g hfg =>
      List.sum_le_sum fun j hj => hfg j (hX.connections i j hj)
    obtain ⟨sum, hsum⟩ : ∃ sum, X.total i (s.stat i) = some sum := total_some hX.tally hfits.holds
      ((hall _ _ fun j hj => by rw [B.sent j hj]; exact shown_le _ _ _ _).trans_lt (hfits.sent i))
      ((hall _ _ fun j hj => by rw [B.received j hj]; exact shown_le _ _ _ _).trans_lt (hfits.received i))
    rw [hnone] at hsum
    cases hsum

end Fits
section Completion
variable {X : Metered n M K F S A R T} {s t : Session n M K F S A R T}

/-- A step of the network is one of the session, or some counter overflows. -/
theorem Session.Step.of_net {net : Net n M K F S A} (h : Rounds.Step X.endpoint s.net net) : ∃ t, Session.Step X s t := by
  cases h with
  | begin i m p h => exact ⟨_, .inner _ (.begin i m p h) rfl⟩
  | push i j m pending p h hj hcap =>
    cases hstat : X.tally.addSent (s.stat i j) (X.cost (X.endpoint.encode i m)) with
    | none => exact ⟨_, .pushOverflow i j m pending p h hj hstat⟩
    | some stat => exact ⟨_, .push i j m pending p stat h hj hcap hstat⟩
  | finish i m p h => exact ⟨_, .inner _ (.finish i m p h) rfl⟩
  | listen i kd k h => exact ⟨_, .inner _ (.listen i kd k h) rfl⟩
  | pop i j kd pending held k f rest h hj hf =>
    cases hstat : X.tally.addReceived (s.stat i j) (X.cost f) with
    | none => exact ⟨_, .popOverflow i j kd pending held k f rest h hj hf hstat⟩
    | some stat => exact ⟨_, .pop i j kd pending held k f rest stat h hj hf hstat⟩
  | handle i kd pending before f after k st h ha => exact ⟨_, .inner _ (.handle i kd pending before f after k st h ha) rfl⟩
  | reject i kd pending before f after k h ha => exact ⟨_, .inner _ (.reject i kd pending before f after k h ha) rfl⟩
  | deliver i kd k l st h hc => exact ⟨_, .inner _ (.deliver i kd k l st h hc) rfl⟩
  | missing i kd k h hc => exact ⟨_, .inner _ (.missing i kd k h hc) rfl⟩
  | crash i h => exact ⟨_, .inner _ (.crash i h) rfl⟩

/-- A party that has finished a request can report. -/
theorem Session.Step.of_ret {i : Fin n} {a : A} (h : s.net.phase i = .ready (.ret a)) (hqueue : s.queue i ≠ []) :
    ∃ t, Session.Step X s t := by
  obtain ⟨r, rest, hqueue⟩ := List.exists_cons_of_ne_nil hqueue
  cases hsum : X.total i (s.stat i) with
  | none => exact ⟨_, .sumOverflow i a r rest h hqueue hsum⟩
  | some sum => exact ⟨_, .report i a r rest sum h hqueue hsum⟩

/-- A session is stuck only when the long programs are, or when all requests are reported. -/
theorem Session.progress (h : (∃ b : Fin n → A, ∀ i, (s.whole X).phase i = .ready (.ret (b i))) ∨
    ∃ net, Rounds.Step X.endpoint (s.whole X) net) : (∀ i, s.queue i = []) ∨ ∃ t, Session.Step X s t := by
  rcases h with ⟨b, hb⟩ | ⟨net, hnet⟩
  · by_cases hdone : ∀ i, s.queue i = []
    · exact .inl hdone
    · obtain ⟨i, hi⟩ := not_forall.mp hdone
      obtain ⟨p, hph, hp⟩ := Phase.bind_ready (hb i)
      cases p with
      | ret a => exact .inr (Session.Step.of_ret hph hi)
      | fail => cases hp
      | send m p => cases hp
      | recv kd k => cases hp
  · rcases hnet.of_bind with ⟨net', hnet'⟩ | ⟨i, a, hph, ha⟩
    · exact .inr (Session.Step.of_net hnet')
    · refine .inr (Session.Step.of_ret hph fun hqueue => ?_)
      rw [hqueue] at ha
      exact ha a rfl

/-- A report for each request that is no longer in the queue. -/
theorem Session.Step.reports_length (h : Session.Step X s t) (i : Fin n) :
    (t.reports i).length + (t.queue i).length = (s.reports i).length + (s.queue i).length := by
  cases h with
  | report k a r rest sum h hqueue hsum =>
    change (update s.reports k _ i).length + (update s.queue k rest i).length = _
    by_cases hik : i = k
    · subst hik
      rw [update_self, update_self, hqueue, List.length_append, List.length_singleton, List.length_cons]
      omega
    · rw [update_of_ne hik, update_of_ne hik]
  | inner | push | pop | pushOverflow | popOverflow | sumOverflow => rfl

/-- A step of a session moves one party, or it is a report. -/
theorem Session.Step.moves (h : Session.Step X s t) :
    (∃ i ph, Phase.Next (s.net.phase i) ph ∧ t.net.phase = update s.net.phase i ph ∧ t.queue = s.queue ∧
      t.reports = s.reports) ∨
    ∃ i a r rest sum, s.net.phase i = .ready (.ret a) ∧ s.queue i = r :: rest ∧
      t.net.phase = update s.net.phase i (.ready (X.next i a rest)) ∧ t.queue = update s.queue i rest ∧
      t.reports = update s.reports i (s.reports i ++ [sum]) := by
  cases h with
  | inner net h hchan =>
    obtain ⟨i, ph, hnext, hphase⟩ := h.phase_next
    exact .inl ⟨i, ph, hnext, hphase, rfl, rfl⟩
  | push i j m pending p stat h hj hcap hstat =>
    exact .inl ⟨i, _, by rw [h]; exact .push m pending p j hj, rfl, rfl, rfl⟩
  | pop i j kd pending held k f rest stat h hj hf hstat =>
    exact .inl ⟨i, _, by rw [h]; exact .pop kd pending held k j f hj, rfl, rfl, rfl⟩
  | report i a r rest sum h hqueue hsum => exact .inr ⟨i, a, r, rest, sum, h, hqueue, rfl, rfl, rfl⟩
  | pushOverflow i j m pending p h hj hstat => exact .inl ⟨i, _, by rw [h]; exact .panic _ (by simp), rfl, rfl, rfl⟩
  | popOverflow i j kd pending held k f rest h hj hf hstat =>
    exact .inl ⟨i, _, by rw [h]; exact .panic _ (by simp), rfl, rfl, rfl⟩
  | sumOverflow i a r rest h hqueue hsum => exact .inl ⟨i, _, by rw [h]; exact .panic _ (by simp), rfl, rfl, rfl⟩

/-- There is no infinite session. -/
theorem Session.step_wellFounded (X : Metered n M K F S A R T) :
    WellFounded fun t s : Session n M K F S A R T => Session.Step X s t := by
  have hlex := WellFounded.prod_lex (wellFounded_lt : WellFounded fun a b : ℕ => a < b)
    (phases_wellFounded : WellFounded fun q p : Fin n → Phase n M K F A => _)
  apply (InvImage.wf (fun s : Session n M K F S A R T => (∑ i, (s.queue i).length, s.net.phase)) hlex).mono
  intro t s h
  change Prod.Lex (· < ·) _ (∑ i, (t.queue i).length, t.net.phase) (∑ i, (s.queue i).length, s.net.phase)
  -- a report shortens a queue, all other steps move the party that takes them
  rcases h.moves with ⟨i, ph, hnext, hphase, hqueue, -⟩ | ⟨i, a, r, rest, sum, -, hqueue, -, hqueue', -⟩
  · rw [hqueue]
    exact .right _ ⟨i, ph, hnext, hphase⟩
  · refine .left _ _ (Finset.sum_lt_sum (fun k _ => ?_) ⟨i, Finset.mem_univ i, ?_⟩)
    · rw [hqueue']
      by_cases hk : k = i
      · subst hk
        rw [update_self, hqueue]
        exact Nat.le_succ _
      · rw [update_of_ne hk]
    · rw [hqueue', update_self, hqueue]
      exact Nat.lt_succ_self _

end Completion

section Runs
variable {X : Metered n M K F S A R T} {costs : List ℕ} {Inv : Fin n → A → Prop} {Ask : Fin n → R → Prop}
  {opening : Fin n → Fin n → T} {limit : ℕ} {start : Fin n → A} {queue : Fin n → List R}
  {chan : Fin n × Fin n → List F} {empty : S} {s : Session n M K F S A R T}

/-- The books of a run from its beginning. -/
theorem Session.Reachable.books (hX : X.Regular costs Inv Ask) (hstart : ∀ i, Inv i (start i))
    (hqueue : ∀ i, ∀ r ∈ queue i, Ask i r) (hchan : ∀ x, chan x = [])
    (h : Session.Reachable X (.init X start queue opening chan empty) s) :
    ∃ out inn, Ledger X costs Inv Ask opening s out inn :=
  h.ledger hX (ledger_init hX hstart hqueue hchan empty)

/-- A session whose counters cannot overflow is a run of the long programs. -/
theorem Session.Reachable.whole (hX : X.Regular costs Inv Ask) (hfits : X.Fits costs opening limit)
    (hstart : ∀ i, Inv i (start i)) (hqueue : ∀ i, ∀ r ∈ queue i, Ask i r) (hchan : ∀ x, chan x = [])
    (h : Session.Reachable X (.init X start queue opening chan empty) s) :
    Rounds.Reachable X.endpoint (fun i => X.program i (start i) (queue i)) empty (s.whole X) := by
  induction h with
  | refl =>
    rw [Session.whole_init start queue opening hchan empty]
    exact .refl
  | @tail s t hs hstep ih =>
    obtain ⟨out, inn, L⟩ := Session.Reachable.books hX hstart hqueue hchan hs
    rcases L.whole hX hfits hstep with hsame | hnext
    · rwa [hsame]
    · exact ih.tail hnext

theorem Session.Reachable.reports_length (h : Session.Reachable X (.init X start queue opening chan empty) s)
    (i : Fin n) : (s.reports i).length + (s.queue i).length = (queue i).length := by
  induction h with
  | refl => exact Nat.zero_add _
  | tail _ hstep ih => rw [hstep.reports_length i, ih]

/-- Long programs that run in lockstep make a session in which nobody panics, and which ends with a report for
each request. -/
theorem Session.completes [DecidableEq K] {kindOf : M → K} {wire : Fin n → M → Option M} {slots : S → K → List M}
    {Q : (Fin n → A) → Prop} (L : Lawful X.endpoint kindOf wire slots) (hempty : slots empty = fun _ => [])
    (hrun : Lockstep kindOf wire Q fun i => X.program i (start i) (queue i))
    (hX : X.Regular costs Inv Ask) (hfits : X.Fits costs opening limit) (hstart : ∀ i, Inv i (start i))
    (hqueue : ∀ i, ∀ r ∈ queue i, Ask i r) (hchan : ∀ x, chan x = [])
    (h : Session.Reachable X (.init X start queue opening chan empty) s) :
    (∀ i, s.net.phase i ≠ .panicked) ∧ ∃ t, Relation.ReflTransGen (Session.Step X) s t ∧
      ∀ i, (t.reports i).length = (queue i).length := by
  have hgood : ∀ t, Relation.ReflTransGen (Session.Step X) s t → (t.whole X).Good X.endpoint kindOf wire Q := fun t ht =>
    hrun.network L hempty (Session.Reachable.whole hX hfits hstart hqueue hchan (h.trans ht))
  refine ⟨fun i hi => (hgood s .refl).no_panic i (Phase.bind_panicked hi), ?_⟩
  have hfinish : ∀ u, Relation.ReflTransGen (Session.Step X) s u →
      ∃ t, Relation.ReflTransGen (Session.Step X) u t ∧ ∀ i, t.queue i = [] := by
    intro u
    induction u using (Session.step_wellFounded X).induction with
    | _ u ih =>
      intro hu
      rcases Session.progress (hgood u hu).progress with hdone | ⟨v, hv⟩
      · exact ⟨u, .refl, hdone⟩
      · obtain ⟨t, ht, hdone⟩ := ih v hv (hu.tail hv)
        exact ⟨t, ht.head hv, hdone⟩
  obtain ⟨t, ht, hdone⟩ := hfinish s .refl
  refine ⟨t, ht, fun i => ?_⟩
  have hlen := Session.Reachable.reports_length (h.trans ht) i
  rwa [hdone i, List.length_nil, Nat.add_zero] at hlen

end Runs
end PrivRecCert.Rounds
