import PrivRecCert.Rounds.Termination

/-! Request after request over metered connections. Every party counts the bytes of the frames that it sends and
takes on each of its connections; after each request it adds up its counters, reports the sums and clears them. -/
namespace PrivRecCert.Rounds
open Function

variable {n : ℕ} {M K F S A R T α β : Type}

namespace Proc

/-- A program of one broadcast and one receive for each entry of a list. Whatever it receives, the messages have the
sizes that are listed, and if it finishes its result is in `Q`. -/
inductive Sized (size : M → ℕ) (Q : α → Prop) : List ℕ → Proc M K α → Prop
  | ret {a} (h : Q a) : Sized size Q [] (.ret a)
  | fail (sizes) : Sized size Q sizes .fail
  | round {sizes} (m kd k) (next : ∀ received, Sized size Q sizes (k received)) :
      Sized size Q (size m :: sizes) (.send m (.recv kd k))

namespace Sized
variable {size : M → ℕ} {Q : α → Prop} {Q' : β → Prop} {sizes sizes' : List ℕ} {p : Proc M K α} {f : α → Proc M K β}

theorem bind (h : Sized size Q sizes p) (hf : ∀ a, Q a → Sized size Q' sizes' (f a)) :
    Sized size Q' (sizes ++ sizes') (p >>= f) := by
  induction h with
  | ret h => exact hf _ h
  | fail sizes => exact .fail _
  | round m kd k _ ih => exact .round m kd _ ih

/-- No more rounds. -/
theorem finish (h : Sized size Q sizes p) (hf : ∀ a, Q a → Sized size Q' [] (f a)) : Sized size Q' sizes (p >>= f) := by
  rw [← List.append_nil sizes]
  exact h.bind hf

/-- A local step. -/
theorem lift {o : Option α} (h : ∀ a, o = some a → Sized size Q' sizes (f a)) :
    Sized size Q' sizes (Proc.lift o >>= f) := by
  cases o with
  | none => exact .fail _
  | some a => exact h a rfl

/-- Sizes in another measure. -/
theorem measure (g : ℕ → ℕ) (h : Sized size Q sizes p) : Sized (fun m => g (size m)) Q (sizes.map g) p := by
  induction h with
  | ret h => exact .ret h
  | fail sizes => exact .fail _
  | round m kd k _ ih => exact .round m kd k ih

theorem of_ret {a : α} (h : Sized size Q sizes (.ret a : Proc M K α)) : sizes = [] ∧ Q a := by
  cases h with
  | ret h => exact ⟨rfl, h⟩

theorem of_send {m : M} (h : Sized size Q sizes (.send m p)) : ∃ kd k rest, p = .recv kd k ∧ sizes = size m :: rest ∧
    ∀ received, Sized size Q rest (k received) := by
  cases h with
  | @round rest m kd k next => exact ⟨kd, k, rest, rfl, rfl, next⟩

theorem not_recv {kd : K} {k : List M → Proc M K α} (h : Sized size Q sizes (.recv kd k)) : False := by
  cases h

end Sized
end Proc

/-- Counters of bytes, as their owner uses them. `none` is an overflow. -/
structure Tally (T : Type) where
  zero : T
  addSent : T → ℕ → Option T
  addReceived : T → ℕ → Option T
  add : T → T → Option T
  sent : T → ℕ
  received : T → ℕ

/-- The counters count. -/
structure Tally.Lawful (τ : Tally T) : Prop where
  zero : τ.sent τ.zero = 0 ∧ τ.received τ.zero = 0
  addSent : ∀ t b u, τ.addSent t b = some u → τ.sent u = τ.sent t + b ∧ τ.received u = τ.received t
  addReceived : ∀ t b u, τ.addReceived t b = some u → τ.sent u = τ.sent t ∧ τ.received u = τ.received t + b
  add : ∀ t u v, τ.add t u = some v → τ.sent v = τ.sent t + τ.sent u ∧ τ.received v = τ.received t + τ.received u

/-- No number below the limit overflows. -/
structure Tally.Holds (τ : Tally T) (limit : ℕ) : Prop where
  addSent : ∀ t b, τ.sent t + b < limit → ∃ u, τ.addSent t b = some u
  addReceived : ∀ t b, τ.received t + b < limit → ∃ u, τ.addReceived t b = some u
  add : ∀ t u, τ.sent t + τ.sent u < limit → τ.received t + τ.received u < limit → ∃ v, τ.add t u = some v

/-- Parties that serve requests over metered connections. `connections i` are the peers of party `i`, in the order
in which it goes through its connections. -/
structure Metered (n : ℕ) (M K F S A R T : Type) where
  endpoint : Endpoint n M K F S
  tally : Tally T
  cost : F → ℕ
  connections : Fin n → List (Fin n)
  serve : Fin n → A → R → Proc M K A

/-- What a party does with the requests that are left. -/
def Metered.next (X : Metered n M K F S A R T) (i : Fin n) (a : A) : List R → Proc M K A
  | [] => .ret a
  | r :: _ => X.serve i a r

/-- The sums of a party's counters. -/
def Metered.total (X : Metered n M K F S A R T) (i : Fin n) (stat : Fin n → T) : Option T :=
  (X.connections i).foldlM (fun out j => X.tally.add out (stat j)) X.tally.zero

/-- All parties, the requests that are not yet reported, the counters and the reports. -/
structure Session (n : ℕ) (M K F S A R T : Type) where
  net : Net n M K F S A
  queue : Fin n → List R
  stat : Fin n → Fin n → T
  reports : Fin n → List T

namespace Session

/-- All parties at the start of their first request. -/
def init (X : Metered n M K F S A R T) (start : Fin n → A) (queue : Fin n → List R) (stat : Fin n → Fin n → T)
    (chan : Fin n × Fin n → List F) (empty : S) : Session n M K F S A R T where
  net := { Net.init (fun i => X.next i (start i) (queue i)) empty with chan := chan }
  queue := queue
  stat := stat
  reports _ := []

/-- One step of one party. What moves no frame is a step of the network. -/
inductive Step (X : Metered n M K F S A R T) : Session n M K F S A R T → Session n M K F S A R T → Prop
  | inner {s} (net) (h : Rounds.Step X.endpoint s.net net) (hchan : net.chan = s.net.chan) :
      Step X s { s with net := net }
  | push {s} (i j m pending p stat) (h : s.net.phase i = .sending m pending p) (hj : j ∈ pending)
      (hcap : (s.net.chan (X.endpoint.sender i j)).length < X.endpoint.capacity)
      (hstat : X.tally.addSent (s.stat i j) (X.cost (X.endpoint.encode i m)) = some stat) :
      Step X s { s with
        net := { s.net with
          phase := update s.net.phase i (.sending m (pending.erase j) p)
          chan := update s.net.chan (X.endpoint.sender i j)
            (s.net.chan (X.endpoint.sender i j) ++ [X.endpoint.encode i m]) }
        stat := update s.stat i (update (s.stat i) j stat) }
  | pop {s} (i j kd pending held k f rest stat) (h : s.net.phase i = .receiving kd pending held k) (hj : j ∈ pending)
      (hf : s.net.chan (X.endpoint.receiver i j) = f :: rest)
      (hstat : X.tally.addReceived (s.stat i j) (X.cost f) = some stat) :
      Step X s { s with
        net := { s.net with
          phase := update s.net.phase i (.receiving kd (pending.erase j) (held ++ [f]) k)
          chan := update s.net.chan (X.endpoint.receiver i j) rest }
        stat := update s.stat i (update (s.stat i) j stat) }
  | report {s} (i a r rest sum) (h : s.net.phase i = .ready (.ret a)) (hqueue : s.queue i = r :: rest)
      (hsum : X.total i (s.stat i) = some sum) :
      Step X s {
        net := { s.net with phase := update s.net.phase i (.ready (X.next i a rest)) }
        queue := update s.queue i rest
        stat := update s.stat i fun _ => X.tally.zero
        reports := update s.reports i (s.reports i ++ [sum]) }
  | pushOverflow {s} (i j m pending p) (h : s.net.phase i = .sending m pending p) (hj : j ∈ pending)
      (hstat : X.tally.addSent (s.stat i j) (X.cost (X.endpoint.encode i m)) = none) :
      Step X s { s with net := { s.net with phase := update s.net.phase i .panicked } }
  | popOverflow {s} (i j kd pending held k f rest) (h : s.net.phase i = .receiving kd pending held k) (hj : j ∈ pending)
      (hf : s.net.chan (X.endpoint.receiver i j) = f :: rest)
      (hstat : X.tally.addReceived (s.stat i j) (X.cost f) = none) :
      Step X s { s with net := { s.net with phase := update s.net.phase i .panicked } }
  | sumOverflow {s} (i a r rest) (h : s.net.phase i = .ready (.ret a)) (hqueue : s.queue i = r :: rest)
      (hsum : X.total i (s.stat i) = none) :
      Step X s { s with net := { s.net with phase := update s.net.phase i .panicked } }

/-- The sessions some interleaving leads to. -/
def Reachable (X : Metered n M K F S A R T) (s₀ : Session n M K F S A R T) : Session n M K F S A R T → Prop :=
  Relation.ReflTransGen (Step X) s₀

/-- The same parties over other channels. -/
def rewired (s : Session n M K F S A R T) (chan : Fin n × Fin n → List F) : Session n M K F S A R T :=
  { s with net := { s.net with chan := chan } }

variable {X : Metered n M K F S A R T} {s s' : Session n M K F S A R T} {ahead frames : Fin n × Fin n → List F}

/-- What moves no frame does not depend on the channels. -/
theorem inner_rewired {E : Endpoint n M K F S} {net net' : Net n M K F S A} (h : Rounds.Step E net net')
    (hchan : net'.chan = net.chan) (chan : Fin n × Fin n → List F) :
    Rounds.Step E { net with chan := chan } { net' with chan := chan } := by
  cases h with
  | begin i m p h => exact .begin i m p h
  | push i j m pending p h hj hcap =>
    have hlen := congrArg List.length (congrFun hchan (E.sender i j))
    change (update net.chan (E.sender i j) _ (E.sender i j)).length = _ at hlen
    rw [update_self, List.length_append, List.length_singleton] at hlen
    omega
  | finish i m p h => exact .finish i m p h
  | listen i kd k h => exact .listen i kd k h
  | pop i j kd pending held k f rest h hj hf =>
    have hlen := congrArg List.length (congrFun hchan (E.receiver i j))
    change (update net.chan (E.receiver i j) rest (E.receiver i j)).length = _ at hlen
    rw [update_self, hf, List.length_cons] at hlen
    omega
  | handle i kd pending before f after k st h ha => exact .handle i kd pending before f after k st h ha
  | reject i kd pending before f after k h ha => exact .reject i kd pending before f after k h ha
  | deliver i kd k l st h hc => exact .deliver i kd k l st h hc
  | missing i kd k h hc => exact .missing i kd k h hc
  | crash i h => exact .crash i h

theorem erase_ne {pending : List (Fin n)} {j : Fin n} (hj : j ∈ pending) : pending.erase j ≠ pending := by
  intro he
  have hlen := congrArg List.length he
  rw [List.length_erase_of_mem hj] at hlen
  have hpos := List.length_pos_of_mem hj
  omega

/-- Frames that are ahead in channels from which nobody reads make no difference to a session. -/
theorem Step.behind (h : Step X s s') (hchan : ∀ x, s.net.chan x = ahead x ++ frames x)
    (hmover : ∀ i, s'.net.phase i ≠ s.net.phase i → ∀ j, (X.endpoint.sender i j).1 = i ∧
      ahead (X.endpoint.receiver i j) = []) :
    ∃ frames', (∀ x, s'.net.chan x = ahead x ++ frames' x) ∧ Step X (s.rewired frames) (s'.rewired frames') ∧
      ∀ i, s'.net.phase i = s.net.phase i → ∀ j, frames (i, j) = [] → frames' (i, j) = [] := by
  cases h with
  | inner net h hsame => exact ⟨frames, by rwa [hsame], .inner _ (inner_rewired h hsame frames) rfl, fun _ _ _ => id⟩
  | push i j m pending p stat h hj hcap hstat =>
    have hmoves : update s.net.phase i (.sending m (pending.erase j) p) i ≠ s.net.phase i := by
      rw [update_self, h]
      exact fun he => erase_ne hj (Phase.sending.inj he).2.1
    refine ⟨update frames (X.endpoint.sender i j) (frames (X.endpoint.sender i j) ++ [X.endpoint.encode i m]),
      fun x => ?_, .push i j m pending p stat h hj (lt_of_le_of_lt ?_ hcap) hstat, fun k hk l hkl => ?_⟩
    · change update s.net.chan _ _ x = _
      by_cases hx : x = X.endpoint.sender i j
      · subst hx
        rw [update_self, update_self, hchan, List.append_assoc]
      · rw [update_of_ne hx, update_of_ne hx, hchan]
    · rw [hchan, List.length_append]
      exact Nat.le_add_left _ _
    · rw [update_of_ne, hkl]
      rintro he
      have hki := (hmover i hmoves j).1
      rw [← he] at hki
      exact hmoves (hki ▸ hk)
  | pop i j kd pending held k f rest stat h hj hf hstat =>
    have hmoves : update s.net.phase i (.receiving kd (pending.erase j) (held ++ [f]) k) i ≠ s.net.phase i := by
      rw [update_self, h]
      exact fun he => erase_ne hj (Phase.receiving.inj he).2.1
    have hahead := (hmover i hmoves j).2
    rw [hchan, hahead, List.nil_append] at hf
    refine ⟨update frames (X.endpoint.receiver i j) rest, fun x => ?_,
      .pop i j kd pending held k f rest stat h hj hf hstat, fun l _ m hlm => ?_⟩
    · change update s.net.chan _ _ x = _
      by_cases hx : x = X.endpoint.receiver i j
      · subst hx
        rw [update_self, update_self, hahead, List.nil_append]
      · rw [update_of_ne hx, update_of_ne hx, hchan]
    · rw [update_of_ne, hlm]
      rintro he
      rw [he, hf] at hlm
      exact List.cons_ne_nil _ _ hlm
  | report i a r rest sum h hqueue hsum => exact ⟨frames, hchan, .report i a r rest sum h hqueue hsum, fun _ _ _ => id⟩
  | pushOverflow i j m pending p h hj hstat =>
    exact ⟨frames, hchan, .pushOverflow i j m pending p h hj hstat, fun _ _ _ => id⟩
  | popOverflow i j kd pending held k f rest h hj hf hstat =>
    have hmoves : update s.net.phase i .panicked i ≠ s.net.phase i := by
      rw [update_self, h]
      exact fun he => by cases he
    have hahead := (hmover i hmoves j).2
    rw [hchan, hahead, List.nil_append] at hf
    exact ⟨frames, hchan, .popOverflow i j kd pending held k f rest h hj hf hstat, fun _ _ _ => id⟩
  | sumOverflow i a r rest h hqueue hsum => exact ⟨frames, hchan, .sumOverflow i a r rest h hqueue hsum, fun _ _ _ => id⟩

end Session
end PrivRecCert.Rounds
