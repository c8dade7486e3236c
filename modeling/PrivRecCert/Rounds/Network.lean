import PrivRecCert.Rounds.Lockstep
import Mathlib.Logic.Function.Basic
import Mathlib.Logic.Relation

/-! Asynchronous execution of `n` programs over point-to-point FIFO channels. A broadcast is one
channel operation per peer, a receive takes one frame from every peer, each frame is handled in
a step of its own, and all of these interleave freely among the parties. -/
namespace PrivRecCert.Rounds
open Function

/-- Message handling of the parties: the channels on which `i` sends to and receives from `j`, how a
message becomes a frame, how a frame is put into the local store, and how a receive empties the
store. `none` is a failed assertion. -/
structure Endpoint (n : ℕ) (M K F S : Type) where
  sender : Fin n → Fin n → Fin n × Fin n
  receiver : Fin n → Fin n → Fin n × Fin n
  encode : Fin n → M → F
  absorb : Fin n → S → F → Option S
  collect : Fin n → K → S → Option (List M × S)
  capacity : ℕ

/-- Where a party stands between two communication points. -/
inductive Phase (n : ℕ) (M K F α : Type) : Type
  | ready (p : Proc M K α)
  | sending (m : M) (pending : List (Fin n)) (next : Proc M K α)
  | receiving (kind : K) (pending : List (Fin n)) (held : List F) (next : List M → Proc M K α)
  | panicked

/-- A configuration. `chan (i, j)` holds the undelivered frames of channel `(i, j)`, oldest first;
`sent` and `got` record what every party broadcast and what its receives returned. -/
structure Net (n : ℕ) (M K F S α : Type) where
  phase : Fin n → Phase n M K F α
  store : Fin n → S
  chan : Fin n × Fin n → List F
  sent : Fin n → List M
  got : Fin n → List (List M)

variable {n : ℕ} {M K F S α : Type}

/-- All parties at the start of their programs, with nothing in flight. -/
def Net.init (procs : Fin n → Proc M K α) (empty : S) : Net n M K F S α where
  phase i := .ready (procs i)
  store _ := empty
  chan _ := []
  sent _ := []
  got _ := []

/-- One step of one party. A frame that cannot be handled and a receive whose store does not
hold the expected number of entries make the party panic. -/
inductive Step (E : Endpoint n M K F S) : Net n M K F S α → Net n M K F S α → Prop
  | begin {s} (i m p) (h : s.phase i = .ready (.send m p)) :
      Step E s { s with
        phase := update s.phase i (.sending m (peers i) p)
        sent := update s.sent i (s.sent i ++ [m]) }
  | push {s} (i j m pending p) (h : s.phase i = .sending m pending p) (hj : j ∈ pending)
      (hcap : (s.chan (E.sender i j)).length < E.capacity) :
      Step E s { s with
        phase := update s.phase i (.sending m (pending.erase j) p)
        chan := update s.chan (E.sender i j) (s.chan (E.sender i j) ++ [E.encode i m]) }
  | finish {s} (i m p) (h : s.phase i = .sending m [] p) :
      Step E s { s with phase := update s.phase i (.ready p) }
  | listen {s} (i kd k) (h : s.phase i = .ready (.recv kd k)) :
      Step E s { s with phase := update s.phase i (.receiving kd (peers i) [] k) }
  | pop {s} (i j kd pending held k f rest) (h : s.phase i = .receiving kd pending held k)
      (hj : j ∈ pending) (hf : s.chan (E.receiver i j) = f :: rest) :
      Step E s { s with
        phase := update s.phase i (.receiving kd (pending.erase j) (held ++ [f]) k)
        chan := update s.chan (E.receiver i j) rest }
  | handle {s} (i kd pending before f after k st)
      (h : s.phase i = .receiving kd pending (before ++ f :: after) k)
      (ha : E.absorb i (s.store i) f = some st) :
      Step E s { s with
        phase := update s.phase i (.receiving kd pending (before ++ after) k)
        store := update s.store i st }
  | reject {s} (i kd pending before f after k)
      (h : s.phase i = .receiving kd pending (before ++ f :: after) k)
      (ha : E.absorb i (s.store i) f = none) :
      Step E s { s with phase := update s.phase i .panicked }
  | deliver {s} (i kd k l st) (h : s.phase i = .receiving kd [] [] k)
      (hc : E.collect i kd (s.store i) = some (l, st)) :
      Step E s { s with
        phase := update s.phase i (.ready (k l))
        store := update s.store i st
        got := update s.got i (s.got i ++ [l]) }
  | missing {s} (i kd k) (h : s.phase i = .receiving kd [] [] k)
      (hc : E.collect i kd (s.store i) = none) :
      Step E s { s with phase := update s.phase i .panicked }
  | crash {s} (i) (h : s.phase i = .ready .fail) :
      Step E s { s with phase := update s.phase i .panicked }

/-- The configurations some interleaving leads to. -/
def Reachable (E : Endpoint n M K F S) (procs : Fin n → Proc M K α) (empty : S) :
    Net n M K F S α → Prop :=
  Relation.ReflTransGen (Step E) (Net.init procs empty)

/-- What a party may rely on: channel `(i, j)` leads from `i` to `j`, a frame from another party is
stored as the wire says, under its kind, and a receive that finds one entry per peer returns them
and clears its slot. -/
structure Lawful [DecidableEq K] (E : Endpoint n M K F S) (kindOf : M → K)
    (wire : Fin n → M → Option M) (slots : S → K → List M) : Prop where
  sender : ∀ i j, i ≠ j → E.sender i j = (i, j)
  receiver : ∀ i j, i ≠ j → E.receiver i j = (j, i)
  absorb : ∀ i j m w st, i ≠ j → wire j m = some w →
    ∃ st', E.absorb i st (E.encode j m) = some st' ∧
      slots st' = update (slots st) (kindOf m) (slots st (kindOf m) ++ [w])
  collect : ∀ i kd st, (slots st kd).length = n-1 →
    ∃ st', E.collect i kd st = some (slots st kd, st') ∧ slots st' = update (slots st) kd []
  capacity : 2 < E.capacity

/-- A wire that rejects more is as lawful. -/
theorem Lawful.mono [DecidableEq K] {E : Endpoint n M K F S} {kindOf : M → K}
    {wire wire' : Fin n → M → Option M} {slots : S → K → List M} (L : Lawful E kindOf wire slots)
    (h : ∀ j m w, wire' j m = some w → wire j m = some w) : Lawful E kindOf wire' slots :=
  { L with absorb := fun i j m w st hij hw => L.absorb i j m w st hij (h j m w hw) }

/-- What a network promises about every configuration: nobody panics, no channel holds more than
two frames, somebody can move unless all have finished, finished parties have results in `Q`, and
the receive of a round returned the messages of exactly that round. -/
structure Net.Good (E : Endpoint n M K F S) (kindOf : M → K) (wire : Fin n → M → Option M)
    (Q : (Fin n → α) → Prop) (s : Net n M K F S α) : Prop where
  no_panic : ∀ i, s.phase i ≠ .panicked
  chan_le : ∀ i j, (s.chan (i, j)).length ≤ 2
  progress : (∃ b : Fin n → α, ∀ i, s.phase i = .ready (.ret (b i))) ∨ ∃ s', Step E s s'
  result : ∀ b : Fin n → α, (∀ i, s.phase i = .ready (.ret (b i))) → Q b
  delivered : ∀ (i : Fin n) (r : ℕ) (l : List M), (s.got i)[r]? = some l → ∃ (kd : K) (w : Fin n → M),
    (∀ j, ∃ m, (s.sent j)[r]? = some m ∧ kindOf m = kd ∧ wire j m = some (w j)) ∧
      l.Perm (others w i)

end PrivRecCert.Rounds
