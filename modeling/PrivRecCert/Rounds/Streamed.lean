import PrivRecCert.Rounds.Session
import PrivRecCert.Streams.Framing

/-! A session whose connections carry bytes. To send a frame is to write its length and its bytes, piece by piece and
as there is room; to receive one is to read them, piece by piece and as they come in. -/
namespace PrivRecCert.Rounds
open Function Streams

variable {n : ℕ} {M K B S A R T : Type}

/-- The parties, and the streams between them. The channels of the session stay empty. -/
structure Streamed (n : ℕ) (M K B S A R T : Type) where
  session : Session n M K (List B) S A R T
  stream : Fin n × Fin n → Stream B

namespace Streamed

/-- A party goes on after a broadcast when all of it is written. -/
def Flushed (E : Endpoint n M K (List B) S) (s : Streamed n M K B S A R T) (i : Fin n) : Prop :=
  ∀ j, j ≠ i → (s.stream (E.sender i j)).unsent = []

/-- The same parties with another counter and another phase of one party. -/
def move (s : Session n M K (List B) S A R T) (i j : Fin n) (ph : Phase n M K (List B) A) (stat : T) :
    Session n M K (List B) S A R T :=
  { s with
    net := { s.net with phase := update s.net.phase i ph }
    stat := update s.stat i (update (s.stat i) j stat) }

/-- One step of one party, or of a stream that is written to. The sender counts a frame before it writes it, and the
receiver counts it when it knows its length; `toll` is what a frame of some length costs. A stream has room for `room`
bytes. -/
inductive Step (X : Metered n M K (List B) S A R T) (φ : Framing B) (toll : ℕ → ℕ) (room : ℕ) :
    Streamed n M K B S A R T → Streamed n M K B S A R T → Prop
  | inner {s} (net) (h : Rounds.Step X.endpoint s.session.net net) (hchan : net.chan = s.session.net.chan)
      (hflushed : ∀ i m p, s.session.net.phase i = .sending m [] p → net.phase i ≠ s.session.net.phase i →
        s.Flushed X.endpoint i) :
      Step X φ toll room s { s with session := { s.session with net := net } }
  | start {s} (i j m pending p stat) (h : s.session.net.phase i = .sending m pending p) (hj : j ∈ pending)
      (hstat : X.tally.addSent (s.session.stat i j) (toll (X.endpoint.encode i m).length) = some stat) :
      Step X φ toll room s {
        session := move s.session i j (.sending m (pending.erase j) p) stat
        stream := update s.stream (X.endpoint.sender i j)
          ((s.stream (X.endpoint.sender i j)).send φ (X.endpoint.encode i m)) }
  | write {s} (x stream) (h : Stream.Write room (s.stream x) stream) :
      Step X φ toll room s { s with stream := update s.stream x stream }
  | read {s} (i j kd pending held k stream) (h : s.session.net.phase i = .receiving kd pending held k)
      (hj : j ∈ pending) (hread : Stream.Read φ (s.stream (X.endpoint.receiver i j)) stream) :
      Step X φ toll room s { s with stream := update s.stream (X.endpoint.receiver i j) stream }
  | announce {s} (i j kd pending held k got stat) (h : s.session.net.phase i = .receiving kd pending held k)
      (hj : j ∈ pending) (hreader : (s.stream (X.endpoint.receiver i j)).reader = .header got)
      (hfull : got.length = φ.width)
      (hstat : X.tally.addReceived (s.session.stat i j) (toll (φ.decode got)) = some stat) :
      Step X φ toll room s {
        session := move s.session i j (.receiving kd pending held k) stat
        stream := update s.stream (X.endpoint.receiver i j)
          { s.stream (X.endpoint.receiver i j) with reader := .body (φ.decode got) [] } }
  | take {s} (i j kd pending held k len got) (h : s.session.net.phase i = .receiving kd pending held k)
      (hj : j ∈ pending) (hreader : (s.stream (X.endpoint.receiver i j)).reader = .body len got)
      (hfull : got.length = len) :
      Step X φ toll room s {
        session := move s.session i j (.receiving kd (pending.erase j) (held ++ [got]) k) (s.session.stat i j)
        stream := update s.stream (X.endpoint.receiver i j)
          { s.stream (X.endpoint.receiver i j) with reader := .header [] } }
  | report {s} (i a r rest sum) (h : s.session.net.phase i = .ready (.ret a)) (hqueue : s.session.queue i = r :: rest)
      (hsum : X.total i (s.session.stat i) = some sum) :
      Step X φ toll room s { s with session := {
        net := { s.session.net with phase := update s.session.net.phase i (.ready (X.next i a rest)) }
        queue := update s.session.queue i rest
        stat := update s.session.stat i fun _ => X.tally.zero
        reports := update s.session.reports i (s.session.reports i ++ [sum]) } }
  | startOverflow {s} (i j m pending p) (h : s.session.net.phase i = .sending m pending p) (hj : j ∈ pending)
      (hstat : X.tally.addSent (s.session.stat i j) (toll (X.endpoint.encode i m).length) = none) :
      Step X φ toll room s { s with session := move s.session i j .panicked (s.session.stat i j) }
  | announceOverflow {s} (i j kd pending held k got) (h : s.session.net.phase i = .receiving kd pending held k)
      (hj : j ∈ pending) (hreader : (s.stream (X.endpoint.receiver i j)).reader = .header got)
      (hfull : got.length = φ.width)
      (hstat : X.tally.addReceived (s.session.stat i j) (toll (φ.decode got)) = none) :
      Step X φ toll room s { s with session := move s.session i j .panicked (s.session.stat i j) }
  | sumOverflow {s} (i a r rest) (h : s.session.net.phase i = .ready (.ret a)) (hqueue : s.session.queue i = r :: rest)
      (hsum : X.total i (s.session.stat i) = none) :
      Step X φ toll room s { s with
        session := { s.session with net := { s.session.net with phase := update s.session.net.phase i .panicked } } }

/-- The states some interleaving and some segmentation lead to, from streams with nothing on them. -/
def Reachable (X : Metered n M K (List B) S A R T) (φ : Framing B) (toll : ℕ → ℕ) (room : ℕ)
    (s₀ : Session n M K (List B) S A R T) : Streamed n M K B S A R T → Prop :=
  Relation.ReflTransGen (Step X φ toll room) ⟨s₀, fun _ => .empty⟩

end Streamed
end PrivRecCert.Rounds
