import PrivRecCert.Prc.Channels

/-! Setting up connections over TCP. Every party listens, and connects to the peers with lower numbers. The
dialling end knows whom it has called, the listening end learns it from a handshake; both file the connection
under the number of the peer, and the handler is handed out once as many connections are on file as there are
peers. This is about the set-up from the moment on in which all parties listen, so that no dial is refused. -/
namespace PrivRecCert.Prc
open Function CorRnd SimdArray Rounds

variable {n : ℕ}

/-- What a frame costs on a stream: its bytes and its length, which goes before it. -/
def tcpBytes (frame : List U8) : ℕ := frame.length + 4

/-- One end of a stream. A stream is named by the party that dials and the party that listens: nobody dials the
same peer twice. -/
structure TcpConnection (n : ℕ) where
  stat : NetStat
  receiverId : Option ℕ
  stream : Fin n × Fin n
  dialled : Bool
  deriving DecidableEq

namespace TcpConnection

/-- The direction of the stream that this end writes to. -/
def sender (c : TcpConnection n) : Fin n × Fin n := if c.dialled then c.stream else c.stream.swap

/-- The direction of the stream that this end reads from. -/
def receiver (c : TcpConnection n) : Fin n × Fin n := if c.dialled then c.stream.swap else c.stream

def setPeerId (c : TcpConnection n) (id : ℕ) : TcpConnection n := { c with receiverId := some id }

end TcpConnection

/-- Where a party stands in its loop over the peers it connects to. -/
inductive Dialling (n : ℕ) : Type
  | idle
  | connected (peer : Fin n) (con : TcpConnection n)
  | greeted (peer : Fin n) (con : TcpConnection n)

/-- Where a party stands in its loop over incoming connections. -/
inductive Listening (n : ℕ) : Type
  | idle
  | waiting (con : TcpConnection n)
  | panicked

/-- The connections of a party by the number of the peer: a hash map, in no particular order. -/
abbrev Connections (n : ℕ) : Type := List (ℕ × TcpConnection n)

/-- Filing a connection replaces the one that is there. -/
def Connections.insert (m : Connections n) (id : ℕ) (con : TcpConnection n) : Connections n :=
  (id, con) :: m.filter fun e => e.1 ≠ id

section Handshake
variable (G : Type) [AddCommGroup G] [Module Scalar G] [Ristretto G]

def handshakeFrame (i : Fin n) : List U8 := (Cmd.handshake (ownerId i) : Cmd G).serialize

/-- `handle_new_listen_connection` once a frame has come in: the number of the peer, and the connection. -/
def handleNewListenConnection (con : TcpConnection n) (frame : List U8) : Option (ℕ × TcpConnection n) := do
  let stat ← con.stat.addReceived (tcpBytes frame)
  match (← Cmd.deserialize frame : Cmd G) with
  | .handshake peerId => some (peerId.toNat, { con with stat := stat }.setPeerId peerId.toNat)
  | _ => none

end Handshake

/-- The state of all parties. `wire` holds the frames in flight in each direction of a stream, and `visited` the
connections in the order in which `get_handler` has come across them. -/
structure TcpSetup (n : ℕ) where
  todo : Fin n → List (Fin n)
  dialling : Fin n → Dialling n
  listening : Fin n → Listening n
  backlog : Fin n → List (Fin n × Fin n)
  wire : Fin n × Fin n → List (List U8)
  connections : Fin n → Connections n
  visited : Fin n → Option (Connections n)

namespace TcpSetup

/-- All parties listen already, and have yet to go through the list of peers. -/
def init (infos : List (Fin n)) : TcpSetup n where
  todo _ := infos
  dialling _ := .idle
  listening _ := .idle
  backlog _ := []
  wire _ := []
  connections _ := []
  visited _ := none

/-- The connections of the handler: all that are not filed under the party's own number. -/
def getHandler (i : Fin n) (order : Connections n) : List (TcpConnection n) :=
  (order.filter fun e => e.1 ≠ (i : ℕ)).map Prod.snd

/-- One step of one party: of its loop over the peers to dial, of its loop over incoming connections, or the end
of its wait for all connections. -/
inductive Step (G : Type) [AddCommGroup G] [Module Scalar G] [Ristretto G] : TcpSetup n → TcpSetup n → Prop
  | skip {s} (i j : Fin n) (rest) (h : s.dialling i = .idle) (htodo : s.todo i = j :: rest) (hj : ¬ j < i) :
      Step G s { s with todo := update s.todo i rest }
  | dial {s} (i j : Fin n) (rest) (h : s.dialling i = .idle) (htodo : s.todo i = j :: rest) (hj : j < i) :
      Step G s { s with
        todo := update s.todo i rest
        dialling := update s.dialling i (.connected j ⟨.zero, some j, (i, j), true⟩)
        backlog := update s.backlog j (s.backlog j ++ [(i, j)]) }
  | greet {s} (i j : Fin n) (con stat) (h : s.dialling i = .connected j con)
      (hstat : con.stat.addSent (tcpBytes (handshakeFrame G i)) = some stat) :
      Step G s { s with
        dialling := update s.dialling i (.greeted j { con with stat := stat })
        wire := update s.wire con.sender (s.wire con.sender ++ [handshakeFrame G i]) }
  | file {s} (i j : Fin n) (con) (h : s.dialling i = .greeted j con) :
      Step G s { s with
        dialling := update s.dialling i .idle
        connections := update s.connections i ((s.connections i).insert j con) }
  | accept {s} (i x rest) (h : s.listening i = .idle) (hx : s.backlog i = x :: rest) :
      Step G s { s with
        listening := update s.listening i (.waiting ⟨.zero, none, x, false⟩)
        backlog := update s.backlog i rest }
  | welcome {s} (i con frame rest id con') (h : s.listening i = .waiting con)
      (hframe : s.wire con.receiver = frame :: rest)
      (hnew : handleNewListenConnection G con frame = some (id, con')) :
      Step G s { s with
        listening := update s.listening i .idle
        wire := update s.wire con.receiver rest
        connections := update s.connections i ((s.connections i).insert id con') }
  | reject {s} (i con frame rest) (h : s.listening i = .waiting con) (hframe : s.wire con.receiver = frame :: rest)
      (hnew : handleNewListenConnection G con frame = none) :
      Step G s { s with listening := update s.listening i .panicked }
  | ready {s} (i order) (htodo : s.todo i = []) (h : s.dialling i = .idle) (hvisited : s.visited i = none)
      (hlen : (s.connections i).length = n-1) (horder : order.Perm (s.connections i)) :
      Step G s { s with visited := update s.visited i (some order) }

/-- The states some order of steps leads to. -/
def Reachable (G : Type) [AddCommGroup G] [Module Scalar G] [Ristretto G] (infos : List (Fin n)) :
    TcpSetup n → Prop :=
  Relation.ReflTransGen (Step G) (init infos)

end TcpSetup
end PrivRecCert.Prc
