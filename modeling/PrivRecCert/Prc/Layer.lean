import PrivRecCert.Prc.Connection
import PrivRecCert.CorRnd.Beaver

/-! One layer of AND gates: tickets reserve gates, operations route data into their input streams,
and one exchange of blinded streams evaluates all of them. -/
namespace PrivRecCert.Prc
open CorRnd SimdArray Rounds

inductive LayerState : Type
  | ticketing
  | dataInitialized
  | operationsExecuted
  | sendingBeaverShares
  | beaverSharesReceived
  | finished
  deriving DecidableEq

structure Ticket where
  layerNum : ℕ
  stBit : ℕ
  endBit : ℕ
  deriving DecidableEq

namespace Ticket

/-- A ticket starts at a whole byte. -/
def stByte (t : Ticket) : Option ℕ := if t.stBit % 8 = 0 then some (t.stBit/8) else none

def endByte (t : Ticket) : ℕ := divCeil t.endBit 8

end Ticket

inductive LayerSource : Type
  | input (data : BitArray)
  | takeZ (ticket : Ticket)

/-- Stream 0 is `x` and stream 1 is `y`. -/
inductive LayerDest : Type
  | relay (ticket : Ticket) (stream : ℕ)
  | none

inductive MpcOperation : Type
  | copy (inp : LayerSource) (out : LayerDest)
  | replicate (n : ℕ) (inp : LayerSource) (out : LayerDest)
  | bitExpand (n : ℕ) (inp : LayerSource) (out : LayerDest)

structure Layer where
  partyConst : Bool
  layerNum : ℕ
  currentSize : ℕ
  state : LayerState
  andData : Option D2BitArray
  beaverData : Option D2BitArray
  operations : List MpcOperation

namespace Layer

def new (partyConst : Bool) (layerNum : ℕ) : Layer :=
  ⟨partyConst, layerNum, 0, .ticketing, none, none, []⟩

/-- Reserves `bitSize` gates, rounded up to whole bytes. -/
def requestTicket (L : Layer) (bitSize : ℕ) : Option (Ticket × Layer) :=
  if L.state = .ticketing then
    let stBit := L.currentSize*8
    let endBit := stBit + bitSize
    let byteSize := divCeil bitSize 8
    some (⟨L.layerNum, stBit, endBit⟩, { L with currentSize := L.currentSize + byteSize })
  else none

def addOperation (L : Layer) (op : MpcOperation) : Option Layer :=
  if L.state = .ticketing then some { L with operations := L.operations ++ [op] } else none

/-- `some ()` when the ticket may be used. -/
def checkTicket (L : Layer) (t : Ticket) : Option Unit :=
  if L.state ≠ .dataInitialized ∧ L.state ≠ .finished then none
  else if t.layerNum ≠ L.layerNum then none
  else if t.endByte > L.currentSize then none
  else some ()

/-- The position and the array a destination names, and the layer after the array is replaced. -/
def getMutArrayFromDestination (L : Layer) : LayerDest → Option (ℕ × BitArray × (BitArray → Layer))
  | .none => none
  | .relay ticket stream =>
    if stream ≠ 0 ∧ stream ≠ 1 then none
    else do
      L.checkTicket ticket
      let andData ← L.andData
      let dest ← andData.getArray stream
      some (ticket.stBit, dest, fun a => { L with andData := some (andData.setArray stream a) })

def readOutput (L : Layer) (ticket : Ticket) : Option BitArray :=
  if L.state = .finished then do
    L.checkTicket ticket
    let andData ← L.andData
    let out ← (← andData.getArray 2).toSlice (← ticket.stByte) ticket.endByte
    out.shrinkToPartialLastByte (ticket.endBit - ticket.stBit)
  else none

/-- The data of an input, or the output of the previous layer at a ticket. -/
def extractSrcData (inp : LayerSource) (prevLayer : Option Layer) : Option BitArray :=
  match inp with
  | .input data => some data
  | .takeZ ticket => do (← prevLayer).readOutput ticket

def execOperation (L : Layer) (op : MpcOperation) (prevLayer : Option Layer) : Option Layer :=
  match op with
  | .copy inp out => do
    let data ← extractSrcData inp prevLayer
    let (startBit, dest, write) ← L.getMutArrayFromDestination out
    some (write (← dest.copyFrom startBit data))
  | .replicate n inp out => do
    let data ← extractSrcData inp prevLayer
    let (startBit, dest, write) ← L.getMutArrayFromDestination out
    let dest ← (List.range n).foldlM (fun d i => d.copyFrom (startBit + i*data.bitSize) data) dest
    some (write dest)
  | .bitExpand n inp out => do
    let zeroes ← BitArray.new n
    let ones ← BitArray.ones n
    let data ← extractSrcData inp prevLayer
    let (startBit, dest, write) ← L.getMutArrayFromDestination out
    let dest ← (List.range data.bitSize).foldlM (fun d i => do
      if ← data.get i then d.copyFrom (startBit + i*n) ones
      else d.copyFrom (startBit + i*n) zeroes) dest
    some (write dest)

def endTicketingPhase (L : Layer) (beaverProvider : BeaverProvider) : Option (Layer × BeaverProvider) :=
  if L.state = .ticketing then do
    let andData ← D2BitArray.zeros 3 (L.currentSize*8)
    let (beaverData, beaverProvider) ← beaverProvider.take L.currentSize
    some ({ L with
      andData := some andData
      beaverData := some beaverData
      state := .dataInitialized }, beaverProvider)
  else none

/-- The operations are popped, so the last one added runs first. -/
def executeOperations (L : Layer) (prevLayer : Option Layer) : Option Layer :=
  if L.state = .dataInitialized then do
    let L ← L.operations.reverse.foldlM (fun L op => L.execOperation op prevLayer)
      { L with operations := [] }
    some { L with state := .operationsExecuted }
  else none

def blindAndWithBeaver (L : Layer) : Option Layer :=
  if L.state = .operationsExecuted then do
    let (x, y, _) ← (← L.andData).unpackAsBeaver
    let (a, b, c) ← (← L.beaverData).unpackAsBeaver
    let a ← a.inplaceXor x
    let b ← b.inplaceXor y
    some { L with beaverData := some ⟨[a, b, c]⟩, state := .sendingBeaverShares }
  else none

def getBeaverOutShares (L : Layer) : Option D2BitArray := do
  let (u, v, _) ← (← L.beaverData).unpackAsBeaver
  some ⟨[← u.clone, ← v.clone]⟩

def reconsBeaverUv (L : Layer) (beaverShares : List D2BitArray) : Option Layer :=
  if L.state = .sendingBeaverShares then do
    let beaverData ← beaverShares.foldlM D2BitArray.beaverXorD2 (← L.beaverData)
    some { L with beaverData := some beaverData, state := .beaverSharesReceived }
  else none

/-- `z = [uv] + u·y + v·x + c`, the product `uv` being added by one party only. -/
def finishAndExchange (L : Layer) : Option Layer :=
  if L.state = .beaverSharesReceived then do
    let (x, y, z) ← (← L.andData).unpackAsBeaver
    let (u, v, c) ← (← L.beaverData).unpackAsBeaver
    let z ← if L.partyConst then z.mutAnd u v else some z
    let u ← u.inplaceAnd y
    let v ← v.inplaceAnd x
    let z ← z.inplaceXor u
    let z ← z.inplaceXor v
    let z ← z.inplaceXor c
    some { L with
      andData := some ⟨[x, y, z]⟩
      beaverData := some ⟨[u, v, c]⟩
      state := .finished }
  else none

variable {G : Type}

def interact (L : Layer) (prevLayer : Option Layer) (beaverProvider : BeaverProvider) :
    Party G (Layer × BeaverProvider) := do
  let (L, beaverProvider) ← .lift (L.endTicketingPhase beaverProvider)
  let L ← .lift (L.executeOperations prevLayer)
  let L ← .lift L.blindAndWithBeaver
  let recShares ← .lift L.getBeaverOutShares
  sendBeaverShares recShares
  let recShares ← receiveBeaverShares
  let L ← .lift (L.reconsBeaverUv recShares)
  let L ← .lift L.finishAndExchange
  return (L, beaverProvider)

end Layer
end PrivRecCert.Prc
