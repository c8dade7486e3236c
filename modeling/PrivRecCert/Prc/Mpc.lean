import PrivRecCert.Prc.Layer
import PrivRecCert.Prc.B2aConv

/-! `MpcProvider`: requests build the layers of a circuit, and a run evaluates the layers from the
deepest one upwards. The message handler is the party's connection to the network. -/
namespace PrivRecCert.Prc
open CorRnd SimdArray Rounds

structure MpcProvider where
  beaverProvider : BeaverProvider
  dabitProvider : DaBitProvider
  layers : List Layer
  partyConst : Bool
  outputLayer : Option Layer

namespace MpcProvider

def new (partyConst : Bool) (beaverProvider : BeaverProvider) (dabitProvider : DaBitProvider) :
    MpcProvider := ⟨beaverProvider, dabitProvider, [], partyConst, none⟩

def clear (p : MpcProvider) : MpcProvider := { p with layers := [], outputLayer := none }

def createNewLayer (p : MpcProvider) : MpcProvider :=
  { p with layers := p.layers ++ [Layer.new p.partyConst p.layers.length] }

/-- Creates layers until there is one with number `layerId`. -/
def ensureLayer (p : MpcProvider) (layerId : ℕ) : MpcProvider :=
  (List.range (layerId + 1 - p.layers.length)).foldl (fun p _ => p.createNewLayer) p

/-- A mutable reference to a layer: the layer, and the provider after the layer is replaced. -/
def getLayer (p : MpcProvider) (layerId : ℕ) : Option (Layer × (Layer → MpcProvider)) := do
  let p := p.ensureLayer layerId
  some (← p.layers[layerId]?, fun L => { p with layers := p.layers.set layerId L })

/-- Requests the conjunction of two arrays of `bitSize` bits. -/
def and (p : MpcProvider) (bitSize : ℕ) (a b : LayerSource) : Option (LayerSource × MpcProvider) :=
  if bitSize = 0 then none
  else do
    let (currentLayer, write) ← p.getLayer 0
    let (andTicket, currentLayer) ← currentLayer.requestTicket bitSize
    let currentLayer ← currentLayer.addOperation (.copy a (.relay andTicket 0))
    let currentLayer ← currentLayer.addOperation (.copy b (.relay andTicket 1))
    some (.takeZ andTicket, write currentLayer)

/-- The halves of an index are encoded one layer further down, and combined by one AND. -/
def recursiveOheVec (p : MpcProvider) (layerNum bitNum : ℕ) (idxBshared : U32) :
    Option (LayerSource × MpcProvider) :=
  if _h0 : bitNum = 0 then none
  else if _h1 : bitNum = 1 then do
    -- only the constant party negates the bit
    let ohe ← BitArray.new 2
    let ohe ← ohe.setBit 0 ((idxBshared != 0) ^^ p.partyConst)
    let ohe ← ohe.setBit 1 (idxBshared != 0)
    some (.input ohe, p)
  else do
    let split := (bitNum+1)/2
    let lowIdxBshared := idxBshared &&& ((1#32 <<< split) - 1)
    let highIdxBshared := idxBshared >>> split
    let lowBitNum := split
    let highBitNum := bitNum - split
    let (lowSource, p) ← p.recursiveOheVec (layerNum+1) lowBitNum lowIdxBshared
    let (highSource, p) ← p.recursiveOheVec (layerNum+1) highBitNum highIdxBshared
    let (currentLayer, write) ← p.getLayer layerNum
    let (andTicket, currentLayer) ← currentLayer.requestTicket (2^bitNum)
    let currentLayer ← currentLayer.addOperation
      (.replicate (2^highBitNum) lowSource (.relay andTicket 0))
    let currentLayer ← currentLayer.addOperation
      (.bitExpand (2^lowBitNum) highSource (.relay andTicket 1))
    some (.takeZ andTicket, write currentLayer)
termination_by bitNum

/-- The one-hot vector of a shared value. -/
def oheVec (p : MpcProvider) (idxBshared : BooleanValue) : Option (LayerSource × MpcProvider) :=
  p.recursiveOheVec 0 idxBshared.bitLen idxBshared.value

def getOutput (p : MpcProvider) (src : LayerSource) : Option BitArray :=
  Layer.extractSrcData src p.outputLayer

variable {G : Type}

/-- The loop of `run` over the layers, deepest layer first. -/
def runLayers : List Layer → Option Layer → BeaverProvider → Party G (Option Layer × BeaverProvider)
  | [], prevLayer, beaverProvider => return (prevLayer, beaverProvider)
  | layer :: layers, prevLayer, beaverProvider => do
    let (layer, beaverProvider) ← layer.interact prevLayer beaverProvider
    runLayers layers (some layer) beaverProvider

def run (p : MpcProvider) : Party G MpcProvider := do
  let (outputLayer, beaverProvider) ← runLayers p.layers.reverse none p.beaverProvider
  return { p with layers := [], beaverProvider := beaverProvider, outputLayer := outputLayer }

def runConvB2A (p : MpcProvider) (binary : List BooleanValue) :
    Party G (List ArithValueT × MpcProvider) := do
  let (arith, dabitProvider) ← (ConvLayer.mk p.partyConst).interact binary p.dabitProvider
  return (arith, { p with dabitProvider := dabitProvider })

/-- Every party learns all commitments; the constant party returns their sum. -/
def aggregateCommitments [AddCommGroup G] (p : MpcProvider) (commit : Commitment G) :
    Party G (Option (Commitment G)) := do
  sendCommitToAgg commit
  let commitments ← receiveAggCommits
  let commitments := commitments ++ [commit]
  return if p.partyConst then some (Commitment.aggregate commitments) else none

end MpcProvider
end PrivRecCert.Prc
