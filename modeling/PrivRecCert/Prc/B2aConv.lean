import PrivRecCert.Prc.Connection
import PrivRecCert.CorRnd.DaBit

/-! Conversion of Boolean shares into arithmetic shares with daBits. -/
namespace PrivRecCert.Prc
open CorRnd SimdArray Rounds

/-- `party_const` determines whether this party adds constants. -/
structure ConvLayer where
  partyConst : Bool

namespace ConvLayer

def totalBits (booleanValues : List BooleanValue) : ℕ := (booleanValues.map BooleanValue.bitLen).sum

/-- The bits of the values one after the other, written from position `current` on. -/
def decompose : List BooleanValue → ℕ → BitArray → Option BitArray
  | [], _, b => some b
  | bv :: bvs, current, b => do
    let b ← (List.range bv.bitLen).foldlM (fun b i => b.setBit (current+i) (bv.value.getLsbD i)) b
    decompose bvs (current + bv.bitLen) b

/-- `e[i] = b[i] ^ r_z2[i]`. -/
def blind (b : BitArray) (dabits : List DaBit) (e : BitArray) : Option BitArray :=
  (List.range dabits.length).foldlM (fun e i => do
    e.setBit i ((← b.get i) ^^ (← dabits[i]?).rZ2)) e

/-- One bit: `e + [r] - 2·e·[r]`, the constant `e` being added by one party only. -/
def convertBit (c : ConvLayer) (e : BitArray) (dabits : List DaBit) (current : ℕ) : Option ArithValueT := do
  let bit ← e.get current
  let dabit ← dabits[current]?
  let round := dabit.rZp
  let eRaMul2 := dabit.rZp * ArithValueT.fromU32 (BitVec.ofNat 32 (2*bit.toNat))
  let round := round - eRaMul2
  some (if c.partyConst then round + ArithValueT.fromU32 (BitVec.ofNat 32 bit.toNat) else round)

/-- The values of the list, each the sum of its bits weighted by powers of two. -/
def recombine (c : ConvLayer) (e : BitArray) (dabits : List DaBit) :
    List BooleanValue → ℕ → Option (List ArithValueT)
  | [], _ => some []
  | bv :: bvs, current => do
    let val ← (List.range bv.bitLen).foldlM (fun (val : ArithValueT) i => do
      let round ← c.convertBit e dabits (current+i)
      some (val + round * ArithValueT.fromU32 (1#32 <<< i))) ArithValueT.zero
    some (val :: (← c.recombine e dabits bvs (current + bv.bitLen)))

variable {G : Type}

def interact (c : ConvLayer) (booleanValues : List BooleanValue) (dabitProvider : DaBitProvider) :
    Party G (List ArithValueT × DaBitProvider) := do
  let totalBits := totalBits booleanValues
  let b ← .lift (BitArray.new totalBits)
  let b ← .lift (decompose booleanValues 0 b)
  let (dabits, dabitProvider) ← .lift (dabitProvider.take totalBits)
  let e ← .lift (BitArray.new totalBits)
  let e ← .lift (blind b dabits e)
  sendDabitShares (← .lift e.clone)
  let recShares ← receiveDabitShares
  let e ← .lift (e.inplaceReconstruct recShares)
  let arith ← .lift (c.recombine e dabits booleanValues 0)
  return (arith, dabitProvider)

end ConvLayer
end PrivRecCert.Prc
