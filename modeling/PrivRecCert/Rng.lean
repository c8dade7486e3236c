import PrivRecCert.Bytes.LittleEndian

/-! Random generators. `ChaCha8Rng` is a word stream fixed by its seed together with the number of
words already read; which stream a seed has is left open. -/
namespace PrivRecCert
open Bytes

/-- The operations of `RngCore`. -/
class RngCore (R : Type) where
  nextU32 : R → U32 × R
  fillBytes : R → (m : ℕ) → {l : List U8 // l.length = m} × R

/-- A seed `[u8; 32]`. -/
abbrev Seed := Vector U8 32

/-- The words from `start` on, as `m` bytes; what is left of the last word is dropped. -/
def keystreamBytes (stream : ℕ → U32) (start m : ℕ) : List U8 :=
  ((List.range ((m+3)/4)).flatMap fun i => leBytes 4 (stream (start+i)).toNat).take m

theorem keystreamBytes_length (stream : ℕ → U32) (start m : ℕ) :
    (keystreamBytes stream start m).length = m := by
  simp only [keystreamBytes, List.length_take, List.length_flatMap, leBytes_length,
    List.map_const', List.length_range, List.sum_replicate_nat]
  omega

structure ChaCha8Rng where
  stream : ℕ → U32
  cursor : ℕ

namespace ChaCha8Rng

/-- The words every seed gives rise to. -/
abbrev Keystream := Seed → ℕ → U32

def fromSeed (chacha : Keystream) (seed : Seed) : ChaCha8Rng := ⟨chacha seed, 0⟩

def nextU32 (r : ChaCha8Rng) : U32 × ChaCha8Rng := (r.stream r.cursor, { r with cursor := r.cursor+1 })

def fillBytes (r : ChaCha8Rng) (m : ℕ) : {l : List U8 // l.length = m} × ChaCha8Rng :=
  (⟨keystreamBytes r.stream r.cursor m, keystreamBytes_length _ _ _⟩,
    { r with cursor := r.cursor + (m+3)/4 })

instance : RngCore ChaCha8Rng := ⟨nextU32, fillBytes⟩

end ChaCha8Rng
end PrivRecCert
