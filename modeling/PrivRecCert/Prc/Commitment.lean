import PrivRecCert.CorRnd.Sharing
import Mathlib.Algebra.Module.Defs

/-! Pedersen commitments. The curve is a parameter: an additive group with scalar
multiplication, three fixed points, and a compressed form of 32 bytes. -/
namespace PrivRecCert.Prc
open CorRnd

/-- What `curve25519_dalek` provides: the base point, the points behind `G1T_IDX` and
`G2T_RESP`, and compression. -/
class Ristretto (G : Type) [AddCommGroup G] [Module Scalar G] where
  basepoint : G
  g1tIdx : G
  g2tResp : G
  compress : G → List U8
  decompress : List U8 → Option G

/-- The documented behaviour of compression: 32 bytes, from which the point is recovered. -/
class LawfulRistretto (G : Type) [AddCommGroup G] [Module Scalar G] [Ristretto G] : Prop where
  compress_length : ∀ c : G, (Ristretto.compress c).length = 32
  decompress_compress : ∀ c : G, Ristretto.decompress (Ristretto.compress c) = some c

/-- The scalars form a group of the same order. -/
instance : Ristretto Scalar where
  basepoint := 1
  g1tIdx := 1 + 1
  g2tResp := 1
  compress := Scalar.toBytes
  decompress bytes := some (Bytes.ofLeBytes bytes : ℕ)

instance : LawfulRistretto Scalar where
  compress_length c := Bytes.leBytes_length 32 c.val
  decompress_compress c := by
    have hround : Bytes.ofLeBytes (Scalar.toBytes c) = c.val :=
      Bytes.ofLeBytes_leBytes ((ZMod.val_lt c).trans ArithValueT.groupOrder_lt)
    change some ((Bytes.ofLeBytes (Scalar.toBytes c) : ℕ) : Scalar) = some c
    rw [hround, ZMod.natCast_zmod_val]

structure Opening where
  rnd : Scalar
  idx : Scalar
  resp : Scalar
  deriving DecidableEq

/-- Starts from the first opening; there is none of an empty slice. -/
def Opening.aggregate : List Opening → Option Opening
  | [] => none
  | first :: rest => some (rest.foldl (fun agg op => ⟨agg.rnd + op.rnd, agg.idx + op.idx, agg.resp + op.resp⟩) first)

structure Commitment (G : Type) where
  c : G

namespace Commitment
variable {G : Type} [AddCommGroup G]

def aggregate (commits : List (Commitment G)) : Commitment G :=
  ⟨commits.foldl (fun c commit => c + commit.c) 0⟩

theorem aggregate_c (commits : List (Commitment G)) :
    (aggregate commits).c = (commits.map Commitment.c).sum := by
  have hfold : ∀ (l : List (Commitment G)) (x : G),
      l.foldl (fun c commit => c + commit.c) x = x + (l.map Commitment.c).sum := by
    intro l
    induction l with
    | nil => simp
    | cons a l ih =>
      intro x
      rw [List.foldl_cons, ih, List.map_cons, List.sum_cons, add_assoc]
  rw [aggregate, hfold, zero_add]

/-- The order of the commitments does not matter. -/
theorem aggregate_perm {l l' : List (Commitment G)} (h : l.Perm l') : aggregate l = aggregate l' := by
  have hc : (aggregate l).c = (aggregate l').c := by
    rw [aggregate_c, aggregate_c]
    exact (h.map _).sum_eq
  cases ha : aggregate l
  cases hb : aggregate l'
  rw [ha, hb] at hc
  exact congrArg Commitment.mk hc

section Curve
variable [Module Scalar G] [Ristretto G]

def commit (op : Opening) : Commitment G :=
  ⟨op.rnd • Ristretto.basepoint + op.idx • Ristretto.g1tIdx + op.resp • Ristretto.g2tResp⟩

def verify [DecidableEq G] (self : Commitment G) (op : Opening) : Bool :=
  let ground : Commitment G := commit op
  self.c = ground.c

def serialize (a : Commitment G) : List U8 := Ristretto.compress a.c

/-- Reads the first 32 bytes. -/
def deserialize (bytes : List U8) : Option (Commitment G) :=
  if 32 ≤ bytes.length then (Ristretto.decompress (bytes.take 32)).map Commitment.mk else none

theorem deserialize_serialize [LawfulRistretto G] (a : Commitment G) :
    deserialize a.serialize = some a := by
  have hlen := LawfulRistretto.compress_length a.c
  rw [deserialize, serialize, if_pos hlen.ge, List.take_of_length_le hlen.le,
    LawfulRistretto.decompress_compress]
  rfl

theorem serialize_injective [LawfulRistretto G] {a b : Commitment G}
    (h : a.serialize = b.serialize) : a = b := by
  have ha := deserialize_serialize a
  rw [h, deserialize_serialize b] at ha
  exact (Option.some.inj ha).symm

end Curve
end Commitment
end PrivRecCert.Prc
