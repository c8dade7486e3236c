import PrivRecCert.SimdArray.BitArray
import Mathlib.Data.List.Forall2

/-! `D2BitArray`: several bit arrays side by side, such as the streams of Beaver triples. -/
namespace PrivRecCert.SimdArray
open Bytes

structure D2BitArray where
  arrays : List BitArray
  deriving DecidableEq

namespace D2BitArray

def zeros (n bitSize : ℕ) : Option D2BitArray := do
  some ⟨← (List.range n).mapM fun _ => BitArray.new bitSize⟩

def random {R : Type} [RngCore R] (arraySize bitNum : ℕ) (rng : R) : Option (D2BitArray × R) := do
  let (arrays, rng) ← BitArray.randoms bitNum arraySize rng
  some (⟨arrays⟩, rng)

def fromSeed (chacha : ChaCha8Rng.Keystream) (arraySize bitNum : ℕ) (seed : Seed) :
    Option D2BitArray :=
  (random arraySize bitNum (ChaCha8Rng.fromSeed chacha seed)).map Prod.fst

def push (d : D2BitArray) (array : BitArray) : D2BitArray := ⟨d.arrays ++ [array]⟩

def clone (d : D2BitArray) : Option D2BitArray := do some ⟨← d.arrays.mapM BitArray.clone⟩

/-- The byte size of the first array. -/
def innerByteSize (d : D2BitArray) : ℕ :=
  match d.arrays with
  | [] => 0
  | a :: _ => a.byteSize

def toSlice (d : D2BitArray) (stByte endByte : ℕ) : Option D2BitArray := do
  some ⟨← d.arrays.mapM fun array => array.toSlice stByte endByte⟩

def getArray (d : D2BitArray) (index : ℕ) : Option BitArray := d.arrays[index]?

/-- Write back an array taken by mutable reference. -/
def setArray (d : D2BitArray) (index : ℕ) (array : BitArray) : D2BitArray :=
  ⟨d.arrays.set index array⟩

def inplaceXor (self other : D2BitArray) : Option D2BitArray :=
  if self.arrays.length = other.arrays.length then do
    some ⟨← (self.arrays.zip other.arrays).mapM fun p => p.1.inplaceXor p.2⟩
  else none

def inplaceReconstruct (self : D2BitArray) (shares : List D2BitArray) : Option D2BitArray :=
  if shares.isEmpty then none else shares.foldlM inplaceXor self

def unpackAsBeaver (d : D2BitArray) : Option (BitArray × BitArray × BitArray) :=
  match d.arrays with
  | [a, b, c] => some (a, b, c)
  | _ => none

/-- Adds the two arrays of an incoming share to the first two arrays. -/
def beaverXorD2 (self beaverArray : D2BitArray) : Option D2BitArray :=
  match self.arrays, beaverArray.arrays with
  | a :: b :: rest, [u, v] => do some ⟨(← a.inplaceXor u) :: (← b.inplaceXor v) :: rest⟩
  | _, _ => none

/-- `d` consists of arrays of `s` bits that hold the bits `fs`, in order. -/
def Represents (d : D2BitArray) (s : ℕ) (fs : List (ℕ → Bool)) : Prop :=
  List.Forall₂ (fun (a : BitArray) f => a.Represents s f) d.arrays fs

variable {d e : D2BitArray} {s : ℕ} {fs gs : List (ℕ → Bool)} {f g h f' g' : ℕ → Bool}

theorem Represents.length (hd : d.Represents s fs) : d.arrays.length = fs.length := hd.length_eq

/-- A conversion of every array, as a conversion of the whole. -/
theorem mapM_represents {t : ℕ} {o : BitArray → Option BitArray} {g : (ℕ → Bool) → ℕ → Bool}
    (hop : ∀ (a : BitArray) f, a.Represents s f → ∃ r, o a = some r ∧ r.Represents t (g f))
    (hd : d.Represents s fs) : ∃ arrays, d.arrays.mapM o = some arrays ∧
      (⟨arrays⟩ : D2BitArray).Represents t (fs.map g) := by
  obtain ⟨arrays⟩ := d
  replace hd : List.Forall₂ (fun (a : BitArray) f => a.Represents s f) arrays fs := hd
  induction hd with
  | nil => exact ⟨[], rfl, .nil⟩
  | @cons a f as fs ha _ ih =>
    obtain ⟨r, hr, hrr⟩ := hop a f ha
    obtain ⟨rs, hrs, hrsr⟩ := ih
    refine ⟨r :: rs, ?_, .cons hrr hrsr⟩
    simp only at hrs
    simp [List.mapM_cons, hr, hrs]

theorem zeros_eq (n : ℕ) (hs : 0 < s) :
    ∃ d, zeros n s = some d ∧ d.Represents s (List.replicate n fun _ => false) := by
  obtain ⟨r, hr, hrr⟩ := BitArray.new_eq hs
  have hmap : (List.range n).mapM (fun _ => BitArray.new s) = some (List.replicate n r) := by
    induction n with
    | zero => rfl
    | succ n ih =>
      rw [List.range_succ, List.mapM_append, ih]
      simp [hr, List.replicate_succ']
  refine ⟨⟨List.replicate n r⟩, by rw [zeros, hmap]; rfl, ?_⟩
  exact List.forall₂_iff_get.mpr ⟨by simp, by simp [hrr]⟩

theorem random_eq {R : Type} [RngCore R] (hs : 0 < s) (arraySize : ℕ) (rng : R) :
    ∃ d rng', random arraySize s rng = some (d, rng') ∧
      d.Represents s (BitArray.fillStreams ((s+7)/8) arraySize rng) := by
  obtain ⟨l, rng', hl, hlr⟩ := BitArray.randoms_eq hs arraySize rng
  exact ⟨⟨l⟩, rng', by simp [random, hl], hlr⟩

theorem fromSeed_eq (chacha : ChaCha8Rng.Keystream) (hs : 0 < s) (arraySize : ℕ) (seed : Seed) :
    ∃ d, fromSeed chacha arraySize s seed = some d ∧
      d.Represents s (BitArray.fillStreams ((s+7)/8) arraySize (ChaCha8Rng.fromSeed chacha seed)) := by
  obtain ⟨d, rng', hd, hdr⟩ := random_eq hs arraySize (ChaCha8Rng.fromSeed chacha seed)
  exact ⟨d, by rw [fromSeed, hd]; rfl, hdr⟩

theorem clone_eq (hd : d.Represents s fs) (hs : 0 < s) : d.clone = some d := by
  obtain ⟨arrays⟩ := d
  have hmap : arrays.mapM BitArray.clone = some arrays := by
    replace hd : List.Forall₂ (fun (a : BitArray) f => a.Represents s f) arrays fs := hd
    induction hd with
    | nil => rfl
    | cons ha _ ih => simp [List.mapM_cons, BitArray.clone_eq ha hs, ih]
  rw [clone, hmap]
  rfl

theorem innerByteSize_eq (hd : d.Represents s fs) (hfs : fs ≠ []) :
    d.innerByteSize = (s+7)/8 := by
  obtain ⟨arrays⟩ := d
  cases hd with
  | nil => exact absurd rfl hfs
  | cons ha _ => exact ha.byteSize_eq.trans (by rw [ha.bitSize_eq])

theorem toSlice_eq {stByte endByte : ℕ} (hd : d.Represents s fs) (hle : stByte ≤ endByte)
    (hend : endByte ≤ (s+7)/8) : ∃ e, d.toSlice stByte endByte = some e ∧
      e.Represents (8*(endByte-stByte)) (fs.map fun f k =>
        if k < 8*(endByte-stByte) then f (k+8*stByte) else false) := by
  obtain ⟨arrays, ha, hr⟩ := mapM_represents (o := fun a => a.toSlice stByte endByte)
    (fun a f h => BitArray.toSlice_eq h hle hend) hd
  exact ⟨⟨arrays⟩, by rw [toSlice, ha]; rfl, hr⟩

theorem getArray_eq (hd : d.Represents s fs) {j : ℕ} (hj : fs[j]? = some f) :
    ∃ a, d.getArray j = some a ∧ a.Represents s f := by
  obtain ⟨hlt, hf⟩ := List.getElem?_eq_some_iff.mp hj
  have hlt' : j < d.arrays.length := hd.length ▸ hlt
  refine ⟨d.arrays[j], List.getElem?_eq_getElem hlt', ?_⟩
  have hget := (List.forall₂_iff_get.mp hd).2 j hlt' hlt
  rw [← hf]
  exact hget

theorem setArray_represents (hd : d.Represents s fs) {a : BitArray} (ha : a.Represents s f) (j : ℕ) :
    (d.setArray j a).Represents s (fs.set j f) := by
  obtain ⟨arrays⟩ := d
  replace hd : List.Forall₂ (fun (a : BitArray) f => a.Represents s f) arrays fs := hd
  induction hd generalizing j with
  | nil => exact .nil
  | cons hb htail ih =>
    cases j with
    | zero => exact .cons ha htail
    | succ j => exact .cons hb (ih j)

theorem push_represents (hd : d.Represents s fs) {a : BitArray} (ha : a.Represents s f) :
    (d.push a).Represents s (fs ++ [f]) := List.rel_append hd (.cons ha .nil)

theorem inplaceXor_eq (hd : d.Represents s fs) (he : e.Represents s gs)
    (hlen : fs.length = gs.length) : ∃ r, d.inplaceXor e = some r ∧
      r.Represents s (List.zipWith (fun f g k => f k ^^ g k) fs gs) := by
  have hl : d.arrays.length = e.arrays.length := by rw [hd.length, he.length, hlen]
  have hmap : ∃ arrays, (d.arrays.zip e.arrays).mapM (fun p => p.1.inplaceXor p.2) = some arrays ∧
      (⟨arrays⟩ : D2BitArray).Represents s (List.zipWith (fun f g k => f k ^^ g k) fs gs) := by
    obtain ⟨as⟩ := d
    obtain ⟨bs⟩ := e
    clear hl
    replace hd : List.Forall₂ (fun (a : BitArray) f => a.Represents s f) as fs := hd
    replace he : List.Forall₂ (fun (a : BitArray) f => a.Represents s f) bs gs := he
    induction hd generalizing bs gs with
    | nil => exact ⟨[], rfl, by simp [Represents]⟩
    | @cons a f as fs ha _ ih =>
      cases he with
      | nil => cases hlen
      | @cons b g bs gs hb hbs =>
        obtain ⟨r, hr, hrr⟩ := BitArray.inplaceXor_eq ha hb
        obtain ⟨rs, hrs, hrsr⟩ := ih (Nat.succ.inj hlen) bs hbs
        refine ⟨r :: rs, ?_, .cons hrr hrsr⟩
        simp only at hrs
        simp [List.mapM_cons, hr, hrs]
  obtain ⟨arrays, ha, hr⟩ := hmap
  exact ⟨⟨arrays⟩, by rw [inplaceXor, if_pos hl, ha]; rfl, hr⟩

theorem unpackAsBeaver_eq (hd : d.Represents s [f, g, h]) : ∃ a b c,
    d.arrays = [a, b, c] ∧ d.unpackAsBeaver = some (a, b, c) ∧
      a.Represents s f ∧ b.Represents s g ∧ c.Represents s h := by
  obtain ⟨arrays⟩ := d
  rcases hd with _ | ⟨ha, _ | ⟨hb, _ | ⟨hc, _ | _⟩⟩⟩
  exact ⟨_, _, _, rfl, rfl, ha, hb, hc⟩

theorem beaverXorD2_eq (hd : d.Represents s [f, g, h]) (he : e.Represents s [f', g']) :
    ∃ r, d.beaverXorD2 e = some r ∧
      r.Represents s [fun k => f k ^^ f' k, fun k => g k ^^ g' k, h] := by
  obtain ⟨as⟩ := d
  obtain ⟨bs⟩ := e
  rcases hd with _ | ⟨ha, _ | ⟨hb, _ | ⟨hc, _ | _⟩⟩⟩
  rcases he with _ | ⟨hu, _ | ⟨hv, _ | _⟩⟩
  obtain ⟨a', ha', har⟩ := BitArray.inplaceXor_eq ha hu
  obtain ⟨b', hb', hbr⟩ := BitArray.inplaceXor_eq hb hv
  exact ⟨⟨[a', b', _]⟩, by simp [beaverXorD2, ha', hb'], .cons har (.cons hbr (.cons hc .nil))⟩

end D2BitArray
end PrivRecCert.SimdArray
