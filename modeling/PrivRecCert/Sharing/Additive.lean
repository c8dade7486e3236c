import PrivRecCert.Rounds.Lockstep
import Mathlib.Algebra.BigOperators.Ring.Finset
import Mathlib.Algebra.BigOperators.Fin
import Mathlib.Algebra.Ring.BooleanRing
import Mathlib.Tactic.LinearCombination

/-! Additive sharing among `n` parties: a value is the sum of the parties' shares. Products are
shared with the help of a shared triple, and a shared bit is lifted to another ring with the
help of a random bit that is shared in both. One party adds the public constants. -/
namespace PrivRecCert.Sharing
open Rounds
open scoped BigOperators

variable {n : ℕ}

/-- A party's own value and what it received from its peers make up the whole sum. -/
theorem sum_peers {A : Type*} [AddCommMonoid A] (f : Fin n → A) (i : Fin n) :
    f i + ((peers i).map f).sum = ∑ j, f j := by
  rw [← List.sum_cons, ← List.map_cons, ((peers_perm i).map f).sum_eq, ← List.ofFn_eq_map,
    List.sum_ofFn]

/-- The same for values that arrive in an arbitrary order. -/
theorem sum_received {A : Type*} [AddCommMonoid A] {f : Fin n → A} {i : Fin n} {l : List A}
    (h : l.Perm ((peers i).map f)) : f i + l.sum = ∑ j, f j := by
  rw [h.sum_eq, sum_peers]

/-- Accumulating by exclusive or is summation in the Boolean ring. -/
theorem foldl_xor {A : Type*} (φ : A → Bool) (l : List A) (x : Bool) :
    l.foldl (fun acc a => acc ^^ φ a) x = x + (l.map φ).sum := by
  induction l generalizing x with
  | nil => exact (add_zero x).symm
  | cons a l ih =>
    rw [List.foldl_cons, ih, List.map_cons, List.sum_cons, ← add_assoc]
    rfl

/-- A party's own stream of bits with all the streams it received added to it. -/
def opened (own : ℕ → Bool) (received : List (ℕ → Bool)) : ℕ → Bool := fun k =>
  received.foldl (fun acc f => acc ^^ f k) (own k)

/-- What a party opens is the sum of all parties' streams, in whatever order they arrive. -/
theorem opened_eq {fs : Fin n → ℕ → Bool} {i : Fin n} {l : List (ℕ → Bool)} (h : l.Perm ((peers i).map fs)) :
    opened (fs i) l = fun k => ∑ j, fs j k := by
  funext k
  have hk : (l.map fun f => f k).Perm ((peers i).map fun j => fs j k) := by
    simpa [Function.comp_def] using h.map fun f => f k
  rw [opened, foldl_xor]
  exact sum_received hk

/-- The exclusive or of one word per party. -/
def xorAll {w : ℕ} (v : Fin n → BitVec w) : BitVec w := (List.ofFn v).foldl (· ^^^ ·) 0

theorem getLsbD_xorAll {w : ℕ} (v : Fin n → BitVec w) (k : ℕ) : (xorAll v).getLsbD k = ∑ i, (v i).getLsbD k := by
  have hfold : ∀ (l : List (BitVec w)) (x : BitVec w),
      (l.foldl (· ^^^ ·) x).getLsbD k = x.getLsbD k + (l.map (·.getLsbD k)).sum := by
    intro l
    induction l with
    | nil => exact fun x => (add_zero (x.getLsbD k)).symm
    | cons a l ih =>
      intro x
      rw [List.foldl_cons, ih, List.map_cons, List.sum_cons, ← add_assoc, BitVec.getLsbD_xor]
      rfl
  have hzero : (0 : BitVec w).getLsbD k = 0 := BitVec.getLsbD_zero
  rw [xorAll, hfold, hzero, List.map_ofFn, zero_add, List.sum_ofFn]
  rfl

/-- Shares of a product: with `u` and `v` the opened differences to a triple `a·b = c`, the
shares `[uv] + u·y + v·x + c` sum to `x·y`. -/
theorem sum_beaver {R : Type*} [BooleanRing R] (p : Fin n) (x y a b c : Fin n → R) {u v : R}
    (hu : u = ∑ i, (x i + a i)) (hv : v = ∑ i, (y i + b i)) (hc : (∑ i, a i)*(∑ i, b i) = ∑ i, c i) :
    ∑ i, ((if i = p then u*v else 0) + u*y i + v*x i + c i) = (∑ i, x i)*(∑ i, y i) := by
  rw [Finset.sum_add_distrib] at hu hv
  have h2 : ∀ t : R, t + t = 0 := BooleanRing.add_self
  simp only [Finset.sum_add_distrib, ← Finset.mul_sum, Finset.sum_ite_eq', Finset.mem_univ, if_true,
    ← hc, hu, hv]
  linear_combination h2 ((∑ i, x i)*(∑ i, y i) + (∑ i, x i)*(∑ i, b i) + (∑ i, a i)*(∑ i, y i)
    + (∑ i, a i)*(∑ i, b i))

/-- A bit as an element of a ring. -/
def ofBit {R : Type*} [Ring R] (b : Bool) : R := (b.toNat : R)

theorem ofBit_xor {R : Type*} [CommRing R] (r e : Bool) :
    (ofBit (r ^^ e) : R) = ofBit r + ofBit e - 2*ofBit e*ofBit r := by
  cases r <;> cases e <;> simp [ofBit]
  ring

/-- Shares of a bit in another ring: with `e` the opened difference to a random bit `r`,
the shares `[e] + r - r·2e` sum to `r xor e`. -/
theorem sum_dabit {R : Type*} [CommRing R] (p : Fin n) (r : Fin n → R) (rbit e : Bool)
    (hr : ∑ i, r i = ofBit rbit) :
    ∑ i, (r i - r i*(2*ofBit e) + if i = p then ofBit e else 0) = (ofBit (rbit ^^ e) : R) := by
  rw [Finset.sum_add_distrib, Finset.sum_sub_distrib, ← Finset.sum_mul, Finset.sum_ite_eq']
  rw [hr, ofBit_xor, if_pos (Finset.mem_univ p)]
  ring

end PrivRecCert.Sharing
