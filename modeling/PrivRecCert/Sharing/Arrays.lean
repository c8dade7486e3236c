import PrivRecCert.Sharing.Additive
import PrivRecCert.SimdArray.BitArray

/-! Bit arrays as shares: the reconstruction of one array per party holds the sums of their bits. -/
namespace PrivRecCert.SimdArray.BitArray
open Sharing
open scoped BigOperators

theorem reconstruct_ofFn {n s : ℕ} {xs : Fin n → BitArray} {f : Fin n → ℕ → Bool}
    (h : ∀ i, (xs i).Represents s (f i)) (hn : 0 < n) :
    ∃ r, reconstruct (List.ofFn xs) = some r ∧ r.Represents s fun k => ∑ i, f i k := by
  have hne : List.ofFn xs ≠ [] := by simp [List.ofFn_eq_nil_iff]; omega
  have hrep : ∀ b ∈ List.ofFn xs, ∃ g, BitArray.Represents b s g := fun b hb => by
    obtain ⟨i, rfl⟩ := (List.mem_ofFn' _ _).mp hb
    exact ⟨_, h i⟩
  obtain ⟨g, hg⟩ := hrep _ (List.getLast_mem hne)
  obtain ⟨r, hr, hrr⟩ := foldlM_inplaceXor_eq hg (l := (List.ofFn xs).dropLast)
    fun b hb => hrep b (List.dropLast_subset _ hb)
  refine ⟨r, ?_, hrr.congr fun k => ?_⟩
  · rw [reconstruct, List.getLast?_eq_getLast_of_ne_nil hne]
    exact hr
  · have hsplit : (List.ofFn fun i => (xs i).bit k).sum =
        (((List.ofFn xs).dropLast ++ [(List.ofFn xs).getLast hne]).map (·.bit k)).sum := by
      rw [List.dropLast_append_getLast hne, List.map_ofFn]
      rfl
    have hbits : ∑ i, f i k = ∑ i, (xs i).bit k := Finset.sum_congr rfl fun i _ => ((h i).bit_eq k).symm
    rw [foldl_xor, ← hg.bit_eq k, hbits, ← List.sum_ofFn, hsplit, List.map_append, List.sum_append,
      List.map_cons, List.map_nil, List.sum_cons, List.sum_nil, add_zero, add_comm]

end PrivRecCert.SimdArray.BitArray
