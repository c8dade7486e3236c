import PrivRecCert.SimdArray.BitArray
import PrivRecCert.Stores.Patch

/-! Copies into an array, from any source. Which bits a copy overwrites depends on its source and on the size of
the array, and not on the bits it finds there. -/
namespace PrivRecCert.SimdArray
open Bytes Stores

namespace BitArray

/-- The arrays of `s` bits as a store, the unused bits of the block included. -/
def sized (s : ℕ) : Store BitArray ℕ Bool := ⟨fun a => a.WF ∧ a.bitSize = s, bit⟩

/-- `size` bits `v` from position `start` on. -/
def span (start size : ℕ) (v : ℕ → Bool) : Patch ℕ Bool := fun k =>
  if start ≤ k ∧ k < start+size then some (v (k-start)) else none

/-- How many bits a copy takes from its source: on the fast path all of its bytes. -/
def copySize (atBit : ℕ) (source : BitArray) : ℕ :=
  if atBit % 8 ≠ 0 ∨ source.bitSize % 8 ≠ 0 then source.bitSize else 8*source.byteSize

variable {source : BitArray} {s u n : ℕ} {v f : ℕ → Bool} {o : BitArray → Option BitArray} {p : Patch ℕ Bool}

theorem copySize_of_wf (h : source.WF) (u : ℕ) : copySize u source = source.bitSize := by
  have hbyte := h.byteSize_eq
  unfold copySize
  split_ifs with hslow
  · rfl
  · omega

theorem apply_span (f : ℕ → Bool) (k : ℕ) :
    (span u n v).apply f k = if u ≤ k ∧ k < u+n then v (k-u) else f k := by
  unfold Patch.apply span
  split_ifs
  · rfl
  · rfl

theorem span_congr {w : ℕ → Bool} (h : ∀ k < n, v k = w k) : span u n v = span u n w := by
  funext k
  unfold span
  split_ifs with hk
  · rw [h _ (by omega)]
  · rfl

/-- An operation with one effect on all arrays of one size. -/
theorem patches_of_represents (h : ∀ a f, Represents a s f → ∃ r, o a = some r ∧ r.Represents s (p.apply f)) :
    (sized s).Patches o p := by
  refine .inr fun a ha => ?_
  obtain ⟨hwf, hsize⟩ := ha
  obtain ⟨r, hr, hrr⟩ := h a a.bit ⟨hwf, hsize, fun _ => rfl⟩
  refine ⟨r, hr, ⟨hrr.toWF, hrr.bitSize_eq⟩, ?_⟩
  funext k
  exact hrr.bit_eq k

theorem get_none {k : ℕ} (hlen : ¬ k/8 < source.data.len) : source.get k = none := by
  rw [get]
  split_ifs
  · rw [AU8Array.getByte, if_neg hlen]
    rfl
  · rfl

/-- The bit by bit copy of a source whose bytes may be missing. -/
theorem setBits_patches (hle : u + source.bitSize ≤ s) :
    (sized s).Patches (fun d => (List.range source.bitSize).foldlM (fun d i => do d.setBit (i+u) (← source.get i)) d)
      (span u source.bitSize source.bit) := by
  by_cases hlen : ∀ i < source.bitSize, i/8 < source.data.len
  · apply patches_of_represents
    intro a f ha
    obtain ⟨r, hr, hrr⟩ := setBits_eq ha (w := source.bit) hle fun i hi => get_bit hi (hlen i hi)
    exact ⟨r, hr, hrr.congr fun k => (apply_span f k).symm⟩
  · push Not at hlen
    obtain ⟨i, hi, hshort⟩ := hlen
    refine .of_none fun a _ => Store.foldlM_none_of_mem (List.mem_range.mpr hi) (fun d => ?_) a
    rw [get_none (by omega)]
    rfl

/-- The copy of whole bytes, which may reach into the padding. -/
theorem copyBytes_patches (hu : u % 8 = 0) :
    (sized s).Patches (fun d => do
        some { d with data := ← d.data.copyNonoverlapping (u/8) source.data source.byteSize })
      (span u (8*source.byteSize) source.bit) := by
  by_cases hin : u/8 + source.byteSize ≤ alignMaxLen ((s+7)/8) ∧ source.byteSize ≤ source.data.buf.length
  · apply patches_of_represents
    intro a f ha
    obtain ⟨data, hdata, hlen, hbits⟩ := AU8Array.copyNonoverlapping_block (a := a.data) (b := source.data)
      (u := u/8) (c := source.byteSize) (by rw [a.data.buf_length, ha.len]; exact hin.1) hin.2
    refine ⟨{ a with data := data }, by simp [hdata], ⟨ha.byteSize_eq, hlen.trans ha.len_eq⟩, ha.bitSize_eq,
      fun k => ?_⟩
    have hstart : 8*(u/8) = u := by omega
    have hself : a.data.bit k = f k := ha.bit_eq k
    rw [bit, hbits, hstart, hself, apply_span]
    rfl
  · refine .of_none fun a ha => ?_
    have hblock : a.data.buf.length = alignMaxLen ((s+7)/8) := by
      rw [a.data.buf_length, ha.1.len_eq, ha.1.byteSize_eq, ha.2]
    rw [AU8Array.copyNonoverlapping, dif_neg (by rwa [hblock])]
    rfl

/-- A copy fails on all arrays of one size, or overwrites the same bits of all of them. -/
theorem copyFrom_patches (s u : ℕ) (source : BitArray) :
    (sized s).Patches (fun d => d.copyFrom u source) (span u (copySize u source) source.bit) := by
  by_cases hle : u + source.bitSize ≤ s
  · unfold copySize
    split_ifs with hslow
    · refine (setBits_patches hle).congr fun d hd => ?_
      rw [copyFrom, if_pos (by rw [hd.2]; exact hle), if_pos hslow]
    · refine (copyBytes_patches (by omega)).congr fun d hd => ?_
      rw [copyFrom, if_pos (by rw [hd.2]; exact hle), if_neg hslow]
  · refine .of_none fun d hd => ?_
    rw [copyFrom, if_neg (by rw [hd.2]; exact hle)]

/-- A copy of `n` equal bits. -/
theorem copyFrom_patches_const {b : Bool} (hsrc : source.Represents n v) (hv : ∀ k < n, v k = b) (s u : ℕ) :
    (sized s).Patches (fun d => d.copyFrom u source) (span u n fun _ => b) := by
  have hcopy := copyFrom_patches s u source
  rw [copySize_of_wf hsrc.toWF, hsrc.bitSize_eq] at hcopy
  rwa [span_congr fun k hk => (hsrc.bit_eq k).trans (hv k hk)] at hcopy

end BitArray
end PrivRecCert.SimdArray
