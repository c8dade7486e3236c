import PrivRecCert.Bytes.XorBits
import PrivRecCert.Rng

/-! `AU8Array`: byte storage padded to whole 32-byte chunks. The block is modelled by all of its
bytes, padding included, because the chunk loops read and write the padding too. Allocation itself
always succeeds; `none` is a failed assertion or an access outside a block. -/
namespace PrivRecCert.SimdArray
open Bytes

/-- `align_max_len`: the length rounded up to whole chunks. -/
def alignMaxLen (l : ℕ) : ℕ := if l % 32 = 0 then l else l + (32 - l % 32)

theorem alignMaxLen_mod (l : ℕ) : alignMaxLen l % 32 = 0 := by unfold alignMaxLen; split_ifs <;> omega
theorem le_alignMaxLen (l : ℕ) : l ≤ alignMaxLen l := by unfold alignMaxLen; split_ifs <;> omega
theorem alignMaxLen_eq (l : ℕ) : alignMaxLen l = 32*((l+31)/32) := by
  unfold alignMaxLen; split_ifs <;> omega

/-- A block of `alignMaxLen len` bytes of which the first `len` are the array. -/
structure AU8Array where
  buf : List U8
  len : ℕ
  buf_length : buf.length = alignMaxLen len
  deriving DecidableEq

/-- One `__m256i` register, as its 32 bytes. -/
abbrev M256 := List U8

namespace AU8Array

@[ext] theorem ext_buf {a b : AU8Array} (hb : a.buf = b.buf) (hl : a.len = b.len) : a = b := by
  cases a; cases b; cases hb; cases hl; rfl

/-- The size of the block for `len` bytes; a length of zero has no layout. -/
def createLayout (len : ℕ) : Option {size : ℕ // size = alignMaxLen len} :=
  if 0 < len then
    some ⟨if len % 32 ≠ 0 then len + (32 - len % 32) else len, by
      unfold alignMaxLen; by_cases h : len % 32 = 0 <;> simp [h]⟩
  else none

/-- The array without an allocation. -/
def empty : AU8Array := ⟨[], 0, rfl⟩

def new (len : ℕ) : Option AU8Array := do
  let size ← createLayout len
  some ⟨List.replicate size.1 0, len, by rw [List.length_replicate, size.2]⟩

/-- Fills the whole block, padding included. -/
def ones (len : ℕ) : Option AU8Array := do
  let size ← createLayout len
  some ⟨List.replicate size.1 (BitVec.allOnes 8), len, by rw [List.length_replicate, size.2]⟩

/-- Copies every chunk that begins below `len`. -/
def clone (a : AU8Array) : Option AU8Array := do
  let _ ← createLayout a.len
  some ⟨a.buf.take (32*((a.len+31)/32)), a.len, by
    rw [List.length_take, a.buf_length, ← alignMaxLen_eq, Nat.min_self]⟩

/-- Copies a slice and clears the rest of its last chunk. -/
def fromSlice (slice : List U8) : AU8Array :=
  if slice = [] then empty
  else ⟨slice ++ List.replicate (alignMaxLen slice.length - slice.length) 0, slice.length, by
    rw [List.length_append, List.length_replicate]
    have := le_alignMaxLen slice.length
    omega⟩

def alignedLen (a : AU8Array) : ℕ := alignMaxLen a.len

/-- The array as a slice `&[u8]`. -/
def asSlice (a : AU8Array) : List U8 := a.buf.take a.len

/-- Indexing through the slice: bytes past `len` are out of bounds. -/
def getByte (a : AU8Array) (i : ℕ) : Option U8 := if i < a.len then some (a.buf.getD i 0) else none

def setByte (a : AU8Array) (i : ℕ) (b : U8) : Option AU8Array :=
  if i < a.len then some ⟨a.buf.set i b, a.len, by rw [List.length_set, a.buf_length]⟩ else none

/-- Overwrite the slice with `len` bytes of a generator. -/
def fill {R : Type} [RngCore R] (a : AU8Array) (rng : R) : AU8Array × R :=
  let (bytes, rng) := RngCore.fillBytes rng a.len
  (⟨bytes.1 ++ a.buf.drop a.len, a.len, by
    rw [List.length_append, List.length_drop, bytes.2, a.buf_length]
    have := le_alignMaxLen a.len
    omega⟩, rng)

/-- `copy_nonoverlapping` of `count` bytes from the start of `src` to byte `start` of `dst`. -/
def copyNonoverlapping (dst : AU8Array) (start : ℕ) (src : AU8Array) (count : ℕ) : Option AU8Array :=
  if h : start + count ≤ dst.buf.length ∧ count ≤ src.buf.length then
    some ⟨dst.buf.take start ++ src.buf.take count ++ dst.buf.drop (start+count), dst.len, by
      simp only [List.length_append, List.length_take, List.length_drop]
      rw [← dst.buf_length]
      omega⟩
  else none

/-- `_mm256_load_si256` at byte `i`. -/
def load (a : AU8Array) (i : ℕ) : Option M256 :=
  if i + 32 ≤ a.buf.length then some ((a.buf.drop i).take 32) else none

/-- `_mm256_store_si256` at byte `i`. -/
def store (a : AU8Array) (i : ℕ) (c : M256) : Option AU8Array :=
  if h : i + 32 ≤ a.buf.length ∧ c.length = 32 then
    some ⟨a.buf.take i ++ c ++ a.buf.drop (i+32), a.len, by
      simp only [List.length_append, List.length_take, List.length_drop, h.2]
      rw [← a.buf_length]
      omega⟩
  else none

/-- The offsets of `(0..l).step_by(32)`. -/
def stepBy (l : ℕ) : List ℕ := (List.range ((l+31)/32)).map (32 * ·)

/-- A loop that overwrites one chunk of `dst` after the other. -/
def chunkLoop (f : AU8Array → ℕ → Option M256) (dst : AU8Array) : Option AU8Array :=
  (stepBy dst.alignedLen).foldlM (fun d i => do store d i (← f d i)) dst

/-- The loop of the in-place operations: `self[i] = op(self[i], other[i])`. -/
def inplaceZip (op : U8 → U8 → U8) (self other : AU8Array) : Option AU8Array :=
  chunkLoop (fun d i => do some (List.zipWith op (← load d i) (← load other i))) self

/-- The loop of `mut_and`: `self[i] = op(a[i], b[i])`. -/
def mutZip (op : U8 → U8 → U8) (self a b : AU8Array) : Option AU8Array :=
  chunkLoop (fun _ i => do some (List.zipWith op (← load a i) (← load b i))) self

/-- The loop of `parity` and `inner_prod`: the exclusive or of one chunk per offset. -/
def accumulate (l : ℕ) (f : ℕ → Option M256) : Option M256 :=
  (stepBy l).foldlM (fun acc i => do some (List.zipWith (· ^^^ ·) acc (← f i))) (List.replicate 32 0)

/-- The loop of `eq`, which stops at the first chunk that differs. -/
def eqLoop (a b : AU8Array) : List ℕ → Option Bool
  | [] => some true
  | i :: is => do
    let x ← load a i
    let y ← load b i
    if (List.zipWith (· ^^^ ·) x y).all (· == 0) then eqLoop a b is else some false

/-- Bit `k` of the block; bits past the end of the block are zero. -/
def bit (a : AU8Array) (k : ℕ) : Bool := bitAt a.buf k

theorem bit_of_le {a : AU8Array} {k : ℕ} (h : 8*a.alignedLen ≤ k) : a.bit k = false :=
  bitAt_of_le (by rw [a.buf_length]; exact h)

theorem createLayout_of_pos {len : ℕ} (h : 0 < len) : ∃ size, createLayout len = some size := by
  simp [createLayout, h]

theorem new_eq {m : ℕ} (h : 0 < m) :
    ∃ a, new m = some a ∧ a.len = m ∧ ∀ k, a.bit k = false := by
  obtain ⟨size, hs⟩ := createLayout_of_pos h
  refine ⟨⟨List.replicate size.1 0, m, by rw [List.length_replicate, size.2]⟩, ?_, rfl,
    bitAt_replicate_zero _⟩
  rw [new, hs]
  rfl

theorem ones_eq {m : ℕ} (h : 0 < m) :
    ∃ a, ones m = some a ∧ a.len = m ∧ ∀ k < 8*a.alignedLen, a.bit k = true := by
  obtain ⟨size, hs⟩ := createLayout_of_pos h
  refine ⟨⟨List.replicate size.1 (BitVec.allOnes 8), m, by rw [List.length_replicate, size.2]⟩,
    by rw [ones, hs]; rfl, rfl, fun k hk => bitAt_replicate_ones ?_⟩
  rw [size.2]
  exact hk

theorem clone_eq {a : AU8Array} (h : 0 < a.len) : a.clone = some a := by
  obtain ⟨size, hs⟩ := createLayout_of_pos h
  have hb : a.buf.take (32*((a.len+31)/32)) = a.buf := by
    rw [← alignMaxLen_eq, ← a.buf_length, List.take_length]
  rw [clone, hs]
  exact congrArg some (ext_buf hb rfl)

@[simp] theorem fromSlice_len (slice : List U8) : (fromSlice slice).len = slice.length := by
  unfold fromSlice
  split_ifs with h
  · rw [h]; rfl
  · rfl

theorem fromSlice_bit (slice : List U8) (k : ℕ) : (fromSlice slice).bit k = bitAt slice k := by
  unfold fromSlice
  split_ifs with h
  · rw [h]; rfl
  · rw [bit, bitAt_append]
    split_ifs with hk
    · rfl
    · rw [bitAt_replicate_zero, bitAt_of_le (by omega)]

theorem asSlice_length (a : AU8Array) : a.asSlice.length = a.len := by
  rw [asSlice, List.length_take, a.buf_length]
  exact Nat.min_eq_left (le_alignMaxLen a.len)

theorem bitAt_asSlice (a : AU8Array) (k : ℕ) :
    bitAt a.asSlice k = if k < 8*a.len then a.bit k else false := bitAt_take _ _ _

theorem getByte_eq {a : AU8Array} {k : ℕ} (h : k/8 < a.len) :
    ∃ b, getByte a (k/8) = some b ∧ ∀ i < 8, b.getLsbD i = a.bit (8*(k/8) + i) := by
  refine ⟨a.buf.getD (k/8) 0, if_pos h, fun i hi => ?_⟩
  have h1 : (8*(k/8) + i)/8 = k/8 := by omega
  have h2 : (8*(k/8) + i)%8 = i := by omega
  rw [bit, bitAt, h1, h2]

theorem setByte_eq {a : AU8Array} {i : ℕ} (h : i < a.len) (b : U8) :
    ∃ r, setByte a i b = some r ∧ r.len = a.len ∧
      ∀ k, r.bit k = if k/8 = i then b.getLsbD (k%8) else a.bit k := by
  have hb : i < a.buf.length := by
    rw [a.buf_length]
    exact h.trans_le (le_alignMaxLen a.len)
  exact ⟨_, if_pos h, rfl, bitAt_set hb b⟩

theorem fill_bit {R : Type} [RngCore R] (a : AU8Array) (rng : R) (k : ℕ) : (fill a rng).1.bit k =
    if k < 8*a.len then bitAt (RngCore.fillBytes rng a.len).1.1 k else a.bit k := by
  have hlen := (RngCore.fillBytes rng a.len).1.2
  rw [fill, bit, bitAt_append, hlen]
  split_ifs with h
  · rfl
  · rw [bitAt_drop, bit]
    congr 1
    omega

/-- A copy that stays inside both blocks, padding included. -/
theorem copyNonoverlapping_block {a b : AU8Array} {u c : ℕ}
    (hdb : u + c ≤ a.buf.length) (hsb : c ≤ b.buf.length) :
    ∃ r, copyNonoverlapping a u b c = some r ∧ r.len = a.len ∧ ∀ k, r.bit k =
      if 8*u ≤ k ∧ k < 8*u + 8*c then b.bit (k - 8*u) else a.bit k := by
  refine ⟨_, dif_pos ⟨hdb, hsb⟩, rfl, fun k => ?_⟩
  have h1 : (a.buf.take u).length = u := by rw [List.length_take]; omega
  have h2 : (b.buf.take c).length = c := by rw [List.length_take]; omega
  simp only [bit, bitAt_append, List.length_append, h1, h2, bitAt_take, bitAt_drop]
  by_cases hk : k < 8*u
  · have hlt : k < 8*(u+c) := by omega
    have hn : ¬ 8*u ≤ k := by omega
    simp [hk, hlt, hn]
  · by_cases hk' : k < 8*u + 8*c
    · have hlt : k < 8*(u+c) := by omega
      have hsub : k - 8*u < 8*c := by omega
      have hge : 8*u ≤ k := by omega
      simp [hk, hlt, hsub, hge, hk']
    · have hlt : ¬ k < 8*(u+c) := by omega
      have hback : k - 8*(u+c) + 8*(u+c) = k := by omega
      simp [hlt, hback, hk']

theorem copyNonoverlapping_eq {a b : AU8Array} {u c : ℕ}
    (hd : u + c ≤ a.len) (hs : c ≤ b.len) :
    ∃ r, copyNonoverlapping a u b c = some r ∧ r.len = a.len ∧ ∀ k, r.bit k =
      if 8*u ≤ k ∧ k < 8*u + 8*c then b.bit (k - 8*u) else a.bit k := by
  apply copyNonoverlapping_block
  · rw [a.buf_length]
    exact hd.trans (le_alignMaxLen a.len)
  · rw [b.buf_length]
    exact hs.trans (le_alignMaxLen b.len)

theorem load_eq {a : AU8Array} {j : ℕ} (h : 32*j + 32 ≤ a.buf.length) :
    load a (32*j) = some ((a.buf.drop (32*j)).take 32) := if_pos h

theorem store_eq {d : AU8Array} {j : ℕ} {c : M256} (h : 32*j + 32 ≤ d.buf.length)
    (hc : c.length = 32) : ∃ d', store d (32*j) c = some d' ∧ d'.len = d.len ∧
      d'.buf = d.buf.take (32*j) ++ c ++ d.buf.drop (32*j+32) := by
  rw [store, dif_pos ⟨h, hc⟩]
  exact ⟨_, rfl, rfl, rfl⟩

theorem stepBy_alignedLen (a : AU8Array) :
    ∃ c, stepBy a.alignedLen = (List.range c).map (32 * ·) ∧ a.buf.length = 32*c := by
  refine ⟨(a.len+31)/32, ?_, by rw [a.buf_length, alignMaxLen_eq]⟩
  rw [stepBy, alignedLen, alignMaxLen_eq]
  congr 2
  omega

/-- A chunk loop whose chunk values are those of `target` produces `target`. -/
theorem chunkLoop_eq (f : AU8Array → ℕ → Option M256) (dst target : AU8Array)
    (hlen : target.len = dst.len)
    (hf : ∀ j d, 32*j + 32 ≤ dst.buf.length → d.len = dst.len →
      d.buf.drop (32*j) = dst.buf.drop (32*j) →
      f d (32*j) = some ((target.buf.drop (32*j)).take 32)) :
    chunkLoop f dst = some target := by
  obtain ⟨c, hc, hbuf⟩ := stepBy_alignedLen dst
  have htb : target.buf.length = dst.buf.length := by rw [target.buf_length, dst.buf_length, hlen]
  have hrun : ∀ m ≤ c, ∃ d, ((List.range m).map (32 * ·)).foldlM
      (fun d i => do store d i (← f d i)) dst = some d ∧ d.len = dst.len ∧
      d.buf = target.buf.take (32*m) ++ dst.buf.drop (32*m) := by
    intro m hm
    induction m with
    | zero => exact ⟨dst, rfl, rfl, by simp⟩
    | succ m ih =>
      obtain ⟨d, hd, hdl, hdb⟩ := ih (by omega)
      have htake : (target.buf.take (32*m)).length = 32*m := by
        rw [List.length_take, htb, hbuf]; omega
      have hdrop : d.buf.drop (32*m) = dst.buf.drop (32*m) := by
        rw [hdb, List.drop_append_of_le_length htake.ge, List.drop_eq_nil_of_le htake.le]
        rfl
      have hfd := hf m d (by omega) hdl hdrop
      have hdlen : d.buf.length = 32*c := by rw [d.buf_length, hdl, ← dst.buf_length, hbuf]
      have hchunk : ((target.buf.drop (32*m)).take 32).length = 32 := by
        rw [List.length_take, List.length_drop, htb, hbuf]; omega
      obtain ⟨d', hd', hdl', hdb'⟩ := store_eq (d := d) (j := m) (by omega) hchunk
      refine ⟨d', ?_, hdl'.trans hdl, ?_⟩
      · rw [List.range_succ, List.map_append, List.foldlM_append, hd]
        simp [hfd, hd']
      · have h1 : d.buf.take (32*m) = target.buf.take (32*m) := by
          rw [hdb, List.take_append_of_le_length htake.ge, List.take_take, Nat.min_self]
        have h2 : d.buf.drop (32*m+32) = dst.buf.drop (32*m+32) := by
          rw [← List.drop_drop, hdrop, List.drop_drop]
        have h3 : 32*(m+1) = 32*m + 32 := by ring
        rw [hdb', h1, h2, h3, List.take_add]
  obtain ⟨d, hd, hdl, hdb⟩ := hrun c le_rfl
  rw [chunkLoop, hc, hd]
  refine congrArg some (ext_buf ?_ (hdl.trans hlen.symm))
  rw [hdb, ← hbuf, ← htb, List.take_length, List.drop_eq_nil_of_le htb.ge, List.append_nil]

/-- Arrays of one length have blocks of one length. -/
theorem buf_length_congr {a b : AU8Array} (h : a.len = b.len) : a.buf.length = b.buf.length := by
  rw [a.buf_length, b.buf_length, h]

theorem inplaceZip_eq (op : U8 → U8 → U8) {self other : AU8Array} (hb : self.buf.length = other.buf.length) :
    ∃ r, inplaceZip op self other = some r ∧ r.len = self.len ∧
      r.buf = List.zipWith op self.buf other.buf := by
  refine ⟨⟨List.zipWith op self.buf other.buf, self.len, by simp [← hb, self.buf_length]⟩, ?_, rfl, rfl⟩
  refine chunkLoop_eq _ _ _ rfl fun j d hj hd hrest => ?_
  have hdb : d.buf.length = self.buf.length := by rw [d.buf_length, self.buf_length, hd]
  rw [load_eq (hdb ▸ hj), load_eq (hb ▸ hj), hrest]
  simp [List.drop_zipWith, List.take_zipWith]

theorem mutZip_eq (op : U8 → U8 → U8) {self a b : AU8Array} (ha : self.buf.length = a.buf.length)
    (hb : self.buf.length = b.buf.length) : ∃ r, mutZip op self a b = some r ∧ r.len = self.len ∧
      r.buf = List.zipWith op a.buf b.buf := by
  refine ⟨⟨List.zipWith op a.buf b.buf, self.len, by simp [← ha, ← hb, self.buf_length]⟩, ?_, rfl, rfl⟩
  refine chunkLoop_eq _ _ _ rfl fun j d hj hd hrest => ?_
  rw [load_eq (ha ▸ hj), load_eq (hb ▸ hj)]
  simp [List.drop_zipWith, List.take_zipWith]

/-- The chunks of a block together have the parity of the block. -/
theorem accumulate_eq {f : ℕ → Option M256} {b : List U8} {a : AU8Array}
    (hlen : b.length = a.buf.length)
    (hf : ∀ j, 32*j + 32 ≤ a.buf.length → f (32*j) = some ((b.drop (32*j)).take 32)) :
    ∃ r, accumulate a.alignedLen f = some r ∧ xorBits r = xorBits b := by
  obtain ⟨c, hc, hbuf⟩ := stepBy_alignedLen a
  have hrun : ∀ m ≤ c, ∃ r, ((List.range m).map (32 * ·)).foldlM
      (fun acc i => do some (List.zipWith (· ^^^ ·) acc (← f i))) (List.replicate 32 0) = some r ∧
      r.length = 32 ∧ xorBits r = xorBits (b.take (32*m)) := by
    intro m hm
    induction m with
    | zero => exact ⟨List.replicate 32 0, rfl, by simp, xorBits_replicate_zero 32⟩
    | succ m ih =>
      obtain ⟨r, hr, hrl, hrx⟩ := ih (by omega)
      have hfm := hf m (by omega)
      have hchunk : ((b.drop (32*m)).take 32).length = 32 := by
        rw [List.length_take, List.length_drop, hlen, hbuf]; omega
      refine ⟨List.zipWith (· ^^^ ·) r ((b.drop (32*m)).take 32), ?_, by simp [hrl, hchunk], ?_⟩
      · rw [List.range_succ, List.map_append, List.foldlM_append, hr]
        simp [hfm]
      · rw [xorBits_zipWith_xor (hrl.trans hchunk.symm), hrx, ← xorBits_append, ← List.take_add,
          Nat.mul_succ]
  obtain ⟨r, hr, -, hrx⟩ := hrun c le_rfl
  refine ⟨r, by rw [accumulate, hc, hr], ?_⟩
  rw [hrx, ← hbuf, ← hlen, List.take_length]

theorem eqLoop_eq {a b : AU8Array} (h : a.len = b.len) :
    eqLoop a b (stepBy a.alignedLen) = some (decide (a.buf = b.buf)) := by
  obtain ⟨c, hc, hbuf⟩ := stepBy_alignedLen a
  have hb : a.buf.length = b.buf.length := by rw [a.buf_length, b.buf_length, h]
  have hloop : ∀ js : List ℕ, (∀ j ∈ js, 32*j + 32 ≤ a.buf.length) →
      eqLoop a b (js.map (32 * ·)) =
        some (decide (∀ j ∈ js, (a.buf.drop (32*j)).take 32 = (b.buf.drop (32*j)).take 32)) := by
    intro js hjs
    induction js with
    | nil => simp [eqLoop]
    | cons j js ih =>
      have hj := hjs j (by simp)
      have hla : ((a.buf.drop (32*j)).take 32).length = ((b.buf.drop (32*j)).take 32).length := by
        simp [hb]
      rw [List.map_cons, eqLoop, load_eq hj, load_eq (hb ▸ hj), Option.bind_eq_bind, Option.bind_some,
        Option.bind_some, ih fun j hj => hjs j (by simp [hj]),
        zipWith_xor_all_zero hla]
      by_cases he : (a.buf.drop (32*j)).take 32 = (b.buf.drop (32*j)).take 32 <;> simp [he]
  rw [hc, hloop _ fun j hj => by have := List.mem_range.mp hj; omega]
  refine congrArg some (decide_eq_decide.mpr ⟨fun hall => ?_, fun he _ _ => by rw [he]⟩)
  have hpre : ∀ m ≤ c, a.buf.take (32*m) = b.buf.take (32*m) := by
    intro m hm
    induction m with
    | zero => simp
    | succ m ih => rw [Nat.mul_succ, List.take_add, List.take_add, ih (by omega),
        hall m (List.mem_range.mpr hm)]
  have hall' := hpre c le_rfl
  rwa [← hbuf, List.take_length, hb, List.take_length] at hall'

end AU8Array
end PrivRecCert.SimdArray
