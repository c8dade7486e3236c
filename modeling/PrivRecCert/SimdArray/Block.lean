import PrivRecCert.SimdArray.AlignedArray

/-! The memory behind `AU8Array`: a block from the allocator, of which some bytes may not be initialised,
and the layout that is handed back when the array is dropped. Accesses outside a block, unaligned chunk
accesses and loads of uninitialised bytes are faults; failed assertions are panics. -/
namespace PrivRecCert.SimdArray
open Bytes

/-- `std::alloc::Layout`. -/
structure Layout where
  size : ℕ
  align : ℕ
  deriving DecidableEq

/-- The size may not overflow `isize` when it is rounded up to the alignment. -/
def Layout.fromSizeAlign (size align : ℕ) : Option Layout :=
  if size ≤ 2^63 - align then some ⟨size, align⟩ else none

/-- How a method can end without a result. -/
inductive Stop : Type
  | panic
  | fault
  deriving DecidableEq

def orPanic {A : Type} : Option A → Except Stop A
  | none => .error .panic
  | some a => .ok a

/-- An allocated block; `none` is a byte that is not initialised. -/
structure Block where
  layout : Layout
  bytes : List (Option U8)
  bytes_length : bytes.length = layout.size

namespace Block

def alloc (layout : Layout) : Block := ⟨layout, List.replicate layout.size none, List.length_replicate⟩

def allocZeroed (layout : Layout) : Block := ⟨layout, List.replicate layout.size (some 0), List.length_replicate⟩

/-- Writes `l` from byte `start` on. -/
def put (b : Block) (start : ℕ) (l : List (Option U8)) : Except Stop Block :=
  if h : start + l.length ≤ b.bytes.length then
    .ok ⟨b.layout, b.bytes.take start ++ l ++ b.bytes.drop (start + l.length), by
      rw [← b.bytes_length, List.length_append, List.length_append, List.length_take, List.length_drop]
      omega⟩
  else .error .fault

/-- `_mm256_load_si256`. -/
def load (b : Block) (i : ℕ) : Except Stop M256 :=
  if i % 32 = 0 ∧ i + 32 ≤ b.bytes.length then
    match ((b.bytes.drop i).take 32).mapM id with
    | none => .error .fault
    | some chunk => .ok chunk
  else .error .fault

/-- `_mm256_store_si256`. -/
def store (b : Block) (i : ℕ) (chunk : M256) : Except Stop Block :=
  if i % 32 = 0 then b.put i (chunk.map some) else .error .fault

end Block

/-- `_mm256_loadu_si256` from a slice. -/
def loadu (slice : List U8) (i : ℕ) : Except Stop M256 :=
  if i + 32 ≤ slice.length then .ok ((slice.drop i).take 32) else .error .fault

/-- The fields of `AU8Array`; without a block the pointer is dangling. -/
structure RawAU8Array where
  ptr : Option Block
  len : ℕ

namespace RawAU8Array

def createLayout (len : ℕ) : Except Stop Layout :=
  if 0 < len then orPanic (Layout.fromSizeAlign (if len % 32 ≠ 0 then len + (32 - len % 32) else len) 32)
  else .error .panic

def empty : RawAU8Array := ⟨none, 0⟩

def new (len : ℕ) : Except Stop RawAU8Array := do
  let layout ← createLayout len
  pure ⟨some (Block.allocZeroed layout), len⟩

def ones (len : ℕ) : Except Stop RawAU8Array := do
  let layout ← createLayout len
  let raw ← (Block.alloc layout).put 0 (List.replicate (alignMaxLen len) (some (BitVec.allOnes 8)))
  pure ⟨some raw, len⟩

def load (self : RawAU8Array) (i : ℕ) : Except Stop M256 :=
  match self.ptr with
  | none => .error .fault
  | some block => block.load i

/-- The loop of `clone` and of `from_slice`. -/
def copyChunks (read : ℕ → Except Stop M256) (l : ℕ) (raw : Block) : Except Stop Block :=
  (AU8Array.stepBy l).foldlM (fun raw i => do raw.store i (← read i)) raw

def clone (self : RawAU8Array) : Except Stop RawAU8Array := do
  let layout ← createLayout self.len
  let raw ← copyChunks self.load self.len (Block.alloc layout)
  pure ⟨some raw, self.len⟩

def fromSlice (slice : List U8) : Except Stop RawAU8Array :=
  let len := slice.length
  if len = 0 then pure empty
  else do
    let layout ← createLayout len
    let simdPass := len - len % 32
    let raw ← copyChunks (loadu slice) simdPass (Block.alloc layout)
    if len % 32 ≠ 0 then do
      let raw ← raw.put simdPass (List.replicate 32 (some 0))
      let raw ← raw.put simdPass (((slice.drop simdPass).take (len - simdPass)).map some)
      pure ⟨some raw, len⟩
    else pure ⟨some raw, len⟩

/-- Assigning to an element, through the slice of `len` bytes. -/
def write (self : RawAU8Array) (i : ℕ) (v : U8) : Except Stop RawAU8Array :=
  if i < self.len then
    match self.ptr with
    | none => .error .fault
    | some block => do pure ⟨some (← block.put i [some v]), self.len⟩
  else .error .panic

/-- What `drop` hands to `dealloc`; nothing for an empty array. -/
def dropLayout (self : RawAU8Array) : Option Layout :=
  if self.len = 0 then none else Layout.fromSizeAlign self.len 32

def alignedLen (self : RawAU8Array) : ℕ := alignMaxLen self.len

/-- A non-empty array owns a block of its aligned length, and all of it is initialised. -/
def Consistent (self : RawAU8Array) : Prop :=
  (self.len = 0 ∧ self.ptr = none) ∨
    (0 < self.len ∧ ∃ b, self.ptr = some b ∧ b.layout = ⟨self.alignedLen, 32⟩ ∧ none ∉ b.bytes)

/-- The block holds the bytes of the array, padding included. -/
structure Represents (r : RawAU8Array) (a : AU8Array) : Prop where
  len_eq : r.len = a.len
  empty : a.len = 0 → r.ptr = none
  block : 0 < a.len → ∃ b, r.ptr = some b ∧ b.layout = ⟨alignMaxLen a.len, 32⟩ ∧ b.bytes = a.buf.map some
  fits : alignMaxLen a.len ≤ 2^63 - 32

/-- A method that panics, or ends with the array that the method on whole arrays ends with. -/
def Follows (o : Except Stop RawAU8Array) (a : Option AU8Array) : Prop :=
  o = .error .panic ∨ ∃ r x, o = .ok r ∧ a = some x ∧ r.Represents x

end RawAU8Array

section Access
variable {b : Block} {i j c : ℕ} {target : List U8} {l : List (Option U8)}

theorem Block.put_eq (h : i + l.length ≤ b.bytes.length) : ∃ b', b.put i l = .ok b' ∧ b'.layout = b.layout ∧
    b'.bytes = b.bytes.take i ++ l ++ b.bytes.drop (i + l.length) := by
  rw [put, dif_pos h]
  exact ⟨_, rfl, rfl, rfl⟩

theorem mapM_id_map_some (l : List U8) : (l.map some).mapM id = some l := by
  induction l with
  | nil => rfl
  | cons a l ih => rw [List.map_cons, List.mapM_cons, ih]; rfl

/-- A chunk of an initialised block. -/
theorem Block.load_eq (hb : b.bytes = target.map some) (h : 32*j + 32 ≤ target.length) :
    b.load (32*j) = .ok ((target.drop (32*j)).take 32) := by
  have hlen : b.bytes.length = target.length := by rw [hb, List.length_map]
  rw [load, if_pos ⟨Nat.mul_mod_right 32 j, by rw [hlen]; exact h⟩, hb, ← List.map_drop, ← List.map_take,
    mapM_id_map_some]

theorem ok_bind {A B : Type} (a : A) (f : A → Except Stop B) : (Except.ok a >>= f) = f a := rfl

/-- Copying chunk after chunk leaves the start of what is read, and does not touch the rest. -/
theorem copyChunks_eq {read : ℕ → Except Stop M256} (hread : ∀ j < c, read (32*j) = .ok ((target.drop (32*j)).take 32))
    (htarget : 32*c ≤ target.length) (hb : 32*c ≤ b.bytes.length) :
    ∃ b', ((List.range c).map (32 * ·)).foldlM (fun raw i => do raw.store i (← read i)) b = Except.ok b' ∧
      b'.layout = b.layout ∧ b'.bytes = (target.take (32*c)).map some ++ b.bytes.drop (32*c) := by
  induction c with
  | zero => exact ⟨b, rfl, rfl, by simp⟩
  | succ c ih =>
    obtain ⟨b', hb', hlayout, hbytes⟩ := ih (fun j hj => hread j (by omega)) (by omega) (by omega)
    have hlen : ((target.take (32*c)).map some).length = 32*c := by
      rw [List.length_map, List.length_take]
      omega
    have hchunk : (((target.drop (32*c)).take 32).map some).length = 32 := by
      rw [List.length_map, List.length_take, List.length_drop]
      omega
    have hblock : b'.bytes.length = b.bytes.length := by rw [b'.bytes_length, hlayout, b.bytes_length]
    obtain ⟨b'', hput, hlayout', hbytes'⟩ := Block.put_eq (b := b') (i := 32*c)
      (l := ((target.drop (32*c)).take 32).map some) (by rw [hchunk, hblock]; omega)
    refine ⟨b'', ?_, hlayout'.trans hlayout, ?_⟩
    · rw [List.range_succ, List.map_append, List.foldlM_append, hb', ok_bind, List.map_singleton, List.foldlM_cons,
        hread c (by omega), ok_bind, Block.store, if_pos (Nat.mul_mod_right 32 c), hput]
      rfl
    · have htake : b'.bytes.take (32*c) = (target.take (32*c)).map some := by
        rw [hbytes, List.take_append_of_le_length hlen.ge, List.take_of_length_le hlen.le]
      have hdrop : b'.bytes.drop (32*c + 32) = b.bytes.drop (32*c + 32) := by
        rw [hbytes, ← List.drop_drop, List.drop_append_of_le_length hlen.ge, List.drop_eq_nil_of_le hlen.le,
          List.nil_append, List.drop_drop]
      rw [hbytes', hchunk, htake, hdrop, Nat.mul_succ, List.take_add, List.map_append]

end Access

namespace RawAU8Array
variable {r : RawAU8Array} {a : AU8Array} {m : ℕ}

/-- The layout of a block is the one that the aligned length has, if there is one. -/
theorem createLayout_cases (m : ℕ) : createLayout m = .error .panic ∨
    (0 < m ∧ alignMaxLen m ≤ 2^63 - 32 ∧ createLayout m = .ok ⟨alignMaxLen m, 32⟩) := by
  by_cases hpos : 0 < m
  · have hsize : (if m % 32 ≠ 0 then m + (32 - m % 32) else m) = alignMaxLen m := by
      unfold alignMaxLen
      by_cases h : m % 32 = 0 <;> simp [h]
    rw [createLayout, if_pos hpos, hsize, Layout.fromSizeAlign]
    split_ifs with hfits
    · exact Or.inr ⟨hpos, hfits, rfl⟩
    · exact Or.inl rfl
  · exact Or.inl (if_neg hpos)

theorem Represents.consistent (h : r.Represents a) : r.Consistent := by
  rcases Nat.eq_zero_or_pos a.len with hzero | hpos
  · exact Or.inl ⟨h.len_eq.trans hzero, h.empty hzero⟩
  · obtain ⟨b, hb, hlayout, hbytes⟩ := h.block hpos
    refine Or.inr ⟨h.len_eq ▸ hpos, b, hb, by rw [hlayout, alignedLen, h.len_eq], ?_⟩
    rw [hbytes, List.mem_map]
    rintro ⟨byte, -, hbyte⟩
    exact absurd hbyte (Option.some_ne_none byte)

/-- An array with a block of its aligned length. -/
theorem represents_of_block {b : Block} (ha : a.len = m) (hpos : 0 < m) (hfits : alignMaxLen m ≤ 2^63 - 32)
    (hlayout : b.layout = ⟨alignMaxLen m, 32⟩) (hbytes : b.bytes = a.buf.map some) :
    (⟨some b, m⟩ : RawAU8Array).Represents a := by
  subst ha
  exact ⟨rfl, fun hzero => absurd hzero hpos.ne', fun _ => ⟨b, rfl, hlayout, hbytes⟩, hfits⟩

theorem new_follows (m : ℕ) : Follows (new m) (AU8Array.new m) := by
  rcases createLayout_cases m with hpanic | ⟨hpos, hfits, hlayout⟩
  · exact Or.inl (by rw [new, hpanic]; rfl)
  · obtain ⟨size, hsize⟩ := AU8Array.createLayout_of_pos hpos
    have hnew : AU8Array.new m = some ⟨List.replicate size.1 0, m, by rw [List.length_replicate, size.2]⟩ := by
      rw [AU8Array.new, hsize]
      rfl
    refine Or.inr ⟨_, _, by rw [new, hlayout, ok_bind]; rfl, hnew, represents_of_block rfl hpos hfits rfl ?_⟩
    rw [List.map_replicate, size.2]
    rfl

theorem ones_follows (m : ℕ) : Follows (ones m) (AU8Array.ones m) := by
  rcases createLayout_cases m with hpanic | ⟨hpos, hfits, hlayout⟩
  · exact Or.inl (by rw [ones, hpanic]; rfl)
  · obtain ⟨size, hsize⟩ := AU8Array.createLayout_of_pos hpos
    have hones : AU8Array.ones m =
        some ⟨List.replicate size.1 (BitVec.allOnes 8), m, by rw [List.length_replicate, size.2]⟩ := by
      rw [AU8Array.ones, hsize]
      rfl
    have hlen : (List.replicate (alignMaxLen m) (some (BitVec.allOnes 8))).length = alignMaxLen m :=
      List.length_replicate
    have hblock : (Block.alloc ⟨alignMaxLen m, 32⟩).bytes.length = alignMaxLen m := List.length_replicate
    obtain ⟨raw, hraw, hkeep, hbytes⟩ := Block.put_eq (b := Block.alloc ⟨alignMaxLen m, 32⟩) (i := 0)
      (l := List.replicate (alignMaxLen m) (some (BitVec.allOnes 8))) (by rw [hlen, hblock, Nat.zero_add])
    refine Or.inr ⟨_, _, by rw [ones, hlayout, ok_bind, hraw]; rfl, hones,
      represents_of_block rfl hpos hfits hkeep ?_⟩
    rw [hbytes, hlen, Nat.zero_add, List.drop_eq_nil_of_le hblock.le, List.take_zero, List.map_replicate, size.2,
      List.nil_append, List.append_nil]

/-- A clone holds the bytes of its source, padding included. -/
theorem clone_follows (h : r.Represents a) : Follows r.clone a.clone := by
  rcases createLayout_cases r.len with hpanic | ⟨hpos, hfits, hlayout⟩
  · exact Or.inl (by rw [clone, hpanic]; rfl)
  · rw [h.len_eq] at hpos hfits hlayout
    obtain ⟨b, hb, -, hbytes⟩ := h.block hpos
    have hbuf : a.buf.length = 32*((a.len+31)/32) := by rw [a.buf_length, alignMaxLen_eq]
    have hblock : (Block.alloc ⟨alignMaxLen a.len, 32⟩).bytes.length = alignMaxLen a.len := List.length_replicate
    have hread : ∀ j < (a.len+31)/32, r.load (32*j) = .ok ((a.buf.drop (32*j)).take 32) := fun j hj => by
      rw [load, hb]
      exact Block.load_eq hbytes (by omega)
    obtain ⟨raw, hraw, hkeep, hrawb⟩ := copyChunks_eq hread hbuf.ge
      (by rw [hblock, alignMaxLen_eq] : 32*((a.len+31)/32) ≤ (Block.alloc ⟨alignMaxLen a.len, 32⟩).bytes.length)
    refine Or.inr ⟨⟨some raw, a.len⟩, a, ?_, AU8Array.clone_eq hpos, represents_of_block rfl hpos hfits hkeep ?_⟩
    · rw [clone, h.len_eq, hlayout, ok_bind, copyChunks, AU8Array.stepBy, hraw]
      rfl
    · rw [hrawb, ← hbuf, List.take_length, List.drop_eq_nil_of_le (by rw [hblock, a.buf_length]), List.append_nil]

/-- The last chunk of a slice that does not fill it: it is cleared, and then the rest of the slice is
copied over its start. -/
theorem putRest_eq {slice : List U8} {start : ℕ} {b : Block} (hb : b.bytes.length = start + 32)
    (hpre : b.bytes.take start = (slice.take start).map some) (hlt : start ≤ slice.length)
    (hrest : slice.length ≤ start + 32) :
    ∃ b' b'', b.put start (List.replicate 32 (some 0)) = .ok b' ∧
      b'.put start (((slice.drop start).take (slice.length - start)).map some) = .ok b'' ∧ b''.layout = b.layout ∧
      b''.bytes = (slice ++ List.replicate (start + 32 - slice.length) 0).map some := by
  have hrestlen : (((slice.drop start).take (slice.length - start)).map some).length = slice.length - start := by
    rw [List.length_map, List.length_take, List.length_drop, Nat.min_self]
  have hall : (slice.drop start).take (slice.length - start) = slice.drop start :=
    List.take_of_length_le (by rw [List.length_drop])
  obtain ⟨b', hput, hlayout, hbytes⟩ := Block.put_eq (b := b) (i := start) (l := List.replicate 32 (some 0))
    (by rw [List.length_replicate, hb])
  have hprelen : (b.bytes.take start).length = start := by
    rw [List.length_take]
    omega
  rw [List.length_replicate, List.drop_eq_nil_of_le hb.le, List.append_nil] at hbytes
  have hb' : b'.bytes.length = start + 32 := by rw [hbytes, List.length_append, hprelen, List.length_replicate]
  obtain ⟨b'', hput', hlayout', hbytes'⟩ := Block.put_eq (b := b') (i := start)
    (l := ((slice.drop start).take (slice.length - start)).map some) (by rw [hrestlen, hb']; omega)
  refine ⟨b', b'', hput, hput', hlayout'.trans hlayout, ?_⟩
  have htake : b'.bytes.take start = (slice.take start).map some := by
    rw [hbytes, List.take_append_of_le_length hprelen.ge, List.take_of_length_le hprelen.le, hpre]
  have hdrop : b'.bytes.drop (start + (slice.length - start)) =
      List.replicate (start + 32 - slice.length) (some 0) := by
    rw [hbytes, ← List.drop_drop, List.drop_append_of_le_length hprelen.ge, List.drop_eq_nil_of_le hprelen.le,
      List.nil_append, List.drop_replicate]
    congr 1
    omega
  rw [hbytes', hrestlen, htake, hdrop, hall, List.map_append, List.map_replicate, ← List.map_append,
    List.take_append_drop]

/-- The array holds the slice, and zeros past its end. -/
theorem fromSlice_follows (slice : List U8) : Follows (fromSlice slice) (some (AU8Array.fromSlice slice)) := by
  rcases Nat.eq_zero_or_pos slice.length with hzero | hpos
  · obtain rfl := List.length_eq_zero_iff.mp hzero
    exact Or.inr ⟨empty, _, rfl, rfl, rfl, fun _ => rfl, fun h => absurd h (Nat.lt_irrefl 0), Nat.zero_le _⟩
  rcases createLayout_cases slice.length with hpanic | ⟨-, hfits, hlayout⟩
  · exact Or.inl (by rw [fromSlice, if_neg hpos.ne', hpanic]; rfl)
  have hne : slice ≠ [] := List.ne_nil_of_length_pos hpos
  have hbuf : (AU8Array.fromSlice slice).buf =
      slice ++ List.replicate (alignMaxLen slice.length - slice.length) 0 := by
    rw [AU8Array.fromSlice, if_neg hne]
  have hblock : (Block.alloc ⟨alignMaxLen slice.length, 32⟩).bytes.length = alignMaxLen slice.length :=
    List.length_replicate
  have hpass : slice.length - slice.length % 32 = 32*(slice.length/32) := by omega
  have hsteps : AU8Array.stepBy (slice.length - slice.length % 32) = (List.range (slice.length/32)).map (32 * ·) := by
    rw [AU8Array.stepBy, hpass]
    congr 2
    omega
  have hread : ∀ j < slice.length/32, loadu slice (32*j) = .ok ((slice.drop (32*j)).take 32) := fun j hj =>
    if_pos (by omega)
  have haligned := alignMaxLen_eq slice.length
  obtain ⟨raw, hraw, hkeep, hrawb⟩ := copyChunks_eq (b := Block.alloc ⟨alignMaxLen slice.length, 32⟩) hread (by omega)
    (by omega)
  have hrun : fromSlice slice = if slice.length % 32 ≠ 0 then (do
      let raw ← raw.put (slice.length - slice.length % 32) (List.replicate 32 (some 0))
      let raw ← raw.put (slice.length - slice.length % 32) (((slice.drop (slice.length - slice.length % 32)).take
        (slice.length - (slice.length - slice.length % 32))).map some)
      pure ⟨some raw, slice.length⟩) else pure ⟨some raw, slice.length⟩ := by
    have hcopy : copyChunks (loadu slice) (slice.length - slice.length % 32)
        (Block.alloc ⟨alignMaxLen slice.length, 32⟩) = .ok raw := by
      rw [copyChunks, hsteps]
      exact hraw
    simp only [fromSlice, if_neg hpos.ne', hlayout, ok_bind, hcopy]
  have hrawlen : raw.bytes.length = alignMaxLen slice.length := by rw [raw.bytes_length, hkeep]; rfl
  rw [hrun, hpass]
  by_cases hwhole : slice.length % 32 = 0
  · refine Or.inr ⟨⟨some raw, slice.length⟩, _, by rw [if_neg (not_not.mpr hwhole)]; rfl, rfl,
      represents_of_block (AU8Array.fromSlice_len slice) hpos hfits hkeep ?_⟩
    have hlen : 32*(slice.length/32) = slice.length := by omega
    have hsame : alignMaxLen slice.length = slice.length := if_pos hwhole
    have hdrop : (Block.alloc ⟨alignMaxLen slice.length, 32⟩).bytes.drop slice.length = [] :=
      List.drop_eq_nil_of_le (by omega)
    rw [hrawb, hbuf, hlen, hdrop, hsame, List.take_length, Nat.sub_self, List.replicate_zero, List.append_nil,
      List.append_nil]
  · have hprelen : ((slice.take (32*(slice.length/32))).map some).length = 32*(slice.length/32) := by
      rw [List.length_map, List.length_take]
      omega
    obtain ⟨b', b'', hput, hput', hlayout', hbytes⟩ := @putRest_eq slice (32*(slice.length/32)) raw (by omega)
      (by rw [hrawb, List.take_append_of_le_length hprelen.ge, List.take_of_length_le hprelen.le])
      (by omega) (by omega)
    refine Or.inr ⟨⟨some b'', slice.length⟩, _, ?_, rfl,
      represents_of_block (AU8Array.fromSlice_len slice) hpos hfits (hlayout'.trans hkeep) ?_⟩
    · rw [if_pos hwhole, hput, ok_bind, hput', ok_bind]
      rfl
    · rw [hbytes, hbuf]
      congr 3
      omega

theorem write_follows (h : r.Represents a) (i : ℕ) (v : U8) : Follows (r.write i v) (a.setByte i v) := by
  by_cases hi : i < a.len
  · obtain ⟨b, hb, hlayout, hbytes⟩ := h.block (by omega)
    have hbuf := a.buf_length
    have hle := le_alignMaxLen a.len
    have hlen : b.bytes.length = a.buf.length := by rw [hbytes, List.length_map]
    obtain ⟨x, hx, hxlen, hxbuf⟩ : ∃ x, a.setByte i v = some x ∧ x.len = a.len ∧ x.buf = a.buf.set i v :=
      ⟨_, if_pos hi, rfl, rfl⟩
    obtain ⟨b', hput, hlayout', hbytes'⟩ := Block.put_eq (b := b) (i := i) (l := [some v])
      (by rw [List.length_singleton]; omega)
    refine Or.inr ⟨⟨some b', a.len⟩, x, ?_, hx,
      represents_of_block hxlen (by omega) h.fits (hlayout'.trans hlayout) ?_⟩
    · rw [write, h.len_eq, if_pos hi, hb]
      simp only [hput, ok_bind]
      rfl
    · rw [hbytes', hbytes, hxbuf, List.set_eq_take_append_cons_drop, if_pos (by omega)]
      simp
  · exact Or.inl (by rw [write, if_neg (h.len_eq ▸ hi)])

end RawAU8Array

end PrivRecCert.SimdArray
