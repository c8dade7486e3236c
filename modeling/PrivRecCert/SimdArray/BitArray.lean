import PrivRecCert.SimdArray.AlignedArray

/-! `BitArray`: bits on top of `AU8Array`. `Represents` says which bits an array holds, the unused
bits of its last byte and of its last chunk included, and every operation has one lemma in terms
of it. -/
namespace PrivRecCert.SimdArray
open Bytes

structure BitArray where
  data : AU8Array
  bitSize : ℕ
  byteSize : ℕ
  deriving DecidableEq

/-- `usize::div_ceil`. -/
def divCeil (a b : ℕ) : ℕ := (a+b-1)/b

namespace BitArray

def new (bitSize : ℕ) : Option BitArray := do
  let byteSize := divCeil bitSize 8
  some ⟨← AU8Array.new byteSize, bitSize, byteSize⟩

def ones (bitSize : ℕ) : Option BitArray := do
  let byteSize := divCeil bitSize 8
  some ⟨← AU8Array.ones byteSize, bitSize, byteSize⟩

def fromByteSlice (src : List U8) (bitSize : ℕ) : Option BitArray :=
  let byteSize := divCeil bitSize 8
  if byteSize ≤ src.length then
    some ⟨AU8Array.fromSlice (src.take byteSize), bitSize, byteSize⟩
  else none

def random {R : Type} [RngCore R] (bitSize : ℕ) (rng : R) : Option (BitArray × R) := do
  let byteSize := divCeil bitSize 8
  let data ← AU8Array.new byteSize
  let (data, rng) := data.fill rng
  some (⟨data, bitSize, byteSize⟩, rng)

def fromSeed (chacha : ChaCha8Rng.Keystream) (bitSize : ℕ) (seed : Seed) : Option BitArray :=
  (random bitSize (ChaCha8Rng.fromSeed chacha seed)).map Prod.fst

def clone (a : BitArray) : Option BitArray := do
  some { a with data := ← a.data.clone }

def setBit (a : BitArray) (index : ℕ) (value : Bool) : Option BitArray :=
  if index < a.bitSize then do
    let byte ← a.data.getByte (index/8)
    some { a with data := ← a.data.setByte (index/8) (writeBit byte (index%8) value) }
  else none

def get (a : BitArray) (index : ℕ) : Option Bool :=
  if index < a.bitSize then do
    let byte ← a.data.getByte (index/8)
    some (byte &&& mask (index%8) != 0#8)
  else none

def getInnerMemref (a : BitArray) : List U8 := a.data.asSlice

/-- Bit by bit unless both the position and the length are byte-aligned. -/
def copyFrom (self : BitArray) (atBit : ℕ) (source : BitArray) : Option BitArray :=
  if atBit + source.bitSize ≤ self.bitSize then
    if atBit % 8 ≠ 0 ∨ source.bitSize % 8 ≠ 0 then
      (List.range source.bitSize).foldlM (fun d i => do d.setBit (i+atBit) (← source.get i)) self
    else do
      let startByte := atBit/8
      some { self with data := ← self.data.copyNonoverlapping startByte source.data source.byteSize }
  else none

def shrinkToPartialLastByte (a : BitArray) (partialBitSize : ℕ) : Option BitArray :=
  if a.bitSize = partialBitSize then some a
  else if partialBitSize < a.bitSize ∧ partialBitSize + 8 > a.bitSize then
    some { a with bitSize := partialBitSize }
  else none

def toSlice (a : BitArray) (stByte endByte : ℕ) : Option BitArray :=
  if stByte ≤ endByte ∧ endByte ≤ a.byteSize ∧ endByte ≤ a.data.len then
    some ⟨AU8Array.fromSlice ((a.data.asSlice.drop stByte).take (endByte-stByte)),
      (endByte-stByte)*8, endByte-stByte⟩
  else none

/-- Sets `self` to the conjunction of `a` and `b`. -/
def mutAnd (self a b : BitArray) : Option BitArray :=
  if a.bitSize = b.bitSize ∧ a.bitSize = self.bitSize then do
    some { self with data := ← self.data.mutZip (· &&& ·) a.data b.data }
  else none

def inplaceAnd (self other : BitArray) : Option BitArray :=
  if self.bitSize = other.bitSize then do
    some { self with data := ← self.data.inplaceZip (· &&& ·) other.data }
  else none

def inplaceXor (self other : BitArray) : Option BitArray :=
  if self.bitSize = other.bitSize then do
    some { self with data := ← self.data.inplaceZip (· ^^^ ·) other.data }
  else none

/-- The exclusive or of all bits of the block. -/
def parity (a : BitArray) : Option Bool := do
  let result ← AU8Array.accumulate a.data.alignedLen a.data.load
  some (countOnes result % 2 = 1)

def inplaceReconstruct (self : BitArray) (shares : List BitArray) : Option BitArray :=
  if shares.isEmpty then none else shares.foldlM inplaceXor self

/-- The last share, with all the others added to it. -/
def reconstruct (shares : List BitArray) : Option BitArray := do
  let rec_ ← shares.getLast?
  shares.dropLast.foldlM inplaceXor rec_

/-- `count` random arrays of one size, drawn one after the other. -/
def randoms {R : Type} [RngCore R] (bitSize : ℕ) : ℕ → R → Option (List BitArray × R)
  | 0, rng => some ([], rng)
  | count+1, rng => do
    let (share, rng) ← random bitSize rng
    let (shares, rng) ← randoms bitSize count rng
    some (share :: shares, rng)

/-- Returns the other parties' shares and the array's own new value. -/
def inplaceSecretShare {R : Type} [RngCore R] (self : BitArray) (partyNum : ℕ) (rng : R) :
    Option ((List BitArray × BitArray) × R) :=
  if partyNum = 0 then none
  else do
    let (shares, rng) ← randoms self.bitSize (partyNum-1) rng
    some ((shares, ← self.inplaceReconstruct shares), rng)

def secretShare {R : Type} [RngCore R] (self : BitArray) (partyNum : ℕ) (rng : R) :
    Option (List BitArray × R) := do
  let duplicate ← self.clone
  let ((shares, duplicate), rng) ← duplicate.inplaceSecretShare partyNum rng
  some (shares ++ [duplicate], rng)

/-- The parity of the conjunction. -/
def innerProd (x y : BitArray) : Option Bool :=
  if x.bitSize = y.bitSize then do
    let result ← AU8Array.accumulate x.data.alignedLen fun i => do
      some (List.zipWith (· &&& ·) (← x.data.load i) (← y.data.load i))
    some (countOnes result % 2 = 1)
  else none

def xor (x y : BitArray) : Option BitArray := do (← x.clone).inplaceXor y

def and (x y : BitArray) : Option BitArray := do (← x.clone).inplaceAnd y

def eq (x y : BitArray) : Option Bool :=
  if x.bitSize ≠ y.bitSize then some false
  else AU8Array.eqLoop x.data y.data (AU8Array.stepBy x.data.alignedLen)

/-- Number of bits in the block of an array of `s` bits, padding included. -/
def blockBits (s : ℕ) : ℕ := 8*alignMaxLen ((s+7)/8)

def bit (a : BitArray) (k : ℕ) : Bool := a.data.bit k

/-- The sizes of an array agree. -/
structure WF (a : BitArray) : Prop where
  byteSize_eq : a.byteSize = (a.bitSize+7)/8
  len_eq : a.data.len = a.byteSize

/-- `a` has `s` bits, and its block holds the bits `f`. -/
structure Represents (a : BitArray) (s : ℕ) (f : ℕ → Bool) : Prop extends WF a where
  bitSize_eq : a.bitSize = s
  bit_eq : ∀ k, a.bit k = f k

namespace Represents
variable {a b : BitArray} {s : ℕ} {f g : ℕ → Bool}

theorem of_wf (h : a.WF) : a.Represents a.bitSize a.bit := ⟨h, rfl, fun _ => rfl⟩

theorem len (h : a.Represents s f) : a.data.len = (s+7)/8 := by
  rw [h.len_eq, h.byteSize_eq, h.bitSize_eq]

theorem buf_length (h : a.Represents s f) : 8*a.data.buf.length = blockBits s := by
  rw [a.data.buf_length, h.len, blockBits]

theorem congr (h : a.Represents s f) (hfg : ∀ k, f k = g k) : a.Represents s g :=
  ⟨h.toWF, h.bitSize_eq, fun k => (h.bit_eq k).trans (hfg k)⟩

/-- The size and the bits of the block are all there is to an array. -/
theorem unique (ha : a.Represents s f) (hb : b.Represents s f) : a = b := by
  have hbuf : a.data.buf = b.data.buf := by
    refine ext_bitAt ?_ fun k _ => (ha.bit_eq k).trans (hb.bit_eq k).symm
    have hal := ha.buf_length
    have hbl := hb.buf_length
    omega
  have hdata : a.data = b.data := AU8Array.ext_buf hbuf (ha.len.trans hb.len.symm)
  have hbit : a.bitSize = b.bitSize := ha.bitSize_eq.trans hb.bitSize_eq.symm
  have hbyte : a.byteSize = b.byteSize := by rw [ha.byteSize_eq, hb.byteSize_eq, hbit]
  cases a
  cases b
  cases hdata
  cases hbit
  cases hbyte
  rfl

end Represents

theorem le_blockBits (s : ℕ) : 8*((s+7)/8) ≤ blockBits s :=
  Nat.mul_le_mul_left 8 (le_alignMaxLen _)

theorem divCeil_eight (s : ℕ) : divCeil s 8 = (s+7)/8 := rfl

variable {a b x y self other source : BitArray} {s t : ℕ} {f g h : ℕ → Bool}

theorem new_eq (hs : 0 < s) : ∃ r, new s = some r ∧ r.Represents s fun _ => false := by
  obtain ⟨data, hd, hl, hb⟩ := AU8Array.new_eq (m := divCeil s 8) (by rw [divCeil_eight]; omega)
  exact ⟨⟨data, s, divCeil s 8⟩, by rw [new, hd]; rfl, ⟨rfl, hl⟩, rfl, hb⟩

theorem ones_eq (hs : 0 < s) :
    ∃ r, ones s = some r ∧ r.Represents s fun k => decide (k < blockBits s) := by
  obtain ⟨data, hd, hl, hb⟩ := AU8Array.ones_eq (m := divCeil s 8) (by rw [divCeil_eight]; omega)
  have hblock : 8*data.alignedLen = blockBits s := by rw [AU8Array.alignedLen, hl]; rfl
  refine ⟨⟨data, s, divCeil s 8⟩, by rw [ones, hd]; rfl, ⟨rfl, hl⟩, rfl, fun k => ?_⟩
  by_cases hk : k < blockBits s
  · rw [decide_eq_true hk]
    exact hb k (hblock ▸ hk)
  · have hle : 8*data.alignedLen ≤ k := by omega
    rw [decide_eq_false hk]
    exact AU8Array.bit_of_le hle

theorem fromByteSlice_eq {src : List U8} (h : (s+7)/8 ≤ src.length) :
    ∃ r, fromByteSlice src s = some r ∧
      r.Represents s fun k => if k < 8*((s+7)/8) then bitAt src k else false := by
  refine ⟨_, if_pos h, ⟨rfl, ?_⟩, rfl, fun k => ?_⟩
  · rw [AU8Array.fromSlice_len, List.length_take]
    exact Nat.min_eq_left h
  · rw [bit, AU8Array.fromSlice_bit, bitAt_take, divCeil_eight]

theorem random_eq {R : Type} [RngCore R] (hs : 0 < s) (rng : R) :
    ∃ r, random s rng = some (r, (RngCore.fillBytes rng ((s+7)/8)).2) ∧
      r.Represents s fun k => bitAt (RngCore.fillBytes rng ((s+7)/8)).1.1 k := by
  obtain ⟨data, hd, hl, hb⟩ := AU8Array.new_eq (m := divCeil s 8) (by rw [divCeil_eight]; omega)
  rw [divCeil_eight] at hl
  refine ⟨⟨(data.fill rng).1, s, divCeil s 8⟩, ?_, ⟨rfl, hl⟩, rfl, fun k => ?_⟩
  · rw [← hl, random, hd]
    rfl
  · rw [bit, AU8Array.fill_bit, hl, hb]
    split_ifs with hk
    · rfl
    · rw [bitAt_of_le]
      rw [(RngCore.fillBytes rng ((s+7)/8)).1.2]
      omega

/-- The contents of `m` arrays of `byteSize` bytes drawn one after the other. -/
def fillStreams {R : Type} [RngCore R] (byteSize : ℕ) : ℕ → R → List (ℕ → Bool)
  | 0, _ => []
  | m+1, rng =>
    bitAt (RngCore.fillBytes rng byteSize).1.1 :: fillStreams byteSize m (RngCore.fillBytes rng byteSize).2

theorem fillStreams_length {R : Type} [RngCore R] (byteSize m : ℕ) (rng : R) :
    (fillStreams byteSize m rng).length = m := by
  induction m generalizing rng with
  | zero => rfl
  | succ m ih => rw [fillStreams, List.length_cons, ih]

/-- Drawn bytes leave the padding of an array clear. -/
theorem fillStreams_of_le {R : Type} [RngCore R] {byteSize m : ℕ} {rng : R} :
    ∀ f ∈ fillStreams byteSize m rng, ∀ k, 8*byteSize ≤ k → f k = false := by
  induction m generalizing rng with
  | zero => simp [fillStreams]
  | succ m ih =>
    intro f hf k hk
    rw [fillStreams, List.mem_cons] at hf
    rcases hf with rfl | hf
    · exact bitAt_of_le (by rw [(RngCore.fillBytes rng byteSize).1.2]; exact hk)
    · exact ih f hf k hk

theorem randoms_eq {R : Type} [RngCore R] (hs : 0 < s) (m : ℕ) (rng : R) :
    ∃ l rng', randoms s m rng = some (l, rng') ∧
      List.Forall₂ (fun (a : BitArray) f => a.Represents s f) l (fillStreams ((s+7)/8) m rng) := by
  induction m generalizing rng with
  | zero => exact ⟨[], rng, rfl, .nil⟩
  | succ m ih =>
    obtain ⟨r, hr, hrr⟩ := random_eq hs rng
    obtain ⟨l, rng', hl, hlr⟩ := ih (RngCore.fillBytes rng ((s+7)/8)).2
    refine ⟨r :: l, rng', ?_, .cons hrr hlr⟩
    simp [randoms, hr, hl]

theorem clone_eq (ha : a.Represents s f) (hs : 0 < s) : a.clone = some a := by
  rw [clone, AU8Array.clone_eq (by rw [ha.len]; omega)]
  rfl

theorem get_bit {k : ℕ} (hk : k < a.bitSize) (hlen : k/8 < a.data.len) : a.get k = some (a.bit k) := by
  obtain ⟨byte, hb, hbits⟩ := AU8Array.getByte_eq (a := a.data) (k := k) hlen
  rw [get, if_pos hk, hb]
  have hsum : 8*(k/8) + k%8 = k := Nat.div_add_mod k 8
  have hbit : byte.getLsbD (k%8) = a.bit k := by
    rw [hbits _ (Nat.mod_lt _ (by decide)), hsum]
    rfl
  exact congrArg some ((and_mask_ne_zero byte (Nat.mod_lt _ (by decide))).trans hbit)

theorem get_eq (ha : a.Represents s f) {k : ℕ} (hk : k < s) : a.get k = some (f k) := by
  rw [get_bit (ha.bitSize_eq ▸ hk) (by rw [ha.len]; omega), ha.bit_eq]

/-- Setting one bit of the bytes in use. -/
theorem setBit_bits {k : ℕ} (hk : k < a.bitSize) (hlt : k/8 < a.data.len) (v : Bool) :
    ∃ data : AU8Array, a.setBit k v = some { a with data := data } ∧ data.len = a.data.len ∧
      ∀ j, data.bit j = if j = k then v else a.bit j := by
  obtain ⟨byte, hb, hbits⟩ := AU8Array.getByte_eq (a := a.data) (k := k) hlt
  obtain ⟨data, hd, hdl, hdb⟩ := AU8Array.setByte_eq hlt (writeBit byte (k%8) v)
  refine ⟨data, ?_, hdl, fun j => ?_⟩
  · rw [setBit, if_pos hk, hb]
    simp [hd]
  · rw [hdb, getLsbD_writeBit _ (Nat.mod_lt _ (by decide)), hbits _ (Nat.mod_lt _ (by decide)), bit]
    by_cases hdiv : j/8 = k/8
    · have hsum : 8*(k/8) + j%8 = j := by omega
      have hiff : j%8 = k%8 ↔ j = k := by omega
      simp only [hdiv, if_true, hsum, hiff]
    · have hne : j ≠ k := fun h0 => hdiv (by rw [h0])
      simp only [hdiv, hne, if_false]

theorem setBit_eq (ha : a.Represents s f) {k : ℕ} (hk : k < s) (v : Bool) :
    ∃ r, a.setBit k v = some r ∧ r.Represents s fun j => if j = k then v else f j := by
  obtain ⟨data, hd, hdl, hdb⟩ := setBit_bits (ha.bitSize_eq ▸ hk) (by rw [ha.len]; omega) v
  refine ⟨{ a with data := data }, hd, ⟨ha.byteSize_eq, hdl.trans ha.len_eq⟩, ha.bitSize_eq, fun j => ?_⟩
  rw [bit, hdb, ha.bit_eq j]

/-- A loop that sets the bits `at, at+1, …` one by one. -/
theorem setBits_eq (ha : a.Represents s f) {v : ℕ → Option Bool} {w : ℕ → Bool} {u n : ℕ}
    (hn : u + n ≤ s) (hv : ∀ i < n, v i = some (w i)) :
    ∃ r, (List.range n).foldlM (fun d i => do setBit d (i+u) (← v i)) a = some r ∧
      r.Represents s fun k => if u ≤ k ∧ k < u+n then w (k-u) else f k := by
  induction n with
  | zero => exact ⟨a, rfl, ha.congr fun k => by rw [if_neg (by omega)]⟩
  | succ n ih =>
    obtain ⟨d, hd, hdr⟩ := ih (by omega) fun i hi => hv i (by omega)
    obtain ⟨r, hr, hrr⟩ := setBit_eq hdr (k := n+u) (by omega) (w n)
    refine ⟨r, ?_, hrr.congr fun k => ?_⟩
    · rw [List.range_succ, List.foldlM_append, hd]
      simp [hv n (by omega), hr]
    · by_cases hk : k = n+u
      · have hsub : k - u = n := by omega
        rw [if_pos hk, if_pos (by omega), hsub]
      · have hiff : (u ≤ k ∧ k < u+n) ↔ (u ≤ k ∧ k < u+(n+1)) := by omega
        rw [if_neg hk]
        simp only [hiff]

/-- Both paths of a copy have the same effect: the bits of the source replace as many bits. -/
theorem copyFrom_eq {u : ℕ} (hd : self.Represents s f) (hsrc : source.Represents t g)
    (hle : u + t ≤ s) : ∃ r, self.copyFrom u source = some r ∧
      r.Represents s fun k => if u ≤ k ∧ k < u+t then g (k-u) else f k := by
  rw [copyFrom, if_pos (by rw [hsrc.bitSize_eq, hd.bitSize_eq]; exact hle), hsrc.bitSize_eq]
  split_ifs with hslow
  · exact setBits_eq hd hle fun i hi => get_eq hsrc hi
  · have hat : u % 8 = 0 := by omega
    have ht : t % 8 = 0 := by omega
    have hsize : source.byteSize = (t+7)/8 := by rw [hsrc.byteSize_eq, hsrc.bitSize_eq]
    obtain ⟨data, hdata, hl, hb⟩ := AU8Array.copyNonoverlapping_eq (a := self.data)
      (b := source.data) (u := u/8) (c := source.byteSize)
      (by rw [hd.len, hsize]; omega) (by rw [hsrc.len, hsize])
    refine ⟨{ self with data := data }, ?_, ⟨hd.byteSize_eq, hl.trans hd.len_eq⟩, hd.bitSize_eq,
      fun k => ?_⟩
    · simp [hdata]
    · have h1 : 8*(u/8) = u := by omega
      have h2 : 8*source.byteSize = t := by rw [hsize]; omega
      have hself : self.data.bit k = f k := hd.bit_eq k
      have hsource : source.data.bit (k-u) = g (k-u) := hsrc.bit_eq _
      rw [bit, hb, h1, h2, hself, hsource]

/-- A loop that copies arrays of `w` bits one behind the other, from position `start` on. -/
theorem copyBlocks_eq (hd : self.Represents s f) {o : BitArray → ℕ → Option BitArray}
    {b : ℕ → ℕ → Bool} {u n w : ℕ} (hle : u + n*w ≤ s)
    (hop : ∀ i < n, ∃ src, BitArray.Represents src w (b i) ∧
      ∀ d, o d i = d.copyFrom (u + i*w) src) :
    ∃ r, (List.range n).foldlM o self = some r ∧ r.Represents s fun k =>
      if u ≤ k ∧ k < u + n*w then b ((k-u)/w) ((k-u)%w) else f k := by
  induction n with
  | zero => exact ⟨self, rfl, hd.congr fun k => by rw [if_neg (by omega)]⟩
  | succ n ih =>
    rw [Nat.succ_mul] at hle
    obtain ⟨d, hfold, hdr⟩ := ih (by omega) fun i hi => hop i (by omega)
    obtain ⟨src, hsrc, hopn⟩ := hop n (by omega)
    obtain ⟨r, hr, hrr⟩ := copyFrom_eq hdr hsrc (u := u + n*w) (by omega)
    refine ⟨r, ?_, hrr.congr fun k => ?_⟩
    · rw [List.range_succ, List.foldlM_append, hfold]
      simp [hopn, hr]
    · by_cases hlast : u + n*w ≤ k ∧ k < u + n*w + w
      · have hk : k - u = w*n + (k - (u + n*w)) := by rw [Nat.mul_comm w n]; omega
        have hlt : k - (u + n*w) < w := by omega
        have hdiv : (k-u)/w = n := by
          rw [hk, Nat.mul_add_div (by omega), Nat.div_eq_of_lt hlt, Nat.add_zero]
        have hmod : (k-u)%w = k - (u + n*w) := by
          rw [hk, Nat.mul_add_mod, Nat.mod_eq_of_lt hlt]
        rw [if_pos hlast, if_pos (by rw [Nat.succ_mul]; omega), hdiv, hmod]
      · have hiff : (u ≤ k ∧ k < u + n*w) ↔ (u ≤ k ∧ k < u + (n+1)*w) := by
          rw [Nat.succ_mul]
          omega
        rw [if_neg hlast]
        simp only [hiff]

theorem shrinkToPartialLastByte_eq (ha : a.Represents (8*s) f) (ht : t ≤ 8*s) (hlt : 8*s < t+8) :
    ∃ r, a.shrinkToPartialLastByte t = some r ∧ r.Represents t f := by
  have hsize := ha.bitSize_eq
  have hbyte := ha.byteSize_eq
  unfold shrinkToPartialLastByte
  split_ifs with h1 h2
  · exact ⟨a, rfl, ha.toWF, h1, ha.bit_eq⟩
  · refine ⟨{ a with bitSize := t }, rfl, ⟨?_, ha.len_eq⟩, rfl, ha.bit_eq⟩
    change a.byteSize = (t+7)/8
    omega
  · omega

theorem toSlice_eq (ha : a.Represents s f) {u v : ℕ} (hle : u ≤ v)
    (hend : v ≤ (s+7)/8) : ∃ r, a.toSlice u v = some r ∧
      r.Represents (8*(v-u)) fun k =>
        if k < 8*(v-u) then f (k+8*u) else false := by
  have hlen := ha.len
  have hbyte : a.byteSize = (s+7)/8 := by rw [ha.byteSize_eq, ha.bitSize_eq]
  refine ⟨_, if_pos ⟨hle, by omega, by omega⟩, ⟨?_, ?_⟩, Nat.mul_comm _ _, fun k => ?_⟩
  · change v-u = ((v-u)*8+7)/8
    omega
  · rw [AU8Array.fromSlice_len, List.length_take, List.length_drop, AU8Array.asSlice_length]
    exact Nat.min_eq_left (by omega)
  · rw [bit, AU8Array.fromSlice_bit, bitAt_take, bitAt_drop, AU8Array.bitAt_asSlice]
    split_ifs with h1 h2
    · exact ha.bit_eq _
    · omega
    · rfl

theorem zip_represents {op : U8 → U8 → U8} {bop : Bool → Bool → Bool}
    (hop : ∀ {l l' : List U8}, l.length = l'.length →
      ∀ k, bitAt (List.zipWith op l l') k = bop (bitAt l k) (bitAt l' k))
    (ha : a.Represents s f) (hb : b.Represents s g) (hself : self.Represents s h) {data : AU8Array}
    (hl : data.len = self.data.len) (hd : data.buf = List.zipWith op a.data.buf b.data.buf) :
    BitArray.Represents { self with data := data } s fun k => bop (f k) (g k) := by
  have hlen : a.data.buf.length = b.data.buf.length := by
    have hal := ha.buf_length
    have hbl := hb.buf_length
    omega
  refine ⟨⟨hself.byteSize_eq, hl.trans hself.len_eq⟩, hself.bitSize_eq, fun k => ?_⟩
  have hak : bitAt a.data.buf k = f k := ha.bit_eq k
  have hbk : bitAt b.data.buf k = g k := hb.bit_eq k
  rw [bit, AU8Array.bit, hd, hop hlen, hak, hbk]

theorem inplaceXor_eq (ha : self.Represents s f) (hb : other.Represents s g) :
    ∃ r, self.inplaceXor other = some r ∧ r.Represents s fun k => f k ^^ g k := by
  obtain ⟨data, hd, hl, hbuf⟩ := AU8Array.inplaceZip_eq (· ^^^ ·)
    (AU8Array.buf_length_congr (ha.len.trans hb.len.symm))
  refine ⟨{ self with data := data }, ?_, zip_represents bitAt_zipWith_xor ha hb ha hl hbuf⟩
  rw [inplaceXor, if_pos (ha.bitSize_eq.trans hb.bitSize_eq.symm), hd]
  rfl

theorem inplaceAnd_eq (ha : self.Represents s f) (hb : other.Represents s g) :
    ∃ r, self.inplaceAnd other = some r ∧ r.Represents s fun k => f k && g k := by
  obtain ⟨data, hd, hl, hbuf⟩ := AU8Array.inplaceZip_eq (· &&& ·)
    (AU8Array.buf_length_congr (ha.len.trans hb.len.symm))
  refine ⟨{ self with data := data }, ?_, zip_represents bitAt_zipWith_and ha hb ha hl hbuf⟩
  rw [inplaceAnd, if_pos (ha.bitSize_eq.trans hb.bitSize_eq.symm), hd]
  rfl

theorem mutAnd_eq (hself : self.Represents s h) (ha : a.Represents s f) (hb : b.Represents s g) :
    ∃ r, self.mutAnd a b = some r ∧ r.Represents s fun k => f k && g k := by
  obtain ⟨data, hd, hl, hbuf⟩ := AU8Array.mutZip_eq (· &&& ·)
    (AU8Array.buf_length_congr (hself.len.trans ha.len.symm)) (AU8Array.buf_length_congr (hself.len.trans hb.len.symm))
  refine ⟨{ self with data := data }, ?_, zip_represents bitAt_zipWith_and ha hb hself hl hbuf⟩
  rw [mutAnd, if_pos ⟨ha.bitSize_eq.trans hb.bitSize_eq.symm, ha.bitSize_eq.trans hself.bitSize_eq.symm⟩,
    hd]
  rfl

theorem xorBits_buf (ha : a.Represents s f) :
    xorBits a.data.buf = ∑ k ∈ Finset.range (blockBits s), f k := by
  rw [xorBits, ha.buf_length]
  exact Finset.sum_congr rfl fun k _ => ha.bit_eq k

theorem parity_eq (ha : a.Represents s f) :
    a.parity = some (∑ k ∈ Finset.range (blockBits s), f k) := by
  obtain ⟨r, hr, hx⟩ := AU8Array.accumulate_eq (a := a.data) (f := a.data.load) rfl
    fun j hj => AU8Array.load_eq hj
  rw [parity, hr, ← xorBits_buf ha, ← hx, ← countOnes_odd]
  rfl

theorem innerProd_eq (hx : x.Represents s f) (hy : y.Represents s g) :
    innerProd x y = some (∑ k ∈ Finset.range (blockBits s), (f k && g k)) := by
  have hlen : x.data.buf.length = y.data.buf.length := by
    have hxl := hx.buf_length
    have hyl := hy.buf_length
    omega
  obtain ⟨r, hr, hxor⟩ := AU8Array.accumulate_eq (a := x.data)
    (f := fun i => do some (List.zipWith (· &&& ·) (← x.data.load i) (← y.data.load i)))
    (b := List.zipWith (· &&& ·) x.data.buf y.data.buf) (by simp [hlen]) fun j hj => by
      rw [AU8Array.load_eq hj, AU8Array.load_eq (hlen ▸ hj)]
      simp [List.drop_zipWith, List.take_zipWith]
  have hbits : xorBits (List.zipWith (· &&& ·) x.data.buf y.data.buf) =
      ∑ k ∈ Finset.range (blockBits s), (f k && g k) := by
    have hzlen : (List.zipWith (· &&& ·) x.data.buf y.data.buf).length = x.data.buf.length := by
      simp [hlen]
    rw [xorBits, hzlen, hx.buf_length]
    apply Finset.sum_congr rfl
    intro k _
    rw [bitAt_zipWith_and hlen, ← hx.bit_eq k, ← hy.bit_eq k]
    rfl
  rw [innerProd, if_pos (hx.bitSize_eq.trans hy.bitSize_eq.symm), hr, ← hbits, ← hxor, ← countOnes_odd]
  rfl

/-- `==` compares the whole block: the bits and the padding. -/
theorem eq_eq (hx : x.Represents s f) (hy : y.Represents s g) :
    ∃ e, eq x y = some e ∧ (e = true ↔ ∀ k, f k = g k) := by
  refine ⟨_, (if_neg (not_not.mpr (hx.bitSize_eq.trans hy.bitSize_eq.symm))).trans
    (AU8Array.eqLoop_eq (hx.len.trans hy.len.symm)), ?_⟩
  rw [decide_eq_true_iff]
  refine ⟨fun hbuf k => ?_, fun hfg => ?_⟩
  · rw [← hx.bit_eq, ← hy.bit_eq, bit, bit, AU8Array.bit, hbuf]
    rfl
  · rw [hx.unique (hy.congr fun k => (hfg k).symm)]

/-- Adding the arrays `l` one after the other. -/
theorem foldlM_inplaceXor_eq {l : List BitArray} (ha : self.Represents s f)
    (hl : ∀ b ∈ l, ∃ g, b.Represents s g) : ∃ r, l.foldlM inplaceXor self = some r ∧
      r.Represents s fun k => l.foldl (fun acc b => acc ^^ b.bit k) (f k) := by
  induction l generalizing self f with
  | nil => exact ⟨self, rfl, ha⟩
  | cons b l ih =>
    obtain ⟨g, hg⟩ := hl b (by simp)
    obtain ⟨d, hd, hdr⟩ := inplaceXor_eq ha hg
    obtain ⟨r, hr, hrr⟩ := ih hdr fun b' hb' => hl b' (by simp [hb'])
    refine ⟨r, by simp [hd, hr], hrr.congr fun k => ?_⟩
    rw [List.foldl_cons, hg.bit_eq k]

end BitArray
end PrivRecCert.SimdArray
