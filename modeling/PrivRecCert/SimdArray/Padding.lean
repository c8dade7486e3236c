import PrivRecCert.SimdArray.Soundness

/-! What equality, parity and inner product see of the padding: the bits of an array's block past its
bit size. They fold whole blocks, so each is right exactly if the padding happens to be neutral for it. -/
namespace PrivRecCert.SimdArray

/-- A loop fails if one of its steps fails whatever came before. -/
theorem foldlM_eq_none {A B : Type} {f : A → B → Option A} {l : List B} {x : B} (hx : x ∈ l)
    (hf : ∀ a, f a x = none) (a : A) : l.foldlM f a = none := by
  induction l generalizing a with
  | nil => cases hx
  | cons y l ih =>
    rw [List.foldlM_cons]
    rcases List.mem_cons.mp hx with rfl | hx
    · rw [hf a]
      rfl
    · cases f a y with
      | none => rfl
      | some a' => exact ih hx a'

namespace AU8Array
variable {a b : AU8Array} {j : ℕ}

theorem load_none (h : a.buf.length < 32*j + 32) : load a (32*j) = none := if_neg (by omega)

/-- The chunk of number `j`. -/
def chunk (a : AU8Array) (j : ℕ) : M256 := (a.buf.drop (32*j)).take 32

theorem load_chunk (h : 32*j + 32 ≤ a.buf.length) : load a (32*j) = some (a.chunk j) := load_eq h

theorem chunk_length (h : 32*j + 32 ≤ a.buf.length) : (a.chunk j).length = 32 := by
  rw [chunk, List.length_take, List.length_drop]
  omega

/-- Equal chunks have equal bits. -/
theorem chunk_eq_iff (ha : 32*j + 32 ≤ a.buf.length) (hb : 32*j + 32 ≤ b.buf.length) :
    a.chunk j = b.chunk j ↔ ∀ k, 256*j ≤ k → k < 256*(j+1) → a.bit k = b.bit k := by
  have hbit : ∀ (c : AU8Array) k, Bytes.bitAt (c.chunk j) k = if k < 256 then c.bit (k + 256*j) else false := by
    intro c k
    rw [chunk, Bytes.bitAt_take, Bytes.bitAt_drop]
    have hmul : 8*(32*j) = 256*j := by omega
    rw [hmul]
    rfl
  constructor
  · intro h k hge hlt
    have hk := congrArg (fun c => Bytes.bitAt c (k - 256*j)) h
    simp only [hbit, show k - 256*j < 256 by omega, if_true, show k - 256*j + 256*j = k by omega] at hk
    exact hk
  · intro h
    apply Bytes.ext_bitAt ((chunk_length ha).trans (chunk_length hb).symm)
    intro k hk
    rw [chunk_length ha] at hk
    rw [hbit, hbit, if_pos (by omega), if_pos (by omega)]
    exact h _ (by omega) (by omega)

/-- The comparison of one chunk. -/
theorem eqLoop_cons {js : List ℕ} (ha : 32*j + 32 ≤ a.buf.length) (hb : 32*j + 32 ≤ b.buf.length) :
    eqLoop a b ((j :: js).map (32 * ·)) =
      if a.chunk j = b.chunk j then eqLoop a b (js.map (32 * ·)) else some false := by
  rw [List.map_cons, eqLoop, load_chunk ha, load_chunk hb, Option.bind_eq_bind, Option.bind_some, Option.bind_some,
    Bytes.zipWith_xor_all_zero ((chunk_length ha).trans (chunk_length hb).symm)]
  by_cases he : a.chunk j = b.chunk j <;> simp [he]

/-- The loop answers yes exactly if it stays inside both blocks and finds no difference. -/
theorem eqLoop_true {js : List ℕ} (ha : ∀ j ∈ js, 32*j + 32 ≤ a.buf.length) :
    eqLoop a b (js.map (32 * ·)) = some true ↔ ∀ j ∈ js, 32*j + 32 ≤ b.buf.length ∧ a.chunk j = b.chunk j := by
  induction js with
  | nil => simp [eqLoop]
  | cons j js ih =>
    have haj := ha j (by simp)
    by_cases hb : 32*j + 32 ≤ b.buf.length
    · rw [eqLoop_cons haj hb, List.forall_mem_cons, ← ih fun i hi => ha i (by simp [hi])]
      by_cases he : a.chunk j = b.chunk j <;> simp [he, hb]
    · rw [List.map_cons, eqLoop, load_chunk haj, load_none (by omega)]
      simp [hb]

/-- The loop answers no if it finds a difference before it leaves a block. -/
theorem eqLoop_false {pre post : List ℕ} (hpre : ∀ i ∈ pre, 32*i + 32 ≤ a.buf.length ∧ 32*i + 32 ≤ b.buf.length)
    (ha : 32*j + 32 ≤ a.buf.length) (hb : 32*j + 32 ≤ b.buf.length) (hne : a.chunk j ≠ b.chunk j) :
    eqLoop a b ((pre ++ j :: post).map (32 * ·)) = some false := by
  induction pre with
  | nil => rw [List.nil_append, eqLoop_cons ha hb, if_neg hne]
  | cons i pre ih =>
    obtain ⟨hia, hib⟩ := hpre i (by simp)
    rw [List.cons_append, eqLoop_cons hia hib, ih fun i' hi' => hpre i' (by simp [hi'])]
    split_ifs <;> rfl

end AU8Array

namespace BitArray
open Bytes
variable {x y a : BitArray}

/-- An array whose storage has as many bytes as its byte size says, at least as many as its bits need. -/
structure Loose (a : BitArray) : Prop where
  len_eq : a.data.len = a.byteSize
  le : a.bitSize ≤ 8*a.byteSize

theorem WF.loose (h : a.WF) : Loose a := ⟨h.len_eq, by rw [h.byteSize_eq]; omega⟩

theorem Loose.get (h : Loose a) {k : ℕ} (hk : k < a.bitSize) : a.get k = some (a.bit k) :=
  get_bit hk (by have hle := h.le; rw [h.len_eq]; omega)

/-- The number of bits in the block of an array. -/
def blockLen (a : BitArray) : ℕ := 8*a.data.buf.length

theorem Loose.le_blockLen (h : Loose a) : a.bitSize ≤ a.blockLen := by
  have hle := h.le
  have halign := le_alignMaxLen a.data.len
  rw [blockLen, a.data.buf_length]
  rw [h.len_eq] at halign ⊢
  omega

section Run
variable {R : Type} [RngCore R] {chacha : ChaCha8Rng.Keystream} {st st' : List BitArray}

theorem exec_loose {op : Op R} (h : op.exec chacha st = some st') (hst : ∀ a ∈ st, Loose a) : ∀ r ∈ st', Loose r := by
  intro r hr
  cases exec_origin h r hr with
  | fresh hr => exact hr.loose
  | kept a ha hsizes =>
    have hl := hst a ha
    exact ⟨by rw [hsizes.len_eq, hl.len_eq, hsizes.byteSize_eq], by rw [hsizes.bitSize_eq, hsizes.byteSize_eq]; exact hl.le⟩
  | shrunk i p a _ ha hr' =>
    have hl := hst a (List.mem_of_getElem? ha)
    unfold shrinkToPartialLastByte at hr'
    split_ifs at hr' with h1 h2
    · exact Option.some.inj hr' ▸ hl
    · obtain rfl := Option.some.inj hr'
      exact ⟨hl.len_eq, h2.1.le.trans hl.le⟩

theorem run_loose {ops : List (Op R)} (h : run chacha ops = some st) : ∀ a ∈ st, Loose a :=
  foldlM_keeps (P := fun st => ∀ a ∈ st, Loose a) (fun _ _ _ hst hexec => exec_loose hexec hst) (by simp) h

end Run

theorem parity_block (a : BitArray) : a.parity = some (∑ k ∈ Finset.range a.blockLen, a.bit k) := by
  obtain ⟨r, hr, hx⟩ := AU8Array.accumulate_eq (a := a.data) (f := a.data.load) rfl fun j hj => AU8Array.load_eq hj
  rw [parity, hr]
  change some (decide (countOnes r % 2 = 1)) = _
  rw [countOnes_odd, hx]
  rfl

/-- The offsets of a chunk loop over a block. -/
theorem stepBy_block (a : AU8Array) :
    AU8Array.stepBy a.alignedLen = (List.range (a.buf.length/32)).map (32 * ·) ∧ a.buf.length % 32 = 0 := by
  obtain ⟨c, hc, hbuf⟩ := AU8Array.stepBy_alignedLen a
  rw [hc, hbuf]
  exact ⟨by rw [Nat.mul_div_cancel_left c (by decide)], Nat.mul_mod_right 32 c⟩

theorem innerProd_block (hsize : x.bitSize = y.bitSize) (hle : x.blockLen ≤ y.blockLen) :
    innerProd x y = some (∑ k ∈ Finset.range x.blockLen, (x.bit k && y.bit k)) := by
  have hbuf : x.data.buf.length ≤ y.data.buf.length := by
    unfold blockLen at hle
    omega
  let b := List.zipWith (· &&& ·) x.data.buf (y.data.buf.take x.data.buf.length)
  have htake : x.data.buf.length = (y.data.buf.take x.data.buf.length).length := by
    rw [List.length_take, Nat.min_eq_left hbuf]
  have hb : b.length = x.data.buf.length := by
    rw [List.length_zipWith, ← htake, Nat.min_self]
  obtain ⟨r, hr, hxor⟩ := AU8Array.accumulate_eq (a := x.data) (b := b)
    (f := fun i => do some (List.zipWith (· &&& ·) (← x.data.load i) (← y.data.load i))) hb fun j hj => by
      have hcut : ((y.data.buf.take x.data.buf.length).drop (32*j)).take 32 = (y.data.buf.drop (32*j)).take 32 := by
        rw [List.drop_take, List.take_take, Nat.min_eq_left (by omega)]
      rw [AU8Array.load_eq hj, AU8Array.load_eq (hj.trans hbuf), List.drop_zipWith, List.take_zipWith, hcut]
      rfl
  have hbits : xorBits b = ∑ k ∈ Finset.range x.blockLen, (x.bit k && y.bit k) := by
    rw [xorBits, hb]
    apply Finset.sum_congr rfl
    intro k hk
    have hk' : k < 8*x.data.buf.length := Finset.mem_range.mp hk
    rw [bitAt_zipWith_and htake, bitAt_take, if_pos hk']
    rfl
  rw [innerProd, if_pos hsize, hr, ← hbits, ← hxor, ← countOnes_odd]
  rfl

theorem innerProd_none (hsize : x.bitSize = y.bitSize) (hlt : y.blockLen < x.blockLen) : innerProd x y = none := by
  obtain ⟨hsteps, hmod⟩ := stepBy_block x.data
  obtain ⟨-, hmod'⟩ := stepBy_block y.data
  have hbuf : y.data.buf.length < x.data.buf.length := by
    unfold blockLen at hlt
    omega
  have hfail : AU8Array.load y.data (32*(y.data.buf.length/32)) = none := AU8Array.load_none (by omega)
  have hacc : AU8Array.accumulate x.data.alignedLen (fun i => do
      some (List.zipWith (· &&& ·) (← x.data.load i) (← y.data.load i))) = none := by
    rw [AU8Array.accumulate, hsteps]
    refine foldlM_eq_none (x := 32*(y.data.buf.length/32)) (List.mem_map.mpr ⟨_, List.mem_range.mpr (by omega), rfl⟩)
      (fun acc => ?_) _
    rw [hfail]
    cases x.data.load (32*(y.data.buf.length/32)) <;> rfl
  rw [innerProd, if_pos hsize, hacc]
  rfl

/-- Equality compares the whole block of the first array with the beginning of the second. -/
theorem eq_true_iff (hsize : x.bitSize = y.bitSize) :
    eq x y = some true ↔ x.blockLen ≤ y.blockLen ∧ ∀ k < x.blockLen, x.bit k = y.bit k := by
  obtain ⟨hsteps, hmod⟩ := stepBy_block x.data
  obtain ⟨-, hmod'⟩ := stepBy_block y.data
  rw [eq, if_neg (not_not.mpr hsize), hsteps,
    AU8Array.eqLoop_true fun j hj => by have := List.mem_range.mp hj; omega]
  unfold blockLen
  constructor
  · intro h
    have hle : x.data.buf.length ≤ y.data.buf.length := by
      by_contra hlt
      have hlast := (h (x.data.buf.length/32 - 1) (List.mem_range.mpr (by omega))).1
      omega
    refine ⟨by omega, fun k hk => ?_⟩
    have hj : k/256 < x.data.buf.length/32 := by omega
    obtain ⟨hb, hc⟩ := h (k/256) (List.mem_range.mpr hj)
    exact (AU8Array.chunk_eq_iff (by omega) hb).mp hc k (by omega) (by omega)
  · rintro ⟨hle, h⟩ j hj
    have hlt := List.mem_range.mp hj
    refine ⟨by omega, (AU8Array.chunk_eq_iff (by omega) (by omega)).mpr fun k _ hk => h k (by omega)⟩

/-- A difference that both blocks hold is found. -/
theorem eq_false_of_ne (hsize : x.bitSize = y.bitSize) {k : ℕ} (hx : k < x.blockLen) (hy : k < y.blockLen)
    (hne : x.bit k ≠ y.bit k) : eq x y = some false := by
  obtain ⟨hsteps, hmod⟩ := stepBy_block x.data
  obtain ⟨-, hmod'⟩ := stepBy_block y.data
  unfold blockLen at hx hy
  have hj : k/256 < x.data.buf.length/32 := by omega
  obtain ⟨m, hm⟩ : ∃ m, x.data.buf.length/32 = k/256 + 1 + m := ⟨_, (Nat.add_sub_cancel' hj).symm⟩
  have hrange : List.range (x.data.buf.length/32) =
      List.range (k/256) ++ (k/256) :: (List.range m).map (k/256 + 1 + ·) := by
    rw [hm, List.range_add, List.range_succ, List.append_assoc]
    rfl
  rw [eq, if_neg (not_not.mpr hsize), hsteps, hrange]
  refine AU8Array.eqLoop_false (fun i hi => ?_) (by omega) (by omega) fun hc => hne ?_
  · have hlt := List.mem_range.mp hi
    omega
  · exact (AU8Array.chunk_eq_iff (by omega) (by omega)).mp hc k (by omega) (by omega)

/-- Bit `i` as `get` gives it. -/
def getBit (a : BitArray) (i : ℕ) : Bool := (a.get i).getD false

theorem Loose.getBit (h : Loose a) {k : ℕ} (hk : k < a.bitSize) : a.getBit k = a.bit k := by
  rw [BitArray.getBit, h.get hk]
  rfl

/-- Equality, parity and inner product of `x` and `y` are those of the bits below the bit size. -/
structure PaddingUnseen (x y : BitArray) : Prop where
  eq : ∃ e, BitArray.eq x y = some e ∧
    (e = true ↔ x.bitSize = y.bitSize ∧ ∀ i < x.bitSize, x.getBit i = y.getBit i)
  parity : x.parity = some (∑ i ∈ Finset.range x.bitSize, x.getBit i)
  innerProd : x.bitSize = y.bitSize →
    BitArray.innerProd x y = some (∑ i ∈ Finset.range x.bitSize, (x.getBit i && y.getBit i))

/-- The padding of `x` and `y` does not matter: it adds up to zero in `x`, and, if the bit sizes agree,
the block of `y` is long enough, the conjunction of the paddings adds up to zero, and the paddings
agree if all other bits do. -/
structure PaddingNeutral (x y : BitArray) : Prop where
  parity : ∑ k ∈ Finset.Ico x.bitSize x.blockLen, x.bit k = false
  blockLen : x.bitSize = y.bitSize → x.blockLen ≤ y.blockLen
  innerProd : x.bitSize = y.bitSize → ∑ k ∈ Finset.Ico x.bitSize x.blockLen, (x.bit k && y.bit k) = false
  eq : x.bitSize = y.bitSize → (∀ i < x.bitSize, x.bit i = y.bit i) →
    ∀ k, x.bitSize ≤ k → k < x.blockLen → x.bit k = y.bit k

/-- The sum over a block, split at the bit size. -/
theorem sum_block_eq_iff {s m : ℕ} (hs : s ≤ m) (f : ℕ → Bool) :
    (some (∑ k ∈ Finset.range m, f k) = some (∑ k ∈ Finset.range s, f k)) ↔ ∑ k ∈ Finset.Ico s m, f k = false := by
  rw [Option.some.injEq, ← Finset.sum_range_add_sum_Ico f hs]
  exact add_eq_left

theorem eq_unseen_iff (hx : Loose x) (hy : Loose y) :
    (∃ e, BitArray.eq x y = some e ∧ (e = true ↔ x.bitSize = y.bitSize ∧ ∀ i < x.bitSize, x.bit i = y.bit i)) ↔
      (x.bitSize = y.bitSize → (∀ i < x.bitSize, x.bit i = y.bit i) →
        x.blockLen ≤ y.blockLen ∧ ∀ k, x.bitSize ≤ k → k < x.blockLen → x.bit k = y.bit k) := by
  have hxle := hx.le_blockLen
  have hyle := hy.le_blockLen
  by_cases hsize : x.bitSize = y.bitSize
  · by_cases hbits : ∀ i < x.bitSize, x.bit i = y.bit i
    · constructor
      · rintro ⟨e, he, hiff⟩ _ _
        obtain rfl := hiff.mpr ⟨hsize, hbits⟩
        obtain ⟨hle, hall⟩ := (eq_true_iff hsize).mp he
        exact ⟨hle, fun k _ hk => hall k hk⟩
      · intro h
        obtain ⟨hle, hpad⟩ := h hsize hbits
        refine ⟨true, (eq_true_iff hsize).mpr ⟨hle, fun k hk => ?_⟩, fun _ => ⟨hsize, hbits⟩, fun _ => rfl⟩
        by_cases hlt : k < x.bitSize
        · exact hbits k hlt
        · exact hpad k (by omega) hk
    · refine ⟨fun _ _ h => absurd h hbits, fun _ => ⟨false, ?_, by simp [hbits]⟩⟩
      simp only [not_forall] at hbits
      obtain ⟨k, hk, hne⟩ := hbits
      exact eq_false_of_ne hsize (by omega) (by omega) hne
  · exact ⟨fun _ h => absurd h hsize, fun _ => ⟨false, by rw [BitArray.eq, if_pos hsize], by simp [hsize]⟩⟩

theorem innerProd_unseen_iff (hx : Loose x) (hsize : x.bitSize = y.bitSize) :
    BitArray.innerProd x y = some (∑ i ∈ Finset.range x.bitSize, (x.bit i && y.bit i)) ↔
      x.blockLen ≤ y.blockLen ∧ ∑ k ∈ Finset.Ico x.bitSize x.blockLen, (x.bit k && y.bit k) = false := by
  by_cases hle : x.blockLen ≤ y.blockLen
  · rw [innerProd_block hsize hle, sum_block_eq_iff hx.le_blockLen fun k => x.bit k && y.bit k]
    exact ⟨fun h => ⟨hle, h⟩, fun h => h.2⟩
  · rw [innerProd_none hsize (by omega)]
    exact ⟨fun h => (nomatch h), fun h => absurd h.1 hle⟩

theorem paddingUnseen_iff (hx : Loose x) (hy : Loose y) : PaddingUnseen x y ↔ PaddingNeutral x y := by
  have hget : x.bitSize = y.bitSize → ∀ i < x.bitSize, x.getBit i = x.bit i ∧ y.getBit i = y.bit i :=
    fun hsize i hi => ⟨hx.getBit hi, hy.getBit (hsize ▸ hi)⟩
  have hparity : x.parity = some (∑ i ∈ Finset.range x.bitSize, x.getBit i) ↔
      ∑ k ∈ Finset.Ico x.bitSize x.blockLen, x.bit k = false := by
    rw [parity_block, Finset.sum_congr rfl fun i hi => hx.getBit (Finset.mem_range.mp hi)]
    exact sum_block_eq_iff hx.le_blockLen x.bit
  have hprod : x.bitSize = y.bitSize → ∑ i ∈ Finset.range x.bitSize, (x.getBit i && y.getBit i) =
      ∑ i ∈ Finset.range x.bitSize, (x.bit i && y.bit i) := fun hsize => Finset.sum_congr rfl fun i hi => by
    obtain ⟨h1, h2⟩ := hget hsize i (Finset.mem_range.mp hi)
    rw [h1, h2]
  have hbits : (x.bitSize = y.bitSize ∧ ∀ i < x.bitSize, x.getBit i = y.getBit i) ↔
      (x.bitSize = y.bitSize ∧ ∀ i < x.bitSize, x.bit i = y.bit i) := by
    refine and_congr_right fun hsize => forall₂_congr fun i hi => ?_
    rw [(hget hsize i hi).1, (hget hsize i hi).2]
  constructor
  · rintro ⟨heq, hpar, hinner⟩
    simp only [hbits] at heq
    have hinner' := fun hsize => (innerProd_unseen_iff hx hsize).mp (by rw [← hprod hsize]; exact hinner hsize)
    exact ⟨hparity.mp hpar, fun hsize => (hinner' hsize).1, fun hsize => (hinner' hsize).2,
      fun hsize hall => ((eq_unseen_iff hx hy).mp heq hsize hall).2⟩
  · rintro ⟨hpar, hlen, hinner, heq⟩
    refine ⟨?_, hparity.mpr hpar, fun hsize => ?_⟩
    · simp only [hbits]
      exact (eq_unseen_iff hx hy).mpr fun hsize hall => ⟨hlen hsize, heq hsize hall⟩
    · rw [hprod hsize]
      exact (innerProd_unseen_iff hx hsize).mpr ⟨hlen hsize, hinner hsize⟩

end BitArray
end PrivRecCert.SimdArray
