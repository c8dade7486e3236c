import PrivRecCert.Prc.OpEffect

/-! `copy_from` as a splice: the bits of the source replace as many bits of the destination and
nothing else changes, on the byte path and on the bit path alike. -/
namespace PrivRecCert.Prc
open SimdArray BitArray

/-- `r` is `dst` with the bits of `src` in the place of the bits from `atBit` on. -/
structure SplicedInto (dst : BitArray) (atBit : ℕ) (src r : BitArray) : Prop where
  sizes : r.bitSize = dst.bitSize ∧ r.byteSize = dst.byteSize ∧ r.data.len = dst.data.len
  inside : ∀ k, atBit ≤ k → k < atBit + src.bitSize → r.get k = src.get (k - atBit)
  outside : ∀ k, ¬(atBit ≤ k ∧ k < atBit + src.bitSize) → r.bit k = dst.bit k

/-- The loop of the bit path of `copy_from`. -/
def copyBits (dst : BitArray) (atBit : ℕ) (src : BitArray) : Option BitArray :=
  (List.range src.bitSize).foldlM (fun d i => do d.setBit (i+atBit) (← src.get i)) dst

/-- The copy of the byte path of `copy_from`. -/
def copyBytes (dst : BitArray) (atBit : ℕ) (src : BitArray) : Option BitArray := do
  some { dst with data := ← dst.data.copyNonoverlapping (atBit/8) src.data src.byteSize }

variable {dst src : BitArray} {atBit : ℕ}

theorem splicedInto_of_represents {r : BitArray} (hd : dst.WF) (hs : src.WF) (hle : atBit + src.bitSize ≤ dst.bitSize)
    (hr : r.Represents dst.bitSize fun k =>
      if atBit ≤ k ∧ k < atBit + src.bitSize then src.bit (k - atBit) else dst.bit k) :
    SplicedInto dst atBit src r := by
  refine ⟨⟨hr.bitSize_eq, ?_, ?_⟩, fun k hge hlt => ?_, fun k hk => ?_⟩
  · rw [hr.byteSize_eq, hr.bitSize_eq, hd.byteSize_eq]
  · rw [hr.len, hd.len_eq, hd.byteSize_eq]
  · have hsrc := get_eq (Represents.of_wf hs) (k := k - atBit) (by omega)
    rw [get_eq hr (by omega), if_pos ⟨hge, hlt⟩, hsrc]
  · rw [hr.bit_eq, if_neg hk]

theorem copyFrom_spliced (hd : dst.WF) (hs : src.WF) (hle : atBit + src.bitSize ≤ dst.bitSize) :
    ∃ r, dst.copyFrom atBit src = some r ∧ SplicedInto dst atBit src r := by
  obtain ⟨r, hr, hrr⟩ := copyFrom_eq (Represents.of_wf hd) (Represents.of_wf hs) hle
  exact ⟨r, hr, splicedInto_of_represents hd hs hle hrr⟩

/-- The bit path computes what `copy_from` computes, whatever the alignment. -/
theorem copyBits_eq (hd : dst.WF) (hs : src.WF) (hle : atBit + src.bitSize ≤ dst.bitSize) :
    copyBits dst atBit src = dst.copyFrom atBit src := by
  have hsrc := Represents.of_wf hs
  obtain ⟨r, hr, hrr⟩ := copyFrom_eq (Represents.of_wf hd) hsrc hle
  obtain ⟨b, hb, hbr⟩ := setBits_eq (Represents.of_wf hd) (v := src.get) (w := src.bit) hle
    fun i hi => get_eq hsrc hi
  rw [copyBits, hb, hr, hrr.unique hbr]

/-- The byte path computes what `copy_from` computes where it applies. -/
theorem copyBytes_eq (hle : atBit + src.bitSize ≤ dst.bitSize) (hat : atBit % 8 = 0) (hsize : src.bitSize % 8 = 0) :
    copyBytes dst atBit src = dst.copyFrom atBit src := by
  rw [copyFrom, if_pos hle, if_neg (by omega)]
  rfl

/-- The streams of a layer: well-formed arrays of one size. -/
def Streams (d : D2BitArray) (s : ℕ) : Prop := ∀ a ∈ d.arrays, a.WF ∧ a.bitSize = s

theorem Streams.represents {d : D2BitArray} {s : ℕ} (h : Streams d s) :
    d.Represents s (d.arrays.map BitArray.bit) := by
  refine List.forall₂_iff_get.mpr ⟨by simp, fun i hi _ => ?_⟩
  have ha := h _ (List.getElem_mem hi)
  have har := Represents.of_wf ha.1
  rw [ha.2] at har
  simpa using har

/-- What an operation leaves in the stream it writes to. -/
theorem execOperation_stream {L : Layer} {prev : Option Layer} {t : Ticket} {y s : ℕ} {d : D2BitArray}
    {inp : LayerSource} {data : BitArray} (sp : Spread) (hcheck : L.checkTicket t = some ()) (hd : L.andData = some d)
    (hs : Streams d s) (hy : y ≤ 1) (hdst : d.getArray y = some dst) (hdata : Layer.extractSrcData inp prev = some data)
    (hwf : data.WF) (hsp : sp.Proper) (hfit : t.stBit + sp.span data.bitSize ≤ s) :
    ∃ d' dst', L.execOperation (sp.op inp (.relay t y)) prev = some { L with andData := some d' } ∧
      d'.getArray y = some dst' ∧
      ∀ p < sp.span data.bitSize, dst'.get (t.stBit + p) = data.get (sp.pos data.bitSize p) := by
  have hlt : y < d.arrays.length := (List.getElem?_eq_some_iff.mp hdst).1
  have hX : (d.arrays.map BitArray.bit)[y]? = some dst.bit := by
    rw [List.getElem?_map]
    exact congrArg (Option.map BitArray.bit) hdst
  have hdatar := Represents.of_wf hwf
  obtain ⟨r, hrr, hexec⟩ := Layer.execOperation_spliced hcheck hd hs.represents hy hX hdata hdatar hsp hfit
  refine ⟨d.setArray y r, r, hexec, ?_, fun p hp => ?_⟩
  · simp [D2BitArray.getArray, D2BitArray.setArray, hlt]
  · rw [get_eq hrr (by omega), get_eq hdatar (sp.pos_lt hp), Spread.spliced, if_pos (by omega),
      Nat.add_sub_cancel_left]

/-- `copy_from` is an exact splice on both of its paths, and so are the operations made of it: a
replicated source shows up `n` times, and every bit of an expanded source `n` times in a row. -/
theorem copyFrom_splices :
    (∀ (dst src : BitArray) (atBit : ℕ), dst.WF → src.WF → atBit + src.bitSize ≤ dst.bitSize →
      (∃ r, dst.copyFrom atBit src = some r ∧ SplicedInto dst atBit src r) ∧
      copyBits dst atBit src = dst.copyFrom atBit src ∧
      (atBit % 8 = 0 → src.bitSize % 8 = 0 → copyBytes dst atBit src = copyBits dst atBit src)) ∧
    ∀ (L : Layer) (prev : Option Layer) (t : Ticket) (y s n : ℕ) (d : D2BitArray) (dst data : BitArray)
      (inp : LayerSource), L.checkTicket t = some () → L.andData = some d → Streams d s → y ≤ 1 →
      d.getArray y = some dst → Layer.extractSrcData inp prev = some data → data.WF →
      (t.stBit + n*data.bitSize ≤ s →
        ∃ d' dst', L.execOperation (.replicate n inp (.relay t y)) prev = some { L with andData := some d' } ∧
          d'.getArray y = some dst' ∧
          ∀ i < n, ∀ j < data.bitSize, dst'.get (t.stBit + i*data.bitSize + j) = data.get j) ∧
      (0 < n → t.stBit + data.bitSize*n ≤ s →
        ∃ d' dst', L.execOperation (.bitExpand n inp (.relay t y)) prev = some { L with andData := some d' } ∧
          d'.getArray y = some dst' ∧
          ∀ i < data.bitSize, ∀ j < n, dst'.get (t.stBit + i*n + j) = data.get i) := by
  constructor
  · intro dst src atBit hd hs hle
    refine ⟨copyFrom_spliced hd hs hle, copyBits_eq hd hs hle, fun hat hsize => ?_⟩
    rw [copyBytes_eq hle hat hsize, copyBits_eq hd hs hle]
  · intro L prev t y s n d dst data inp hcheck hd hs hy hdst hdata hwf
    constructor
    · intro hfit
      obtain ⟨d', dst', hexec, hdst', hbits⟩ := execOperation_stream (.replicate n) hcheck hd hs hy hdst hdata
        hwf trivial hfit
      refine ⟨d', dst', hexec, hdst', fun i hi j hj => ?_⟩
      have hblock : (i+1)*data.bitSize ≤ n*data.bitSize := Nat.mul_le_mul_right _ hi
      rw [Nat.succ_mul] at hblock
      have hp := hbits (i*data.bitSize + j) (show _ < n*data.bitSize by omega)
      rw [← Nat.add_assoc] at hp
      rw [hp, Spread.pos, Nat.mul_comm i, Nat.mul_add_mod, Nat.mod_eq_of_lt hj]
    · intro hn hfit
      obtain ⟨d', dst', hexec, hdst', hbits⟩ := execOperation_stream (.expand n) hcheck hd hs hy hdst hdata
        hwf hn hfit
      refine ⟨d', dst', hexec, hdst', fun i hi j hj => ?_⟩
      have hblock : (i+1)*n ≤ data.bitSize*n := Nat.mul_le_mul_right _ hi
      rw [Nat.succ_mul] at hblock
      have hp := hbits (i*n + j) (show _ < data.bitSize*n by omega)
      rw [← Nat.add_assoc] at hp
      rw [hp, Spread.pos, Nat.mul_comm i, Nat.mul_add_div hn, Nat.div_eq_of_lt hj, Nat.add_zero]

/-- Three bits into the middle of an array of ten, and the same three bits twice and expanded into a
layer of two bytes. -/
theorem copyFrom_splices_ten : ∃ dst src zeros : BitArray, ∃ d : D2BitArray,
    BitArray.new 10 = some dst ∧ BitArray.ones 3 = some src ∧ BitArray.new 16 = some zeros ∧ d = ⟨[zeros, zeros, zeros]⟩ ∧
    (∃ r, dst.copyFrom 5 src = some r ∧ SplicedInto dst 5 src r) ∧
    let L : Layer := ⟨true, 0, 2, .dataInitialized, some d, none, []⟩
    let t : Ticket := ⟨0, 8, 14⟩
    (∃ d' dst', L.execOperation (.replicate 2 (.input src) (.relay t 1)) none = some { L with andData := some d' } ∧
      d'.getArray 1 = some dst' ∧ ∀ i < 2, ∀ j < src.bitSize, dst'.get (8 + i*src.bitSize + j) = src.get j) ∧
    (∃ d' dst', L.execOperation (.bitExpand 2 (.input src) (.relay t 1)) none = some { L with andData := some d' } ∧
      d'.getArray 1 = some dst' ∧ ∀ i < src.bitSize, ∀ j < 2, dst'.get (8 + i*2 + j) = src.get i) := by
  obtain ⟨dst, hdst, hdstr⟩ := new_eq (s := 10) (by decide)
  obtain ⟨src, hsrc, hsrcr⟩ := ones_eq (s := 3) (by decide)
  obtain ⟨zeros, hz, hzr⟩ := new_eq (s := 16) (by decide)
  have hstreams : Streams ⟨[zeros, zeros, zeros]⟩ 16 := by
    intro a ha
    simp only [List.mem_cons, List.not_mem_nil, or_false, or_self] at ha
    exact ha ▸ ⟨hzr.toWF, hzr.bitSize_eq⟩
  have hsize := hsrcr.bitSize_eq
  refine ⟨dst, src, zeros, _, hdst, hsrc, hz, rfl, ?_, ?_, ?_⟩
  · exact (copyFrom_splices.1 dst src 5 hdstr.toWF hsrcr.toWF (by rw [hsize, hdstr.bitSize_eq]; decide)).1
  · exact (copyFrom_splices.2 _ none ⟨0, 8, 14⟩ 1 16 2 _ zeros src (.input src) rfl rfl hstreams (by decide) rfl rfl
      hsrcr.toWF).1 (by rw [hsize]; decide)
  · exact (copyFrom_splices.2 _ none ⟨0, 8, 14⟩ 1 16 2 _ zeros src (.input src) rfl rfl hstreams (by decide) rfl rfl
      hsrcr.toWF).2 (by decide) (by rw [hsize]; decide)

end PrivRecCert.Prc
