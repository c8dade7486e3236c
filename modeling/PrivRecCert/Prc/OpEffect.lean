import PrivRecCert.Prc.Circuit

/-! The effect of a single operation, for sources of any length: the spread source replaces as many
bits of the stream from the start of the ticket on, and an operation that would leave the stream
fails. -/
namespace PrivRecCert.SimdArray.BitArray
variable {self : BitArray} {s u n w : ℕ} {f : ℕ → Bool}

/-- A copy that leaves the array fails. -/
theorem copyFrom_none {source : BitArray} {t : ℕ} (hs : self.bitSize = s) (ht : source.bitSize = t)
    (hlt : s < u + t) : self.copyFrom u source = none := by
  rw [copyFrom, if_neg (by omega)]

/-- A loop of copies that leaves the array fails. -/
theorem copyBlocks_none (hd : self.Represents s f) {o : BitArray → ℕ → Option BitArray}
    {b : ℕ → ℕ → Bool} (hu : u ≤ s) (hlt : s < u + n*w)
    (hop : ∀ i < n, ∃ src, BitArray.Represents src w (b i) ∧ ∀ d, o d i = d.copyFrom (u + i*w) src) :
    (List.range n).foldlM o self = none := by
  induction n with
  | zero => omega
  | succ n ih =>
    rw [Nat.succ_mul] at hlt
    rw [List.range_succ, List.foldlM_append]
    by_cases hfit : u + n*w ≤ s
    · obtain ⟨d, hfold, hdr⟩ := copyBlocks_eq hd hfit fun i hi => hop i (by omega)
      obtain ⟨src, hsrc, hopn⟩ := hop n (by omega)
      have hfail := copyFrom_none hdr.bitSize_eq hsrc.bitSize_eq (u := u + n*w) (by omega)
      rw [hfold]
      simp [hopn, hfail]
    · rw [ih (by omega) fun i hi => hop i (by omega)]
      rfl

end PrivRecCert.SimdArray.BitArray

namespace PrivRecCert.Prc
open SimdArray BitArray

namespace Spread

def op (inp : LayerSource) (out : LayerDest) : Spread → MpcOperation
  | copy => .copy inp out
  | replicate n => .replicate n inp out
  | expand n => .bitExpand n inp out

/-- Bits can only be expanded to one bit or more. -/
def Proper : Spread → Prop
  | expand n => 0 < n
  | _ => True

/-- The stream `X` after a source of `m` bits `g` is spread into it from bit `st` on. -/
def spliced (sp : Spread) (m st : ℕ) (g X : Bits) : Bits := fun k =>
  if st ≤ k ∧ k < st + sp.span m then g (sp.pos m (k - st)) else X k

end Spread

namespace MpcOperation

def spread : MpcOperation → Spread
  | copy _ _ => .copy
  | replicate n _ _ => .replicate n
  | bitExpand n _ _ => .expand n

def inp : MpcOperation → LayerSource
  | copy inp _ | replicate _ inp _ | bitExpand _ inp _ => inp

def out : MpcOperation → LayerDest
  | copy _ out | replicate _ _ out | bitExpand _ _ out => out

theorem op_spread (op : MpcOperation) : op.spread.op op.inp op.out = op := by cases op <;> rfl

@[simp] theorem spread_op (sp : Spread) (inp : LayerSource) (out : LayerDest) : (sp.op inp out).spread = sp := by
  cases sp <;> rfl

@[simp] theorem inp_op (sp : Spread) (inp : LayerSource) (out : LayerDest) : (sp.op inp out).inp = inp := by
  cases sp <;> rfl

@[simp] theorem out_op (sp : Spread) (inp : LayerSource) (out : LayerDest) : (sp.op inp out).out = out := by
  cases sp <;> rfl

end MpcOperation

namespace Layer
variable {L : Layer} {prev : Option Layer} {t : Ticket} {s y m : ℕ} {X g : Bits} {d : D2BitArray}
variable {fs : List Bits} {data a : BitArray} {inp : LayerSource} {sp : Spread}

theorem getMutArray_of_check (hcheck : L.checkTicket t = some ()) (hd : L.andData = some d)
    (hdr : d.Represents s fs) (hy : y ≤ 1) (hX : fs[y]? = some X) :
    ∃ a, L.getMutArrayFromDestination (.relay t y) =
        some (t.stBit, a, fun a => { L with andData := some (d.setArray y a) }) ∧ a.Represents s X := by
  obtain ⟨a, ha, har⟩ := D2BitArray.getArray_eq hdr hX
  refine ⟨a, ?_, har⟩
  rw [getMutArrayFromDestination, if_neg (by omega), hcheck, hd]
  simp [ha]

/-- The blocks of an expanded source. -/
theorem expand_blocks {n : ℕ} (hn : 0 < n) (hdata : data.Represents m g) (st : ℕ) :
    ∃ (zeroes ones : BitArray) (b : ℕ → ℕ → Bool), BitArray.new n = some zeroes ∧ BitArray.ones n = some ones ∧
      (∀ i k, k < n → b i k = g i) ∧ ∀ i < m, ∃ src, BitArray.Represents src n (b i) ∧ ∀ d : BitArray,
        (do if ← data.get i then d.copyFrom (st + i*n) ones else d.copyFrom (st + i*n) zeroes) =
          d.copyFrom (st + i*n) src := by
  obtain ⟨zeroes, hz, hzr⟩ := new_eq hn
  obtain ⟨ones, ho, hor⟩ := ones_eq hn
  refine ⟨zeroes, ones, fun i k => if g i then decide (k < blockBits n) else false, hz, ho, fun i k hk => ?_,
    fun i hi => ?_⟩
  · have hblock := le_blockBits n
    have hin : k < blockBits n := by omega
    simp only [hin, decide_true]
    cases g i <;> rfl
  · cases hgi : g i with
    | true =>
      refine ⟨ones, hor.congr fun k => by simp [hgi], fun d => ?_⟩
      simp [get_eq hdata hi, hgi]
    | false =>
      refine ⟨zeroes, hzr.congr fun k => by simp [hgi], fun d => ?_⟩
      simp [get_eq hdata hi, hgi]

/-- An operation whose spread source fits the stream splices it in. -/
theorem execOperation_spliced (hcheck : L.checkTicket t = some ()) (hd : L.andData = some d)
    (hdr : d.Represents s fs) (hy : y ≤ 1) (hX : fs[y]? = some X)
    (hdata : extractSrcData inp prev = some data) (hdatar : data.Represents m g) (hsp : sp.Proper)
    (hfit : t.stBit + sp.span m ≤ s) : ∃ r, r.Represents s (sp.spliced m t.stBit g X) ∧
      L.execOperation (sp.op inp (.relay t y)) prev = some { L with andData := some (d.setArray y r) } := by
  obtain ⟨a, ha, har⟩ := getMutArray_of_check hcheck hd hdr hy hX
  cases sp with
  | copy =>
    obtain ⟨r, hr, hrr⟩ := copyFrom_eq har hdatar hfit
    refine ⟨r, hrr, ?_⟩
    simp [Spread.op, execOperation, hdata, ha, hr]
  | replicate n =>
    obtain ⟨r, hr, hrr⟩ := copyBlocks_eq har (u := t.stBit) (n := n) (w := m) (b := fun _ => g)
      (o := fun d i => d.copyFrom (t.stBit + i*data.bitSize) data) hfit
      fun i _ => ⟨data, hdatar, fun d => by rw [hdatar.bitSize_eq]⟩
    refine ⟨r, hrr, ?_⟩
    simp [Spread.op, execOperation, hdata, ha, hr]
  | expand n =>
    obtain ⟨zeroes, ones, b, hz, ho, hb, hop⟩ := expand_blocks hsp hdatar t.stBit
    obtain ⟨r, hr, hrr⟩ := copyBlocks_eq har (u := t.stBit) (n := m) (w := n) (b := b)
      (o := fun d i => do
        if ← data.get i then d.copyFrom (t.stBit + i*n) ones else d.copyFrom (t.stBit + i*n) zeroes) hfit hop
    refine ⟨r, hrr.congr fun k => ?_, ?_⟩
    · rw [hb _ _ (Nat.mod_lt _ hsp)]
      rfl
    · simp only [Option.bind_eq_bind] at hr
      simp [Spread.op, execOperation, hdata, ha, hz, ho, hdatar.bitSize_eq, hr]

/-- An operation whose spread source does not fit the stream fails. -/
theorem execOperation_none (hcheck : L.checkTicket t = some ()) (hd : L.andData = some d)
    (hdr : d.Represents s fs) (hy : y ≤ 1) (hX : fs[y]? = some X)
    (hdata : extractSrcData inp prev = some data) (hdatar : data.Represents m g) (hst : t.stBit ≤ s)
    (hlt : s < t.stBit + sp.span m) : L.execOperation (sp.op inp (.relay t y)) prev = none := by
  obtain ⟨a, ha, har⟩ := getMutArray_of_check hcheck hd hdr hy hX
  cases sp with
  | copy =>
    have hfail := copyFrom_none har.bitSize_eq hdatar.bitSize_eq hlt
    simp [Spread.op, execOperation, hdata, ha, hfail]
  | replicate n =>
    have hfail := copyBlocks_none har (u := t.stBit) (n := n) (w := m) (b := fun _ => g)
      (o := fun d i => d.copyFrom (t.stBit + i*data.bitSize) data) hst hlt
      fun i _ => ⟨data, hdatar, fun d => by rw [hdatar.bitSize_eq]⟩
    simp [Spread.op, execOperation, hdata, ha, hfail]
  | expand n =>
    rcases Nat.eq_zero_or_pos n with rfl | hn
    · simp only [Spread.span, Nat.mul_zero, Nat.add_zero] at hlt
      omega
    · obtain ⟨zeroes, ones, b, hz, ho, -, hop⟩ := expand_blocks hn hdatar t.stBit
      have hfail := copyBlocks_none har (u := t.stBit) (n := m) (w := n) (b := b)
        (o := fun d i => do
          if ← data.get i then d.copyFrom (t.stBit + i*n) ones else d.copyFrom (t.stBit + i*n) zeroes) hst hlt hop
      simp only [Option.bind_eq_bind] at hfail
      simp [Spread.op, execOperation, hdata, ha, hz, ho, hdatar.bitSize_eq, hfail]

end Layer
end PrivRecCert.Prc
