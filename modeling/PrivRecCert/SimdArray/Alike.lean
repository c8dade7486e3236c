import PrivRecCert.SimdArray.D2BitArray

/-! Arrays of one size. Whether an operation succeeds, and how large its result is, depends on the sizes
of its arguments and not on their bits. -/
namespace PrivRecCert.SimdArray

namespace AU8Array

/-- A block can be combined with every block that is at least as long. -/
theorem inplaceZip_of_le (op : U8 → U8 → U8) {self other : AU8Array} (h : self.buf.length ≤ other.buf.length) :
    ∃ r, inplaceZip op self other = some r ∧ r.len = self.len := by
  have hlen : (List.zipWith op self.buf other.buf).length = self.buf.length := by
    rw [List.length_zipWith]
    omega
  refine ⟨⟨List.zipWith op self.buf other.buf, self.len, hlen.trans self.buf_length⟩, ?_, rfl⟩
  refine chunkLoop_eq _ _ _ rfl fun j d hj hd hrest => ?_
  have hdb : d.buf.length = self.buf.length := by rw [d.buf_length, self.buf_length, hd]
  rw [load_eq (hdb ▸ hj), load_eq (hj.trans h), hrest]
  simp [List.drop_zipWith, List.take_zipWith]

/-- The last chunk of `self` is combined with a chunk of `other`. -/
theorem le_of_inplaceZip {op : U8 → U8 → U8} {self other r : AU8Array} (h : inplaceZip op self other = some r) :
    self.buf.length ≤ other.buf.length := by
  obtain ⟨c, hc, hbuf⟩ := stepBy_alignedLen self
  cases c with
  | zero => omega
  | succ c =>
    rw [inplaceZip, chunkLoop, hc, List.range_succ, List.map_append, List.foldlM_append] at h
    obtain ⟨d, -, h⟩ := Option.bind_eq_some_iff.mp h
    rw [List.map_singleton, List.foldlM_cons] at h
    obtain ⟨d', h, -⟩ := Option.bind_eq_some_iff.mp h
    obtain ⟨chunk, h, -⟩ := Option.bind_eq_some_iff.mp h
    obtain ⟨x, -, h⟩ := Option.bind_eq_some_iff.mp h
    obtain ⟨y, h, -⟩ := Option.bind_eq_some_iff.mp h
    rw [load] at h
    split_ifs at h with hle
    omega

end AU8Array

namespace BitArray

/-- Two arrays of one size. -/
structure Alike (a b : BitArray) : Prop where
  left : a.WF
  right : b.WF
  bitSize_eq : a.bitSize = b.bitSize

variable {a b r : BitArray}

theorem Alike.refl (h : a.WF) : a.Alike a := ⟨h, h, rfl⟩

theorem Alike.symm (h : a.Alike b) : b.Alike a := ⟨h.right, h.left, h.bitSize_eq.symm⟩

theorem Alike.trans {c : BitArray} (h : a.Alike b) (h' : b.Alike c) : a.Alike c :=
  ⟨h.left, h'.right, h.bitSize_eq.trans h'.bitSize_eq⟩

theorem Alike.byteSize_eq (h : a.Alike b) : a.byteSize = b.byteSize := by
  rw [h.left.byteSize_eq, h.right.byteSize_eq, h.bitSize_eq]

theorem Alike.len_eq (h : a.Alike b) : a.data.len = b.data.len := by
  rw [h.left.len_eq, h.right.len_eq, h.byteSize_eq]

theorem Represents.alike {s : ℕ} {f g : ℕ → Bool} (ha : a.Represents s f) (hb : b.Represents s g) : a.Alike b :=
  ⟨ha.toWF, hb.toWF, ha.bitSize_eq.trans hb.bitSize_eq.symm⟩

/-- The other operand need not be well formed. -/
theorem inplaceXor_alike {o : BitArray} (hab : a.Alike b) (h : a.inplaceXor o = some r) :
    a.Alike r ∧ ∃ r', b.inplaceXor o = some r' ∧ b.Alike r' := by
  rw [inplaceXor] at h
  split_ifs at h with hsize
  obtain ⟨data, hdata, h⟩ := Option.bind_eq_some_iff.mp h
  obtain rfl := Option.some.inj h
  have hle := AU8Array.le_of_inplaceZip hdata
  obtain ⟨data', hdata', hlen⟩ := AU8Array.inplaceZip_of_le (· ^^^ ·) hle
  obtain rfl : data = data' := Option.some.inj (hdata.symm.trans hdata')
  have hbuf : a.data.buf.length = b.data.buf.length := by rw [a.data.buf_length, b.data.buf_length, hab.len_eq]
  obtain ⟨d, hd, hdlen⟩ := AU8Array.inplaceZip_of_le (· ^^^ ·) (hbuf ▸ hle)
  refine ⟨⟨hab.left, ⟨hab.left.byteSize_eq, hlen.trans hab.left.len_eq⟩, rfl⟩, { b with data := d }, ?_,
    hab.right, ⟨hab.right.byteSize_eq, hdlen.trans hab.right.len_eq⟩, rfl⟩
  rw [inplaceXor, if_pos (hab.bitSize_eq.symm.trans hsize), hd]
  rfl

theorem toSlice_alike {stByte endByte : ℕ} (hab : a.Alike b) (h : a.toSlice stByte endByte = some r) :
    ∃ r', b.toSlice stByte endByte = some r' ∧ r.Alike r' ∧ r.bitSize % 8 = 0 := by
  rw [toSlice] at h
  split_ifs at h with hc
  obtain rfl := Option.some.inj h
  have hlen : ∀ c : BitArray, endByte ≤ c.data.len →
      (AU8Array.fromSlice ((c.data.asSlice.drop stByte).take (endByte-stByte))).len = endByte - stByte := fun c hle => by
    rw [AU8Array.fromSlice_len, List.length_take, List.length_drop, AU8Array.asSlice_length]
    omega
  have hbytes : endByte - stByte = ((endByte-stByte)*8 + 7)/8 := by omega
  refine ⟨_, if_pos ⟨hc.1, hab.byteSize_eq ▸ hc.2.1, hab.len_eq ▸ hc.2.2⟩, ⟨⟨hbytes, hlen a hc.2.2⟩,
    ⟨hbytes, hlen b (hab.len_eq ▸ hc.2.2)⟩, rfl⟩, Nat.mul_mod_left _ _⟩

/-- An array of whole bytes keeps all of them. -/
theorem shrinkToPartialLastByte_alike {t : ℕ} (hab : a.Alike b) (hbytes : a.bitSize % 8 = 0)
    (h : a.shrinkToPartialLastByte t = some r) :
    ∃ r', b.shrinkToPartialLastByte t = some r' ∧ r.Alike r' := by
  rw [shrinkToPartialLastByte] at h ⊢
  rw [← hab.bitSize_eq]
  split_ifs at h ⊢ with heq hin
  · obtain rfl := Option.some.inj h
    exact ⟨b, rfl, hab⟩
  · obtain rfl := Option.some.inj h
    have hkeep : ∀ c : BitArray, c.WF → c.bitSize = a.bitSize → c.byteSize = (t+7)/8 := fun c hc hsize => by
      rw [hc.byteSize_eq, hsize]
      omega
    exact ⟨_, rfl, ⟨hkeep a hab.left rfl, hab.left.len_eq⟩, ⟨hkeep b hab.right hab.bitSize_eq.symm, hab.right.len_eq⟩,
      rfl⟩

end BitArray
end PrivRecCert.SimdArray
