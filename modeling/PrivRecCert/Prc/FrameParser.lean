import PrivRecCert.Prc.Connection

/-! The frame parser on arbitrary bytes. It reads forward and never looks at the end of its input, so it
accepts the frames of the encoder, whatever follows them, and nothing else. -/
namespace PrivRecCert.Prc
open Bytes CorRnd SimdArray

/-- The documented behaviour of decompression: of the strings of 32 bytes it accepts the compressed
points only. -/
class CanonicalRistretto (G : Type) [AddCommGroup G] [Module Scalar G] [Ristretto G] : Prop extends
    LawfulRistretto G where
  compress_of_decompress : ∀ (bytes : List U8) (c : G), bytes.length = 32 → Ristretto.decompress bytes = some c →
    Ristretto.compress c = bytes

/-- The scalars once more, with a decompression that checks the encoding. -/
def CheckedScalar : Type := Scalar

namespace CheckedScalar

instance : AddCommGroup CheckedScalar := inferInstanceAs (AddCommGroup Scalar)

instance : Module Scalar CheckedScalar := inferInstanceAs (Module Scalar Scalar)

instance : Ristretto CheckedScalar where
  basepoint := (Ristretto.basepoint : Scalar)
  g1tIdx := (Ristretto.g1tIdx : Scalar)
  g2tResp := (Ristretto.g2tResp : Scalar)
  compress c := Scalar.toBytes c
  decompress bytes :=
    let c : Scalar := (ofLeBytes bytes : ℕ)
    if Scalar.toBytes c = bytes then some c else none

instance : CanonicalRistretto CheckedScalar where
  compress_length c := LawfulRistretto.compress_length (G := Scalar) c
  decompress_compress c := by
    have hround : ((ofLeBytes (Scalar.toBytes c) : ℕ) : Scalar) = c :=
      Option.some.inj (LawfulRistretto.decompress_compress (G := Scalar) c)
    change (if Scalar.toBytes ((ofLeBytes (Scalar.toBytes c) : ℕ) : Scalar) = Scalar.toBytes c then
      some ((ofLeBytes (Scalar.toBytes c) : ℕ) : Scalar) else none) = some c
    rw [hround]
    exact if_pos rfl
  compress_of_decompress bytes c _ h := by
    change (if Scalar.toBytes ((ofLeBytes bytes : ℕ) : Scalar) = bytes then _ else none) = _ at h
    split_ifs at h with hbytes
    obtain rfl := Option.some.inj h
    exact hbytes

end CheckedScalar

section Read
variable {data rest m : List U8} {st end_ : ℕ}

/-- A slice that starts where the part that is already known ends. -/
theorem prefix_of_sliceBytes {known : List U8} (hknown : known <+: data) (h : sliceBytes data st end_ = some m)
    (hst : known.length = st) : known ++ m <+: data ∧ st + m.length = end_ := by
  obtain ⟨rest, rfl⟩ := hknown
  subst hst
  rw [sliceBytes] at h
  split_ifs at h with hbounds
  obtain ⟨hle, hend⟩ := hbounds
  obtain rfl := Option.some.inj h
  rw [List.length_append] at hend
  rw [List.drop_left]
  refine ⟨(List.prefix_append_right_inj known).mpr (List.take_prefix _ _), ?_⟩
  rw [List.length_take]
  omega

/-- The first two bytes. -/
theorem prefix_of_header {tag senderId : U8} (htag : data[0]? = some tag) (hid : data[1]? = some senderId) :
    [tag, senderId] <+: data := by
  match data with
  | [] => simp at htag
  | [_] => simp at hid
  | a :: b :: rest =>
    obtain rfl : a = tag := by simpa using htag
    obtain rfl : b = senderId := by simpa using hid
    exact ⟨rest, rfl⟩

/-- Four bytes are the encoding of the number that they stand for. -/
theorem leBytes_readU32 {size : List U8} (h : size.length = 4) : leBytes 4 (readU32 size).toNat = size := by
  have hlt := ofLeBytes_lt size
  rw [h] at hlt
  rw [readU32, BitVec.toNat_ofNat, Nat.mod_eq_of_lt (by omega), ← h, leBytes_ofLeBytes]

/-- The size field of a frame. -/
theorem prefix_of_size {tag senderId : U8} {size : List U8} (htag : data[0]? = some tag) (hid : data[1]? = some senderId)
    (h : sliceBytes data 2 6 = some size) : [tag, senderId] ++ leBytes 4 (readU32 size).toNat <+: data := by
  obtain ⟨hknown, hlen⟩ := prefix_of_sliceBytes (prefix_of_header htag hid) h rfl
  rwa [leBytes_readU32 (by omega)]

end Read

variable {G : Type} [AddCommGroup G] [Module Scalar G] [Ristretto G]

namespace Cmd
variable {data : List U8} {cmd : Cmd G}

/-- The length that a frame announces. -/
def frameLength : Cmd G → ℕ
  | handshake _ => 2
  | beaverExchange _ beaverBitSize _ _ => 6 + 2*divCeil beaverBitSize.toNat 8
  | dabitExchange _ dabitBitSize _ => 6 + divCeil dabitBitSize.toNat 8
  | aggCommit _ _ => 34

theorem serialize_length [LawfulRistretto G] (h : cmd.Sized) : cmd.serialize.length = cmd.frameLength := by
  cases cmd with
  | handshake peerId => rfl
  | beaverExchange senderId size dataA dataB =>
    obtain ⟨hA, hB⟩ := h
    simp only [serialize, frameLength, List.length_append, leBytes_length, hA, hB, List.length_cons, List.length_nil]
    omega
  | dabitExchange senderId size bytes =>
    have hlen : bytes.length = divCeil size.toNat 8 := h
    simp only [serialize, frameLength, List.length_append, leBytes_length, hlen, List.length_cons, List.length_nil]
  | aggCommit senderId commit =>
    rw [serialize, List.length_append, Commitment.serialize, LawfulRistretto.compress_length]
    rfl

/-- Command types are told apart by the first byte. -/
theorem deserialize_unknown {tag : U8} (htag : data[0]? = some tag) (h : tag ∉ ([0, 1, 2, 3] : List U8)) :
    deserialize data = (none : Option (Cmd G)) := by
  simp only [List.mem_cons, List.not_mem_nil, or_false, not_or] at h
  obtain ⟨h0, h1, h2, h3⟩ := h
  rw [deserialize, htag, Option.bind_eq_bind, Option.bind_some, if_neg h0, if_neg h1, if_neg h2, if_neg h3]

end Cmd

variable [CanonicalRistretto G]

theorem Commitment.serialize_of_deserialize {bytes : List U8} {c : Commitment G} (hlen : bytes.length = 32)
    (h : Commitment.deserialize bytes = some c) : c.serialize = bytes := by
  rw [Commitment.deserialize, if_pos hlen.ge, List.take_of_length_le hlen.le] at h
  obtain ⟨point, hpoint, rfl⟩ := Option.map_eq_some_iff.mp h
  exact CanonicalRistretto.compress_of_decompress bytes point hlen hpoint

namespace Cmd
variable {data : List U8} {cmd : Cmd G}

/-- Whatever is accepted starts with the frame of the command that it is read as: one case for each of
the four layouts. -/
theorem frame_of_deserialize (h : deserialize data = some cmd) : cmd.Sized ∧ cmd.serialize <+: data := by
  rw [deserialize] at h
  obtain ⟨tag, htag, h⟩ := Option.bind_eq_some_iff.mp h
  split_ifs at h with hbeaver hhandshake hdabit hcommit
  · subst hbeaver
    obtain ⟨senderId, hid, h⟩ := Option.bind_eq_some_iff.mp h
    obtain ⟨size, hsize, h⟩ := Option.bind_eq_some_iff.mp h
    obtain ⟨dataA, hA, h⟩ := Option.bind_eq_some_iff.mp h
    obtain ⟨dataB, hB, h⟩ := Option.bind_eq_some_iff.mp h
    obtain rfl := Option.some.inj h
    have hknown := prefix_of_size htag hid hsize
    obtain ⟨hknownA, hlenA⟩ := prefix_of_sliceBytes hknown hA (by simp)
    have hlenA' : dataA.length = divCeil (readU32 size).toNat 8 := by omega
    obtain ⟨hknownB, hlenB⟩ := prefix_of_sliceBytes hknownA hB (by simp [hlenA']; omega)
    exact ⟨⟨hlenA', by omega⟩, hknownB⟩
  · subst hhandshake
    obtain ⟨peerId, hid, h⟩ := Option.bind_eq_some_iff.mp h
    obtain rfl := Option.some.inj h
    exact ⟨trivial, prefix_of_header htag hid⟩
  · subst hdabit
    obtain ⟨senderId, hid, h⟩ := Option.bind_eq_some_iff.mp h
    obtain ⟨size, hsize, h⟩ := Option.bind_eq_some_iff.mp h
    obtain ⟨bytes, hbytes, h⟩ := Option.bind_eq_some_iff.mp h
    obtain rfl := Option.some.inj h
    obtain ⟨hknown, hlen⟩ := prefix_of_sliceBytes (prefix_of_size htag hid hsize) hbytes (by simp)
    have hlen' : bytes.length = divCeil (readU32 size).toNat 8 := by omega
    exact ⟨hlen', hknown⟩
  · subst hcommit
    obtain ⟨senderId, hid, h⟩ := Option.bind_eq_some_iff.mp h
    obtain ⟨bytes, hbytes, h⟩ := Option.bind_eq_some_iff.mp h
    obtain ⟨commit, hread, h⟩ := Option.bind_eq_some_iff.mp h
    obtain rfl := Option.some.inj h
    obtain ⟨hknown, hlen⟩ := prefix_of_sliceBytes (prefix_of_header htag hid) hbytes rfl
    rw [← Commitment.serialize_of_deserialize (by omega) hread] at hknown
    exact ⟨trivial, hknown⟩

/-- A command is read exactly from what starts with its frame. -/
theorem deserialize_eq_some_iff : deserialize data = some cmd ↔ cmd.Sized ∧ cmd.serialize <+: data := by
  constructor
  · exact frame_of_deserialize
  · rintro ⟨hsized, surplus, rfl⟩
    exact deserialize_append hsized surplus

/-- No frame is a proper prefix of another one. -/
theorem serialize_prefix_free {cmd' : Cmd G} (h : cmd.Sized) (h' : cmd'.Sized) (hpre : cmd.serialize <+: cmd'.serialize) :
    cmd = cmd' := by
  have hread := deserialize_eq_some_iff.mpr ⟨h, hpre⟩
  rw [deserialize_serialize h'] at hread
  exact (Option.some.inj hread).symm

/-- A frame that breaks off is rejected. -/
theorem deserialize_truncated (h : cmd.Sized) (hpre : data <+: cmd.serialize) (hne : data ≠ cmd.serialize) :
    deserialize data = (none : Option (Cmd G)) := by
  apply Option.eq_none_iff_forall_ne_some.mpr
  intro cmd' hread
  obtain ⟨hsized, hframe⟩ := frame_of_deserialize hread
  obtain rfl := serialize_prefix_free hsized h (hframe.trans hpre)
  exact hne (hpre.eq_of_length_le hframe.length_le)

/-- The parser accepts the frames of the encoder, whatever follows them: it rejects what breaks off and
what has an unknown type, and what it has read is all of its input if nothing is left over. -/
theorem deserialize_frames (data : List U8) :
    (∀ cmd : Cmd G, deserialize data = some cmd ↔ cmd.Sized ∧ cmd.serialize <+: data) ∧
    (∀ cmd : Cmd G, cmd.Sized → data <+: cmd.serialize → data ≠ cmd.serialize →
      deserialize data = (none : Option (Cmd G))) ∧
    (∀ tag, data[0]? = some tag → tag ∉ ([0, 1, 2, 3] : List U8) → deserialize data = (none : Option (Cmd G))) ∧
    ∀ cmd : Cmd G, deserialize data = some cmd → cmd.serialize = data.take cmd.frameLength ∧
      (cmd.serialize = data ↔ data.length = cmd.frameLength) := by
  refine ⟨fun cmd => deserialize_eq_some_iff, fun cmd => deserialize_truncated, fun tag => deserialize_unknown,
    fun cmd hread => ?_⟩
  obtain ⟨hsized, hframe⟩ := frame_of_deserialize hread
  have hlen := serialize_length hsized
  rw [← hlen]
  refine ⟨List.prefix_iff_eq_take.mp hframe, ?_⟩
  constructor
  · intro heq
    rw [heq]
  · intro heq
    exact hframe.eq_of_length heq.symm

/-- A message with shares of nine bits: two more bytes are ignored, one byte less is too few, and there are no messages
of type 7. -/
theorem deserialize_frames_nine : ∃ cmd : Cmd CheckedScalar,
    deserialize [0, 5, 9, 0, 0, 0, 1, 2, 3, 4, 77, 78] = some cmd ∧ cmd.serialize = [0, 5, 9, 0, 0, 0, 1, 2, 3, 4] ∧
    deserialize [0, 5, 9, 0, 0, 0, 1, 2, 3] = (none : Option (Cmd CheckedScalar)) ∧
    deserialize [7, 5] = (none : Option (Cmd CheckedScalar)) := by
  let cmd : Cmd CheckedScalar := beaverExchange 5 9 [1, 2] [3, 4]
  have hread : deserialize [0, 5, 9, 0, 0, 0, 1, 2, 3, 4, 77, 78] = some cmd := rfl
  have hframe := (deserialize_frames _).2.2.2 cmd hread
  have hsized := ((deserialize_frames _).1 cmd).mp hread
  exact ⟨cmd, hread, hframe.1, (deserialize_frames _).2.1 cmd hsized.1 (by decide) (by decide),
    (deserialize_frames [7, 5]).2.2.1 7 rfl (by decide)⟩

/-- A handshake with one more byte is no frame of the encoder, and is accepted. -/
theorem deserialize_overlong : deserialize [1, 7, 0] = some (handshake 7 : Cmd CheckedScalar) ∧
    ¬ ∃ cmd : Cmd CheckedScalar, cmd.Sized ∧ cmd.serialize = [1, 7, 0] := by
  refine ⟨rfl, ?_⟩
  rintro ⟨cmd, hsized, hframe⟩
  have hread := deserialize_serialize hsized
  rw [hframe] at hread
  obtain rfl : handshake 7 = cmd := Option.some.inj hread
  exact absurd (congrArg List.length hframe) (by decide)

end Cmd
end PrivRecCert.Prc
