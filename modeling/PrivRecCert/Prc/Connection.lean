import PrivRecCert.Prc.Commitment
import PrivRecCert.SimdArray.D2BitArray
import PrivRecCert.Rounds.Lockstep

/-! Frames and message handling. A broadcast payload becomes a `Cmd`, the command becomes a byte
frame, and the receiver parses the frame and files its payload in the storage of its kind. -/
namespace PrivRecCert.Prc
open Bytes CorRnd SimdArray Rounds

inductive Cmd (G : Type) : Type
  | handshake (peerId : U8)
  | beaverExchange (senderId : U8) (beaverBitSize : U32) (beaverDataA beaverDataB : List U8)
  | dabitExchange (senderId : U8) (dabitBitSize : U32) (dabitBoolData : List U8)
  | aggCommit (senderId : U8) (commit : Commitment G)

variable {G : Type}

/-- The slice `data[st..end]`. -/
def sliceBytes (data : List U8) (st end_ : ℕ) : Option (List U8) :=
  if st ≤ end_ ∧ end_ ≤ data.length then some ((data.drop st).take (end_-st)) else none

/-- `u32::from_le_bytes`. -/
def readU32 (data : List U8) : U32 := BitVec.ofNat 32 (ofLeBytes data)

theorem sliceBytes_append {data a m b : List U8} {st end_ : ℕ} (h : data = a ++ m ++ b)
    (hst : st = a.length) (hend : end_ = a.length + m.length) :
    sliceBytes data st end_ = some m := by
  subst h hst hend
  rw [sliceBytes, if_pos ⟨by omega, by simp⟩, List.append_assoc, List.drop_left,
    Nat.add_sub_cancel_left, List.take_left]

@[simp] theorem readU32_leBytes (w : U32) : readU32 (leBytes 4 w.toNat) = w := by
  have hw := w.isLt
  rw [readU32, ofLeBytes_leBytes (by omega), BitVec.ofNat_toNat, BitVec.setWidth_eq]

/-- The storages a payload can go to. -/
inductive Kind : Type
  | beaver
  | dabit
  | commit
  deriving DecidableEq

/-- A `D2BitArray` that `get_array` can read at 0 and at 1. -/
abbrev BeaverShare := {d : D2BitArray // 2 ≤ d.arrays.length}

theorem two_le_pair (a b : BitArray) : 2 ≤ (D2BitArray.mk [a, b]).arrays.length := le_rfl

/-- What a party broadcasts and what a receiver stores. -/
inductive Msg (G : Type) : Type
  | beaver (d : BeaverShare)
  | dabit (b : BitArray)
  | commit (c : Commitment G)

def Msg.kind : Msg G → Kind
  | beaver _ => .beaver
  | dabit _ => .dabit
  | commit _ => .commit

/-- The commands of `send_beaver_shares`, `send_dabit_shares` and `send_commit_to_agg`. -/
def Msg.toCmd (ownerId : U8) : Msg G → Cmd G
  | beaver d =>
    let a := d.1.arrays.get ⟨0, Nat.lt_of_lt_of_le Nat.zero_lt_two d.2⟩
    let b := d.1.arrays.get ⟨1, d.2⟩
    .beaverExchange ownerId (BitVec.ofNat 32 a.bitSize) a.getInnerMemref b.getInnerMemref
  | dabit b => .dabitExchange ownerId (BitVec.ofNat 32 b.bitSize) b.getInnerMemref
  | commit c => .aggCommit ownerId c

/-- The storages of one handler. The identity of its owner is kept apart from them. -/
structure MpcMessageHandler (G : Type) where
  activeBeaverStorage : List BeaverShare
  activeDabitStorage : List BitArray
  commitStorage : List (Commitment G)

namespace MpcMessageHandler

def new : MpcMessageHandler G := ⟨[], [], []⟩

/-- Frames of the owner itself and handshakes are rejected. -/
def handleCmd (h : MpcMessageHandler G) (ownerId : U8) : Cmd G → Option (MpcMessageHandler G)
  | .aggCommit senderId commit =>
    if senderId ≠ ownerId then some { h with commitStorage := h.commitStorage ++ [commit] } else none
  | .beaverExchange senderId beaverBitSize beaverDataA beaverDataB =>
    if senderId ≠ ownerId then do
      let a ← BitArray.fromByteSlice beaverDataA beaverBitSize.toNat
      let b ← BitArray.fromByteSlice beaverDataB beaverBitSize.toNat
      some { h with activeBeaverStorage := h.activeBeaverStorage ++ [⟨⟨[a, b]⟩, le_rfl⟩] }
    else none
  | .dabitExchange senderId dabitBitSize dabitBoolData =>
    if senderId ≠ ownerId then do
      let e ← BitArray.fromByteSlice dabitBoolData dabitBitSize.toNat
      some { h with activeDabitStorage := h.activeDabitStorage ++ [e] }
    else none
  | .handshake _ => none

/-- The drain at the end of a receive: the storage must hold one entry per peer. -/
def receive (h : MpcMessageHandler G) (peerNum : ℕ) : Kind → Option (List (Msg G) × MpcMessageHandler G)
  | .beaver =>
    if h.activeBeaverStorage.length = peerNum then
      some (h.activeBeaverStorage.map .beaver, { h with activeBeaverStorage := [] })
    else none
  | .dabit =>
    if h.activeDabitStorage.length = peerNum then
      some (h.activeDabitStorage.map .dabit, { h with activeDabitStorage := [] })
    else none
  | .commit =>
    if h.commitStorage.length = peerNum then
      some (h.commitStorage.map .commit, { h with commitStorage := [] })
    else none

end MpcMessageHandler

section Exchange
/-- A party's program over the payloads of the protocol. -/
abbrev Party (G α : Type) := Proc (Msg G) Kind α

def sendBeaverShares (beaver : D2BitArray) : Party G Unit :=
  if h : 2 ≤ beaver.arrays.length then .send (.beaver ⟨beaver, h⟩) (.ret ()) else .fail

def sendDabitShares (dabit : BitArray) : Party G Unit := .send (.dabit dabit) (.ret ())

def sendCommitToAgg (commit : Commitment G) : Party G Unit := .send (.commit commit) (.ret ())

def Msg.asBeaver : Msg G → Option D2BitArray
  | beaver d => some d.1
  | _ => none

def Msg.asDabit : Msg G → Option BitArray
  | dabit b => some b
  | _ => none

def Msg.asCommit : Msg G → Option (Commitment G)
  | commit c => some c
  | _ => none

def receiveBeaverShares : Party G (List D2BitArray) := .recv .beaver fun l => .lift (l.mapM Msg.asBeaver)

def receiveDabitShares : Party G (List BitArray) := .recv .dabit fun l => .lift (l.mapM Msg.asDabit)

def receiveAggCommits : Party G (List (Commitment G)) := .recv .commit fun l => .lift (l.mapM Msg.asCommit)

end Exchange

/-- `peer_id as u8`. -/
def ownerId {n : ℕ} (i : Fin n) : U8 := BitVec.ofNat 8 i

/-- What a command leaves in a storage. -/
def Cmd.payload : Cmd G → Option (Msg G)
  | aggCommit _ c => some (.commit c)
  | beaverExchange _ size dataA dataB => do
    let a ← BitArray.fromByteSlice dataA size.toNat
    let b ← BitArray.fromByteSlice dataB size.toNat
    some (.beaver ⟨⟨[a, b]⟩, le_rfl⟩)
  | dabitExchange _ size data => do some (.dabit (← BitArray.fromByteSlice data size.toNat))
  | handshake _ => none

/-- The payload slices have the lengths that the bit size announces. -/
def Cmd.Sized : Cmd G → Prop
  | beaverExchange _ size dataA dataB =>
    dataA.length = divCeil size.toNat 8 ∧ dataB.length = divCeil size.toNat 8
  | dabitExchange _ size data => data.length = divCeil size.toNat 8
  | _ => True

/-- An array whose size fits the frame's size field. -/
structure Sendable (a : BitArray) : Prop extends a.WF where
  bitSize_lt : a.bitSize < 2^32

theorem Sendable.toNat {a : BitArray} (h : Sendable a) : (BitVec.ofNat 32 a.bitSize).toNat = a.bitSize := by
  rw [BitVec.toNat_ofNat, Nat.mod_eq_of_lt h.bitSize_lt]

theorem Sendable.length {a : BitArray} (h : Sendable a) :
    a.getInnerMemref.length = divCeil a.bitSize 8 := by
  rw [BitArray.getInnerMemref, AU8Array.asSlice_length, h.len_eq, h.byteSize_eq, BitArray.divCeil_eight]

/-- The bits of the bytes in use; what lies beyond them is not sent. -/
def clip (s : ℕ) (f : ℕ → Bool) (k : ℕ) : Bool := if k < 8*((s+7)/8) then f k else false

theorem clip_of_zero {s : ℕ} {f : ℕ → Bool} (h : ∀ k, s ≤ k → f k = false) (k : ℕ) :
    clip s f k = f k := by
  unfold clip
  split_ifs with hk
  · rfl
  · exact (h k (by omega)).symm

/-- The copy of a received array. -/
theorem fromByteSlice_memref {a : BitArray} {s : ℕ} {f : ℕ → Bool} (ha : a.Represents s f) :
    ∃ r, BitArray.fromByteSlice a.getInnerMemref s = some r ∧
      r.Represents s (clip s f) := by
  have hlen : a.getInnerMemref.length = (s+7)/8 := by
    rw [BitArray.getInnerMemref, AU8Array.asSlice_length, ha.len]
  obtain ⟨r, hr, hrr⟩ := BitArray.fromByteSlice_eq (s := s) hlen.ge
  refine ⟨r, hr, hrr.congr fun k => ?_⟩
  unfold clip
  split_ifs with hk
  · rw [BitArray.getInnerMemref, AU8Array.bitAt_asSlice, ha.len, if_pos hk]
    exact ha.bit_eq k
  · rfl

/-- The same bits, whatever is in the padding. -/
def SameBits (a b : BitArray) : Prop := a.bitSize = b.bitSize ∧ ∀ k < a.bitSize, a.get k = b.get k

/-- Arrays that agree in size and in the bytes in use. -/
def SameBytes (a b : BitArray) : Prop := a.bitSize = b.bitSize ∧ a.getInnerMemref = b.getInnerMemref

/-- Reading a bit looks at the bytes in use only. -/
theorem SameBytes.sameBits {a b : BitArray} (h : SameBytes a b) : SameBits a b := by
  obtain ⟨hsize, hbytes⟩ := h
  refine ⟨hsize, fun k _ => ?_⟩
  have hread : ∀ c : BitArray, c.data.getByte (k/8) = c.getInnerMemref[k/8]? := fun c => by
    rw [AU8Array.getByte, BitArray.getInnerMemref, AU8Array.asSlice, List.getElem?_take]
    split_ifs with hk
    · have hlt : k/8 < c.data.buf.length := by
        rw [c.data.buf_length]
        exact hk.trans_le (le_alignMaxLen c.data.len)
      rw [List.getElem?_eq_getElem hlt, List.getD_eq_getElem _ _ hlt]
    · rfl
  rw [BitArray.get, BitArray.get, hread, hread, hsize, hbytes]

/-- A well-formed array comes out of a frame with the bytes that went in. -/
theorem fromByteSlice_same {a : BitArray} (h : Sendable a) :
    ∃ r, BitArray.fromByteSlice a.getInnerMemref a.bitSize = some r ∧ SameBytes a r := by
  obtain ⟨r, hr, hrr⟩ := fromByteSlice_memref (.of_wf h.toWF)
  refine ⟨r, hr, hrr.bitSize_eq.symm, ext_bitAt ?_ fun k hk => ?_⟩
  · rw [BitArray.getInnerMemref, BitArray.getInnerMemref, AU8Array.asSlice_length, AU8Array.asSlice_length,
      hrr.len, h.len_eq, h.byteSize_eq]
  · rw [BitArray.getInnerMemref, AU8Array.asSlice_length, h.len_eq, h.byteSize_eq] at hk
    have hbit := hrr.bit_eq k
    rw [clip, if_pos hk] at hbit
    rw [BitArray.getInnerMemref, BitArray.getInnerMemref, AU8Array.bitAt_asSlice, AU8Array.bitAt_asSlice,
      hrr.len, h.len_eq, h.byteSize_eq, if_pos hk, if_pos hk]
    exact hbit.symm

/-- Payloads that a frame can carry: arrays of one common size below `2^32`. -/
def Msg.WF : Msg G → Prop
  | beaver d => ∃ a b rest, d.1.arrays = a :: b :: rest ∧ Sendable a ∧ Sendable b ∧ a.bitSize = b.bitSize
  | dabit b => Sendable b
  | commit _ => True

theorem Msg.sized {m : Msg G} (h : m.WF) (id : U8) : (m.toCmd id).Sized := by
  cases m with
  | beaver d =>
    obtain ⟨⟨arrays⟩, hd⟩ := d
    obtain ⟨a, b, rest, hab, ha, hb, hsize⟩ := h
    simp only at hab
    subst hab
    refine ⟨?_, ?_⟩
    · change a.getInnerMemref.length = divCeil (BitVec.ofNat 32 a.bitSize).toNat 8
      rw [ha.toNat, ha.length]
    · change b.getInnerMemref.length = divCeil (BitVec.ofNat 32 a.bitSize).toNat 8
      rw [ha.toNat, hb.length, hsize]
  | dabit b =>
    change b.getInnerMemref.length = divCeil (BitVec.ofNat 32 b.bitSize).toNat 8
    rw [Sendable.toNat h, Sendable.length h]
  | commit c => trivial

section Curve
variable [AddCommGroup G] [Module Scalar G] [Ristretto G]

namespace Cmd

def serialize : Cmd G → List U8
  | beaverExchange senderId beaverBitSize beaverDataA beaverDataB =>
    [0, senderId] ++ leBytes 4 beaverBitSize.toNat ++ beaverDataA ++ beaverDataB
  | handshake peerId => [1, peerId]
  | dabitExchange senderId dabitBitSize dabitBoolData =>
    [2, senderId] ++ leBytes 4 dabitBitSize.toNat ++ dabitBoolData
  | aggCommit senderId commit => [3, senderId] ++ commit.serialize

def deserialize (data : List U8) : Option (Cmd G) := do
  let cmdType ← data[0]?
  if cmdType = 0 then
    let senderId ← data[1]?
    let beaverBitSize := readU32 (← sliceBytes data 2 6)
    let arraySize := divCeil beaverBitSize.toNat 8
    let beaverDataA ← sliceBytes data 6 (6+arraySize)
    let beaverDataB ← sliceBytes data (6+arraySize) (6+2*arraySize)
    some (beaverExchange senderId beaverBitSize beaverDataA beaverDataB)
  else if cmdType = 1 then
    let peerId ← data[1]?
    some (handshake peerId)
  else if cmdType = 2 then
    let senderId ← data[1]?
    let dabitBitSize := readU32 (← sliceBytes data 2 6)
    let arraySize := divCeil dabitBitSize.toNat 8
    let dabitBoolData ← sliceBytes data 6 (6+arraySize)
    some (dabitExchange senderId dabitBitSize dabitBoolData)
  else if cmdType = 3 then
    let senderId ← data[1]?
    let commit ← Commitment.deserialize (← sliceBytes data 2 34)
    some (aggCommit senderId commit)
  else none

end Cmd

/-- A payload after its way through a frame. -/
def wire {n : ℕ} (j : Fin n) (m : Msg G) : Option (Msg G) :=
  (Cmd.deserialize (m.toCmd (ownerId j)).serialize).bind Cmd.payload

theorem Cmd.deserialize_dabit {senderId : U8} {size : U32} {data : List U8} (h : data.length = divCeil size.toNat 8)
    (surplus : List U8) : deserialize (serialize (dabitExchange senderId size data : Cmd G) ++ surplus) =
      some (dabitExchange senderId size data : Cmd G) := by
  have hsize : sliceBytes (serialize (dabitExchange senderId size data : Cmd G) ++ surplus) 2 6 =
      some (leBytes 4 size.toNat) :=
    sliceBytes_append (a := [2, senderId]) (b := data ++ surplus) (by simp [serialize]) rfl (by simp)
  have hdata : sliceBytes (serialize (dabitExchange senderId size data : Cmd G) ++ surplus) 6
      (6 + divCeil size.toNat 8) = some data :=
    sliceBytes_append (a := [2, senderId] ++ leBytes 4 size.toNat) (b := surplus)
      (by simp [serialize]) (by simp) (by simp [h])
  simp only [deserialize, hsize, Option.bind_eq_bind, Option.bind_some, readU32_leBytes, hdata]
  rfl

/-- When the size field of a frame overflows to zero, nothing of the array arrives. -/
theorem wire_dabit_overflow {n : ℕ} (j : Fin n) {b : BitArray} (hb : BitVec.ofNat 32 b.bitSize = 0#32) :
    wire j (.dabit b : Msg G) = some (.dabit ⟨.empty, 0, 0⟩) := by
  have hframe : Cmd.serialize ((Msg.dabit b : Msg G).toCmd (ownerId j)) =
      Cmd.serialize (.dabitExchange (ownerId j) 0#32 [] : Cmd G) ++ b.getInnerMemref := by
    rw [Msg.toCmd, hb, Cmd.serialize, Cmd.serialize, List.append_nil]
  have hempty : ([] : List U8).length = divCeil (0#32).toNat 8 := rfl
  rw [wire, hframe, Cmd.deserialize_dabit hempty]
  rfl

/-- A frame is read back, whatever follows it. -/
theorem Cmd.deserialize_append [LawfulRistretto G] {cmd : Cmd G} (h : cmd.Sized) (surplus : List U8) :
    deserialize (cmd.serialize ++ surplus) = some cmd := by
  cases cmd with
  | handshake peerId => rfl
  | beaverExchange senderId size dataA dataB =>
    obtain ⟨ha, hb⟩ := h
    have hsize : sliceBytes (serialize (beaverExchange senderId size dataA dataB : Cmd G) ++ surplus) 2 6 =
        some (leBytes 4 size.toNat) :=
      sliceBytes_append (a := [0, senderId]) (b := dataA ++ dataB ++ surplus) (by simp [serialize]) rfl
        (by simp)
    have hda : sliceBytes (serialize (beaverExchange senderId size dataA dataB : Cmd G) ++ surplus) 6
        (6 + divCeil size.toNat 8) = some dataA :=
      sliceBytes_append (a := [0, senderId] ++ leBytes 4 size.toNat) (b := dataB ++ surplus)
        (by simp [serialize]) (by simp) (by simp [ha])
    have hdb : sliceBytes (serialize (beaverExchange senderId size dataA dataB : Cmd G) ++ surplus)
        (6 + divCeil size.toNat 8) (6 + 2*divCeil size.toNat 8) = some dataB :=
      sliceBytes_append (a := [0, senderId] ++ leBytes 4 size.toNat ++ dataA) (b := surplus)
        (by simp [serialize]) (by simp [ha]; omega) (by simp [ha, hb]; omega)
    simp only [deserialize, hsize, Option.bind_eq_bind, Option.bind_some, readU32_leBytes, hda, hdb]
    rfl
  | dabitExchange senderId size data => exact deserialize_dabit h surplus
  | aggCommit senderId commit =>
    have hdata : sliceBytes (serialize (aggCommit senderId commit) ++ surplus) 2 34 = some commit.serialize :=
      sliceBytes_append (a := [3, senderId]) (b := surplus) (by simp [serialize]) rfl
        (by rw [Commitment.serialize, LawfulRistretto.compress_length]; rfl)
    simp only [deserialize, hdata, Option.bind_eq_bind, Option.bind_some,
      Commitment.deserialize_serialize]
    rfl

theorem Cmd.deserialize_serialize [LawfulRistretto G] {cmd : Cmd G} (h : cmd.Sized) :
    deserialize cmd.serialize = some cmd := by
  have hread := deserialize_append h []
  rwa [List.append_nil] at hread

variable [LawfulRistretto G] {n : ℕ} (j : Fin n)

theorem wire_eq_payload {m : Msg G} (h : m.WF) : wire j m = (m.toCmd (ownerId j)).payload := by
  rw [wire, Cmd.deserialize_serialize (m.sized h _), Option.bind_some]

theorem wire_commit (c : Commitment G) : wire j (.commit c) = some (.commit c) :=
  wire_eq_payload j (m := .commit c) trivial

theorem wire_dabit {b : BitArray} {s : ℕ} {f : ℕ → Bool} (hb : b.Represents s f) (hs : s < 2^32) :
    ∃ r, wire j (.dabit b : Msg G) = some (.dabit r) ∧ r.Represents s (clip s f) := by
  have hsend : Sendable b := ⟨hb.toWF, hb.bitSize_eq ▸ hs⟩
  obtain ⟨r, hr, hrr⟩ := fromByteSlice_memref hb
  refine ⟨r, ?_, hrr⟩
  rw [wire_eq_payload j (m := .dabit b) hsend]
  have hmod : s % 4294967296 = s := Nat.mod_eq_of_lt hs
  simp [Msg.toCmd, Cmd.payload, hb.bitSize_eq, hmod, hr]

theorem wire_beaver {d : BeaverShare} {s : ℕ} {f g : ℕ → Bool} (hd : d.1.Represents s [f, g])
    (hs : s < 2^32) : ∃ e : BeaverShare, wire j (.beaver d : Msg G) = some (.beaver e) ∧
      e.1.Represents s [clip s f, clip s g] := by
  obtain ⟨⟨arrays⟩, hlen⟩ := d
  rcases hd with _ | ⟨ha, _ | ⟨hb, _ | _⟩⟩
  rename_i a b
  obtain ⟨a', ha', har⟩ := fromByteSlice_memref ha
  obtain ⟨b', hb', hbr⟩ := fromByteSlice_memref hb
  have hwf : (Msg.beaver ⟨⟨[a, b]⟩, hlen⟩ : Msg G).WF :=
    ⟨a, b, [], rfl, ⟨ha.toWF, ha.bitSize_eq ▸ hs⟩, ⟨hb.toWF, hb.bitSize_eq ▸ hs⟩,
      ha.bitSize_eq.trans hb.bitSize_eq.symm⟩
  refine ⟨⟨⟨[a', b']⟩, le_rfl⟩, ?_, .cons har (.cons hbr .nil)⟩
  have hmod : s % 4294967296 = s := Nat.mod_eq_of_lt hs
  rw [wire_eq_payload j hwf]
  simp [Msg.toCmd, Cmd.payload, ha.bitSize_eq, hmod, ha', hb']

end Curve

end PrivRecCert.Prc
