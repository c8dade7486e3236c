import PrivRecCert.Prc.Connection

/-! The way of a payload through a frame: what the encoder writes the decoder reads back, and the
receiving handler files exactly one copy in the storage of its kind. -/
namespace PrivRecCert.Prc
open Bytes CorRnd SimdArray

variable {G : Type}

section Curve
variable [AddCommGroup G] [Module Scalar G] [Ristretto G]

/-- The frames that a program which only broadcasts puts on each of its connections. -/
def Party.frames {α : Type} (senderId : U8) (p : Party G α) : Option (List (List U8)) :=
  (p.transcript []).map fun r => r.1.map fun m => (m.toCmd senderId).serialize

/-- A frame at a party: it is parsed and handled. -/
def MpcMessageHandler.handleFrame (h : MpcMessageHandler G) (ownerId : U8) (frame : List U8) :
    Option (MpcMessageHandler G) := do
  h.handleCmd ownerId (← Cmd.deserialize frame)

variable [LawfulRistretto G]

/-- The one frame of `send_beaver_shares`, and what becomes of it. -/
theorem sendBeaverShares_frame (h : MpcMessageHandler G) {ownerId senderId : U8} (hne : senderId ≠ ownerId)
    {d : D2BitArray} {a b : BitArray} {rest : List BitArray} (hd : d.arrays = a :: b :: rest)
    (ha : Sendable a) (hb : Sendable b) (hsize : a.bitSize = b.bitSize) :
    ∃ (frame : List U8) (e : BeaverShare), Party.frames senderId (sendBeaverShares d : Party G Unit) = some [frame] ∧
      h.handleFrame ownerId frame = some { h with activeBeaverStorage := h.activeBeaverStorage ++ [e] } ∧
      List.Forall₂ SameBits [a, b] e.1.arrays := by
  obtain ⟨arrays⟩ := d
  obtain rfl : arrays = a :: b :: rest := hd
  have hlen : 2 ≤ (a :: b :: rest).length := by simp
  have hwf : (Msg.beaver ⟨⟨a :: b :: rest⟩, hlen⟩ : Msg G).WF := ⟨a, b, rest, rfl, ha, hb, hsize⟩
  obtain ⟨a', ha', hsa⟩ := fromByteSlice_same ha
  obtain ⟨b', hb', hsb⟩ := fromByteSlice_same hb
  rw [← hsize] at hb'
  have hcmd : (Msg.beaver ⟨⟨a :: b :: rest⟩, hlen⟩ : Msg G).toCmd senderId =
      .beaverExchange senderId (BitVec.ofNat 32 a.bitSize) a.getInnerMemref b.getInnerMemref := rfl
  have hsend : (sendBeaverShares ⟨a :: b :: rest⟩ : Party G Unit) =
      .send (.beaver ⟨⟨a :: b :: rest⟩, hlen⟩) (.ret ()) := dif_pos hlen
  refine ⟨_, ⟨⟨[a', b']⟩, le_rfl⟩, by rw [hsend]; rfl, ?_, .cons hsa.sameBits (.cons hsb.sameBits .nil)⟩
  rw [MpcMessageHandler.handleFrame, Cmd.deserialize_serialize (Msg.sized hwf senderId), hcmd]
  simp only [Option.bind_eq_bind, Option.bind_some, MpcMessageHandler.handleCmd, if_pos hne, ha.toNat, ha', hb']

/-- The one frame of `send_dabit_shares`, and what becomes of it. -/
theorem sendDabitShares_frame (h : MpcMessageHandler G) {ownerId senderId : U8} (hne : senderId ≠ ownerId)
    {a : BitArray} (ha : Sendable a) :
    ∃ (frame : List U8) (e : BitArray), Party.frames senderId (sendDabitShares a : Party G Unit) = some [frame] ∧
      h.handleFrame ownerId frame = some { h with activeDabitStorage := h.activeDabitStorage ++ [e] } ∧
      SameBits a e := by
  obtain ⟨e, he, hse⟩ := fromByteSlice_same ha
  have hcmd : (Msg.dabit a : Msg G).toCmd senderId =
      .dabitExchange senderId (BitVec.ofNat 32 a.bitSize) a.getInnerMemref := rfl
  refine ⟨_, e, rfl, ?_, hse.sameBits⟩
  rw [MpcMessageHandler.handleFrame, Cmd.deserialize_serialize (Msg.sized (m := .dabit a) ha senderId), hcmd]
  simp only [Option.bind_eq_bind, Option.bind_some, MpcMessageHandler.handleCmd, if_pos hne, ha.toNat, he]

/-- Frames survive the wire, and the frame of a broadcast becomes one entry in one storage of every other party. -/
theorem frames_survive :
    (∀ cmd : Cmd G, cmd.Sized → Cmd.deserialize cmd.serialize = some cmd) ∧
    ∀ (h : MpcMessageHandler G) (ownerId senderId : U8), senderId ≠ ownerId →
      (∀ (d : D2BitArray) (a b : BitArray) (rest : List BitArray), d.arrays = a :: b :: rest →
        Sendable a → Sendable b → a.bitSize = b.bitSize → ∃ (frame : List U8) (e : BeaverShare),
          Party.frames senderId (sendBeaverShares d : Party G Unit) = some [frame] ∧
          h.handleFrame ownerId frame = some { h with activeBeaverStorage := h.activeBeaverStorage ++ [e] } ∧
          List.Forall₂ SameBits [a, b] e.1.arrays) ∧
      (∀ a : BitArray, Sendable a → ∃ (frame : List U8) (e : BitArray),
        Party.frames senderId (sendDabitShares a : Party G Unit) = some [frame] ∧
        h.handleFrame ownerId frame = some { h with activeDabitStorage := h.activeDabitStorage ++ [e] } ∧
        SameBits a e) := by
  refine ⟨fun cmd hcmd => Cmd.deserialize_serialize hcmd, fun h ownerId senderId hne => ⟨?_, ?_⟩⟩
  · intro d a b rest hd ha hb hsize
    exact sendBeaverShares_frame h hne hd ha hb hsize
  · intro a ha
    exact sendDabitShares_frame h hne ha

end Curve

/-- A command with two slices of two bytes for ten bits, and the broadcasts of ten ones and of ten zeros from
party 1 to party 0. -/
theorem frames_survive_ten : ∃ a b : BitArray, BitArray.ones 10 = some a ∧ BitArray.new 10 = some b ∧
    Cmd.deserialize (Cmd.beaverExchange 1 10 [1, 2] [3, 1] : Cmd Scalar).serialize =
      some (Cmd.beaverExchange 1 10 [1, 2] [3, 1] : Cmd Scalar) ∧
    (∃ (frame : List U8) (e : BeaverShare),
      Party.frames 1 (sendBeaverShares ⟨[a, b]⟩ : Party Scalar Unit) = some [frame] ∧
      (MpcMessageHandler.new : MpcMessageHandler Scalar).handleFrame 0 frame = some ⟨[e], [], []⟩ ∧
      List.Forall₂ SameBits [a, b] e.1.arrays) ∧
    ∃ (frame : List U8) (e : BitArray), Party.frames 1 (sendDabitShares a : Party Scalar Unit) = some [frame] ∧
      (MpcMessageHandler.new : MpcMessageHandler Scalar).handleFrame 0 frame = some ⟨[], [e], []⟩ ∧ SameBits a e := by
  obtain ⟨a, ha, har⟩ := BitArray.ones_eq (s := 10) (by decide)
  obtain ⟨b, hb, hbr⟩ := BitArray.new_eq (s := 10) (by decide)
  have hsend : Sendable a := ⟨har.toWF, by rw [har.bitSize_eq]; decide⟩
  have hsend' : Sendable b := ⟨hbr.toWF, by rw [hbr.bitSize_eq]; decide⟩
  have hframes := (frames_survive (G := Scalar)).2 .new 0 1 (by decide)
  refine ⟨a, b, ha, hb, ?_, hframes.1 ⟨[a, b]⟩ a b [] rfl hsend hsend' (har.bitSize_eq.trans hbr.bitSize_eq.symm),
    hframes.2 a hsend⟩
  exact (frames_survive (G := Scalar)).1 _ ⟨rfl, rfl⟩

end PrivRecCert.Prc
