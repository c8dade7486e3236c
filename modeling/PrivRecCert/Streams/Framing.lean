import Mathlib

/-! Frames on a byte stream. A frame goes out as its length, written in a fixed number of bytes, and its payload. What
is written travels in pieces of any size, and the reader takes the length first and then as many bytes as it says. -/
namespace PrivRecCert.Streams

variable {B : Type}

/-- How lengths are written. Lengths from `limit` on do not fit. -/
structure Framing (B : Type) where
  width : ℕ
  limit : ℕ
  encode : ℕ → List B
  decode : List B → ℕ
  width_pos : 0 < width
  encode_length : ∀ len, (encode len).length = width
  decode_encode : ∀ len, len < limit → decode (encode len) = len

namespace Framing
variable (φ : Framing B)

def frame (payload : List B) : List B := φ.encode payload.length ++ payload

theorem frame_length (payload : List B) : (φ.frame payload).length = φ.width + payload.length := by
  rw [frame, List.length_append, φ.encode_length]

end Framing

/-- What the reader has of the frame that it reads. -/
inductive Reader (B : Type) : Type
  | header (got : List B)
  | body (len : ℕ) (got : List B)

def Reader.bytes (φ : Framing B) : Reader B → List B
  | header got => got
  | body len got => φ.encode len ++ got

/-- One direction of a connection: what is yet to be written of the frames handed over, what is in flight, and what the
reader has. -/
structure Stream (B : Type) where
  unsent : List B
  flight : List B
  reader : Reader B

namespace Stream

def empty : Stream B := ⟨[], [], .header []⟩

/-- A frame is handed over. -/
def send (φ : Framing B) (s : Stream B) (payload : List B) : Stream B := { s with unsent := s.unsent ++ φ.frame payload }

/-- A piece of what is unsent is written, as far as there is room for it. -/
inductive Write (room : ℕ) : Stream B → Stream B → Prop
  | write {chunk rest flight reader} (hne : chunk ≠ []) (hroom : flight.length + chunk.length ≤ room) :
      Write room ⟨chunk ++ rest, flight, reader⟩ ⟨rest, flight ++ chunk, reader⟩

/-- A piece of what is in flight is read, but nothing past the length or past the frame. -/
inductive Read (φ : Framing B) : Stream B → Stream B → Prop
  | header {unsent chunk rest got} (hne : chunk ≠ []) (hlen : got.length + chunk.length ≤ φ.width) :
      Read φ ⟨unsent, chunk ++ rest, .header got⟩ ⟨unsent, rest, .header (got ++ chunk)⟩
  | body {unsent chunk rest len got} (hne : chunk ≠ []) (hlen : got.length + chunk.length ≤ len) :
      Read φ ⟨unsent, chunk ++ rest, .body len got⟩ ⟨unsent, rest, .body len (got ++ chunk)⟩

/-- The stream carries these frames, oldest first; the reader may be in the middle of the first one and the writer in
the middle of the last one. -/
structure Carries (φ : Framing B) (s : Stream B) (frames : List (List B)) : Prop where
  bytes : s.reader.bytes φ ++ (s.flight ++ s.unsent) = frames.flatMap φ.frame
  short : ∀ f ∈ frames, f.length < φ.limit
  header : ∀ got, s.reader = .header got → got.length ≤ φ.width
  body : ∀ len got, s.reader = .body len got → got.length ≤ len ∧ len < φ.limit

namespace Carries
variable {φ : Framing B} {s s' : Stream B} {frames : List (List B)} {f : List B} {room : ℕ}

theorem nil : Carries φ empty [] where
  bytes := rfl
  short := by simp
  header got h := by
    obtain rfl := Reader.header.inj h
    exact Nat.zero_le _
  body len got h := by cases h

theorem send (h : Carries φ s frames) (hf : f.length < φ.limit) : Carries φ (s.send φ f) (frames ++ [f]) where
  bytes := by
    rw [List.flatMap_append, ← h.bytes, List.flatMap_singleton, Stream.send]
    simp only [List.append_assoc]
  short g hg := by
    rcases List.mem_append.mp hg with hg | hg
    · exact h.short g hg
    · rwa [List.mem_singleton.mp hg]
  header := h.header
  body := h.body

theorem write (h : Carries φ s frames) (hw : Write room s s') : Carries φ s' frames := by
  cases hw with
  | write hne hroom =>
    refine ⟨?_, h.short, h.header, h.body⟩
    rw [← h.bytes]
    simp only [List.append_assoc]

theorem read (h : Carries φ s frames) (hr : Read φ s s') : Carries φ s' frames := by
  cases hr with
  | header hne hlen =>
    refine ⟨?_, h.short, fun got hgot => ?_, fun len got hgot => by cases hgot⟩
    · rw [← h.bytes]
      simp only [Reader.bytes, List.append_assoc]
    · obtain rfl := Reader.header.inj hgot
      rwa [List.length_append]
  | body hne hlen =>
    refine ⟨?_, h.short, fun got hgot => (by cases hgot), fun len got hgot => ?_⟩
    · rw [← h.bytes]
      simp only [Reader.bytes, List.append_assoc]
    · obtain ⟨rfl, rfl⟩ := Reader.body.inj hgot
      exact ⟨by rwa [List.length_append], (h.body _ _ rfl).2⟩

/-- A length is all that comes before the payload. -/
theorem first (h : Carries φ s frames) {len : List B} {tail : List B} (hlen : len.length = φ.width)
    (hbytes : s.reader.bytes φ ++ (s.flight ++ s.unsent) = len ++ tail) :
    ∃ f rest, frames = f :: rest ∧ len = φ.encode f.length ∧ φ.decode len = f.length ∧
      tail = f ++ rest.flatMap φ.frame := by
  rw [h.bytes] at hbytes
  cases frames with
  | nil =>
    have hnil := congrArg List.length hbytes
    have hpos := φ.width_pos
    rw [List.flatMap_nil, List.length_nil, List.length_append] at hnil
    omega
  | cons f rest =>
    rw [List.flatMap_cons, Framing.frame, List.append_assoc] at hbytes
    obtain ⟨rfl, rfl⟩ := List.append_inj hbytes (by rw [φ.encode_length, hlen])
    exact ⟨f, rest, rfl, rfl, φ.decode_encode _ (h.short f List.mem_cons_self), rfl⟩

/-- The length that the reader has taken is that of the first frame. -/
theorem announce (h : Carries φ s frames) {got : List B} (hs : s.reader = .header got) (hfull : got.length = φ.width) :
    ∃ f rest, frames = f :: rest ∧ φ.decode got = f.length ∧ Carries φ { s with reader := .body f.length [] } frames := by
  obtain ⟨f, rest, rfl, hgot, hdecode, htail⟩ := h.first hfull (by rw [hs, Reader.bytes])
  refine ⟨f, rest, rfl, hdecode, ?_, h.short, fun got hgot => (by cases hgot), fun len got hgot => ?_⟩
  · rw [← h.bytes, hs, hgot]
    simp only [Reader.bytes, List.append_nil]
  · obtain ⟨rfl, rfl⟩ := Reader.body.inj hgot
    exact ⟨Nat.zero_le _, h.short f List.mem_cons_self⟩

/-- A reader that knows the length is in the first frame. -/
theorem reading (h : Carries φ s frames) {len : ℕ} {got : List B} (hs : s.reader = .body len got) :
    ∃ f rest, frames = f :: rest ∧ f.length = len ∧
      got ++ (s.flight ++ s.unsent) = f ++ rest.flatMap φ.frame := by
  have hbytes : s.reader.bytes φ ++ (s.flight ++ s.unsent) = φ.encode len ++ (got ++ (s.flight ++ s.unsent)) := by
    rw [hs, Reader.bytes, List.append_assoc]
  obtain ⟨f, rest, rfl, -, hdecode, htail⟩ := h.first (φ.encode_length len) hbytes
  rw [φ.decode_encode len (h.body len got hs).2] at hdecode
  exact ⟨f, rest, rfl, hdecode.symm, htail⟩

/-- When the reader has as many bytes as the length says, these are the first frame. -/
theorem take (h : Carries φ s frames) {len : ℕ} {got : List B} (hs : s.reader = .body len got) (hfull : got.length = len) :
    ∃ rest, frames = got :: rest ∧ Carries φ { s with reader := .header [] } rest := by
  obtain ⟨f, rest, rfl, hlen, htail⟩ := h.reading hs
  obtain ⟨rfl, htail⟩ := List.append_inj htail (by rw [hlen, hfull])
  refine ⟨rest, rfl, ?_, fun g hg => h.short g (List.mem_cons_of_mem _ hg), fun got hgot => ?_,
    fun len got hgot => by cases hgot⟩
  · rwa [Reader.bytes, List.nil_append]
  · obtain rfl := Reader.header.inj hgot
    exact Nat.zero_le _

/-- As many bytes are under way as the frames have. -/
theorem length (h : Carries φ s frames) : s.flight.length + s.unsent.length ≤
    (frames.map fun f => φ.width + f.length).sum := by
  have hlen := congrArg List.length h.bytes
  rw [List.length_append, List.length_append, List.length_flatMap] at hlen
  simp only [φ.frame_length] at hlen
  omega

/-- The reader has nothing that comes after the first frame. -/
theorem reader_le {rest : List (List B)} (h : Carries φ s (f :: rest)) :
    (s.reader.bytes φ).length ≤ φ.width + f.length := by
  cases hs : s.reader with
  | header got => exact (h.header got hs).trans (Nat.le_add_right _ _)
  | body len got =>
    obtain ⟨g, _, heq, hlen, -⟩ := h.reading hs
    obtain ⟨rfl, -⟩ := List.cons.inj heq
    have hgot := (h.body len got hs).1
    rw [Reader.bytes, List.length_append, φ.encode_length]
    omega

/-- When all is written, the last frame is in flight, unless the reader is in it already. -/
theorem last (h : Carries φ s (frames ++ [f])) (hunsent : s.unsent = []) (hreader : frames ≠ [] ∨ s.reader = .header []) :
    φ.width + f.length ≤ s.flight.length := by
  have hlen := congrArg List.length h.bytes
  rw [hunsent, List.append_nil, List.flatMap_append, List.flatMap_singleton, List.length_append, List.length_append,
    φ.frame_length] at hlen
  rcases hreader with hne | hnone
  · obtain ⟨g, rest, rfl⟩ := List.exists_cons_of_ne_nil hne
    have hle : (s.reader.bytes φ).length ≤ φ.width + g.length := reader_le h
    rw [List.flatMap_cons, List.length_append, φ.frame_length] at hlen
    omega
  · rw [hnone, Reader.bytes, List.length_nil] at hlen
    omega

/-- A reader in front of a frame can go on, if anything is in flight. -/
theorem readable (h : Carries φ s (f :: frames)) : (∃ got, s.reader = .header got ∧ got.length = φ.width) ∨
    (∃ len got, s.reader = .body len got ∧ got.length = len) ∨ (∃ s', Read φ s s') ∨
    s.flight = [] ∧ s.unsent ≠ [] := by
  obtain ⟨unsent, flight, reader⟩ := s
  cases reader with
  | header got =>
    rcases (h.header got rfl).eq_or_lt with hfull | hlt
    · exact .inl ⟨got, rfl, hfull⟩
    · right
      right
      cases flight with
      | cons b flight =>
        exact .inl ⟨_, .header (List.cons_ne_nil b []) hlt⟩
      | nil =>
        refine .inr ⟨rfl, fun hnil => ?_⟩
        have hlen := congrArg List.length h.bytes
        change unsent = [] at hnil
        rw [hnil] at hlen
        simp only [Reader.bytes, List.append_nil, List.flatMap_cons, List.length_append, φ.frame_length] at hlen
        omega
  | body len got =>
    rcases (h.body len got rfl).1.eq_or_lt with hfull | hlt
    · exact .inr (.inl ⟨len, got, rfl, hfull⟩)
    · right
      right
      cases flight with
      | cons b flight =>
        exact .inl ⟨_, .body (List.cons_ne_nil b []) hlt⟩
      | nil =>
        refine .inr ⟨rfl, fun hnil => ?_⟩
        obtain ⟨g, rest, -, hlen, htail⟩ := h.reading rfl
        have hbytes := congrArg List.length htail
        change unsent = [] at hnil
        rw [hnil] at hbytes
        simp only [List.append_nil, List.length_append] at hbytes
        omega

end Carries

/-- There is always room for a piece of what is unsent, as long as there is room at all. -/
theorem writable {s : Stream B} {room : ℕ} (hne : s.unsent ≠ []) (hroom : s.flight.length < room) :
    ∃ s', Write room s s' := by
  obtain ⟨unsent, flight, reader⟩ := s
  cases unsent with
  | nil => exact absurd rfl hne
  | cons b unsent => exact ⟨_, .write (List.cons_ne_nil b []) hroom⟩

/-- What is left to do before a stream comes to rest. -/
def load (s : Stream B) : ℕ :=
  2*s.unsent.length + s.flight.length + match s.reader with
    | .header _ => 1
    | .body _ _ => 0

theorem Write.load_lt {s s' : Stream B} {room : ℕ} (h : Write room s s') : s'.load < s.load := by
  cases h with
  | write hne hroom =>
    have hpos := List.length_pos_iff.mpr hne
    simp only [load, List.length_append]
    omega

theorem Write.reader_eq {s s' : Stream B} {room : ℕ} (h : Write room s s') : s'.reader = s.reader := by
  cases h with
  | write hne hroom => rfl

theorem Write.flight_le {s s' : Stream B} {room : ℕ} (h : Write room s s') : s'.flight.length ≤ room := by
  cases h with
  | write hne hroom => rwa [List.length_append]

theorem Read.flight_le {φ : Framing B} {s s' : Stream B} (h : Read φ s s') : s'.flight.length ≤ s.flight.length := by
  cases h with
  | header hne hlen => simp only [List.length_append, Nat.le_add_left]
  | body hne hlen => simp only [List.length_append, Nat.le_add_left]

/-- Reading neither begins nor ends with a length. -/
theorem Read.reader_inv {φ : Framing B} {s s' : Stream B} (h : Read φ s s') :
    (∃ got got', s.reader = .header got ∧ s'.reader = .header got') ∨
      ∃ len got got', s.reader = .body len got ∧ s'.reader = .body len got' := by
  cases h with
  | header hne hlen => exact .inl ⟨_, _, rfl, rfl⟩
  | body hne hlen => exact .inr ⟨_, _, _, rfl, rfl⟩

theorem Read.load_lt {φ : Framing B} {s s' : Stream B} (h : Read φ s s') : s'.load < s.load := by
  cases h with
  | header hne hlen =>
    have hpos := List.length_pos_iff.mpr hne
    simp only [load, List.length_append]
    omega
  | body hne hlen =>
    have hpos := List.length_pos_iff.mpr hne
    simp only [load, List.length_append]
    omega

end Stream
end PrivRecCert.Streams
