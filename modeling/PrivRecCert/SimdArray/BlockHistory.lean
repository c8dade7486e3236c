import PrivRecCert.SimdArray.Block
import Mathlib.Data.List.Induction

/-! Histories of blocks: any sequence of constructions, clones, writes and drops. The blocks stay as they
were allocated, and all of them are initialised; only the layout that `drop` recomputes can differ. -/
namespace PrivRecCert.SimdArray
open Bytes

/-- A call of a constructor or of a method; `i` is the place of an array among those that are alive. -/
inductive BlockCall : Type
  | new (len : ℕ)
  | ones (len : ℕ)
  | fromSlice (slice : List U8)
  | clone (i : ℕ)
  | write (i k : ℕ) (v : U8)
  | drop (i : ℕ)

namespace BlockCall

def exec (live : List RawAU8Array) : BlockCall → Except Stop (List RawAU8Array)
  | .new len => do pure (live ++ [← RawAU8Array.new len])
  | .ones len => do pure (live ++ [← RawAU8Array.ones len])
  | .fromSlice slice => do pure (live ++ [← RawAU8Array.fromSlice slice])
  | .clone i => do pure (live ++ [← (← orPanic live[i]?).clone])
  | .write i k v => do pure (live.set i (← (← orPanic live[i]?).write k v))
  | .drop i => do
    let _ ← orPanic live[i]?
    pure (live.eraseIdx i)

/-- A call that panics leaves the arrays as they are. -/
def next (live : List RawAU8Array) (call : BlockCall) : List RawAU8Array :=
  match exec live call with
  | .ok live => live
  | .error _ => live

/-- The arrays that are alive after a history. -/
def run (history : List BlockCall) : List RawAU8Array := history.foldl next []

theorem run_concat (history : List BlockCall) (call : BlockCall) : run (history ++ [call]) = next (run history) call := by
  rw [run, List.foldl_append]
  rfl

/-- Before the call all blocks are as they were allocated, and initialised; the call has no fault; a clone
has all bytes of its source, what is made from a slice has zeros past its end, and what is dropped is
handed back with the layout that it was obtained with. -/
structure Sound (live : List RawAU8Array) (call : BlockCall) : Prop where
  consistent : ∀ a ∈ live, a.Consistent
  no_fault : exec live call ≠ .error .fault
  clone : ∀ i a c, call = .clone i → live[i]? = some a → a.clone = .ok c →
    ∃ b b', a.ptr = some b ∧ c.ptr = some b' ∧ b'.bytes.length = a.alignedLen ∧ b'.bytes = b.bytes
  fromSlice : ∀ slice c, call = .fromSlice slice → slice ≠ [] → RawAU8Array.fromSlice slice = .ok c →
    ∃ b, c.ptr = some b ∧
      b.bytes = (slice ++ List.replicate (c.alignedLen - slice.length) 0).map some
  drop : ∀ i a b, call = .drop i → live[i]? = some a → a.ptr = some b → a.dropLayout = some b.layout

variable {live : List RawAU8Array} {call : BlockCall}

/-- Every array is one of the arrays that the operations are modelled on. -/
def Alive (live : List RawAU8Array) : Prop := ∀ a ∈ live, ∃ x, a.Represents x

theorem Alive.append (h : Alive live) {o : Except Stop RawAU8Array} {x : Option AU8Array} (ho : RawAU8Array.Follows o x) :
    (do pure (live ++ [← o]) : Except Stop _) = .error .panic ∨
      ∃ live', (do pure (live ++ [← o]) : Except Stop _) = .ok live' ∧ Alive live' := by
  rcases ho with rfl | ⟨r, y, rfl, -, hr⟩
  · exact Or.inl rfl
  · refine Or.inr ⟨live ++ [r], rfl, fun a ha => ?_⟩
    rcases List.mem_append.mp ha with ha | ha
    · exact h a ha
    · exact ⟨y, List.mem_singleton.mp ha ▸ hr⟩

/-- A call never has a fault, and leaves such arrays again: one case for each method. -/
theorem Alive.exec (h : Alive live) (call : BlockCall) : call.exec live = .error .panic ∨
    ∃ live', call.exec live = .ok live' ∧ Alive live' := by
  cases call with
  | new len => exact h.append (RawAU8Array.new_follows len)
  | ones len => exact h.append (RawAU8Array.ones_follows len)
  | fromSlice slice => exact h.append (RawAU8Array.fromSlice_follows slice)
  | clone i =>
    rcases hi : live[i]? with _ | a
    · exact Or.inl (by rw [BlockCall.exec, hi]; rfl)
    · obtain ⟨x, hx⟩ := h a (List.mem_of_getElem? hi)
      rw [BlockCall.exec, hi]
      exact h.append (RawAU8Array.clone_follows hx)
  | write i k v =>
    rcases hi : live[i]? with _ | a
    · exact Or.inl (by rw [BlockCall.exec, hi]; rfl)
    · obtain ⟨x, hx⟩ := h a (List.mem_of_getElem? hi)
      rw [BlockCall.exec, hi]
      rcases RawAU8Array.write_follows hx k v with hpanic | ⟨r, y, hr, -, hry⟩
      · exact Or.inl (by rw [orPanic, ok_bind, hpanic]; rfl)
      · refine Or.inr ⟨live.set i r, by rw [orPanic, ok_bind, hr]; rfl, fun a' ha' => ?_⟩
        rcases List.mem_or_eq_of_mem_set ha' with ha' | rfl
        · exact h a' ha'
        · exact ⟨y, hry⟩
  | drop i =>
    rcases hi : live[i]? with _ | a
    · exact Or.inl (by rw [BlockCall.exec, hi]; rfl)
    · refine Or.inr ⟨live.eraseIdx i, by rw [BlockCall.exec, hi]; rfl, fun a' ha' => ?_⟩
      exact h a' (List.mem_of_mem_eraseIdx ha')

theorem Alive.next (h : Alive live) (call : BlockCall) : Alive (call.next live) := by
  rcases h.exec call with hpanic | ⟨live', hlive, halive⟩
  · rw [BlockCall.next, hpanic]
    exact h
  · rw [BlockCall.next, hlive]
    exact halive

theorem run_alive (history : List BlockCall) : Alive (run history) := by
  induction history using List.reverseRec with
  | nil => exact fun a ha => absurd ha List.not_mem_nil
  | append_singleton history call ih =>
    rw [run_concat]
    exact ih.next call

/-- A whole number of chunks is handed back as it was obtained. -/
theorem dropLayout_eq {a : RawAU8Array} {x : AU8Array} (hx : a.Represents x) (hlen : a.len % 32 = 0) {b : Block}
    (hb : a.ptr = some b) : a.dropLayout = some b.layout := by
  have hpos : 0 < x.len := by
    apply Nat.pos_of_ne_zero
    intro hzero
    rw [hx.empty hzero] at hb
    cases hb
  obtain ⟨b', hb', hlayout, -⟩ := hx.block hpos
  obtain rfl : b = b' := Option.some.inj (hb.symm.trans hb')
  have hfits := hx.fits
  have hsame : alignMaxLen x.len = x.len := if_pos (hx.len_eq ▸ hlen)
  rw [hsame] at hlayout hfits
  rw [RawAU8Array.dropLayout, hx.len_eq, if_neg hpos.ne', Layout.fromSizeAlign, if_pos hfits, hlayout]

theorem Alive.sound (h : Alive live) (hdrop : ∀ i a, call = .drop i → live[i]? = some a → a.len % 32 = 0) :
    call.Sound live where
  consistent a ha := by
    obtain ⟨x, hx⟩ := h a ha
    exact hx.consistent
  no_fault := by
    rcases h.exec call with hpanic | ⟨live', hlive, -⟩
    · rw [hpanic]
      exact fun hfault => absurd (Except.error.inj hfault) (by decide)
    · rw [hlive]
      exact fun hfault => by cases hfault
  clone i a c _ hi hc := by
    obtain ⟨x, hx⟩ := h a (List.mem_of_getElem? hi)
    rcases RawAU8Array.clone_follows hx with hpanic | ⟨r, y, hr, hy, hry⟩
    · rw [hpanic] at hc
      cases hc
    · obtain rfl : r = c := Except.ok.inj (hr.symm.trans hc)
      have hpos : 0 < x.len := by
        apply Nat.pos_of_ne_zero
        intro hzero
        rw [AU8Array.clone, AU8Array.createLayout, if_neg (by omega)] at hy
        cases hy
      obtain rfl : x = y := Option.some.inj ((AU8Array.clone_eq hpos).symm.trans hy)
      obtain ⟨b, hb, -, hbytes⟩ := hx.block hpos
      obtain ⟨b', hb', -, hbytes'⟩ := hry.block hpos
      refine ⟨b, b', hb, hb', ?_, hbytes'.trans hbytes.symm⟩
      rw [hbytes', List.length_map, x.buf_length, RawAU8Array.alignedLen, hx.len_eq]
  fromSlice slice c _ hne hc := by
    rcases RawAU8Array.fromSlice_follows slice with hpanic | ⟨r, y, hr, hy, hry⟩
    · rw [hpanic] at hc
      cases hc
    · obtain rfl : r = c := Except.ok.inj (hr.symm.trans hc)
      obtain rfl := Option.some.inj hy
      have hlen := AU8Array.fromSlice_len slice
      obtain ⟨b, hb, -, hbytes⟩ := hry.block (by rw [hlen]; exact List.length_pos_of_ne_nil hne)
      refine ⟨b, hb, ?_⟩
      rw [hbytes, RawAU8Array.alignedLen, hry.len_eq, hlen, AU8Array.fromSlice, if_neg hne]
  drop i a b hcall hi hb := by
    obtain ⟨x, hx⟩ := h a (List.mem_of_getElem? hi)
    exact dropLayout_eq hx (hdrop i a hcall hi) hb

/-- The dropped array has whole chunks if it is handed back with its own layout. -/
theorem Sound.whole {i : ℕ} {a : RawAU8Array} (h : (BlockCall.drop i).Sound live)
    (hi : live[i]? = some a) : a.len % 32 = 0 := by
  rcases h.consistent a (List.mem_of_getElem? hi) with ⟨hzero, -⟩ | ⟨hpos, b, hb, hlayout, -⟩
  · rw [hzero]
  · have hdrop := h.drop i a b rfl hi hb
    rw [RawAU8Array.dropLayout, if_neg hpos.ne', Layout.fromSizeAlign, hlayout] at hdrop
    split_ifs at hdrop
    have hsize : a.len = a.alignedLen := congrArg Layout.size (Option.some.inj hdrop)
    rw [hsize]
    exact alignMaxLen_mod a.len

/-- Over every history of calls the blocks are described consistently exactly when every array that is
dropped has a whole number of chunks: `drop` does not round its length up. -/
theorem blocks_sound_iff (history : List BlockCall) :
    (∀ past call, past ++ [call] <+: history → call.Sound (run past)) ↔
    ∀ past i a, past ++ [drop i] <+: history → (run past)[i]? = some a → a.len % 32 = 0 := by
  constructor
  · intro hsound past i a hpre hi
    exact (hsound past (drop i) hpre).whole hi
  · intro hwhole past call hpre
    apply (run_alive past).sound
    rintro i a rfl hi
    exact hwhole past i a hpre hi

/-- One byte is allocated as 32 bytes and handed back as one. -/
theorem drop_one_unsound : ¬ ∀ past call, past ++ [call] <+: [new 1, drop 0] → call.Sound (run past) := by
  intro h
  have hdrop := h [new 1] (drop 0) (List.prefix_refl _)
  have hwhole := hdrop.whole (a := ⟨some (Block.allocZeroed ⟨32, 32⟩), 1⟩) rfl
  exact absurd hwhole (by decide)

end BlockCall
end PrivRecCert.SimdArray
