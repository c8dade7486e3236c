import PrivRecCert.CorRnd.Dealer
import PrivRecCert.Metering.Meter

/-! The providers over whole histories of calls. Both count what they hand out and what they have reported;
the provider of daBits sets its counters back when it generates, the provider of triples does not. -/
namespace PrivRecCert.CorRnd
open SimdArray Metering

/-- A call that fills the storage. -/
inductive Generation : Type
  | withSeed (bitNum : ℕ) (seed : Seed)
  | asDealer (bitNum : ℕ) (seed : Seed) (otherPartySeeds : List Seed)

namespace BeaverProvider
variable (chacha : ChaCha8Rng.Keystream)

def generate : Generation → BeaverProvider → Option BeaverProvider
  | .withSeed bitNum seed, p => p.generateWithSeed chacha bitNum seed
  | .asDealer bitNum seed otherPartySeeds, p => p.generateAsDealer chacha bitNum seed otherPartySeeds

/-- `take` with the provider that it leaves behind, also when it panics. -/
def takeLeaving (reqSize : ℕ) (self : BeaverProvider) : Option D2BitArray × BeaverProvider :=
  match self.beaverStorage with
  | none => (none, self)
  | some storage =>
    if self.used + reqSize ≤ storage.innerByteSize then
      match storage.toSlice self.used (self.used+reqSize) with
      | none => (none, self)
      | some result => (some result, { self with used := self.used + reqSize })
    else (none, self)

/-- Measured in bytes of every array, reported in bits. -/
def meter : Meter BeaverProvider D2BitArray D2BitArray Generation where
  storage := beaverStorage
  used := used
  lastReport := lastReport
  size := D2BitArray.innerByteSize
  piece storage u m := storage.toSlice u (u+m)
  unit := 8
  fill g := assigns fun p => (p.generate chacha g).map fun p' => ((), p')
  take := takeLeaving
  report := assigns reportBeaverUsageThenReset

end BeaverProvider

namespace DaBitProvider
variable (chacha : ChaCha8Rng.Keystream)

def generate : Generation → Option DaBitProvider
  | .withSeed bitNum seed => some (generateWithSeed chacha bitNum seed)
  | .asDealer bitNum seed otherPartySeeds => generateAsDealer chacha bitNum seed otherPartySeeds

/-- `take` with the provider that it leaves behind, also when it panics. -/
def takeLeaving (reqSize : ℕ) (self : DaBitProvider) : Option (List DaBit) × DaBitProvider :=
  match self.daBitStorage with
  | none => (none, self)
  | some storage =>
    if self.used + reqSize ≤ storage.length then
      (some ((storage.drop self.used).take reqSize), { self with used := self.used + reqSize })
    else (none, self)

/-- Measured and reported in daBits. -/
def meter : Meter DaBitProvider (List DaBit) (List DaBit) Generation where
  storage := daBitStorage
  used := used
  lastReport := lastReport
  size := List.length
  piece storage u m := some ((storage.drop u).take m)
  unit := 1
  fill g := assigns fun _ => (generate chacha g).map fun p' => ((), p')
  take := takeLeaving
  report := assigns reportDabitUsageThenReset

end DaBitProvider

section Assigns
variable {P A : Type} {f : P → Option (A × P)} {p : P}

theorem assigns_none (h : f p = none) : assigns f p = (none, p) := by rw [assigns, h]

theorem assigns_some {a : A} {p' : P} (h : f p = some (a, p')) : assigns f p = (some a, p') := by rw [assigns, h]

theorem assigns_of_none (h : (assigns f p).1 = none) : (assigns f p).2 = p := by
  cases hf : f p with
  | none => rw [assigns_none hf]
  | some x =>
    obtain ⟨a, p'⟩ := x
    rw [assigns_some hf] at h
    cases h

/-- A method without a result. -/
theorem assigns_unit_some (f : P → Option P) (h : (assigns (fun p => (f p).map fun p' => ((), p')) p).1 = some ()) :
    f p = some (assigns (fun p => (f p).map fun p' => ((), p')) p).2 := by
  cases hf : f p with
  | none =>
    rw [assigns_none (by rw [hf]; rfl)] at h
    cases h
  | some p' => rw [assigns_some (by rw [hf]; rfl)]

end Assigns

namespace BeaverProvider
variable {chacha : ChaCha8Rng.Keystream} {p p' : BeaverProvider} {g : Generation}

/-- Both descriptions of `take` agree. -/
theorem takeLeaving_eq (m : ℕ) (p : BeaverProvider) : takeLeaving m p = assigns (fun p => p.take m) p := by
  obtain ⟨_ | d, used, lastReport⟩ := p
  · rfl
  · by_cases hfits : used + m ≤ d.innerByteSize
    · rcases hslice : d.toSlice used (used+m) with _ | result
      · simp [takeLeaving, assigns, take, hfits, hslice]
      · simp [takeLeaving, assigns, take, hfits, hslice]
    · simp [takeLeaving, assigns, take, hfits]

/-- What is generated does not depend on the provider, whose counters stay as they are. -/
theorem generate_eq (p : BeaverProvider) (g : Generation) : p.generate chacha g =
    (new.generate chacha g).map fun q => { p with beaverStorage := q.beaverStorage } := by
  cases g with
  | withSeed bitNum seed =>
    rw [generate, generate, generateWithSeed, generateWithSeed]
    cases D2BitArray.fromSeed chacha 3 bitNum seed <;> rfl
  | asDealer bitNum seed otherPartySeeds =>
    rw [generate, generate, generateAsDealer, generateAsDealer]
    simp only [Option.bind_eq_bind, Option.map_bind, Function.comp_def, Option.map_some]

/-- A storage of triples is never empty. -/
def Good (d : D2BitArray) : Prop := ∃ s fs, fs ≠ [] ∧ d.Represents s fs

theorem generate_good (h : new.generate chacha g = some p) :
    (∃ d, p.beaverStorage = some d ∧ Good d) := by
  have hholds : ∃ s fs, fs ≠ [] ∧ p.Holds s fs 0 := by
    cases g with
    | withSeed bitNum seed =>
      have hpos : 0 < bitNum := by
        apply Nat.pos_of_ne_zero
        rintro rfl
        cases h
      obtain ⟨q, hq, hholds⟩ := generateWithSeed_eq chacha hpos seed
      obtain rfl : q = p := Option.some.inj (hq.symm.trans h)
      exact ⟨bitNum, _, List.cons_ne_nil _ _, hholds⟩
    | asDealer bitNum seed others =>
      have hpos : 0 < bitNum := by
        apply Nat.pos_of_ne_zero
        rintro rfl
        cases h
      have hne : others ≠ [] := by
        rintro rfl
        obtain ⟨d, -, h⟩ := Option.bind_eq_some_iff.mp h
        obtain ⟨z, -, h⟩ := Option.bind_eq_some_iff.mp h
        obtain ⟨e, -, h⟩ := Option.bind_eq_some_iff.mp h
        obtain ⟨shares, hshares, h⟩ := Option.bind_eq_some_iff.mp h
        obtain rfl : [] = shares := Option.some.inj hshares
        cases h
      obtain ⟨q, hq, hholds⟩ := generateAsDealer_eq hpos seed hne
      obtain rfl : q = p := Option.some.inj (hq.symm.trans h)
      exact ⟨bitNum, _, List.cons_ne_nil _ _, hholds⟩
  obtain ⟨s, fs, hfs, hp⟩ := hholds
  obtain ⟨d, hd, hdr⟩ := hp.storage
  exact ⟨d, hd, s, fs, hfs, hdr⟩

/-- The counters survive a generation. -/
theorem meter_lawful : (meter chacha).Lawful Good false where
  fill_none g p h := assigns_of_none h
  fill_some g p h := by
    have hgen : p.generate chacha g = some ((meter chacha).fill g p).2 := assigns_unit_some (generate chacha g) h
    rw [generate_eq] at hgen
    obtain ⟨q, hq, hfill⟩ := Option.map_eq_some_iff.mp hgen
    rw [← hfill]
    exact ⟨generate_good hq, rfl, rfl⟩
  take_some m p d hd hgood hle := by
    obtain ⟨s, fs, hfs, hdr⟩ := hgood
    have hsize := D2BitArray.innerByteSize_eq hdr hfs
    have hfits : p.used + m ≤ (s+7)/8 := hsize ▸ hle
    obtain ⟨e, he, -⟩ := D2BitArray.toSlice_eq hdr (Nat.le_add_right p.used m) hfits
    refine ⟨e, { p with used := p.used + m }, ?_, he, hd, rfl, rfl⟩
    have hle' : p.used + m ≤ d.innerByteSize := hle
    have hd' : p.beaverStorage = some d := hd
    simp only [meter, takeLeaving, hd', hle', he, if_true]
  take_none m p h := by
    rcases hstorage : p.beaverStorage with _ | d
    · simp only [meter, takeLeaving, hstorage]
    · have hlt : ¬ p.used + m ≤ d.innerByteSize := Nat.not_le_of_lt (h d hstorage)
      simp only [meter, takeLeaving, hstorage, hlt, if_false]
  report_some p h := by
    have hle : p.lastReport ≤ p.used := h
    refine ⟨{ p with lastReport := p.used }, ?_, rfl, rfl, rfl⟩
    have hreport : p.reportBeaverUsageThenReset =
        some ((p.used - p.lastReport)*8, { p with lastReport := p.used }) := if_pos hle
    simp only [meter, assigns_some hreport, Nat.mul_comm 8]

end BeaverProvider

namespace DaBitProvider
variable {chacha : ChaCha8Rng.Keystream} {p : DaBitProvider} {g : Generation}

theorem takeLeaving_eq (m : ℕ) (p : DaBitProvider) : takeLeaving m p = assigns (fun p => p.take m) p := by
  obtain ⟨_ | l, used, lastReport⟩ := p
  · rfl
  · by_cases hfits : used + m ≤ l.length
    · simp [takeLeaving, assigns, take, hfits]
    · simp [takeLeaving, assigns, take, hfits]

theorem generate_fresh (h : generate chacha g = some p) :
    (∃ l, p.daBitStorage = some l) ∧ p.used = 0 ∧ p.lastReport = 0 := by
  cases g with
  | withSeed bitNum seed =>
    obtain rfl := Option.some.inj h
    exact ⟨⟨_, rfl⟩, rfl, rfl⟩
  | asDealer bitNum seed others =>
    obtain ⟨l, -, h⟩ := Option.bind_eq_some_iff.mp h
    obtain rfl := Option.some.inj h
    exact ⟨⟨l, rfl⟩, rfl, rfl⟩

/-- A generation sets the counters back. -/
theorem meter_lawful : (meter chacha).Lawful (fun _ => True) true where
  fill_none g p h := assigns_of_none h
  fill_some g p h := by
    have hgen : generate chacha g = some ((meter chacha).fill g p).2 := assigns_unit_some (fun _ => generate chacha g) h
    obtain ⟨⟨l, hl⟩, hused, hreport⟩ := generate_fresh hgen
    exact ⟨⟨l, hl, trivial⟩, hused, hreport⟩
  take_some m p l hl _ hle := by
    refine ⟨(l.drop p.used).take m, { p with used := p.used + m }, ?_, rfl, hl, rfl, rfl⟩
    have hle' : p.used + m ≤ l.length := hle
    have hl' : p.daBitStorage = some l := hl
    simp only [meter, takeLeaving, hl', hle', if_true]
  take_none m p h := by
    rcases hstorage : p.daBitStorage with _ | l
    · simp only [meter, takeLeaving, hstorage]
    · have hlt : ¬ p.used + m ≤ l.length := Nat.not_le_of_lt (h l hstorage)
      simp only [meter, takeLeaving, hstorage, hlt, if_false]
  report_some p h := by
    have hle : p.lastReport ≤ p.used := h
    refine ⟨{ p with lastReport := p.used }, ?_, rfl, rfl, rfl⟩
    have hreport : p.reportDabitUsageThenReset =
        some (p.used - p.lastReport, { p with lastReport := p.used }) := if_pos hle
    simp only [meter, assigns_some hreport, Nat.one_mul]

end DaBitProvider

/-- Over every history of calls, the provider of daBits agrees with its account; the provider of triples
does so exactly when nothing has been taken from it whenever it generates. -/
theorem providers_consistent_iff (chacha : ChaCha8Rng.Keystream) (triples dabits : List (Call Generation)) :
    ((BeaverProvider.meter chacha).ConsistentAlong .new triples ∧
      (DaBitProvider.meter chacha).ConsistentAlong .new dabits) ↔
    (BeaverProvider.meter chacha).FilledFresh .new triples := by
  rw [Meter.consistentAlong_iff BeaverProvider.meter_lawful (.start rfl rfl rfl),
    Meter.consistentAlong_iff DaBitProvider.meter_lawful (.start rfl rfl rfl)]
  simp

/-- After a take of one byte and a new generation of as many triples, the last byte is out of reach. -/
theorem beaver_inconsistent : ¬ (BeaverProvider.meter fun _ _ => 0).ConsistentAlong .new
    [.fill (.withSeed 8 (.replicate 32 0)), .take 1, .fill (.withSeed 8 (.replicate 32 1))] := by
  rw [Meter.consistentAlong_iff BeaverProvider.meter_lawful (.start rfl rfl rfl)]
  rintro (h | h)
  · cases h
  · have hused := h [.fill (.withSeed 8 (.replicate 32 0)), .take 1] (.withSeed 8 (.replicate 32 1)) (List.prefix_refl _)
      (by rfl)
    exact absurd hused (by decide)

end PrivRecCert.CorRnd
