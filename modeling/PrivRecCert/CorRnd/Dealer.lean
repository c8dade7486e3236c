import PrivRecCert.CorRnd.Beaver
import PrivRecCert.CorRnd.DaBit
import PrivRecCert.Sharing.Additive

/-! What the dealer and the other parties draw from their seeds. The storages are written out word
by word, and the dealer's entries complete the replayed entries of the others to triples and to
daBits. Sums of booleans are exclusive ors. -/
namespace PrivRecCert
open Bytes SimdArray Sharing

/-- The words that `m` arrays of `byteSize` bytes take up, one array after the other. -/
theorem fillStreams_chacha (stream : ℕ → U32) (byteSize m cursor : ℕ) :
    BitArray.fillStreams byteSize m (⟨stream, cursor⟩ : ChaCha8Rng) =
      (List.range m).map fun j => bitAt (keystreamBytes stream (cursor + j*((byteSize+3)/4)) byteSize) := by
  induction m generalizing cursor with
  | zero => rfl
  | succ m ih =>
    have hstep : BitArray.fillStreams byteSize (m+1) (⟨stream, cursor⟩ : ChaCha8Rng) =
        bitAt (keystreamBytes stream cursor byteSize) ::
          BitArray.fillStreams byteSize m (⟨stream, cursor + (byteSize+3)/4⟩ : ChaCha8Rng) := rfl
    rw [hstep, ih, List.range_succ_eq_map, List.map_cons, List.map_map, Nat.zero_mul, Nat.add_zero]
    refine congrArg _ (List.map_congr_left fun j _ => ?_)
    rw [Function.comp_apply, Nat.succ_mul, Nat.add_right_comm, Nat.add_assoc]

namespace SimdArray.D2BitArray
variable {d : D2BitArray} {s : ℕ}

/-- Adding shares array by array. -/
theorem foldlM_inplaceXor_eq {α : Type} {J : List ℕ} {f : ℕ → ℕ → Bool} {g : α → ℕ → ℕ → Bool}
    {share : α → D2BitArray} (l : List α) (hd : d.Represents s (J.map f))
    (hshare : ∀ x ∈ l, (share x).Represents s (J.map (g x))) :
    ∃ r, (l.map share).foldlM inplaceXor d = some r ∧
      r.Represents s (J.map fun j k => f j k + (l.map fun x => g x j k).sum) := by
  induction l generalizing d f with
  | nil =>
    refine ⟨d, rfl, ?_⟩
    simpa only [List.map_nil, List.sum_nil, add_zero] using hd
  | cons x l ih =>
    obtain ⟨e, he, her⟩ := inplaceXor_eq hd (hshare x (by simp)) (by simp)
    have hzip : List.zipWith (fun (f g : ℕ → Bool) k => f k ^^ g k) (J.map f) (J.map (g x)) =
        J.map fun j k => f j k + g x j k := by
      rw [List.zipWith_map, List.zipWith_self]
      rfl
    rw [hzip] at her
    obtain ⟨r, hr, hrr⟩ := ih her fun y hy => hshare y (by simp [hy])
    refine ⟨r, ?_, ?_⟩
    · rw [List.map_cons, List.foldlM_cons, he]
      exact hr
    · simpa only [List.map_cons, List.sum_cons, add_assoc] using hrr

end SimdArray.D2BitArray

namespace CorRnd
variable {chacha : ChaCha8Rng.Keystream} {bitNum : ℕ} {seed : Seed} {others : List Seed}

namespace BeaverProvider

/-- Array `j` of the triples that are drawn from a seed. -/
def seedStream (chacha : ChaCha8Rng.Keystream) (bitNum j : ℕ) (seed : Seed) : ℕ → Bool :=
  bitAt (keystreamBytes (chacha seed) (j*(((bitNum+7)/8+3)/4)) ((bitNum+7)/8))

/-- The sum of array `j` of several parties. -/
def seedSum (chacha : ChaCha8Rng.Keystream) (bitNum j : ℕ) (seeds : List Seed) (k : ℕ) : Bool :=
  (seeds.map fun seed => seedStream chacha bitNum j seed k).sum

/-- The dealer's share of the products: the others' shares of `c` are taken out again. -/
def dealerStream (chacha : ChaCha8Rng.Keystream) (bitNum : ℕ) (seed : Seed) (others : List Seed) (k : ℕ) : Bool :=
  (seedStream chacha bitNum 0 seed k + seedSum chacha bitNum 0 others k)*
    (seedStream chacha bitNum 1 seed k + seedSum chacha bitNum 1 others k) + seedSum chacha bitNum 2 others k

theorem fromSeed_seedStream (chacha : ChaCha8Rng.Keystream) (hb : 0 < bitNum) (arraySize : ℕ) (seed : Seed) :
    ∃ d, D2BitArray.fromSeed chacha arraySize bitNum seed = some d ∧
      d.Represents bitNum ((List.range arraySize).map fun j => seedStream chacha bitNum j seed) := by
  obtain ⟨d, hd, hdr⟩ := D2BitArray.fromSeed_eq chacha hb arraySize seed
  rw [ChaCha8Rng.fromSeed, fillStreams_chacha] at hdr
  simp only [Nat.zero_add] at hdr
  exact ⟨d, hd, hdr⟩

theorem generateWithSeed_eq (chacha : ChaCha8Rng.Keystream) (hb : 0 < bitNum) (seed : Seed) :
    ∃ p, new.generateWithSeed chacha bitNum seed = some p ∧ p.Holds bitNum
      [seedStream chacha bitNum 0 seed, seedStream chacha bitNum 1 seed, seedStream chacha bitNum 2 seed] 0 := by
  obtain ⟨d, hd, hdr⟩ := fromSeed_seedStream chacha hb 3 seed
  exact ⟨⟨some d, 0, 0⟩, by rw [generateWithSeed, hd]; rfl, ⟨d, rfl, hdr⟩, rfl⟩

/-- The dealer needs another party to deal to. -/
theorem generateAsDealer_eq (hb : 0 < bitNum) (seed : Seed) (hne : others ≠ []) :
    ∃ p, new.generateAsDealer chacha bitNum seed others = some p ∧ p.Holds bitNum
      [seedStream chacha bitNum 0 seed, seedStream chacha bitNum 1 seed,
        dealerStream chacha bitNum seed others] 0 := by
  obtain ⟨d, hd, hdr⟩ := fromSeed_seedStream chacha hb 2 seed
  obtain ⟨z, hz, hzr⟩ := BitArray.new_eq hb
  have hpush := D2BitArray.push_represents hdr hzr
  choose share hshare hrep using fromSeed_seedStream chacha hb 3
  have hclone := D2BitArray.clone_eq hpush hb
  have hmap : others.mapM (fun other => D2BitArray.fromSeed chacha 3 bitNum other) = some (others.map share) := by
    rw [funext hshare]
    exact List.mapM_pure
  -- the dealer's own array of products is still zero
  let own (j : ℕ) : ℕ → Bool := if j < 2 then seedStream chacha bitNum j seed else fun _ => false
  have hown : (d.push z).Represents bitNum ((List.range 3).map own) := hpush
  obtain ⟨e, he, her⟩ := D2BitArray.foldlM_inplaceXor_eq others hown fun other _ => hrep other
  have hrec : (d.push z).inplaceReconstruct (others.map share) = some e := by
    rw [D2BitArray.inplaceReconstruct, if_neg (by simpa using hne)]
    exact he
  obtain ⟨c, hc, hcr⟩ := D2BitArray.getArray_eq (j := 2) hown rfl
  obtain ⟨a, ha, har⟩ := D2BitArray.getArray_eq (j := 0) her rfl
  obtain ⟨b, hb', hbr⟩ := D2BitArray.getArray_eq (j := 1) her rfl
  obtain ⟨w, hw, hwr⟩ := D2BitArray.getArray_eq (j := 2) her rfl
  obtain ⟨c', hc', hcr'⟩ := BitArray.mutAnd_eq hcr har hbr
  obtain ⟨c'', hc'', hcr''⟩ := BitArray.inplaceXor_eq hcr' hwr
  refine ⟨⟨some ((d.push z).setArray 2 c''), 0, 0⟩, ?_, ⟨_, rfl, ?_⟩, rfl⟩
  · simp [generateAsDealer, hd, hz, hclone, hmap, hrec, hc, ha, hb', hw, hc', hc'', new]
  · have hprod : (fun k => (own 0 k + seedSum chacha bitNum 0 others k && own 1 k + seedSum chacha bitNum 1 others k) ^^
        (own 2 k + seedSum chacha bitNum 2 others k)) = dealerStream chacha bitNum seed others := by
      funext k
      have hzero : own 2 k = 0 := rfl
      rw [hzero, zero_add]
      rfl
    rw [← hprod]
    exact D2BitArray.setArray_represents hown hcr'' 2

/-- The dealer's shares and the shares of the others are shares of triples, at every bit. -/
theorem dealer_triple (chacha : ChaCha8Rng.Keystream) (bitNum : ℕ) (seed : Seed) (others : List Seed) (k : ℕ) :
    (seedStream chacha bitNum 0 seed k + seedSum chacha bitNum 0 others k)*
      (seedStream chacha bitNum 1 seed k + seedSum chacha bitNum 1 others k) =
      dealerStream chacha bitNum seed others k + seedSum chacha bitNum 2 others k := by
  rw [dealerStream, add_assoc, BooleanRing.add_self, add_zero]

variable {p : BeaverProvider} {s u : ℕ} {fs : List (ℕ → Bool)}

/-- Several requests, one after the other. -/
def takes (p : BeaverProvider) : List ℕ → Option (List D2BitArray × BeaverProvider)
  | [] => some ([], p)
  | m :: ms => do
    let (d, p) ← p.take m
    let (ds, p) ← p.takes ms
    some (d :: ds, p)

/-- Slice after slice of the storage is handed out. -/
theorem takes_eq {ms : List ℕ} (hp : p.Holds s fs u) (hfs : fs ≠ []) (hle : u + ms.sum ≤ (s+7)/8) :
    ∃ ds p', p.takes ms = some (ds, p') ∧ p'.Holds s fs (u + ms.sum) ∧
      ∀ (j : ℕ) (m : ℕ), ms[j]? = some m → ∃ d, ds[j]? = some d ∧
        (do (← p.beaverStorage).toSlice (u + (ms.take j).sum) (u + (ms.take (j+1)).sum)) = some d ∧
        d.Represents (8*m) (fs.map fun f => slice f (u + (ms.take j).sum) m) := by
  induction ms generalizing p u with
  | nil => exact ⟨[], p, rfl, hp, fun j m h => by simp at h⟩
  | cons m ms ih =>
    rw [List.sum_cons] at hle
    obtain ⟨d, p₁, htake, hdr, hp₁⟩ := take_eq hp hfs (m := m) (by omega)
    obtain ⟨ds, p₂, htakes, hp₂, hslices⟩ := ih hp₁ (by omega)
    obtain ⟨e, he, her⟩ := hp.storage
    have hsame : p₁.beaverStorage = p.beaverStorage ∧ e.toSlice u (u+m) = some d := by
      have hroom : u + m ≤ e.innerByteSize := by
        rw [D2BitArray.innerByteSize_eq her hfs]
        omega
      obtain ⟨d', hd', -⟩ := D2BitArray.toSlice_eq her (Nat.le_add_right u m) (by omega)
      simp only [take, he, hp.used_eq, hroom, if_true, hd', Option.bind_eq_bind, Option.bind_some,
        Option.some.injEq, Prod.mk.injEq] at htake
      obtain ⟨rfl, rfl⟩ := htake
      exact ⟨he.symm, hd'⟩
    refine ⟨d :: ds, p₂, by simp [takes, htake, htakes], ?_, fun j m' hj => ?_⟩
    · rwa [List.sum_cons, ← Nat.add_assoc]
    · cases j with
      | zero =>
        obtain rfl : m = m' := by simpa using hj
        refine ⟨d, rfl, ?_, ?_⟩
        · simpa [he] using hsame.2
        · simpa using hdr
      | succ j =>
        obtain ⟨d', hd', hslice, hdr'⟩ := hslices j m' (by simpa using hj)
        refine ⟨d', by simpa using hd', ?_, ?_⟩
        · rw [← hsame.1]
          simpa [Nat.add_assoc] using hslice
        · simpa [Nat.add_assoc] using hdr'

end BeaverProvider

namespace DaBit

/-- The share with index `k` that is drawn from a seed: one word for the bit, 16 for the scalar. -/
def seedDabit (chacha : ChaCha8Rng.Keystream) (seed : Seed) (k : ℕ) : DaBit :=
  ⟨decide ((chacha seed (17*k)).toNat % 2 = 1),
    Scalar.fromBytesModOrderWide (keystreamBytes (chacha seed) (17*k + 1) 64)⟩

/-- The dealer draws the bit itself, from one word. -/
def dealerBit (chacha : ChaCha8Rng.Keystream) (seed : Seed) (k : ℕ) : Bool :=
  decide ((chacha seed k).toNat % 2 = 1)

/-- The dealer's share with index `k`: the others' shares are taken out again. -/
def dealerDabit (chacha : ChaCha8Rng.Keystream) (seed : Seed) (others : List Seed) (k : ℕ) : DaBit :=
  ⟨dealerBit chacha seed k + (others.map fun other => (seedDabit chacha other k).rZ2).sum,
    ofBit (dealerBit chacha seed k) - (others.map fun other => (seedDabit chacha other k).rZp).sum⟩

theorem randomDabits_eq (bitNum i : ℕ) :
    (randomDabits bitNum (⟨chacha seed, 17*i⟩ : ChaCha8Rng)).1 =
      (List.range bitNum).map fun k => seedDabit chacha seed (i+k) := by
  induction bitNum generalizing i with
  | zero => rfl
  | succ bitNum ih =>
    have hstep : randomDabits (bitNum+1) (⟨chacha seed, 17*i⟩ : ChaCha8Rng) =
        (seedDabit chacha seed i :: (randomDabits bitNum (⟨chacha seed, 17*(i+1)⟩ : ChaCha8Rng)).1,
          (randomDabits bitNum (⟨chacha seed, 17*(i+1)⟩ : ChaCha8Rng)).2) := rfl
    rw [hstep, ih, List.range_succ_eq_map, List.map_cons, List.map_map]
    refine congrArg _ (List.map_congr_left fun k _ => ?_)
    rw [Function.comp_apply, Nat.add_right_comm]
    rfl

theorem foldl_sub (shares : List DaBit) (acc : DaBit) :
    shares.foldl sub acc = ⟨acc.rZ2 + (shares.map rZ2).sum, acc.rZp - (shares.map rZp).sum⟩ := by
  induction shares generalizing acc with
  | nil => simp
  | cons d shares ih =>
    rw [List.foldl_cons, ih, List.map_cons, List.map_cons, List.sum_cons, List.sum_cons, ← add_assoc,
      ← sub_sub]
    rfl

end DaBit

namespace DaBitProvider
open DaBit

theorem initSingleBit_eq (stream : ℕ → U32) (i : ℕ) :
    initSingleBit (⟨stream, i⟩ : ChaCha8Rng) =
      (⟨decide ((stream i).toNat % 2 = 1), ofBit (decide ((stream i).toNat % 2 = 1))⟩, ⟨stream, i+1⟩) := by
  have hval : ArithValueT.fromU32 (BitVec.ofNat 32 ((stream i).toNat % 2)) =
      ofBit (decide ((stream i).toNat % 2 = 1)) := by
    rcases Nat.mod_two_eq_zero_or_one (stream i).toNat with h | h
    · simp [h, ArithValueT.fromU32, ofBit]
    · simp [h, ArithValueT.fromU32, ofBit]
  rw [← hval]
  rfl

/-- The dealer finds entry `i` of every replayed storage. -/
theorem foldlM_sub {i : ℕ} (hi : i < bitNum) (others : List Seed) (acc : DaBit) :
    (others.map fun other => (List.range bitNum).map (seedDabit chacha other)).foldlM
      (fun acc otherShare => do some (acc.sub (← otherShare[i]?))) acc =
      some ((others.map fun other => seedDabit chacha other i).foldl sub acc) := by
  induction others generalizing acc with
  | nil => rfl
  | cons other others ih =>
    have hlookup : ((List.range bitNum).map (seedDabit chacha other))[i]? = some (seedDabit chacha other i) := by
      rw [List.getElem?_map, List.getElem?_range hi, Option.map_some]
    rw [List.map_cons, List.foldlM_cons, hlookup]
    exact ih (acc.sub (seedDabit chacha other i))

theorem dealerDabits_eq {count i : ℕ} (hle : i + count ≤ bitNum) :
    dealerDabits (others.map fun other => (List.range bitNum).map (seedDabit chacha other)) count i
      ⟨chacha seed, i⟩ = some ((List.range count).map fun k => dealerDabit chacha seed others (i+k)) := by
  induction count generalizing i with
  | zero => rfl
  | succ count ih =>
    have hfirst : (others.map fun other => seedDabit chacha other i).foldl sub
        ⟨dealerBit chacha seed i, ofBit (dealerBit chacha seed i)⟩ = dealerDabit chacha seed others i := by
      rw [foldl_sub, List.map_map, List.map_map]
      rfl
    rw [dealerDabits, initSingleBit_eq]
    simp only [foldlM_sub (show i < bitNum by omega), ih (i := i+1) (by omega)]
    rw [List.range_succ_eq_map, List.map_cons, List.map_map]
    refine congrArg some (congrArg₂ _ hfirst (List.map_congr_left fun k _ => ?_))
    rw [Function.comp_apply, Nat.add_right_comm]
    rfl

theorem generateWithSeed_holds (chacha : ChaCha8Rng.Keystream) (bitNum : ℕ) (seed : Seed) :
    (generateWithSeed chacha bitNum seed).Holds ((List.range bitNum).map (seedDabit chacha seed)) 0 := by
  refine ⟨congrArg some ?_, rfl⟩
  have h : (randomDabits bitNum (⟨chacha seed, 17*0⟩ : ChaCha8Rng)).1 =
      (List.range bitNum).map fun k => seedDabit chacha seed (0+k) := randomDabits_eq bitNum 0
  simp only [Nat.zero_add] at h
  exact h

theorem generateAsDealer_eq (chacha : ChaCha8Rng.Keystream) (bitNum : ℕ) (seed : Seed) (others : List Seed) :
    ∃ p, generateAsDealer chacha bitNum seed others = some p ∧
      p.Holds ((List.range bitNum).map (dealerDabit chacha seed others)) 0 := by
  have hshares : others.map (fun other => (randomDabits bitNum (ChaCha8Rng.fromSeed chacha other)).1) =
      others.map fun other => (List.range bitNum).map (seedDabit chacha other) :=
    List.map_congr_left fun other _ => Option.some.inj (generateWithSeed_holds chacha bitNum other).storage
  have hdealer : dealerDabits (others.map fun other => (List.range bitNum).map (seedDabit chacha other)) bitNum 0
      ⟨chacha seed, 0⟩ = some ((List.range bitNum).map fun k => dealerDabit chacha seed others (0+k)) :=
    dealerDabits_eq (by omega)
  simp only [Nat.zero_add] at hdealer
  refine ⟨⟨some _, 0, 0⟩, ?_, rfl, rfl⟩
  rw [generateAsDealer, hshares, ChaCha8Rng.fromSeed, hdealer]
  rfl

/-- The dealer's shares and the shares of the others are shares of the bit that the dealer drew. -/
theorem dealer_dabit (chacha : ChaCha8Rng.Keystream) (seed : Seed) (others : List Seed) (k : ℕ) :
    (dealerDabit chacha seed others k).rZ2 + (others.map fun other => (seedDabit chacha other k).rZ2).sum =
      dealerBit chacha seed k ∧
    (dealerDabit chacha seed others k).rZp + (others.map fun other => (seedDabit chacha other k).rZp).sum =
      ofBit (dealerBit chacha seed k) := by
  constructor
  · rw [dealerDabit, add_assoc, BooleanRing.add_self, add_zero]
  · exact sub_add_cancel _ _

variable {p : DaBitProvider} {l : List DaBit} {u : ℕ}

/-- Several requests, one after the other. -/
def takes (p : DaBitProvider) : List ℕ → Option (List (List DaBit) × DaBitProvider)
  | [] => some ([], p)
  | m :: ms => do
    let (d, p) ← p.take m
    let (ds, p) ← p.takes ms
    some (d :: ds, p)

/-- Segment after segment of the storage is handed out. -/
theorem takes_eq {ms : List ℕ} (hp : p.Holds l u) (hle : u + ms.sum ≤ l.length) :
    ∃ ds p', p.takes ms = some (ds, p') ∧ p'.Holds l (u + ms.sum) ∧
      ∀ (j : ℕ) (m : ℕ), ms[j]? = some m → ds[j]? = some ((l.drop (u + (ms.take j).sum)).take m) := by
  induction ms generalizing p u with
  | nil => exact ⟨[], p, rfl, hp, fun j m h => by simp at h⟩
  | cons m ms ih =>
    rw [List.sum_cons] at hle
    obtain ⟨p₁, htake, hp₁⟩ := take_eq hp (m := m) (by omega)
    obtain ⟨ds, p₂, htakes, hp₂, hsegments⟩ := ih hp₁ (by omega)
    refine ⟨(l.drop u).take m :: ds, p₂, by simp [takes, htake, htakes], ?_, fun j m' hj => ?_⟩
    · rwa [List.sum_cons, ← Nat.add_assoc]
    · cases j with
      | zero =>
        obtain rfl : m = m' := by simpa using hj
        simp
      | succ j =>
        have h := hsegments j m' (by simpa using hj)
        simpa [Nat.add_assoc] using h

end DaBitProvider
end CorRnd
end PrivRecCert
