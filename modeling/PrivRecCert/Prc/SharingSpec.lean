import PrivRecCert.Prc.Util

/-! What the sharing functions compute, and for which widths: the first shares are the drawn words
cut to the width, the last one makes up the value, and joining two values commutes with sharing. -/
namespace PrivRecCert.Prc
open CorRnd Sharing
open scoped BigOperators

section Draws
variable {R A : Type}

@[simp] theorem draws_length (draw : R → A × R) (count : ℕ) (rng : R) :
    (draws draw count rng).1.length = count := by
  induction count generalizing rng with
  | zero => rfl
  | succ count ih => rw [draws, List.length_cons, ih]

end Draws

/-- The words drawn for the first `partyNum-1` shares. -/
def drawnWords {R : Type} [ScalarRng R] (partyNum : ℕ) (rng : R) : List U32 :=
  (draws ScalarRng.nextU32 (partyNum-1) rng).1

/-- The shares `words` and their remainder add up to `x`. -/
theorem foldl_xor_append (words : List U32) (x : U32) :
    (words ++ [words.foldl (fun acc s => acc ^^^ s) x]).foldl (fun acc s => acc ^^^ s) 0 = x := by
  have hfold : ∀ (l : List U32) (y : U32),
      l.foldl (fun acc s => acc ^^^ s) y = y ^^^ l.foldl (fun acc s => acc ^^^ s) 0 := by
    intro l
    induction l with
    | nil => intro y; simp
    | cons a l ih =>
      intro y
      rw [List.foldl_cons, List.foldl_cons, ih (y ^^^ a), ih (0 ^^^ a)]
      simp [BitVec.xor_assoc]
  rw [List.foldl_append, List.foldl_cons, List.foldl_nil, hfold words x]
  rw [BitVec.xor_comm x, ← BitVec.xor_assoc, BitVec.xor_self, BitVec.zero_xor]

/-- The remainder of shares of `l` bits has `l` bits. -/
theorem foldl_xor_lt {l : ℕ} {words : List U32} {x : U32} (hx : x.toNat < 2^l)
    (hw : ∀ w ∈ words, w.toNat < 2^l) : (words.foldl (fun acc s => acc ^^^ s) x).toNat < 2^l := by
  induction words generalizing x with
  | nil => exact hx
  | cons a words ih =>
    refine ih ?_ fun w hmem => hw w (by simp [hmem])
    rw [BitVec.toNat_xor]
    exact Nat.xor_lt_two_pow hx (hw a (by simp))

/-- `shares` are `partyNum` shares of `x` as wide as `x`, the drawn words first. -/
structure SharesBoolean (x : BooleanValue) (partyNum : ℕ) (words : List U32) (shares : List BooleanValue) :
    Prop where
  length_eq : shares.length = partyNum
  bitLen_eq : ∀ s ∈ shares, s.bitLen = x.bitLen
  reconstruct : reconstructBoolean shares = x.value
  drawn : (shares.take (partyNum-1)).map (fun s => s.value.toNat) = words.map fun w => w.toNat % 2^x.bitLen

/-- `shares` are `partyNum` shares of `x` of `l` bits, the drawn words first. -/
structure SharesLbit (x : U32) (partyNum l : ℕ) (words : List U32) (shares : List U32) : Prop where
  length_eq : shares.length = partyNum
  lt : ∀ s ∈ shares, s.toNat < 2^l
  reconstruct : shares.foldl (fun acc s => acc ^^^ s) 0 = x
  drawn : (shares.take (partyNum-1)).map BitVec.toNat = words.map fun w => w.toNat % 2^l

section Share
variable {R : Type} [ScalarRng R] {partyNum : ℕ}

theorem secretShareLbit_eq {x : U32} {l : ℕ} (hn : 1 ≤ partyNum) (hl : l < 32) (hx : x.toNat < 2^l) (rng : R) :
    ∃ shares rng', secretShareLbit x partyNum l rng = some (shares, rng') ∧
      SharesLbit x partyNum l (drawnWords partyNum rng) shares := by
  have hlt : x < 1#32 <<< l := by
    rw [BitVec.lt_def, toNat_shiftOne hl]
    exact hx
  let cut := (drawnWords partyNum rng).map fun word => word &&& ((1#32 <<< l) - 1)
  have hcut : ∀ w ∈ cut, w.toNat < 2^l := fun w hw => by
    obtain ⟨word, -, rfl⟩ := List.mem_map.mp hw
    rw [toNat_and_lowMask hl]
    exact Nat.mod_lt _ (Nat.two_pow_pos l)
  have hlen : cut.length = partyNum-1 := by rw [List.length_map, drawnWords, draws_length]
  refine ⟨cut ++ [cut.foldl (fun acc s => acc ^^^ s) x], (draws ScalarRng.nextU32 (partyNum-1) rng).2, ?_,
    ⟨?_, ?_, foldl_xor_append cut x, ?_⟩⟩
  · rw [secretShareLbit, if_neg (by omega), if_neg (by omega), if_pos hlt, if_neg (by omega)]
    rfl
  · rw [List.length_append, hlen, List.length_singleton]
    omega
  · intro s hs
    rcases List.mem_append.mp hs with hs | hs
    · exact hcut s hs
    · rw [List.mem_singleton.mp hs]
      exact foldl_xor_lt hx hcut
  · rw [List.take_left' hlen, List.map_map]
    exact List.map_congr_left fun w _ => toNat_and_lowMask hl w

/-- `BooleanValue::new` accepts words of the right width, one by one. -/
theorem mapM_new {l : ℕ} (hl : l ≤ 32) {words : List U32} (hw : ∀ w ∈ words, w.toNat < 2^l) :
    ∃ shares, words.mapM (BooleanValue.new l) = some shares ∧ shares.map (fun s => s.value) = words ∧
      ∀ s ∈ shares, s.bitLen = l := by
  induction words with
  | nil => exact ⟨[], rfl, rfl, by simp⟩
  | cons w words ih =>
    obtain ⟨shares, hshares, hvals, hlens⟩ := ih fun w' hw' => hw w' (by simp [hw'])
    have hwl := hw w (by simp)
    refine ⟨⟨l, w, hl, hwl⟩ :: shares, ?_, by rw [List.map_cons, hvals], ?_⟩
    · rw [List.mapM_cons, BooleanValue.new_eq hl hwl, hshares]
      rfl
    · intro s hs
      rcases List.mem_cons.mp hs with rfl | hs
      · rfl
      · exact hlens s hs

theorem secretShareBoolean_eq {x : BooleanValue} (hn : 1 ≤ partyNum) (hx : x.bitLen < 32) (rng : R) :
    ∃ shares, secretShareBoolean x partyNum rng = some (shares, (draws ScalarRng.nextU32 (partyNum-1) rng).2) ∧
      SharesBoolean x partyNum (drawnWords partyNum rng) shares := by
  let cut := (drawnWords partyNum rng).map fun word => word &&& ((1#32 <<< x.bitLen) - 1)
  have hcut : ∀ w ∈ cut, w.toNat < 2^x.bitLen := fun w hw => by
    obtain ⟨word, -, rfl⟩ := List.mem_map.mp hw
    rw [toNat_and_lowMask hx]
    exact Nat.mod_lt _ (Nat.two_pow_pos _)
  obtain ⟨shares, hshares, hvals, hlens⟩ := mapM_new x.bitLen_le hcut
  have hmap : (drawnWords partyNum rng).mapM (fun word => BooleanValue.new x.bitLen
      (word &&& ((1#32 <<< x.bitLen) - 1))) = some shares := by
    rw [← hshares, List.mapM_map]
    rfl
  have hfold : shares.foldl (fun acc s => acc ^^^ s.value) x.value = cut.foldl (fun acc s => acc ^^^ s) x.value := by
    rw [← hvals, List.foldl_map]
  have hlast := foldl_xor_lt x.value_lt hcut
  have hlen : shares.length = partyNum-1 := by
    rw [← List.length_map (f := fun s => s.value), hvals, List.length_map, drawnWords, draws_length]
  refine ⟨shares ++ [⟨x.bitLen, cut.foldl (fun acc s => acc ^^^ s) x.value, x.bitLen_le, hlast⟩], ?_,
    ⟨?_, ?_, ?_, ?_⟩⟩
  · rw [drawnWords] at hmap
    rw [secretShareBoolean, if_neg (by omega)]
    simp only [hmap, Option.bind_eq_bind, Option.bind_some, hfold, BooleanValue.new_eq x.bitLen_le hlast]
  · rw [List.length_append, hlen, List.length_singleton]
    omega
  · intro s hs
    rcases List.mem_append.mp hs with hs | hs
    · exact hlens s hs
    · rw [List.mem_singleton.mp hs]
  · have hsum := foldl_xor_append cut x.value
    rw [reconstructBoolean, List.foldl_append, List.foldl_cons, List.foldl_nil]
    rw [List.foldl_append, List.foldl_cons, List.foldl_nil, ← hvals, List.foldl_map, hvals] at hsum
    exact hsum
  · have hcomp : shares.map (fun s => s.value.toNat) = (shares.map fun s => s.value).map BitVec.toNat := by
      rw [List.map_map]
      rfl
    rw [List.take_left' hlen, hcomp, hvals, List.map_map]
    exact List.map_congr_left fun w _ => toNat_and_lowMask hx w

end Share

/-- Joining `lower` and `higher` gives the number they make up together, and so do the shares of
the two when they are joined party by party. -/
def JoinsExactly (lower higher : BooleanValue) : Prop :=
  ∃ v, joinBoolean lower higher = some v ∧ v.bitLen = lower.bitLen + higher.bitLen ∧
    v.value.toNat = lower.value.toNat + higher.value.toNat * 2^lower.bitLen ∧
    ∀ (n : ℕ) (ls hs : Fin n → BooleanValue), (∀ i, (ls i).bitLen = lower.bitLen) →
      (∀ i, (hs i).bitLen = higher.bitLen) → (xorAll fun i => (ls i).value) = lower.value →
      (xorAll fun i => (hs i).value) = higher.value →
        ∃ vs : Fin n → BooleanValue, (∀ i, joinBoolean (ls i) (hs i) = some (vs i)) ∧
          (xorAll fun i => (vs i).value) = v.value

theorem joinsExactly {lower higher : BooleanValue} (hlow : lower.bitLen < 32)
    (hle : lower.bitLen + higher.bitLen ≤ 32) : JoinsExactly lower higher := by
  obtain ⟨v, hv, hlen, hval, hnat⟩ := joinBoolean_eq hlow hle
  refine ⟨v, hv, hlen, by rw [hnat, Nat.mul_comm], fun n ls hs hls hhs hsumL hsumH => ?_⟩
  choose vs hvs _ hvals _ using fun i => joinBoolean_eq
    (show (ls i).bitLen < 32 by rw [hls i]; exact hlow)
    (show (ls i).bitLen + (hs i).bitLen ≤ 32 by rw [hls i, hhs i]; exact hle)
  refine ⟨vs, hvs, ?_⟩
  apply BitVec.eq_of_getLsbD_eq
  intro k hk
  have hbit : ∀ i, (vs i).value.getLsbD k =
      ((decide (k < 32) && !decide (k < lower.bitLen) && (hs i).value.getLsbD (k - lower.bitLen)) +
        (ls i).value.getLsbD k : Bool) := fun i => by
    rw [hvals i, hls i, BitVec.getLsbD_or, BitVec.getLsbD_shiftLeft]
    by_cases hlt : k < lower.bitLen
    · simp only [hlt, decide_true, Bool.not_true, Bool.and_false, Bool.false_and, Bool.false_or]
      exact (Bool.false_xor _).symm
    · rw [(ls i).getLsbD_of_le (by rw [hls i]; omega), Bool.or_false]
      exact (Bool.xor_false _).symm
  rw [getLsbD_xorAll, Finset.sum_congr rfl fun i _ => hbit i, Finset.sum_add_distrib, ← getLsbD_xorAll, hsumL, hval,
    BitVec.getLsbD_or, BitVec.getLsbD_shiftLeft]
  by_cases hlt : k < lower.bitLen
  · have hzero : ∑ _i : Fin n, false = false := Finset.sum_const_zero
    simp only [hlt, decide_true, Bool.not_true, Bool.and_false, Bool.false_and, Bool.false_or, hzero]
    exact Bool.false_xor _
  · rw [lower.getLsbD_of_le (by omega), Bool.or_false]
    simp only [hk, hlt, decide_true, decide_false, Bool.not_false, Bool.true_and]
    rw [← getLsbD_xorAll, hsumH]
    exact Bool.xor_false _

/-- Exactly the widths below 32 are shared and joined as intended: at 32 the shift overflows. -/
theorem sharing_widths {R : Type} [ScalarRng R] :
    (∀ (x : BooleanValue) (partyNum : ℕ) (rng : R), 1 ≤ partyNum →
      ((∃ shares rng', secretShareBoolean x partyNum rng = some (shares, rng') ∧
        SharesBoolean x partyNum (drawnWords partyNum rng) shares) ↔ x.bitLen < 32)) ∧
    (∀ (x : U32) (partyNum l : ℕ) (rng : R), 1 ≤ partyNum → l ≤ 32 → x.toNat < 2^l →
      ((∃ shares rng', secretShareLbit x partyNum l rng = some (shares, rng') ∧
        SharesLbit x partyNum l (drawnWords partyNum rng) shares) ↔ l < 32)) ∧
    (∀ lower higher : BooleanValue, lower.bitLen + higher.bitLen ≤ 32 →
      (JoinsExactly lower higher ↔ lower.bitLen < 32)) := by
  refine ⟨fun x partyNum rng hn => ⟨?_, fun hx => ?_⟩, fun x partyNum l rng hn hl hx => ⟨?_, fun hlt => ?_⟩,
    fun lower higher hle => ⟨?_, fun hlow => joinsExactly hlow hle⟩⟩
  · rintro ⟨shares, rng', h, -⟩
    by_contra hge
    rw [secretShareBoolean, if_pos (by omega)] at h
    cases h
  · obtain ⟨shares, h, hshares⟩ := secretShareBoolean_eq hn hx rng
    exact ⟨shares, _, h, hshares⟩
  · rintro ⟨shares, rng', h, -⟩
    by_contra hge
    rw [secretShareLbit, if_neg (by omega), if_pos (by omega)] at h
    cases h
  · exact secretShareLbit_eq hn hlt hx rng
  · rintro ⟨v, h, -⟩
    by_contra hge
    rw [joinBoolean, if_neg hge] at h
    cases h

/-- A word of the full width cannot be shared, by either function, and nothing can be joined to it. -/
theorem sharing_thirty_two : ∃ x : BooleanValue, x.bitLen = 32 ∧ BooleanValue.new 32 x.value = some x ∧
    (∀ rng : ChaCha8Rng, secretShareBoolean x 2 rng = none ∧ secretShareLbit x.value 2 32 rng = none) ∧
    joinBoolean x ⟨0, 0, by decide, by decide⟩ = none :=
  ⟨⟨32, 3735928559#32, by decide, by decide⟩, rfl, rfl, fun _ => ⟨rfl, rfl⟩, rfl⟩

/-- Five bits for three parties, the full width of one number below another. -/
theorem sharing_widths_five :
    let x : BooleanValue := ⟨5, 19, by decide, by decide⟩
    let h : BooleanValue := ⟨27, 7, by decide, by decide⟩
    let rng : ChaCha8Rng := ⟨fun _ => 40, 0⟩
    (∃ shares rng', secretShareBoolean x 3 rng = some (shares, rng') ∧
      SharesBoolean x 3 (drawnWords 3 rng) shares) ∧
    (∃ shares rng', secretShareLbit x.value 3 5 rng = some (shares, rng') ∧
      SharesLbit x.value 3 5 (drawnWords 3 rng) shares) ∧ JoinsExactly x h := by
  intro x h rng
  exact ⟨(sharing_widths.1 x 3 rng (by decide)).mpr (by decide),
    (sharing_widths.2.1 x.value 3 5 rng (by decide) (by decide) (by decide)).mpr (by decide),
    (sharing_widths (R := ChaCha8Rng)).2.2 x h (by decide) |>.mpr (by decide)⟩

end PrivRecCert.Prc
