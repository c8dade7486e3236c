import PrivRecCert.Prc.CorrelatedRandomness

/-! Which words of its keystream a party's masks are read from. Both providers start at the first
word of the same seed, so the word that the first mask bit of the triples is read from also
determines the first daBit. -/
namespace PrivRecCert.Prc
open Bytes CorRnd SimdArray Sharing BeaverProvider DaBit Function

/-- Changing the one word `w` of the stream of `seed` can change `F`. -/
def Determines {A : Type} (seed : Seed) (w : ℕ) (F : ChaCha8Rng.Keystream → A) : Prop :=
  ∃ (chacha : ChaCha8Rng.Keystream) (word : U32), F (update chacha seed (update (chacha seed) w word)) ≠ F chacha

namespace SystemConfig

/-- Bit `k` of array `j` of the Beaver shares that party `id` stores. -/
def beaverBit (c : SystemConfig) (id q j k : ℕ) (chacha : ChaCha8Rng.Keystream) : Option Bool := do
  let (beaver, _) ← c.initSeededCorrelatedRandomness chacha id q
  (← (← beaver.beaverStorage).getArray j).get k

/-- The daBit share with index `k` that party `id` stores. -/
def storedDabit (c : SystemConfig) (id q k : ℕ) (chacha : ChaCha8Rng.Keystream) : Option DaBit := do
  let (_, dabit) ← c.initSeededCorrelatedRandomness chacha id q
  (← dabit.daBitStorage)[k]?

/-- No word of the party's stream determines both a stored bit of a Beaver share and a component of
a stored daBit share. -/
def NoReuse (c : SystemConfig) (id q : ℕ) : Prop := ∀ peer, c.peers[id]? = some peer → ∀ w j k t,
  ¬ (Determines peer.seed w (c.beaverBit id q j k) ∧
    (Determines peer.seed w (fun chacha => (c.storedDabit id q t chacha).map rZ2) ∨
      Determines peer.seed w (fun chacha => (c.storedDabit id q t chacha).map rZp)))

/-- The two mask bits differ on some stream. -/
def Separable (c : SystemConfig) (id q j k t : ℕ) : Prop :=
  ∃ chacha, c.beaverBit id q j k chacha ≠ (c.storedDabit id q t chacha).map rZ2

end SystemConfig

theorem keystreamBytes_congr {stream stream' : ℕ → U32} {u m : ℕ} (h : ∀ w, u ≤ w → stream w = stream' w) :
    keystreamBytes stream u m = keystreamBytes stream' u m := by
  unfold keystreamBytes
  congr 1
  congr 1
  funext i
  rw [h (u+i) (Nat.le_add_right u i)]

/-- The first bit of the bytes is the lowest bit of the first word. -/
theorem bitAt_keystreamBytes_zero (stream : ℕ → U32) (u : ℕ) {m : ℕ} (hm : 0 < m) :
    bitAt (keystreamBytes stream u m) 0 = decide ((stream u).toNat % 2 = 1) := by
  obtain ⟨j, hj⟩ : ∃ j, (m+3)/4 = j+1 := ⟨(m+3)/4 - 1, by omega⟩
  have hfirst : (bitAt (leBytes 4 (stream u).toNat) 0) = decide ((stream u).toNat % 2 = 1) := by
    rw [bitAt, leBytes]
    change (BitVec.ofNat 8 (stream u).toNat).getLsbD 0 = _
    rw [BitVec.getLsbD_ofNat, Nat.testBit_zero]
    simp
  rw [keystreamBytes, bitAt_take, if_pos (by omega), hj, List.range_succ_eq_map, List.flatMap_cons, bitAt_append,
    if_pos (by rw [leBytes_length]; decide), Nat.add_zero, hfirst]

namespace SystemConfig
variable {c : SystemConfig} {id q : ℕ} {peer : PeerInfo}

/-- The first mask bit of the triples and the first daBit, on every stream. -/
theorem first_masks (hn : 2 ≤ c.peers.length) (hq : 1 ≤ q) {chacha₀ : ChaCha8Rng.Keystream}
    {p₀ : BeaverProvider × DaBitProvider} (hinit : c.initSeededCorrelatedRandomness chacha₀ id q = some p₀)
    (hpeer : c.peers[id]? = some peer) (chacha : ChaCha8Rng.Keystream) :
    c.beaverBit id q 0 0 chacha = some (decide ((chacha peer.seed 0).toNat % 2 = 1)) ∧
      c.storedDabit id q 0 chacha = some (if id = 0 then
        dealerDabit chacha peer.seed ((c.peers.drop 1).map PeerInfo.seed) 0 else seedDabit chacha peer.seed 0) := by
  obtain ⟨perQ, hperQ, hb, hd, -, -⟩ := initSeededCorrelatedRandomness_iff.mp hinit
  have hpos : 0 < q*perQ := Nat.mul_pos hq (beaverPerQ_pos hperQ)
  have hgen : ∃ p d z l, c.initSeededCorrelatedRandomness chacha id q = some (p, d) ∧
      p.Holds (q*perQ) [seedStream chacha (q*perQ) 0 peer.seed, seedStream chacha (q*perQ) 1 peer.seed, z] 0 ∧
      d.Holds l 0 ∧ l[0]? = some (if id = 0 then
        dealerDabit chacha peer.seed ((c.peers.drop 1).map PeerInfo.seed) 0 else seedDabit chacha peer.seed 0) := by
    by_cases hid : id = 0
    · subst hid
      obtain ⟨peers, db⟩ := c
      cases peers with
      | nil => exact absurd hn (by simp)
      | cons dealer rest =>
        obtain rfl : dealer = peer := Option.some.inj hpeer
        have hrest : rest ≠ [] := by
          rintro rfl
          exact absurd hn (by simp)
        obtain ⟨p, hp, hph⟩ := genBeaverProvider_dealer chacha dealer db hpos hrest
        obtain ⟨d, hd', hdh⟩ := genDabitProvider_dealer chacha dealer rest db (q*36)
        refine ⟨p, d, _, _, initSeededCorrelatedRandomness_iff.mpr ⟨perQ, hperQ, hb, hd, hp, hd'⟩, hph, hdh, ?_⟩
        rw [List.getElem?_map, List.getElem?_range (by omega), if_pos rfl]
        rfl
    · obtain ⟨p, hp, hph⟩ := genBeaverProvider_other chacha hpos hid hpeer
      obtain ⟨d, hd', hdh⟩ := genDabitProvider_other chacha (q*36) hid hpeer
      refine ⟨p, d, _, _, initSeededCorrelatedRandomness_iff.mpr ⟨perQ, hperQ, hb, hd, hp, hd'⟩, hph, hdh, ?_⟩
      rw [List.getElem?_map, List.getElem?_range (by omega), if_neg hid]
      rfl
  obtain ⟨p, d, z, l, hinit', hp, hd', hl⟩ := hgen
  obtain ⟨storage, hs, hsr⟩ := hp.storage
  obtain ⟨a, ha, har⟩ := D2BitArray.getArray_eq (j := 0) hsr rfl
  constructor
  · simp only [beaverBit, hinit', hs, ha, Option.bind_eq_bind, Option.bind_some]
    rw [BitArray.get_eq har hpos, seedStream, Nat.zero_mul, bitAt_keystreamBytes_zero _ _ (by omega)]
  · simp only [storedDabit, hinit', hd'.storage, Option.bind_eq_bind, Option.bind_some]
    exact hl

theorem peer_of_init {chacha : ChaCha8Rng.Keystream} {p : BeaverProvider × DaBitProvider}
    (hinit : c.initSeededCorrelatedRandomness chacha id q = some p) : ∃ peer, c.peers[id]? = some peer := by
  obtain ⟨perQ, -, -, -, hp, -⟩ := initSeededCorrelatedRandomness_iff.mp hinit
  rw [genBeaverProvider] at hp
  split_ifs at hp with hid
  · obtain ⟨peer, hpeer, -⟩ := Option.bind_eq_some_iff.mp hp
    exact ⟨peer, hid ▸ hpeer⟩
  · obtain ⟨peer, hpeer, -⟩ := Option.bind_eq_some_iff.mp hp
    exact ⟨peer, hpeer⟩

/-- The streams on which all words are zero but the first word of `seed`, which is one. -/
def oneStream (seed : Seed) : ChaCha8Rng.Keystream := update (fun _ _ => 0) seed (update (fun _ => 0) 0 1)

theorem oneStream_self (seed : Seed) : oneStream seed seed 0 = 1 := by
  rw [oneStream, update_self, update_self]

theorem oneStream_of_pos (seed other : Seed) {w : ℕ} (hw : 1 ≤ w) : oneStream seed other w = 0 := by
  rw [oneStream, update_apply]
  split_ifs
  · exact update_of_ne (by omega) _ _
  · rfl

/-- The dealer's scalar contains its bit, whatever it takes out of it. -/
theorem dealerDabit_oneStream_ne (seed : Seed) (others : List Seed) :
    (dealerDabit (oneStream seed) seed others 0).rZp ≠ (dealerDabit (fun _ _ => 0) seed others 0).rZp := by
  intro h
  have hothers : (others.map fun other => (seedDabit (oneStream seed) other 0).rZp) =
      others.map fun other => (seedDabit (fun _ _ => 0) other 0).rZp := by
    apply List.map_congr_left
    intro other _
    refine congrArg Scalar.fromBytesModOrderWide (keystreamBytes_congr fun w hw => ?_)
    exact oneStream_of_pos seed other (by omega)
  rw [dealerDabit, dealerDabit, hothers] at h
  have hbit : (ofBit (dealerBit (oneStream seed) seed 0) : Scalar) = ofBit (dealerBit (fun _ _ => 0) seed 0) :=
    sub_left_inj.mp h
  rw [dealerBit, dealerBit, oneStream_self] at hbit
  have hone : ((1 : ℕ) : Scalar).val = 1 := ZMod.val_natCast_of_lt (by unfold groupOrder; omega)
  have hzero : ((1 : ℕ) : Scalar) = ((0 : ℕ) : Scalar) := hbit
  rw [hzero, Nat.cast_zero, ZMod.val_zero] at hone
  exact absurd hone (by decide)

theorem not_noReuse (hn : 2 ≤ c.peers.length) (hq : 1 ≤ q) {chacha : ChaCha8Rng.Keystream}
    {p : BeaverProvider × DaBitProvider} (hinit : c.initSeededCorrelatedRandomness chacha id q = some p) :
    ¬ c.NoReuse id q := by
  intro h
  obtain ⟨peer, hpeer⟩ := peer_of_init hinit
  have hmasks := first_masks hn hq hinit hpeer
  refine h peer hpeer 0 0 0 0 ⟨⟨fun _ _ => 0, 1, ?_⟩, ?_⟩
  · rw [(hmasks _).1, (hmasks _).1, update_self, update_self]
    decide
  · by_cases hid : id = 0
    · refine .inr ⟨fun _ _ => 0, 1, ?_⟩
      beta_reduce
      rw [(hmasks _).2, (hmasks _).2, if_pos hid, if_pos hid, Option.map_some, Option.map_some]
      exact fun heq => dealerDabit_oneStream_ne peer.seed _ (Option.some.inj heq)
    · refine .inl ⟨fun _ _ => 0, 1, ?_⟩
      beta_reduce
      rw [(hmasks _).2, (hmasks _).2, if_neg hid, if_neg hid, Option.map_some, Option.map_some, seedDabit,
        seedDabit, Nat.mul_zero, update_self, update_self]
      decide

/-- For all but the dealer the two masks are one and the same bit. -/
theorem not_separable (hn : 2 ≤ c.peers.length) (hq : 1 ≤ q) {chacha : ChaCha8Rng.Keystream}
    {p : BeaverProvider × DaBitProvider} (hinit : c.initSeededCorrelatedRandomness chacha id q = some p)
    (hid : id ≠ 0) : ¬ c.Separable id q 0 0 0 := by
  rintro ⟨chacha', hne⟩
  obtain ⟨peer, hpeer⟩ := peer_of_init hinit
  obtain ⟨hbit, hdabit⟩ := first_masks hn hq hinit hpeer chacha'
  apply hne
  rw [hbit, hdabit, if_neg hid]
  rfl

/-- Two parties and one query: the first two masks of party 1 agree on every stream. -/
theorem masks_shared :
    let c : SystemConfig := ⟨[⟨0, .replicate 32 100⟩, ⟨1, .replicate 32 101⟩], ⟨1, 8, 2, none⟩⟩
    ¬ c.NoReuse 1 1 ∧ ¬ c.Separable 1 1 0 0 0 := by
  intro c
  have hperQ : c.beaverPerQ = some 113 := by decide
  obtain ⟨bp, dp, hinit⟩ := init_succeeds (fun _ _ => 0) (q := 1) (by decide) (by decide) hperQ (by decide)
    (by decide)
  have hone := hinit ⟨1, by decide⟩
  exact ⟨not_noReuse (by decide) (by decide) hone, not_separable (by decide) (by decide) hone (by decide)⟩

/-- The first word of its stream determines the first mask bit of a party's triples and its first
daBit, whichever party it is, and nobody but the dealer has two masks there. -/
theorem masks_reused (hn : 2 ≤ c.peers.length) (hq : 1 ≤ q) {chacha : ChaCha8Rng.Keystream}
    {p : BeaverProvider × DaBitProvider} (hinit : c.initSeededCorrelatedRandomness chacha id q = some p) :
    ¬ c.NoReuse id q ∧ (id ≠ 0 → ¬ c.Separable id q 0 0 0) :=
  ⟨not_noReuse hn hq hinit, not_separable hn hq hinit⟩

/-- Three parties and one query: the masks of party 1. -/
theorem masks_reused_three :
    let c : SystemConfig :=
      ⟨[⟨0, .replicate 32 100⟩, ⟨1, .replicate 32 101⟩, ⟨2, .replicate 32 102⟩], ⟨1, 8, 2, none⟩⟩
    ¬ c.NoReuse 1 1 ∧ ((1 : ℕ) ≠ 0 → ¬ c.Separable 1 1 0 0 0) := by
  intro c
  have hperQ : c.beaverPerQ = some 113 := by decide
  obtain ⟨bp, dp, hinit⟩ := init_succeeds (fun _ _ => 0) (q := 1) (by decide) (by decide) hperQ (by decide)
    (by decide)
  exact masks_reused (by decide) (by decide) (hinit ⟨1, by decide⟩)

end SystemConfig
end PrivRecCert.Prc
