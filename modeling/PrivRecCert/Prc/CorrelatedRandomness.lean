import PrivRecCert.CorRnd.Dealer
import PrivRecCert.Prc.Config
import PrivRecCert.Prc.MpcRun
import PrivRecCert.Prc.B2aSound

/-! The providers of a whole system. The first peer of the list deals to the others, whatever their
ids and seeds are, and the storages that come out are shares of triples and of daBits. Providers
that answer the same requests hand out shares of the same entries. -/
namespace PrivRecCert.Prc
open CorRnd SimdArray Sharing BeaverProvider DaBit
open scoped BigOperators

variable {chacha : ChaCha8Rng.Keystream} {dealer : PeerInfo} {rest : List PeerInfo} {db : DBConfig} {bitNum : ℕ}

namespace SystemConfig

theorem genBeaverProvider_dealer (chacha : ChaCha8Rng.Keystream) (dealer : PeerInfo) (db : DBConfig)
    (hb : 0 < bitNum) (hrest : rest ≠ []) :
    ∃ p, genBeaverProvider chacha ⟨dealer :: rest, db⟩ 0 bitNum = some p ∧ p.Holds bitNum
      [seedStream chacha bitNum 0 dealer.seed, seedStream chacha bitNum 1 dealer.seed,
        dealerStream chacha bitNum dealer.seed (rest.map PeerInfo.seed)] 0 :=
  BeaverProvider.generateAsDealer_eq hb dealer.seed (by simpa using hrest)

theorem genBeaverProvider_other (chacha : ChaCha8Rng.Keystream) {c : SystemConfig} {id : ℕ} {peer : PeerInfo}
    (hb : 0 < bitNum) (hid : id ≠ 0) (hpeer : c.peers[id]? = some peer) :
    ∃ p, c.genBeaverProvider chacha id bitNum = some p ∧ p.Holds bitNum [seedStream chacha bitNum 0 peer.seed,
      seedStream chacha bitNum 1 peer.seed, seedStream chacha bitNum 2 peer.seed] 0 := by
  obtain ⟨p, hp, hph⟩ := BeaverProvider.generateWithSeed_eq chacha hb peer.seed
  refine ⟨p, ?_, hph⟩
  rw [genBeaverProvider, if_neg hid, hpeer]
  exact hp

theorem genDabitProvider_dealer (chacha : ChaCha8Rng.Keystream) (dealer : PeerInfo) (rest : List PeerInfo)
    (db : DBConfig) (bitNum : ℕ) : ∃ p, genDabitProvider chacha ⟨dealer :: rest, db⟩ 0 bitNum = some p ∧
      p.Holds ((List.range bitNum).map (dealerDabit chacha dealer.seed (rest.map PeerInfo.seed))) 0 :=
  DaBitProvider.generateAsDealer_eq chacha bitNum dealer.seed (rest.map PeerInfo.seed)

theorem genDabitProvider_other (chacha : ChaCha8Rng.Keystream) (bitNum : ℕ) {c : SystemConfig} {id : ℕ}
    {peer : PeerInfo} (hid : id ≠ 0) (hpeer : c.peers[id]? = some peer) :
    ∃ p, c.genDabitProvider chacha id bitNum = some p ∧
      p.Holds ((List.range bitNum).map (seedDabit chacha peer.seed)) 0 := by
  refine ⟨_, ?_, DaBitProvider.generateWithSeed_holds chacha bitNum peer.seed⟩
  rw [genDabitProvider, if_neg hid, hpeer]
  rfl

/-- The streams of the triples of all peers: the dealer's product share differs from the rest. -/
theorem genBeaverProvider_shares (chacha : ChaCha8Rng.Keystream) (dealer : PeerInfo) (db : DBConfig)
    (hb : 0 < bitNum) (hrest : rest ≠ []) :
    ∃ bp : Fin (rest.length+1) → BeaverProvider,
      (∀ i : Fin (rest.length+1), genBeaverProvider chacha ⟨dealer :: rest, db⟩ i bitNum = some (bp i)) ∧
      ∃ a b c, BeaverShares bp bitNum a b c 0 := by
  obtain ⟨p, hp, hph⟩ := genBeaverProvider_dealer chacha dealer db hb hrest
  choose o ho hoh using fun i : Fin rest.length => genBeaverProvider_other chacha
    (c := ⟨dealer :: rest, db⟩) hb (Nat.succ_ne_zero i) (List.getElem?_eq_getElem (by simp))
  let streams (own : ℕ → Bool) (j : ℕ) : Fin (rest.length+1) → Bits :=
    Fin.cons own fun i => seedStream chacha bitNum j rest[i].seed
  have hsum : ∀ own j k, plain (streams own j) k = own k + seedSum chacha bitNum j (rest.map PeerInfo.seed) k := by
    intro own j k
    rw [plain, Fin.sum_univ_succ, seedSum, List.map_map, ← Fin.sum_univ_fun_getElem]
    rfl
  refine ⟨Fin.cons p o, fun i => ?_, streams (seedStream chacha bitNum 0 dealer.seed) 0,
    streams (seedStream chacha bitNum 1 dealer.seed) 1,
    streams (dealerStream chacha bitNum dealer.seed (rest.map PeerInfo.seed)) 2, fun i => ?_, fun k => ?_⟩
  · cases i using Fin.cases with
    | zero => exact hp
    | succ i => exact ho i
  · cases i using Fin.cases with
    | zero => exact hph
    | succ i => exact hoh i
  · rw [hsum, hsum, hsum]
    exact dealer_triple chacha bitNum dealer.seed (rest.map PeerInfo.seed) k

theorem genDabitProvider_shares (chacha : ChaCha8Rng.Keystream) (dealer : PeerInfo) (rest : List PeerInfo)
    (db : DBConfig) (bitNum : ℕ) :
    ∃ dp : Fin (rest.length+1) → DaBitProvider,
      (∀ i : Fin (rest.length+1), genDabitProvider chacha ⟨dealer :: rest, db⟩ i bitNum = some (dp i)) ∧
      ∃ l r, DabitShares dp l r bitNum 0 := by
  obtain ⟨p, hp, hph⟩ := genDabitProvider_dealer chacha dealer rest db bitNum
  choose o ho hoh using fun i : Fin rest.length => genDabitProvider_other chacha bitNum
    (c := ⟨dealer :: rest, db⟩) (Nat.succ_ne_zero i) (List.getElem?_eq_getElem (by simp))
  let entry : Fin (rest.length+1) → ℕ → DaBit :=
    Fin.cons (dealerDabit chacha dealer.seed (rest.map PeerInfo.seed)) fun i => seedDabit chacha rest[i].seed
  have hjoint : ∀ (k : ℕ) (d : Fin (rest.length+1) → DaBit),
      (∀ i, ((List.range bitNum).map (entry i))[k]? = some (d i)) → d = fun i => entry i k := by
    intro k d hd
    funext i
    have hk : k < bitNum := by
      have h := (List.getElem?_eq_some_iff.mp (hd i)).1
      simpa using h
    have h := hd i
    rw [List.getElem?_map, List.getElem?_range hk, Option.map_some] at h
    exact (Option.some.inj h).symm
  have hrel := fun k => DaBitProvider.dealer_dabit chacha dealer.seed (rest.map PeerInfo.seed) k
  refine ⟨Fin.cons p o, fun i => ?_,
    fun i => (List.range bitNum).map (entry i), dealerBit chacha dealer.seed, fun i => ?_, fun i => by simp,
    fun k d hd => ?_, fun k d hd => ?_⟩
  · cases i using Fin.cases with
    | zero => exact hp
    | succ i => exact ho i
  · cases i using Fin.cases with
    | zero => exact hph
    | succ i => exact hoh i
  · rw [hjoint k d hd, Fin.sum_univ_succ, ← (hrel k).1, List.map_map, ← Fin.sum_univ_fun_getElem]
    rfl
  · rw [hjoint k d hd, Fin.sum_univ_succ, ← (hrel k).2, List.map_map, ← Fin.sum_univ_fun_getElem]
    rfl

variable {c : SystemConfig} {q id perQ : ℕ}

theorem checkedUsize_eq_some {m k : ℕ} : checkedUsize m = some k ↔ m < 2^64 ∧ k = m := by
  rw [checkedUsize, Option.ite_none_right_eq_some, Option.some.injEq, eq_comm]

theorem beaverPerQ_pos (h : c.beaverPerQ = some perQ) : 0 < perQ := by
  obtain ⟨m, -, hm⟩ := Option.bind_eq_some_iff.mp h
  have hperQ := (checkedUsize_eq_some.mp hm).2
  omega

/-- What an initialisation computes, and what it needs not to overflow. -/
theorem initSeededCorrelatedRandomness_iff {p : BeaverProvider} {d : DaBitProvider} :
    c.initSeededCorrelatedRandomness chacha id q = some (p, d) ↔
      ∃ perQ, c.beaverPerQ = some perQ ∧ q*perQ < 2^64 ∧ q*36 < 2^64 ∧
        c.genBeaverProvider chacha id (q*perQ) = some p ∧ c.genDabitProvider chacha id (q*36) = some d := by
  simp only [initSeededCorrelatedRandomness, Option.bind_eq_bind, Option.bind_eq_some_iff, checkedUsize_eq_some,
    Option.some.injEq, Prod.mk.injEq]
  constructor
  · rintro ⟨perQ, hperQ, _, ⟨hb, rfl⟩, _, ⟨hd, rfl⟩, p', hp, d', hd', rfl, rfl⟩
    exact ⟨perQ, hperQ, hb, hd, hp, hd'⟩
  · rintro ⟨perQ, hperQ, hb, hd, hp, hd'⟩
    exact ⟨perQ, hperQ, _, ⟨hb, rfl⟩, _, ⟨hd, rfl⟩, p, hp, d, hd', rfl, rfl⟩

variable {bp : Fin c.peers.length → BeaverProvider} {dp : Fin c.peers.length → DaBitProvider}

/-- The providers of all parties hold shares of the same triples and daBits. -/
theorem init_shares (hn : 2 ≤ c.peers.length) (hq : 1 ≤ q)
    (hinit : ∀ i : Fin c.peers.length, c.initSeededCorrelatedRandomness chacha i q = some (bp i, dp i)) :
    ∃ perQ, c.beaverPerQ = some perQ ∧ (∃ x y z, BeaverShares bp (q*perQ) x y z 0) ∧
      ∃ l r, DabitShares dp l r (q*36) 0 := by
  obtain ⟨peers, db⟩ := c
  cases peers with
  | nil => exact absurd hn (by simp)
  | cons dealer rest =>
    have hrest : rest ≠ [] := by
      rintro rfl
      exact absurd hn (by simp)
    have hsplit := fun i => initSeededCorrelatedRandomness_iff.mp (hinit i)
    obtain ⟨perQ, hperQ, -⟩ := hsplit ⟨0, by simp⟩
    have hb : 0 < q*perQ := Nat.mul_pos hq (beaverPerQ_pos hperQ)
    obtain ⟨bp', hbp', hbs⟩ := genBeaverProvider_shares chacha dealer db hb hrest
    obtain ⟨dp', hdp', hds⟩ := genDabitProvider_shares chacha dealer rest db (q*36)
    have heq : ∀ i, bp i = bp' i ∧ dp i = dp' i := fun i => by
      obtain ⟨perQ', hperQ', -, -, hp, hd⟩ := hsplit i
      obtain rfl : perQ = perQ' := Option.some.inj (hperQ.symm.trans hperQ')
      exact ⟨Option.some.inj (hp.symm.trans (hbp' i)), Option.some.inj (hd.symm.trans (hdp' i))⟩
    obtain rfl : bp = bp' := funext fun i => (heq i).1
    obtain rfl : dp = dp' := funext fun i => (heq i).2
    exact ⟨perQ, hperQ, hbs, hds⟩

/-- Nothing but an overflow keeps a system from being initialised. -/
theorem init_succeeds (chacha : ChaCha8Rng.Keystream) (hn : 2 ≤ c.peers.length) (hq : 1 ≤ q)
    (hperQ : c.beaverPerQ = some perQ) (hb : q*perQ < 2^64) (hd : q*36 < 2^64) :
    ∃ (bp : Fin c.peers.length → BeaverProvider) (dp : Fin c.peers.length → DaBitProvider),
      ∀ i : Fin c.peers.length, c.initSeededCorrelatedRandomness chacha i q = some (bp i, dp i) := by
  obtain ⟨peers, db⟩ := c
  cases peers with
  | nil => exact absurd hn (by simp)
  | cons dealer rest =>
    have hrest : rest ≠ [] := by
      rintro rfl
      exact absurd hn (by simp)
    have hpos : 0 < q*perQ := Nat.mul_pos hq (beaverPerQ_pos hperQ)
    obtain ⟨bp, hbp, -⟩ := genBeaverProvider_shares chacha dealer db hpos hrest
    obtain ⟨dp, hdp, -⟩ := genDabitProvider_shares chacha dealer rest db (q*36)
    exact ⟨bp, dp, fun i => initSeededCorrelatedRandomness_iff.mpr ⟨perQ, hperQ, hb, hd, hbp i, hdp i⟩⟩

end SystemConfig

variable {n : ℕ}

/-- The slices of all parties are shares of triples at every bit of their `m` bytes. -/
def SharesTriples (m : ℕ) (d : Fin n → D2BitArray) : Prop :=
  ∃ (a b c : Fin n → BitArray) (x y z : Fin n → Bits), ∀ k < 8*m,
    (∀ i, (d i).unpackAsBeaver = some (a i, b i, c i) ∧
      (a i).get k = some (x i k) ∧ (b i).get k = some (y i k) ∧ (c i).get k = some (z i k)) ∧
    ((∑ i, x i k) && ∑ i, y i k) = ∑ i, z i k

/-- The entries of all parties are shares of one bit, in both domains. -/
def SharesBit (d : Fin n → DaBit) : Prop :=
  ∃ r : Bool, ∑ i, (d i).rZ2 = r ∧ ∑ i, (d i).rZp = ofBit r

/-- Ranges of the sizes `ms`, one after the other: each of them ends before the next one begins. -/
theorem sum_take_le (ms : List ℕ) {j j' : ℕ} (h : j < j') : (ms.take (j+1)).sum ≤ (ms.take j').sum := by
  have hsub : (ms.take (j+1)).Sublist (ms.take j') := List.take_sublist_take_left h
  exact hsub.sum_le_sum fun _ _ => Nat.zero_le _

theorem slices_triples {bp : Fin n → BeaverProvider} {s u : ℕ} {a b c : Fin n → Bits}
    (hbp : BeaverShares bp s a b c 0) {m : ℕ} {d : Fin n → D2BitArray}
    (hd : ∀ i, (d i).Represents (8*m) [slice (a i) u m, slice (b i) u m, slice (c i) u m]) :
    SharesTriples m d := by
  have hunpack := fun i => D2BitArray.unpackAsBeaver_eq (hd i)
  choose xs ys zs _ hunpack hx hy hz using hunpack
  refine ⟨xs, ys, zs, fun i => slice (a i) u m, fun i => slice (b i) u m, fun i => slice (c i) u m,
    fun k hk => ⟨fun i => ⟨hunpack i, BitArray.get_eq (hx i) hk, BitArray.get_eq (hy i) hk,
      BitArray.get_eq (hz i) hk⟩, ?_⟩⟩
  have ha := plain_slice a u m k
  have hb := plain_slice b u m k
  have hc := plain_slice c u m k
  simp only [plain, slice, hk, if_true] at ha hb hc ⊢
  exact hbp.triple (k + 8*u)

/-- All parties get slices of the sizes `ms`, one after the other from the front of their storages,
and these are shares of triples. -/
def ServesTriples (bp : Fin n → BeaverProvider) (ms : List ℕ) : Prop :=
  ∃ slices : Fin n → List D2BitArray, (∀ i, ∃ p, (bp i).takes ms = some (slices i, p)) ∧
    ∀ (j m : ℕ), ms[j]? = some m → ∃ d : Fin n → D2BitArray, SharesTriples m d ∧
      ∀ i, (slices i)[j]? = some (d i) ∧
        (do (← (bp i).beaverStorage).toSlice (ms.take j).sum (ms.take (j+1)).sum) = some (d i)

/-- The same for daBits. -/
def ServesBits (dp : Fin n → DaBitProvider) (ms : List ℕ) : Prop :=
  ∃ segments : Fin n → List (List DaBit), (∀ i, ∃ p, (dp i).takes ms = some (segments i, p)) ∧
    ∀ (j m : ℕ), ms[j]? = some m → ∃ l : Fin n → List DaBit,
      (∀ i, (segments i)[j]? = some (l i) ∧ (l i).length = m ∧
        (do some (((← (dp i).daBitStorage).drop (ms.take j).sum).take m)) = some (l i)) ∧
      ∀ t < m, ∃ d : Fin n → DaBit, SharesBit d ∧ ∀ i, (l i)[t]? = some (d i)

theorem servesTriples {bp : Fin n → BeaverProvider} {s : ℕ} {x y z : Fin n → Bits} {ms : List ℕ}
    (hbp : BeaverShares bp s x y z 0) (hroom : ms.sum ≤ (s+7)/8) : ServesTriples bp ms := by
  have hroom' : 0 + ms.sum ≤ (s+7)/8 := by omega
  choose slices p htakes _ hslices using fun i => BeaverProvider.takes_eq (hbp.holds i) (by simp) hroom'
  simp only [Nat.zero_add] at hslices
  refine ⟨slices, fun i => ⟨p i, htakes i⟩, fun j m hj => ?_⟩
  choose d hd hslice hrep using fun i => hslices i j m hj
  exact ⟨d, slices_triples hbp hrep, fun i => ⟨hd i, hslice i⟩⟩

theorem servesBits {dp : Fin n → DaBitProvider} {l : Fin n → List DaBit} {r : ℕ → Bool} {s : ℕ} {ms : List ℕ}
    (hdp : DabitShares dp l r s 0) (hroom : ms.sum ≤ s) : ServesBits dp ms := by
  have hroom' : ∀ i, 0 + ms.sum ≤ (l i).length := fun i => by
    rw [hdp.length i]
    omega
  choose segments p htakes _ hsegments using fun i => DaBitProvider.takes_eq (hdp.holds i) (hroom' i)
  simp only [Nat.zero_add] at hsegments
  refine ⟨segments, fun i => ⟨p i, htakes i⟩, fun j m hj => ?_⟩
  have hend : (ms.take j).sum + m ≤ s := by
    have hle := sum_take_le ms (List.getElem?_eq_some_iff.mp hj).1
    rw [List.take_length, List.take_add_one, hj, List.sum_append] at hle
    have hadd : (ms.take j).sum + m ≤ ms.sum := by simpa using hle
    omega
  refine ⟨fun i => ((l i).drop (ms.take j).sum).take m, fun i => ⟨hsegments i j m hj, ?_, ?_⟩, fun t ht => ?_⟩
  · rw [List.length_take, List.length_drop, hdp.length i]
    omega
  · rw [(hdp.holds i).storage]
    rfl
  · have hget : ∀ i, ∃ d, (l i)[(ms.take j).sum + t]? = some d := fun i => by
      have hlt : (ms.take j).sum + t < (l i).length := by
        rw [hdp.length i]
        omega
      exact ⟨_, List.getElem?_eq_getElem hlt⟩
    choose d hd using hget
    refine ⟨d, ⟨r ((ms.take j).sum + t), hdp.rZ2 _ d hd, hdp.rZp _ d hd⟩, fun i => ?_⟩
    rw [List.getElem?_take_of_lt ht, List.getElem?_drop]
    exact hd i

namespace SystemConfig
variable {c : SystemConfig} {q : ℕ} {bp : Fin c.peers.length → BeaverProvider}
  {dp : Fin c.peers.length → DaBitProvider}

/-- Whatever the order of the peers and their seeds, and whatever is taken: every slice and every
daBit that the parties are handed are shares of triples and of bits, and requests are served from
consecutive ranges of the storages, so that no range is served twice. -/
theorem init_agrees (hn : 2 ≤ c.peers.length) (hq : 1 ≤ q)
    (hinit : ∀ i : Fin c.peers.length, c.initSeededCorrelatedRandomness chacha i q = some (bp i, dp i))
    {ms ds : List ℕ} (hms : ∀ i d, (bp i).beaverStorage = some d → ms.sum ≤ d.innerByteSize)
    (hds : ∀ i l, (dp i).daBitStorage = some l → ds.sum ≤ l.length) :
    ServesTriples bp ms ∧ ServesBits dp ds ∧
      ∀ j j', j < j' → (ms.take (j+1)).sum ≤ (ms.take j').sum ∧ (ds.take (j+1)).sum ≤ (ds.take j').sum := by
  obtain ⟨perQ, -, ⟨x, y, z, hbp⟩, l, r, hdp⟩ := init_shares hn hq hinit
  let first : Fin c.peers.length := ⟨0, by omega⟩
  have hroom : ms.sum ≤ (q*perQ+7)/8 := by
    obtain ⟨d, hd, hdr⟩ := (hbp.holds first).storage
    rw [← D2BitArray.innerByteSize_eq hdr (by simp)]
    exact hms first d hd
  have hroom' : ds.sum ≤ q*36 := by
    rw [← hdp.length first]
    exact hds first (l first) (hdp.holds first).storage
  exact ⟨servesTriples hbp hroom, servesBits hdp hroom', fun j j' h => ⟨sum_take_le ms h, sum_take_le ds h⟩⟩

theorem init_agrees_three :
    let peers : List PeerInfo := [⟨2, .replicate 32 7⟩, ⟨0, .replicate 32 7⟩, ⟨1, .replicate 32 9⟩]
    let c : SystemConfig := ⟨peers, ⟨1, 8, 2, none⟩⟩
    ∃ (bp : Fin 3 → BeaverProvider) (dp : Fin 3 → DaBitProvider),
      (∀ i : Fin 3, c.initSeededCorrelatedRandomness (fun seed k => BitVec.ofNat 32 (seed[0].toNat*k)) i 2 =
        some (bp i, dp i)) ∧ ServesTriples bp [3, 0, 26] ∧ ServesBits dp [7, 65] := by
  intro peers c
  have hperQ : c.beaverPerQ = some 113 := by decide
  obtain ⟨bp, dp, hinit⟩ := init_succeeds (fun seed k => BitVec.ofNat 32 (seed[0].toNat*k)) (q := 2) (by decide)
    (by decide) hperQ (by decide) (by decide)
  obtain ⟨perQ, hperQ', ⟨x, y, z, hbp⟩, l, r, hdp⟩ := init_shares (by decide) (by decide) hinit
  obtain rfl : 113 = perQ := Option.some.inj (hperQ.symm.trans hperQ')
  have hserve : ServesTriples bp [3, 0, 26] ∧ ServesBits dp [7, 65] ∧ _ := init_agrees (by decide) (by decide) hinit
    (fun i d hd => by
      obtain ⟨d', hd', hdr⟩ := (hbp.holds i).storage
      obtain rfl : d' = d := Option.some.inj (hd'.symm.trans hd)
      rw [D2BitArray.innerByteSize_eq hdr (by simp)]
      decide)
    (fun i l' hl => by
      obtain rfl : l i = l' := Option.some.inj ((hdp.holds i).storage.symm.trans hl)
      rw [hdp.length i]
      decide)
  exact ⟨bp, dp, hinit, hserve.1, hserve.2.1⟩

end SystemConfig
end PrivRecCert.Prc
