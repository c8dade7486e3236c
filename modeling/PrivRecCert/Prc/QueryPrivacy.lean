import PrivRecCert.Prc.ClientSpec
import Mathlib.Data.Stream.Init

/-! All servers but one learn nothing about the index of a query. The client reads its randomness off a
tape, and changing one word of each Boolean sharing turns the tape for one index into a tape for another
on which these servers see the same. -/
namespace PrivRecCert.Prc
open CorRnd Sharing
open scoped BigOperators

/-- A generator that reads its words and its scalars off two tapes. -/
structure Tape where
  words : Stream' U32
  scalars : Stream' Scalar

instance : ScalarRng Tape where
  nextU32 t := (t.words.head, { t with words := t.words.tail })
  randomScalar t := (t.scalars.head, { t with scalars := t.scalars.tail })

theorem draws_words (l : List U32) (words : Stream' U32) (scalars : Stream' Scalar) :
    draws ScalarRng.nextU32 l.length (⟨l ++ₛ words, scalars⟩ : Tape) = (l, ⟨words, scalars⟩) := by
  induction l with
  | nil => rfl
  | cons a l ih =>
    have hdraw : ScalarRng.nextU32 (⟨(a :: l) ++ₛ words, scalars⟩ : Tape) = (a, ⟨l ++ₛ words, scalars⟩) := rfl
    simp only [List.length_cons, draws, hdraw, ih]

theorem draws_scalars (l : List Scalar) (words : Stream' U32) (scalars : Stream' Scalar) :
    draws ArithValueT.random l.length (⟨words, l ++ₛ scalars⟩ : Tape) = (l, ⟨words, scalars⟩) := by
  induction l with
  | nil => rfl
  | cons a l ih =>
    have hdraw : ArithValueT.random (⟨words, (a :: l) ++ₛ scalars⟩ : Tape) = (a, ⟨words, l ++ₛ scalars⟩) := rfl
    simp only [List.length_cons, draws, hdraw, ih]

variable {n : ℕ}

/-- The cells that a query for `n` servers reads: the words of the column shares, the words of the row
shares, and the scalars for the randomness of the commitment and its shares. -/
structure Cells (n : ℕ) where
  column : Fin (n-1) → U32
  row : Fin (n-1) → U32
  scalars : Fin n → Scalar

def Cells.tape (x : Cells n) (rest : Tape) : Tape :=
  ⟨List.ofFn x.column ++ₛ (List.ofFn x.row ++ₛ rest.words), List.ofFn x.scalars ++ₛ rest.scalars⟩

/-- Changes the word for share `j`, if one is drawn for it. -/
def shiftWord {k : ℕ} (j : ℕ) (d : U32) (w : Fin k → U32) : Fin k → U32 := fun i =>
  if (i : ℕ) = j then w i ^^^ d else w i

theorem shiftWord_involutive {k : ℕ} (j : ℕ) (d : U32) : Function.Involutive (shiftWord (k := k) j d) := by
  intro w
  funext i
  by_cases hi : (i : ℕ) = j
  · rw [shiftWord, if_pos hi, shiftWord, if_pos hi, BitVec.xor_assoc, BitVec.xor_self, BitVec.xor_zero]
  · rw [shiftWord, if_neg hi, shiftWord, if_neg hi]

/-- One word of each Boolean sharing is changed. -/
def Cells.shift (n j : ℕ) (d1 d2 : U32) : Cells n ≃ Cells n :=
  Function.Involutive.toPerm (fun x => ⟨shiftWord j d1 x.column, shiftWord j d2 x.row, x.scalars⟩) fun x => by
    change Cells.mk _ _ _ = _
    rw [shiftWord_involutive, shiftWord_involutive]

/-- Two sharings whose drawn shares differ at `j` only, and there as much as the shared words do, differ
nowhere else: the last share makes up for the difference. -/
theorem shares_hidden {x x' : U32} {f f' : Fin n → U32} (j : Fin n) (hsum : xorAll f = x) (hsum' : xorAll f' = x')
    (hdrawn : ∀ i : Fin n, (i : ℕ) + 1 < n → f' i = if i = j then f i ^^^ (x ^^^ x') else f i) :
    ∀ i, i ≠ j → f i = f' i := by
  intro i hij
  by_cases hi : (i : ℕ) + 1 < n
  · rw [hdrawn i hi, if_neg hij]
  have hval : (i : ℕ) ≠ j := fun h => hij (Fin.ext h)
  have hj : (j : ℕ) + 1 < n := by omega
  apply BitVec.eq_of_getLsbD_eq
  intro k _
  have hsame : ∀ a, a ≠ i ∧ a ≠ j → (f a).getLsbD k + (f' a).getLsbD k = 0 := fun a ha => by
    have hne : (a : ℕ) ≠ i := fun h => ha.1 (Fin.ext h)
    rw [hdrawn a (by omega), if_neg ha.2]
    exact Bool.xor_self _
  have hx := getLsbD_xorAll f k
  have hx' := getLsbD_xorAll f' k
  rw [hsum] at hx
  rw [hsum'] at hx'
  have htotal : ∑ a, ((f a).getLsbD k + (f' a).getLsbD k) = x.getLsbD k + x'.getLsbD k := by
    rw [Finset.sum_add_distrib, ← hx, ← hx']
  rw [Fintype.sum_eq_add i j hij hsame, hdrawn j hj, if_pos rfl, BitVec.getLsbD_xor, BitVec.getLsbD_xor] at htotal
  revert htotal
  generalize (f i).getLsbD k = a
  generalize (f' i).getLsbD k = b
  generalize (f j).getLsbD k = c
  generalize x.getLsbD k = d
  generalize x'.getLsbD k = e
  revert a b c d e
  decide

theorem BooleanValue.eq_of_value {a b : BooleanValue} (hlen : a.bitLen = b.bitLen) (hvalue : a.value = b.value) :
    a = b := by
  obtain ⟨la, va, _, _⟩ := a
  obtain ⟨lb, vb, _, _⟩ := b
  obtain rfl : la = lb := hlen
  obtain rfl : va = vb := hvalue
  rfl

/-- One sharing on two tapes: as many words are read, and only the share of party `j` is different. -/
theorem secretShareBoolean_hidden (hn : 1 ≤ n) {x x' : BooleanValue} (hlen : x'.bitLen = x.bitLen) (hx : x.bitLen < 32)
    (j : Fin n) (w : Fin (n-1) → U32) (rest rest' : Tape) : ∃ f f' : Fin n → BooleanValue,
      secretShareBoolean x n (⟨List.ofFn w ++ₛ rest.words, rest.scalars⟩ : Tape) = some (List.ofFn f, rest) ∧
      secretShareBoolean x' n (⟨List.ofFn (shiftWord j (x.value ^^^ x'.value) w) ++ₛ rest'.words, rest'.scalars⟩ : Tape) =
        some (List.ofFn f', rest') ∧ ∀ i, i ≠ j → f i = f' i := by
  have hdraws : ∀ (v : Fin (n-1) → U32) (t : Tape), draws ScalarRng.nextU32 (n-1)
      (⟨List.ofFn v ++ₛ t.words, t.scalars⟩ : Tape) = (List.ofFn v, t) := fun v t => by
    have h := draws_words (List.ofFn v) t.words t.scalars
    rwa [List.length_ofFn] at h
  obtain ⟨f, hf, hflen, hfsum, hfdrawn⟩ := secretShareBoolean_fin hn hx (⟨List.ofFn w ++ₛ rest.words, rest.scalars⟩ : Tape)
  obtain ⟨f', hf', hflen', hfsum', hfdrawn'⟩ := secretShareBoolean_fin hn (x := x') (by omega)
    (⟨List.ofFn (shiftWord j (x.value ^^^ x'.value) w) ++ₛ rest'.words, rest'.scalars⟩ : Tape)
  rw [drawnWords, hdraws] at hfdrawn hfdrawn'
  rw [hdraws] at hf hf'
  refine ⟨f, f', hf, hf', fun i hi => BooleanValue.eq_of_value (by rw [hflen, hflen', hlen])
    (shares_hidden j hfsum hfsum' (fun i hi => ?_) i hi)⟩
  have hword := hfdrawn i (w ⟨i, by omega⟩) (by simp; omega)
  have hword' := hfdrawn' i (shiftWord j (x.value ^^^ x'.value) w ⟨i, by omega⟩) (by simp; omega)
  have hdiff : (x.value ^^^ x'.value).toNat % 2^x.bitLen = (x.value ^^^ x'.value).toNat := by
    have hx' := x'.value_lt
    rw [hlen] at hx'
    rw [BitVec.toNat_xor]
    exact Nat.mod_eq_of_lt (Nat.xor_lt_two_pow x.value_lt hx')
  apply BitVec.eq_of_toNat_eq
  rw [hword', hlen, shiftWord]
  by_cases hij : i = j
  · rw [if_pos (congrArg Fin.val hij), if_pos hij, BitVec.toNat_xor, Nat.xor_mod_two_pow, hdiff, ← hword]
    exact (BitVec.toNat_xor _ _).symm
  · rw [if_neg (fun h => hij (Fin.ext h)), if_neg hij, hword]

namespace PRCClient
variable {c : PRCClient} {idx idx' : ℕ}

/-- For any two indices there is a bijection of the cells that a query reads under which the queries of
all servers but `j` stay the same. The number of servers is what the configuration says; if it says more
than there are shares, no query can be computed for any index. -/
theorem queries_hide_index (hn : 2 ≤ c.partyNum) (h1 : isPowerOfTwo c.dbConf.l1Dim) (h2 : isPowerOfTwo c.dbConf.l2Dim)
    (hle1 : c.dbConf.l1Dim ≤ 2^31) (hle2 : c.dbConf.l2Dim ≤ 2^31) (hidx : idx < c.dbConf.getMaxSize)
    (hidx' : idx' < c.dbConf.getMaxSize) (j : Fin c.partyNum) :
    ∃ e : Cells c.partyNum ≃ Cells c.partyNum, ∀ (x : Cells c.partyNum) (rest : Tape),
      (c.sysConf.getPartyNum ≤ c.partyNum → ∃ (st st' : PRCClientSt) (Q Q' : Fin c.sysConf.getPartyNum → PRCQuery),
        c.queryAllServers idx (x.tape rest) = some ((st, List.ofFn Q), rest) ∧
        c.queryAllServers idx' ((e x).tape rest) = some ((st', List.ofFn Q'), rest) ∧
        ∀ i : Fin c.sysConf.getPartyNum, (i : ℕ) ≠ j → Q i = Q' i) ∧
      (c.partyNum < c.sysConf.getPartyNum →
        c.queryAllServers idx (x.tape rest) = none ∧ c.queryAllServers idx' ((e x).tape rest) = none) := by
  obtain ⟨m1, h1⟩ := isPowerOfTwo_iff.mp h1
  obtain ⟨m2, h2⟩ := isPowerOfTwo_iff.mp h2
  rw [h1] at hle1
  rw [h2] at hle2
  have hm1 := (Nat.pow_le_pow_iff_right (by decide)).mp hle1
  have hm2 := (Nat.pow_le_pow_iff_right (by decide)).mp hle2
  rw [DBConfig.getMaxSize, h1, h2] at hidx hidx'
  obtain ⟨x1, x2, hpos, hx1, hx2, hlen1, hlen2, -⟩ := index_halves h1 h2 (by omega) (by omega) hidx
  obtain ⟨y1, y2, hpos', hy1, hy2, hlen1', hlen2', -⟩ := index_halves h1 h2 (by omega) (by omega) hidx'
  refine ⟨Cells.shift _ j (x1.value ^^^ y1.value) (x2.value ^^^ y2.value), fun x rest => ?_⟩
  obtain ⟨f, f', hf, hf', hff⟩ := secretShareBoolean_hidden (by omega) (hlen1'.trans hlen1.symm) (by omega) j x.column
    ⟨List.ofFn x.row ++ₛ rest.words, List.ofFn x.scalars ++ₛ rest.scalars⟩
    ⟨List.ofFn (shiftWord j (x2.value ^^^ y2.value) x.row) ++ₛ rest.words, List.ofFn x.scalars ++ₛ rest.scalars⟩
  obtain ⟨g, g', hg, hg', hgg⟩ := secretShareBoolean_hidden (by omega) (hlen2'.trans hlen2.symm) (by omega) j x.row
    ⟨rest.words, List.ofFn x.scalars ++ₛ rest.scalars⟩ ⟨rest.words, List.ofFn x.scalars ++ₛ rest.scalars⟩
  obtain ⟨rnd, rng₃, hrnd⟩ : ∃ rnd rng₃, ArithValueT.random
    (⟨rest.words, List.ofFn x.scalars ++ₛ rest.scalars⟩ : Tape) = (rnd, rng₃) := ⟨_, _, rfl⟩
  obtain ⟨h, hh, -⟩ := secretShareArith_fin (n := c.partyNum) (by omega) rnd rng₃
  have hrest : (draws ArithValueT.random (c.partyNum-1) rng₃).2 = rest := by
    have hall := draws_scalars (List.ofFn x.scalars) rest.words rest.scalars
    obtain ⟨k, hk⟩ : ∃ k, (List.ofFn x.scalars).length = k+1 := ⟨c.partyNum-1, by rw [List.length_ofFn]; omega⟩
    rw [hk, draws, hrnd] at hall
    rw [List.length_ofFn] at hk
    rw [hk, Nat.add_sub_cancel]
    exact congrArg Prod.snd hall
  rw [hrest] at hh
  obtain ⟨hsome, hnone⟩ := queryAllServers_of hpos hx1 hx2 hf hg hrnd hh
  obtain ⟨hsome', hnone'⟩ := queryAllServers_of hpos' hy1 hy2 hf' hg' hrnd hh
  refine ⟨fun hk => ⟨_, _, _, _, hsome hk, hsome' hk, fun i hi => ?_⟩, fun hk => ⟨hnone hk, hnone' hk⟩⟩
  have hne : i.castLE hk ≠ j := fun heq => hi (congrArg Fin.val heq)
  simp only [hff _ hne, hgg _ hne]

/-- Three servers, the second of which is left out, and two indices that differ in both halves. -/
theorem queries_hide_index_three :
    let peer : PeerInfo := ⟨0, .replicate 32 100⟩
    let c : PRCClient := ⟨3, ⟨1, 16, 4, none⟩, ⟨[peer, peer, peer], ⟨1, 16, 4, none⟩⟩⟩
    ∃ e : Cells 3 ≃ Cells 3, ∀ (x : Cells 3) (rest : Tape), ∃ (st st' : PRCClientSt) (Q Q' : Fin 3 → PRCQuery),
      c.queryAllServers 5 (x.tape rest) = some ((st, List.ofFn Q), rest) ∧
      c.queryAllServers 42 ((e x).tape rest) = some ((st', List.ofFn Q'), rest) ∧
      ∀ i : Fin 3, (i : ℕ) ≠ 1 → Q i = Q' i := by
  intro peer c
  obtain ⟨e, he⟩ := queries_hide_index (c := c) (by decide) (by decide) (by decide) (by decide) (by decide)
    (by decide : 5 < 16*4) (by decide : 42 < 16*4) ⟨1, by decide⟩
  exact ⟨e, fun x rest => (he x rest).1 (by decide)⟩

end PRCClient
end PrivRecCert.Prc
