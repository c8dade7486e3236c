import PrivRecCert.Prc.ClientSpec
import PrivRecCert.Prc.CorrelatedRandomness

/-! The servers of one configuration. They start out on shares of the same correlated randomness, and
what is set aside for the expected number of queries lasts for that many. -/
namespace PrivRecCert.Prc
open CorRnd SimdArray Rounds Numeric Circuit
open scoped BigOperators

variable {SK VK Sig : Type} [Ed25519 SK VK Sig] {chacha : ChaCha8Rng.Keystream} {c : SystemConfig} {q : ℕ}

/-- The servers of a configuration, party 0 being the first one. -/
structure Started (chacha : ChaCha8Rng.Keystream) (c : SystemConfig) (q : ℕ) (sk : Fin c.peers.length → SK)
    (S : Fin c.peers.length → PRCServer SK VK) : Prop where
  parties : 2 ≤ c.peers.length
  expected : 1 ≤ q
  bit : c.dbConfig.dbRecordSize = 1
  servers : ∀ i : Fin c.peers.length, PRCServer.newWithMessageHandler chacha i c q (sk i) = some (S i)

namespace Started
variable {sk : Fin c.peers.length → SK} {S : Fin c.peers.length → PRCServer SK VK}

def first (h : Started chacha c q sk S) : Fin c.peers.length := ⟨0, by have := h.parties; omega⟩

theorem split (h : Started chacha c q sk S) : ∃ (db : PRCDatabase)
    (bp : Fin c.peers.length → BeaverProvider) (dp : Fin c.peers.length → DaBitProvider),
    PRCDatabase.fromConfig chacha c.dbConfig = some db ∧
    (∀ i : Fin c.peers.length, c.initSeededCorrelatedRandomness chacha i q = some (bp i, dp i)) ∧
    ∀ i : Fin c.peers.length, S i =
      ⟨i, c, db, Ed25519.verifyingKey (sk i), .new (decide ((i : ℕ) = 0)) (bp i) (dp i), sk i⟩ := by
  have hsplit : ∀ i : Fin c.peers.length, ∃ db p d, PRCDatabase.fromConfig chacha c.dbConfig = some db ∧
      c.initSeededCorrelatedRandomness chacha i q = some (p, d) ∧
      S i = ⟨i, c, db, Ed25519.verifyingKey (sk i), .new (decide ((i : ℕ) = 0)) p d, sk i⟩ := fun i => by
    have hi := h.servers i
    simp only [PRCServer.newWithMessageHandler, Option.bind_eq_bind, Option.bind_eq_some_iff, Option.some.injEq] at hi
    obtain ⟨db, hdb, ⟨p, d⟩, hinit, hS⟩ := hi
    exact ⟨db, p, d, hdb, hinit, hS.symm⟩
  obtain ⟨db, -, -, hdb, -⟩ := hsplit h.first
  choose db' bp dp hdb' hinit hS using hsplit
  refine ⟨db, bp, dp, hdb, hinit, fun i => ?_⟩
  rw [hS i, Option.some.inj ((hdb' i).symm.trans hdb)]

/-- The dimensions of the database are admissible powers of two. -/
theorem dims (h : Started chacha c q sk S) : ∃ m1 m2, c.dbConfig.l1Dim = 2^m1 ∧ c.dbConfig.l2Dim = 2^m2 ∧
    m2 ≤ m1 ∧ 3 ≤ m1 := by
  obtain ⟨db, -, -, hdb, -⟩ := h.split
  obtain ⟨seed, -, hseed⟩ := Option.bind_eq_some_iff.mp hdb
  obtain ⟨had, -⟩ := PRCDatabase.fromSeed_holds hseed
  obtain ⟨m1, h1⟩ := isPowerOfTwo_iff.mp had.l1_pow
  obtain ⟨m2, h2⟩ := isPowerOfTwo_iff.mp had.l2_pow
  have hle := had.le
  have height := had.eight
  rw [h1, h2] at hle
  rw [h1] at height
  exact ⟨m1, m2, h1, h2, (Nat.pow_le_pow_iff_right (by decide)).mp hle,
    (Nat.pow_le_pow_iff_right (a := 2) (n := 3) (by decide)).mp height⟩

variable {m1 m2 : ℕ}

theorem serving (h : Started chacha c q sk S) (h1 : c.dbConfig.l1Dim = 2^m1) (h2 : c.dbConfig.l2Dim = 2^m2) :
    ∃ db cell perQ, PRCDatabase.fromConfig chacha c.dbConfig = some db ∧ db.Holds 1 (2^m2) (2^m1) cell ∧
      (∀ i, (S i).db = db ∧ (S i).pk = Ed25519.verifyingKey (sk i)) ∧ c.beaverPerQ = some perQ ∧
      Serving S h.first sk m1 m2 cell (q*perQ) 0 (q*36) 0 := by
  obtain ⟨db, bp, dp, hdb, hinit, hS⟩ := h.split
  obtain ⟨seed, -, hseed⟩ := Option.bind_eq_some_iff.mp hdb
  obtain ⟨-, cell, hcell⟩ := PRCDatabase.fromSeed_holds hseed
  rw [h.bit, h1, h2] at hcell
  obtain ⟨perQ, hperQ, ⟨x, y, z, hbp⟩, l, r, hdp⟩ := SystemConfig.init_shares h.parties h.expected hinit
  refine ⟨db, cell, perQ, hdb, hcell, fun i => by rw [hS i]; exact ⟨rfl, rfl⟩, hperQ,
    fun i => by rw [hS i]; exact hcell, fun i => by rw [hS i], ⟨x, y, z, fun i => by rw [hS i]; rfl, fun i => ?_, ?_⟩,
    l, r, ?_⟩
  · have hfirst : (i = h.first) ↔ (i : ℕ) = 0 := Fin.ext_iff
    simp only [hS i, MpcProvider.new, hfirst]
  · have hsame : (fun i => (S i).mpcProvider.beaverProvider) = bp := funext fun i => by rw [hS i]; rfl
    rwa [hsame]
  · have hsame : (fun i => (S i).mpcProvider.dabitProvider) = dp := funext fun i => by rw [hS i]; rfl
    rwa [hsame]

/-- Two rows or more, and at most `2^32` records. -/
theorem servable (h : Started chacha c q sk S) (hl2 : 2 ≤ c.dbConfig.l2Dim)
    (hsize : c.dbConfig.l1Dim * c.dbConfig.l2Dim ≤ 2^32) :
    ∃ m1 m2, c.dbConfig.l1Dim = 2^m1 ∧ c.dbConfig.l2Dim = 2^m2 ∧ Servable m1 m2 := by
  obtain ⟨m1, m2, h1, h2, hle, -⟩ := h.dims
  rw [h2] at hl2
  rw [h1, h2, ← pow_add] at hsize
  refine ⟨m1, m2, h1, h2, ?_, hle, (Nat.pow_le_pow_iff_right (by decide)).mp hsize⟩
  exact Nat.pos_of_ne_zero fun h0 => by rw [h0] at hl2; omega

variable {G : Type} [AddCommGroup G] [Module Scalar G] [Ristretto G] [LawfulRistretto G]

/-- As many queries as were expected are served to their end: none of them asks for triples or daBits
that are not there. The estimate holds for every query by itself, and its products are exact. -/
theorem preprocessing_suffices (h : Started chacha c q sk S) (hl2 : 2 ≤ c.dbConfig.l2Dim)
    (hsize : c.dbConfig.l1Dim * c.dbConfig.l2Dim ≤ 2^32) {Qs : List (Fin c.peers.length → PRCQuery)}
    (hQs : ∀ Q ∈ Qs, Queries Q (Nat.log 2 c.dbConfig.l1Dim) (Nat.log 2 c.dbConfig.l2Dim)) (hk : Qs.length ≤ q) :
    let bytes := queryBytes (Nat.log 2 c.dbConfig.l1Dim) (Nat.log 2 c.dbConfig.l2Dim)
    let bits := Nat.log 2 c.dbConfig.l1Dim + Nat.log 2 c.dbConfig.l2Dim + 1
    c.beaverPerQ = some ((5*c.dbConfig.l2Dim+1)/2 + (3*c.dbConfig.l1Dim+1)/2 + 96) ∧
      8*bytes ≤ (5*c.dbConfig.l2Dim+1)/2 + (3*c.dbConfig.l1Dim+1)/2 + 96 ∧ bits ≤ 36 ∧
      mulHalves 5 c.dbConfig.l2Dim = 5*c.dbConfig.l2Dim ∧ mulHalves 3 c.dbConfig.l1Dim = 3*c.dbConfig.l1Dim ∧
      Lockstep Msg.kind (wire (G := G)) (fun out => ∀ i,
        (out i).2.mpcProvider.beaverProvider.used = Qs.length*bytes ∧
        (out i).2.mpcProvider.dabitProvider.used = Qs.length*bits) fun i => (S i).serve (Qs.map (· i)) := by
  obtain ⟨m1, m2, h1, h2, hm⟩ := h.servable hl2 hsize
  obtain ⟨db, cell, perQ, -, -, -, hperQ, hS⟩ := h.serving h1 h2
  rw [h1, h2, Nat.log_pow (by decide), Nat.log_pow (by decide)] at hQs ⊢
  intro bytes bits
  have hest := beaverPerQ_eq h1 h2 hm.sum_le
  have hbytes := queryBytes_le m1 m2
  have hperQ' : perQ = (5*2^m2+1)/2 + (3*2^m1+1)/2 + 96 := Option.some.inj (hperQ.symm.trans hest)
  have hsum := hm.sum_le
  have hfit : Qs.length*queryBytes m1 m2 ≤ (q*perQ+7)/8 := queries_fit hk (by omega)
  have hbits : Qs.length*bits ≤ q*36 := Nat.mul_le_mul hk (by omega)
  refine ⟨hest, by omega, by omega, mulHalves_two_pow (by decide) m2, mulHalves_two_pow (by decide) m1, ?_⟩
  apply (serve_lockstep h.parties hS hm hQs (by omega) (by rwa [Nat.zero_add])).mono
  intro out hout i
  obtain ⟨a, b, c', hready⟩ := hout.2.ready
  obtain ⟨l, r, hdabits⟩ := hout.2.dabits
  exact ⟨(hready.beaver.holds i).used_eq.trans (Nat.zero_add _), (hdabits.holds i).used_eq.trans (Nat.zero_add _)⟩

end Started

/-- Nothing but the shape of the database and an overflow keeps the servers from being started. -/
theorem started_exists {seed : Seed} (hn : 2 ≤ c.peers.length) (hq : 1 ≤ q) (hbit : c.dbConfig.dbRecordSize = 1)
    (hseed : c.dbConfig.dbSeed = some seed) (had : PRCDatabase.Admissible 1 c.dbConfig.l2Dim c.dbConfig.l1Dim)
    {perQ : ℕ} (hperQ : c.beaverPerQ = some perQ) (hb : q*perQ < 2^64) (hd : q*36 < 2^64)
    (sk : Fin c.peers.length → SK) : ∃ S, Started chacha c q sk S := by
  obtain ⟨bp, dp, hinit⟩ := SystemConfig.init_succeeds chacha hn hq hperQ hb hd
  have hsome : PRCDatabase.fromConfig chacha c.dbConfig ≠ none := by
    rw [PRCDatabase.fromConfig, hseed, hbit]
    exact fun hnone => (PRCDatabase.fromSeed_eq_none_iff _ _ _ _ _).mp hnone had
  obtain ⟨db, hdb⟩ := Option.ne_none_iff_exists'.mp hsome
  refine ⟨fun i => ⟨i, c, db, Ed25519.verifyingKey (sk i), .new (decide ((i : ℕ) = 0)) (bp i) (dp i), sk i⟩,
    hn, hq, hbit, fun i => ?_⟩
  simp only [PRCServer.newWithMessageHandler, hdb, hinit i, Option.bind_eq_bind, Option.bind_some]

/-- Two servers, eight columns of two rows, and room for the one query that was expected. -/
def smallSystem : SystemConfig := ⟨[⟨0, .replicate 32 100⟩, ⟨1, .replicate 32 101⟩], ⟨1, 8, 2, some (.replicate 32 42)⟩⟩

theorem smallSystem_started : ∃ S, Started (fun _ _ => 0) smallSystem 1 (fun _ => (7 : Scalar)) S :=
  started_exists (by decide) (by decide) rfl rfl ⟨by decide, by decide, by decide, by decide, by decide⟩
    (show smallSystem.beaverPerQ = some 113 by decide) (by decide) (by decide) _

theorem preprocessing_suffices_two : ∃ S : Fin 2 → PRCServer Scalar Scalar,
    Started (fun _ _ => 0) smallSystem 1 (fun _ => 7) S ∧
    let Qs : List (Fin 2 → PRCQuery) := [fun _ => ⟨⟨3, 5, by decide, by decide⟩, ⟨1, 1, by decide, by decide⟩, 0⟩]
    Lockstep Msg.kind (wire (G := Scalar)) (fun out => ∀ i,
      (out i).2.mpcProvider.beaverProvider.used = 3 ∧ (out i).2.mpcProvider.dabitProvider.used = 5)
      fun i => (S i).serve (Qs.map (· i)) := by
  obtain ⟨S, hS⟩ := smallSystem_started
  refine ⟨S, hS, ?_⟩
  intro Qs
  have hlog : Nat.log 2 8 = 3 ∧ Nat.log 2 2 = 1 := by decide
  have hbytes : queryBytes (Nat.log 2 8) (Nat.log 2 2) = 3 := by
    rw [hlog.1, hlog.2]
    simp [queryBytes, oheBytes, BitArray.divCeil_eight]
  have hQs : ∀ Q ∈ Qs, Queries Q (Nat.log 2 8) (Nat.log 2 2) := by
    simp only [Qs, List.mem_singleton, forall_eq, hlog.1, hlog.2]
    exact ⟨fun _ => rfl, fun _ => rfl⟩
  obtain ⟨-, -, -, -, -, hrun⟩ := Started.preprocessing_suffices (G := Scalar) hS (by decide) (by decide) hQs (by decide)
  apply hrun.mono
  intro out hout i
  have hi := hout i
  change _ = 1*queryBytes (Nat.log 2 8) (Nat.log 2 2) ∧ _ = 1*(Nat.log 2 8 + Nat.log 2 2 + 1) at hi
  rwa [hbytes, hlog.1, hlog.2] at hi

end PrivRecCert.Prc
