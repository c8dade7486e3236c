import PrivRecCert.Prc.System
import PrivRecCert.Prc.Channels

/-! Which databases can be served. A database of one row passes the checks of the constructor, but the
index of a row then has no bits, and there is no one-hot array of no bits. -/
namespace PrivRecCert.Prc
open CorRnd SimdArray Rounds
open scoped BigOperators

variable {SK VK Sig G R : Type} [Ed25519 SK VK Sig] [ScalarRng R] [AddCommGroup G] [Module Scalar G] [Ristretto G]
  {chacha : ChaCha8Rng.Keystream} {c : SystemConfig} {q : ℕ}

/-- The client of a system. -/
def SystemConfig.client (c : SystemConfig) : PRCClient := ⟨c.peers.length, c.dbConfig, c⟩

/-- The client's queries for an index can be computed, and no server panics while it answers its query,
however the steps of the servers interleave. -/
def Serves (G : Type) [AddCommGroup G] [Module Scalar G] [Ristretto G] (c : SystemConfig)
    (S : Fin c.peers.length → PRCServer SK VK) (idx : ℕ) (rng : R) : Prop :=
  ∃ (st : PRCClientSt) (Q : Fin c.peers.length → PRCQuery) (rng' : R),
    c.client.queryAllServers idx rng = some ((st, List.ofFn Q), rng') ∧
    ∀ (order : List (Fin c.peers.length)) handlers m, order.Perm (List.finRange c.peers.length) →
      (ChannelManager.new c.peers.length).getHandlers order = some (handlers, m) →
      ∀ s, Reachable (endpoint (G := G) handlers) (fun i => (S i).prcProtocol (Q i)) .new s →
        ∀ i, s.phase i ≠ .panicked

omit [AddCommGroup G] [Module Scalar G] [Ristretto G] in
/-- No index of no bits is encoded. -/
theorem recRetrieve_zero (S : PRCServer SK VK) (l1 : BooleanValue) {l2 : BooleanValue} (h : l2.bitLen = 0) :
    (S.recRetrieve l1 l2 : Party G _) = .fail := by
  have hnone : ∀ mpc : MpcProvider, mpc.oheVec l2 = none := fun mpc => by
    rw [MpcProvider.oheVec, MpcProvider.recursiveOheVec, dif_pos h]
  rw [PRCServer.recRetrieve]
  cases S.mpcProvider.oheVec l1 with
  | none => rfl
  | some p =>
    change Proc.lift (p.2.oheVec l2) >>= _ = _
    rw [hnone]
    rfl

theorem prcProtocol_zero (S : PRCServer SK VK) {query : PRCQuery} (h : query.l2Bss.bitLen = 0) :
    (S.prcProtocol query : Party G _) = .fail := by
  rw [PRCServer.prcProtocol, PRCServer.prcProtocolShare, recRetrieve_zero S query.l1Bss h]
  rfl

variable {sk : Fin c.peers.length → SK} {S : Fin c.peers.length → PRCServer SK VK} {idx : ℕ}

/-- Programs that run in lockstep run well over handlers that were made in any order. -/
theorem lockstep_good [LawfulRistretto G] {n : ℕ} {α : Type} {P : (Fin n → α) → Prop} {procs : Fin n → Party G α}
    (hn : n ≤ 256) (h : Lockstep Msg.kind wire P procs) {order : List (Fin n)} (horder : order.Perm (List.finRange n)) :
    ∃ handlers m, (ChannelManager.new n).getHandlers order = some (handlers, m) ∧
      ∀ s, Reachable (endpoint handlers) procs .new s → s.Good (endpoint handlers) Msg.kind wire P := by
  obtain ⟨handlers, m, hm, hconn⟩ := ChannelManager.getHandlers_eq
    (horder.nodup_iff.mpr (List.nodup_finRange n)) fun a _ => ChannelManager.holds_new a (List.finRange n)
  have hlaw := endpoint_lawful (G := G) hn fun a => hconn a (horder.mem_iff.mpr (List.mem_finRange a))
  exact ⟨handlers, m, hm, fun s hs => h.network hlaw (funext fun kd => by cases kd <;> rfl) hs⟩

/-- With a single row, the client fails or the servers do. -/
theorem not_serves_one (h : Started chacha c q sk S) (hl2 : c.dbConfig.l2Dim < 2)
    (hsize : c.dbConfig.l1Dim * c.dbConfig.l2Dim ≤ 2^32) (hidx : idx < c.dbConfig.l1Dim * c.dbConfig.l2Dim) (rng : R) :
    ¬ Serves G c S idx rng := by
  rintro ⟨st, Q, rng', hquery, hno⟩
  obtain ⟨m1, m2, h1, h2, -, -⟩ := h.dims
  have hm2 : m2 = 0 := by
    by_contra h0
    have hpow : 2^1 ≤ 2^m2 := Nat.pow_le_pow_right (by decide) (by omega)
    omega
  subst hm2
  have hm1 : m1 ≤ 32 := by
    rw [h1, h2, pow_zero, mul_one] at hsize
    exact (Nat.pow_le_pow_iff_right (by decide)).mp hsize
  have hlt := PRCClient.log_lt_of_query (c := c.client) h1 (by omega) hquery
  have hparties := h.parties
  obtain ⟨st', Q', rng₂, hquery', hQ, -⟩ := PRCClient.queryAllServers_eq (c := c.client) h1 h2 hlt
    (by decide) (by change 1 ≤ c.peers.length; omega) rfl (by rw [h1, h2] at hidx; exact hidx) rng
  rw [hquery, Option.some.injEq, Prod.mk.injEq, Prod.mk.injEq] at hquery'
  obtain rfl : Q = Q' := List.ofFn_injective hquery'.1.2
  obtain ⟨handlers, m, hm, -⟩ := ChannelManager.getHandlers_eq (List.nodup_finRange c.peers.length)
    fun a _ => ChannelManager.holds_new a (List.finRange c.peers.length)
  have hfail := prcProtocol_zero (G := G) (S h.first) (hQ.l2_len h.first)
  have hstep := Step.crash (E := endpoint (G := G) handlers)
    (s := Net.init (fun i => ((S i).prcProtocol (Q i) : Party G (Option (PRCToken G Sig) × _))) .new) h.first
    (congrArg Phase.ready hfail)
  exact hno _ handlers m (.refl _) hm _ (.single hstep) h.first (by simp only [Function.update_self])

/-- With two rows or more, everything is served. -/
theorem serves_of_two_le [LawfulRistretto G] (h : Started chacha c q sk S) (hn : c.peers.length ≤ 256)
    (hl2 : 2 ≤ c.dbConfig.l2Dim) (hsize : c.dbConfig.l1Dim * c.dbConfig.l2Dim ≤ 2^32)
    (hidx : idx < c.dbConfig.l1Dim * c.dbConfig.l2Dim) (rng : R) : Serves G c S idx rng := by
  obtain ⟨m1, m2, h1, h2, hm⟩ := h.servable hl2 hsize
  obtain ⟨db, cell, perQ, -, -, -, hperQ, hS⟩ := h.serving h1 h2
  have hone := hm.one_le
  have hle := hm.le
  have hsum := hm.sum_le
  have hparties := h.parties
  have hexpected := h.expected
  rw [h1, h2] at hidx
  obtain ⟨st, Q, rng', hquery, hQ, -⟩ := PRCClient.queryAllServers_eq (c := c.client) h1 h2 (by omega) (by omega)
    (by change 1 ≤ c.peers.length; omega) rfl hidx rng
  have hfit : 1*queryBytes m1 m2 ≤ (q*perQ+7)/8 := by
    apply queries_fit hexpected
    have hbytes := queryBytes_le m1 m2
    have hest := Option.some.inj (hperQ.symm.trans (beaverPerQ_eq h1 h2 hsum))
    omega
  refine ⟨st, Q, rng', hquery, fun order handlers m horder hm' s hs => ?_⟩
  have hrun : Lockstep Msg.kind wire (fun _ => True) fun i =>
      ((S i).prcProtocol (Q i) : Party G (Option (PRCToken G Sig) × _)) :=
    (prcProtocolShare_lockstep hparties hS hQ hm (by omega) (by omega)).bind fun _ _ => .ret trivial
  obtain ⟨handlers', m', hm'', hgood⟩ := lockstep_good hn hrun horder
  obtain rfl : handlers = handlers' := congrArg Prod.fst (Option.some.inj (hm'.symm.trans hm''))
  exact (hgood s hs).no_panic

/-- A database that its constructor accepts can be served exactly if it has two rows or more. -/
theorem Started.serves_iff [LawfulRistretto G] (h : Started chacha c q sk S) (hn : c.peers.length ≤ 256)
    (hsize : c.dbConfig.l1Dim * c.dbConfig.l2Dim ≤ 2^32) (hidx : idx < c.dbConfig.l1Dim * c.dbConfig.l2Dim) (rng : R) :
    Serves G c S idx rng ↔ 2 ≤ c.dbConfig.l2Dim := by
  refine ⟨fun hserves => ?_, fun hl2 => serves_of_two_le h hn hl2 hsize hidx rng⟩
  by_contra hl2
  exact not_serves_one h (by omega) hsize hidx rng hserves

/-- A generator that draws zeros. -/
def zeroRng : ChaCha8Rng := ⟨fun _ => 0, 0⟩

theorem serves_iff_two : ∃ S : Fin 2 → PRCServer Scalar Scalar, Started (fun _ _ => 0) smallSystem 1 (fun _ => 7) S ∧
    Serves Scalar smallSystem S 13 zeroRng := by
  obtain ⟨S, hS⟩ := smallSystem_started
  exact ⟨S, hS, (Started.serves_iff hS (by decide) (by decide) (by decide) zeroRng).mpr (by decide)⟩

/-- Two servers and a single row of eight columns. -/
def flatSystem : SystemConfig := ⟨smallSystem.peers, ⟨1, 8, 1, some (.replicate 32 42)⟩⟩

/-- The servers start on a single row, and no index of it can be asked for. -/
theorem flatSystem_unserved : ∃ S : Fin 2 → PRCServer Scalar Scalar,
    Started (fun _ _ => 0) flatSystem 1 (fun _ => 7) S ∧ ¬ Serves Scalar flatSystem S 0 zeroRng := by
  obtain ⟨S, hS⟩ := started_exists (c := flatSystem) (q := 1) (by decide) (by decide) rfl rfl
    ⟨by decide, by decide, by decide, by decide, by decide⟩ (show flatSystem.beaverPerQ = some 111 by decide)
    (by decide) (by decide) (fun _ => (7 : Scalar))
  exact ⟨S, hS, not_serves_one hS (by decide) (by decide) (by decide) zeroRng⟩

end PrivRecCert.Prc
