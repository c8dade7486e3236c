import PrivRecCert.Prc.FrameSizes

/-! What a query uses up. Whatever the peers send, a server that gets to the end of a query has taken as many triples
and daBits as any other, and has changed nothing else that outlasts the query. -/
namespace PrivRecCert.CorRnd

/-- The second provider is the first one after `m` bytes of it have been handed out. -/
structure BeaverProvider.Spends (p p' : BeaverProvider) (m : ℕ) : Prop where
  storage : p'.beaverStorage = p.beaverStorage
  used : p'.used = p.used + m
  lastReport : p'.lastReport = p.lastReport
  fits : ∀ d, p.beaverStorage = some d → p.used ≤ d.innerByteSize → p'.used ≤ d.innerByteSize

namespace BeaverProvider.Spends
variable {p p' p'' : BeaverProvider} {m m' : ℕ} {d : SimdArray.D2BitArray}

theorem refl (p : BeaverProvider) : p.Spends p 0 := ⟨rfl, rfl, rfl, fun _ _ h => h⟩

theorem trans (h : p.Spends p' m) (h' : p'.Spends p'' m') : p.Spends p'' (m + m') where
  storage := h'.storage.trans h.storage
  used := by rw [h'.used, h.used, Nat.add_assoc]
  lastReport := h'.lastReport.trans h.lastReport
  fits d hd hle := h'.fits d (h.storage.trans hd) (h.fits d hd hle)

theorem of_take (h : p.take m = some (d, p')) : p.Spends p' m := by
  obtain ⟨storage, hstorage, h⟩ := Option.bind_eq_some_iff.mp h
  split_ifs at h with hfits
  obtain ⟨result, -, h⟩ := Option.bind_eq_some_iff.mp h
  obtain ⟨-, rfl⟩ := Prod.mk.inj (Option.some.inj h)
  refine ⟨rfl, rfl, rfl, fun d hd _ => ?_⟩
  obtain rfl := Option.some.inj (hstorage.symm.trans hd)
  exact hfits

end BeaverProvider.Spends

/-- The second provider is the first one after `m` daBits of it have been handed out. -/
structure DaBitProvider.Spends (p p' : DaBitProvider) (m : ℕ) : Prop where
  storage : p'.daBitStorage = p.daBitStorage
  used : p'.used = p.used + m
  lastReport : p'.lastReport = p.lastReport
  fits : ∀ l, p.daBitStorage = some l → p.used ≤ l.length → p'.used ≤ l.length

namespace DaBitProvider.Spends
variable {p p' p'' : DaBitProvider} {m m' : ℕ} {l : List DaBit}

theorem refl (p : DaBitProvider) : p.Spends p 0 := ⟨rfl, rfl, rfl, fun _ _ h => h⟩

theorem trans (h : p.Spends p' m) (h' : p'.Spends p'' m') : p.Spends p'' (m + m') where
  storage := h'.storage.trans h.storage
  used := by rw [h'.used, h.used, Nat.add_assoc]
  lastReport := h'.lastReport.trans h.lastReport
  fits l hl hle := h'.fits l (h.storage.trans hl) (h.fits l hl hle)

theorem of_take (h : p.take m = some (l, p')) : p.Spends p' m := by
  obtain ⟨storage, hstorage, h⟩ := Option.bind_eq_some_iff.mp h
  split_ifs at h with hfits
  obtain ⟨-, rfl⟩ := Prod.mk.inj (Option.some.inj h)
  refine ⟨rfl, rfl, rfl, fun l hl _ => ?_⟩
  obtain rfl := Option.some.inj (hstorage.symm.trans hl)
  exact hfits

end DaBitProvider.Spends
end PrivRecCert.CorRnd

namespace PrivRecCert.Prc
open CorRnd SimdArray Rounds Circuit

variable {G : Type}

/-- A layer takes a triple for each of its bits. -/
theorem Layer.interact_spends {L L' : Layer} {prev : Option Layer} {bp bp' : BeaverProvider}
    (h : (L.interact (G := G) prev bp).Yields (L', bp')) : bp.Spends bp' L.currentSize := by
  obtain ⟨⟨L₁, bp₁⟩, hend, h⟩ := Proc.yields_bind h
  obtain ⟨_, -, h⟩ := Proc.yields_bind h
  obtain ⟨_, -, h⟩ := Proc.yields_bind h
  obtain ⟨_, -, h⟩ := Proc.yields_bind h
  obtain ⟨_, -, h⟩ := Proc.yields_bind h
  obtain ⟨_, -, h⟩ := Proc.yields_bind h
  obtain ⟨_, -, h⟩ := Proc.yields_bind h
  obtain ⟨_, -, h⟩ := Proc.yields_bind h
  obtain ⟨-, rfl⟩ := Prod.mk.inj (Proc.yields_ret h)
  have hend := Proc.yields_lift hend
  unfold Layer.endTicketingPhase at hend
  split_ifs at hend
  obtain ⟨zeros, -, hend⟩ := Option.bind_eq_some_iff.mp hend
  obtain ⟨⟨taken, bp₂⟩, htake, hend⟩ := Option.bind_eq_some_iff.mp hend
  obtain ⟨-, rfl⟩ := Prod.mk.inj (Option.some.inj hend)
  exact .of_take htake

theorem ConvLayer.interact_spends {c : ConvLayer} {values : List BooleanValue} {dp dp' : DaBitProvider}
    {arith : List ArithValueT} (h : (c.interact (G := G) values dp).Yields (arith, dp')) :
    dp.Spends dp' (totalBits values) := by
  obtain ⟨_, -, h⟩ := Proc.yields_bind h
  obtain ⟨_, -, h⟩ := Proc.yields_bind h
  obtain ⟨⟨dabits, dp₁⟩, htake, h⟩ := Proc.yields_bind h
  obtain ⟨_, -, h⟩ := Proc.yields_bind h
  obtain ⟨_, -, h⟩ := Proc.yields_bind h
  obtain ⟨_, -, h⟩ := Proc.yields_bind h
  obtain ⟨_, -, h⟩ := Proc.yields_bind h
  obtain ⟨_, -, h⟩ := Proc.yields_bind h
  obtain ⟨_, -, h⟩ := Proc.yields_bind h
  obtain ⟨_, -, h⟩ := Proc.yields_bind h
  obtain ⟨-, rfl⟩ := Prod.mk.inj (Proc.yields_ret h)
  exact .of_take (Proc.yields_lift htake)

namespace MpcProvider
variable {p p' : MpcProvider}

theorem runLayers_spends {layers : List Layer} {prev out : Option Layer} {bp bp' : BeaverProvider}
    (h : (runLayers (G := G) layers prev bp).Yields (out, bp')) : bp.Spends bp' (layers.map Layer.currentSize).sum := by
  induction layers generalizing prev bp with
  | nil =>
    obtain ⟨-, rfl⟩ := Prod.mk.inj (Proc.yields_ret h)
    exact .refl bp'
  | cons L layers ih =>
    obtain ⟨⟨L', bp₁⟩, hL, h⟩ := Proc.yields_bind h
    rw [List.map_cons, List.sum_cons]
    exact (Layer.interact_spends hL).trans (ih h)

theorem run_spends (h : (p.run (G := G)).Yields p') :
    p.beaverProvider.Spends p'.beaverProvider (p.layers.map Layer.currentSize).sum ∧
      p'.dabitProvider = p.dabitProvider := by
  obtain ⟨⟨out, bp'⟩, hrun, h⟩ := Proc.yields_bind h
  obtain rfl := Proc.yields_ret h
  have hspends := runLayers_spends hrun
  rw [List.map_reverse, List.sum_reverse] at hspends
  exact ⟨hspends, rfl⟩

theorem allRelaying_nil (hp : p.layers = []) : p.AllRelaying := by
  intro l L hL
  rw [hp] at hL
  cases hL

end MpcProvider

/-- Both one-hot circuits together. -/
theorem layerSizes_sum (m1 m2 : ℕ) : (layerSizes m1 m2).sum = oheBytes m1 + oheBytes m2 := by
  have hone := totalBytes_oheGates (fun _ => ()) 0 0 m1 []
  have htwo := totalBytes_oheGates (fun _ => ()) 0 0 m2 (oheGates (fun _ => ()) 0 0 m1 []).2
  rw [hone] at htwo
  exact htwo.trans (congrArg (· + oheBytes m2) (Nat.zero_add _))

namespace PRCServer
variable {SK VK Sig : Type} {S S' S'' : PRCServer SK VK} {bytes bytes' bits bits' m1 m2 : ℕ}

/-- The second server is the first one after it has used up so many triples and so many daBits. -/
structure Spends (S S' : PRCServer SK VK) (bytes bits : ℕ) : Prop where
  rest : S' = { S with mpcProvider := S'.mpcProvider }
  beaver : S.mpcProvider.beaverProvider.Spends S'.mpcProvider.beaverProvider bytes
  dabit : S.mpcProvider.dabitProvider.Spends S'.mpcProvider.dabitProvider bits

theorem Spends.refl (S : PRCServer SK VK) : S.Spends S 0 0 := ⟨rfl, .refl _, .refl _⟩

theorem Spends.trans (h : S.Spends S' bytes bits) (h' : S'.Spends S'' bytes' bits') :
    S.Spends S'' (bytes + bytes') (bits + bits') where
  rest := by rw [h'.rest, h.rest]
  beaver := h.beaver.trans h'.beaver
  dabit := h.dabit.trans h'.dabit

theorem recRetrieve_spends (hS : S.Idle m2) {l1 l2 : BooleanValue} (h1 : l1.bitLen = m1) (h2 : l2.bitLen = m2)
    (hm1 : 1 ≤ m1) (hm2 : 1 ≤ m2) {share : Bool} (h : (S.recRetrieve (G := G) l1 l2).Yields (share, S')) :
    S.Spends S' (queryBytes m1 m2) 0 := by
  subst h1 h2
  obtain ⟨⟨x, p₁⟩, hx, h⟩ := Proc.yields_bind h
  obtain ⟨⟨y, p₂⟩, hy, h⟩ := Proc.yields_bind h
  obtain ⟨p₃, hfirst, h⟩ := Proc.yields_bind h
  obtain ⟨o₁, -, h⟩ := Proc.yields_bind h
  obtain ⟨o₂, -, h⟩ := Proc.yields_bind h
  obtain ⟨ans, hans, h⟩ := Proc.yields_bind h
  have hx := Proc.yields_lift hx
  have hy := Proc.yields_lift hy
  obtain ⟨hrelaying, hbase₁, -⟩ := MpcProvider.call_relaying (c := .oheVec l1) (MpcProvider.allRelaying_nil hS.layers) hx
  obtain ⟨-, hbase₂, -⟩ := MpcProvider.call_relaying (c := .oheVec l2) hrelaying hy
  have hbase := hbase₁.trans hbase₂
  obtain ⟨hspends, hdabit⟩ := MpcProvider.run_spends hfirst
  rw [MpcProvider.oheVec_sizes hS.layers hm1 hm2 hx hy, layerSizes_sum, hbase] at hspends
  rw [hbase] at hdabit
  split_ifs at h
  · obtain ⟨⟨z, p₄⟩, hz, h⟩ := Proc.yields_bind h
    obtain ⟨p₅, hsecond, h⟩ := Proc.yields_bind h
    obtain ⟨_, -, h⟩ := Proc.yields_bind h
    obtain ⟨_, -, h⟩ := Proc.yields_bind h
    obtain ⟨-, rfl⟩ := Prod.mk.inj (Proc.yields_ret h)
    have hz := Proc.yields_lift hz
    obtain ⟨-, hbase₄, -⟩ := MpcProvider.call_relaying (c := .and ans.bitSize (.input ans) (.input o₂))
      (MpcProvider.allRelaying_nil (p := p₃.clear) rfl) hz
    obtain ⟨hspends₂, hdabit₂⟩ := MpcProvider.run_spends hsecond
    rw [MpcProvider.and_sizes rfl hz, PRCDatabase.lvl1PirRetrieve_bitSize (Proc.yields_lift hans), hS.l2Dim,
      List.sum_singleton, BitArray.divCeil_eight, hbase₄] at hspends₂
    rw [hbase₄] at hdabit₂
    refine ⟨rfl, hspends.trans hspends₂, ?_⟩
    change S.mpcProvider.dabitProvider.Spends p₅.dabitProvider 0
    rw [hdabit₂]
    change S.mpcProvider.dabitProvider.Spends p₃.dabitProvider 0
    rw [hdabit]
    exact .refl _
  · obtain ⟨ls, out, h⟩ := h
    cases h

variable [AddCommGroup G] [Module Scalar G] [Ristretto G] [Ed25519 SK VK Sig]

theorem certify_spends {query : PRCQuery} (h1 : query.l1Bss.bitLen = m1) (h2 : query.l2Bss.bitLen = m2) {share : Bool}
    {token : Option (PRCToken G Sig)} (h : (S.certify query share).Yields (token, S')) :
    S.Spends S' 0 (m1 + m2 + 1) := by
  obtain ⟨joined, hjoined, h⟩ := Proc.yields_bind h
  obtain ⟨record, hrecord, h⟩ := Proc.yields_bind h
  obtain ⟨⟨arith, S₁⟩, hconv, h⟩ := Proc.yields_bind h
  obtain ⟨_, -, h⟩ := Proc.yields_bind h
  obtain ⟨_, -, h⟩ := Proc.yields_bind h
  obtain ⟨_, -, h⟩ := Proc.yields_bind h
  obtain ⟨-, rfl⟩ := Prod.mk.inj (Proc.yields_ret h)
  obtain ⟨⟨arith', p₁⟩, hrun, hret⟩ := Proc.yields_bind hconv
  obtain ⟨-, rfl⟩ := Prod.mk.inj (Proc.yields_ret hret)
  obtain ⟨⟨arith'', dp⟩, hinteract, hret⟩ := Proc.yields_bind hrun
  obtain ⟨-, rfl⟩ := Prod.mk.inj (Proc.yields_ret hret)
  have htotal : ConvLayer.totalBits [joined, record] = m1 + m2 + 1 := by
    simp [ConvLayer.totalBits, joinBoolean_bitLen (Proc.yields_lift hjoined),
      BooleanValue.new_bitLen (Proc.yields_lift hrecord), h1, h2]
  have hspends := ConvLayer.interact_spends hinteract
  rw [htotal] at hspends
  exact ⟨rfl, .refl _, hspends⟩

/-- A query uses up triples for both one-hot circuits and the second level, and a daBit for each bit of the index and
for the record bit. -/
theorem prcProtocolShare_spends (hS : S.Idle m2) {query : PRCQuery} (h1 : query.l1Bss.bitLen = m1)
    (h2 : query.l2Bss.bitLen = m2) (hm1 : 1 ≤ m1) (hm2 : 1 ≤ m2) {out : Bool × Option (PRCToken G Sig)}
    (h : (S.prcProtocolShare query).Yields (out, S')) : S.Spends S' (queryBytes m1 m2) (m1 + m2 + 1) := by
  obtain ⟨⟨share, S₁⟩, hretrieve, h⟩ := Proc.yields_bind h
  obtain ⟨⟨token, S₂⟩, hcertify, h⟩ := Proc.yields_bind h
  obtain ⟨-, rfl⟩ := Prod.mk.inj (Proc.yields_ret h)
  have hspends := (recRetrieve_spends hS h1 h2 hm1 hm2 hretrieve).trans (certify_spends h1 h2 hcertify)
  rwa [Nat.add_zero, Nat.zero_add] at hspends

theorem prcProtocol_spends (hS : S.Idle m2) {query : PRCQuery} (h1 : query.l1Bss.bitLen = m1)
    (h2 : query.l2Bss.bitLen = m2) (hm1 : 1 ≤ m1) (hm2 : 1 ≤ m2) {token : Option (PRCToken G Sig)}
    (h : (S.prcProtocol query).Yields (token, S')) : S.Spends S' (queryBytes m1 m2) (m1 + m2 + 1) := by
  obtain ⟨⟨out, S₁⟩, hshare, h⟩ := Proc.yields_bind h
  obtain ⟨-, rfl⟩ := Prod.mk.inj (Proc.yields_ret h)
  exact prcProtocolShare_spends hS h1 h2 hm1 hm2 hshare

end PRCServer
end PrivRecCert.Prc
