import PrivRecCert.Prc.Spending
import PrivRecCert.Prc.Stage
import PrivRecCert.Rounds.Hiding
import Mathlib.Logic.Equiv.Fin.Basic

/-! Layers of a party whose peers all work together against it. What the peers hold of a triple fixes the party's share
of `c` once its shares of `a` and `b` are known, so these two are all that is random. They hide what the party routes
into its layers, whatever the peers send. -/
namespace PrivRecCert.SimdArray.D2BitArray

theorem Represents.unique {d e : D2BitArray} {s : ℕ} {fs : List (ℕ → Bool)} (hd : d.Represents s fs)
    (he : e.Represents s fs) : d = e := by
  obtain ⟨l⟩ := d
  obtain ⟨l'⟩ := e
  change List.Forall₂ _ l fs at hd
  change List.Forall₂ _ l' fs at he
  induction hd generalizing l' with
  | nil =>
    cases he
    rfl
  | cons ha _ ih =>
    rcases he with _ | ⟨hb, hrest⟩
    obtain rfl := ha.unique hb
    have htail := ih _ hrest
    rw [mk.injEq] at htail
    rw [htail]

end PrivRecCert.SimdArray.D2BitArray

namespace PrivRecCert.Prc
open CorRnd SimdArray BitArray Rounds Sharing

section Split
variable {m r : ℕ}

/-- The first bytes and the remaining ones. -/
def splitBits (m r : ℕ) : (Fin (8*(m+r)) → Bool) ≃ (Fin (8*m) → Bool) × (Fin (8*r) → Bool) :=
  (Equiv.arrowCongr (finCongr (Nat.mul_add 8 m r)) (.refl Bool)).trans (Fin.appendEquiv (8*m) (8*r)).symm

def splitBlock (m r : ℕ) : Block (m+r) ≃ Block m × Block r :=
  (Equiv.prodCongr (splitBits m r) (splitBits m r)).trans (.prodProdProdComm _ _ _ _)

theorem splitBits_stream (f : Bits) (u : ℕ) : splitBits m r (fun k => f (k + 8*u)) =
    (fun k : Fin (8*m) => f (k + 8*u), fun k : Fin (8*r) => f (k + 8*(u+m))) := by
  refine Prod.ext (funext fun k => rfl) (funext fun k => ?_)
  change f (8*m + k + 8*u) = _
  congr 1
  ring

theorem splitBlock_blockAt (a b : Bits) (u : ℕ) :
    splitBlock m r (blockAt a b u (m+r)) = (blockAt a b u m, blockAt a b (u+m) r) := by
  have ha : splitBits m r (fun k => a (k + 8*u)) = _ := splitBits_stream a u
  have hb : splitBits m r (fun k => b (k + 8*u)) = _ := splitBits_stream b u
  change (((splitBits m r fun k => a (k + 8*u)).1, (splitBits m r fun k => b (k + 8*u)).1),
    (splitBits m r fun k => a (k + 8*u)).2, (splitBits m r fun k => b (k + 8*u)).2) = _
  rw [ha, hb]
  rfl

end Split

/-- What all other parties together hold of the correlated randomness. -/
structure OtherShares where
  a : Bits
  b : Bits
  c : Bits
  rZ2 : Bits
  rZp : ℕ → Scalar

namespace OtherShares
variable (O : OtherShares)

/-- The share of `c` that completes the triples. -/
def ownC (a b : Bits) : Bits := fun k => ((O.a k ^^ a k) && (O.b k ^^ b k)) ^^ O.c k

/-- The share of the scalar that completes daBit number `k`. -/
def ownRZp (k : ℕ) (r : Bool) : Scalar := ofBit (O.rZ2 k ^^ r) - O.rZp k

/-- The provider holds triples that go with those of the others. The next `m` bytes of its `a` and `b` are `B`. -/
def Triples (s used m : ℕ) (bp : BeaverProvider) (B : Block m) : Prop :=
  ∃ a b, bp.Holds s [a, b, O.ownC a b] used ∧ blockAt a b used m = B

/-- The bytes of `c` that go with these bytes of `a` and `b`. -/
def sliceC (used : ℕ) {m : ℕ} (B : Block m) : Bits := fun k =>
  if h : k < 8*m then
    ((O.a (k + 8*used) ^^ B.1 ⟨k, h⟩) && (O.b (k + 8*used) ^^ B.2 ⟨k, h⟩)) ^^ O.c (k + 8*used)
  else false

theorem slice_ownC (a b : Bits) (used m k : ℕ) :
    BeaverProvider.slice (O.ownC a b) used m k = O.sliceC used (blockAt a b used m) k := by
  rw [BeaverProvider.slice, sliceC]
  split_ifs with hk
  · rfl
  · rfl

variable {O} {s used m r : ℕ} {bp bp' : BeaverProvider}

theorem Triples.first {B : Block (m+r)} (h : O.Triples s used (m+r) bp B) :
    O.Triples s used m bp (splitBlock m r B).1 := by
  obtain ⟨a, b, hbp, rfl⟩ := h
  exact ⟨a, b, hbp, by rw [splitBlock_blockAt]⟩

theorem Triples.second {B : Block (m+r)} (h : O.Triples s used (m+r) bp B) (hspends : bp.Spends bp' m) :
    O.Triples s (used+m) r bp' (splitBlock m r B).2 := by
  obtain ⟨a, b, hbp, rfl⟩ := h
  obtain ⟨d, hd, hdr⟩ := hbp.storage
  refine ⟨a, b, ⟨⟨d, hspends.storage.trans hd, hdr⟩, ?_⟩, by rw [splitBlock_blockAt]⟩
  rw [hspends.used, hbp.used_eq]

end OtherShares

namespace Layer
variable {G : Type} {adv : Adversary (Msg G)} {h : List (Rounds.Event (Msg G))} {O : OtherShares} {L L' : Layer}
  {prev prev' : Option Layer} {pc : Bool} {s used l m below : ℕ} {x y x' y' z : Bits} {d d' : D2BitArray} {B : Block m}

/-- A layer that is going to fill its input streams with `x` and `y`. -/
structure Fed (L : Layer) (prev : Option Layer) (l m : ℕ) (x y : Bits) (d : D2BitArray) : Prop where
  state_eq : L.state = .ticketing
  layerNum_eq : L.layerNum = l
  currentSize_eq : L.currentSize = m
  pos : 0 < m
  data : d.Represents (8*m) [x, y, fun _ => false]
  within : ∀ k, 8*m ≤ k → x k = false ∧ y k = false
  loop : ∃ zeros, D2BitArray.zeros 3 (8*m) = some zeros ∧ ∀ K : Layer, K.Loaded l m zeros →
    L.operations.reverse.foldlM (fun L op => L.execOperation op prev) K = some { K with andData := some d }

/-- The gates of a layer say what it is fed. -/
theorem Ticketed.fed {gs : List (Gate Bits)} (hL : L.Ticketed pc l gs) (hgs : ∀ g ∈ gs, g.Valid (l+1) below)
    (hprev : Prev prev (l+1) below z) (hpos : 0 < layerBytes gs) :
    ∃ d, L.Fed prev l (layerBytes gs) (stream false z (fun _ => false) 0 gs)
      (stream true z (fun _ => false) 0 gs) d := by
  obtain ⟨zeros, hzeros, hzr⟩ := D2BitArray.zeros_eq (s := 8*layerBytes gs) 3 (by omega)
  have hrun : ∀ K : Layer, K.Loaded l (layerBytes gs) zeros → ∃ d, L.operations.reverse.foldlM (fun L op =>
      L.execOperation op prev) K = some { K with andData := some d } ∧ d.Represents (8*layerBytes gs)
        [stream false z (fun _ => false) 0 gs, stream true z (fun _ => false) 0 gs, fun _ => false] := fun K hK => by
    have hloop := execLoop_eq hL.operations hgs hprev hK.state_eq hK.layerNum_eq hK.andData_eq
      (by rw [hK.currentSize_eq]; exact hzr) (by rw [hK.currentSize_eq, Nat.zero_add])
    obtain ⟨d, hloop, hd⟩ := hloop
    exact ⟨d, hloop, by rwa [hK.currentSize_eq] at hd⟩
  obtain ⟨d, -, hd⟩ := hrun ⟨false, l, layerBytes gs, .dataInitialized, some zeros, none, []⟩ ⟨rfl, rfl, rfl, rfl⟩
  refine ⟨d, hL.state_eq, hL.layerNum_eq, hL.currentSize_eq, hpos, hd, fun k hk => ?_, zeros, hzeros, fun K hK => ?_⟩
  · exact ⟨stream_of_le _ _ _ _ _ (by rwa [Nat.zero_add]), stream_of_le _ _ _ _ _ (by rwa [Nat.zero_add])⟩
  · obtain ⟨e, hloop, he⟩ := hrun K hK
    rwa [he.unique hd] at hloop

namespace Fed

/-- What is broadcast, and what is made of the lists that come in, in terms of the masks. -/
theorem interact_eq (hL : L.Fed prev l m x y d) (hroom : used + m ≤ (s+7)/8) {bp : BeaverProvider}
    (hbp : O.Triples s used m bp B) : ∃ (bp' : BeaverProvider) (u v e : BitArray),
      (L.interact prev bp : Party G _) = .send (.beaver ⟨⟨[u, v]⟩, le_rfl⟩) (.recv .beaver fun msgs =>
        .lift ((L.blinded d u v e).settle msgs) >>= fun L => .ret (L, bp')) ∧
      u.Represents (8*m) (patch (pad x y m B).1 fun _ => false) ∧
      v.Represents (8*m) (patch (pad x y m B).2 fun _ => false) ∧ e.Represents (8*m) (O.sliceC used B) := by
  obtain ⟨a, b, hbp, rfl⟩ := hbp
  obtain ⟨zeros, hzeros, hloop⟩ := hL.loop
  obtain rfl := hL.layerNum_eq
  obtain rfl := hL.currentSize_eq
  obtain ⟨bp', u, v, e, hinteract, hu, hv, he, -⟩ := interact_of_loop (G := G) hL.state_eq hL.pos hbp hroom hzeros hloop
    hL.data
  have hpatch : ∀ (w : Fin (8*L.currentSize) → Bool) (f : Bits), (∀ k, 8*L.currentSize ≤ k → f k = false) →
      ∀ k, patch w f k = patch w (fun _ => false) k := fun w f hf k => by
    rw [patch, patch]
    split_ifs with hk
    · rfl
    · exact hf k (by omega)
  exact ⟨bp', u, v, e, hinteract, hu.congr (hpatch _ _ fun k hk => (hL.within k hk).1),
    hv.congr (hpatch _ _ fun k hk => (hL.within k hk).2), he.congr fun k => O.slice_ownC a b used _ k⟩

/-- The exchange in terms of what it blinds. -/
theorem interact_masked {u v e : BitArray} (hL : L.Fed prev l m x y d) (hroom : used + m ≤ (s+7)/8)
    {bp : BeaverProvider} (hbp : O.Triples s used m bp B) (hu : u.Represents (8*m) (patch (pad x y m B).1 fun _ => false))
    (hv : v.Represents (8*m) (patch (pad x y m B).2 fun _ => false)) (he : e.Represents (8*m) (O.sliceC used B)) :
    ∃ bp' : BeaverProvider, (L.interact prev bp : Party G _) = .send (.beaver ⟨⟨[u, v]⟩, le_rfl⟩)
      (.recv .beaver fun msgs => .lift ((L.blinded d u v e).settle msgs) >>= fun L => .ret (L, bp')) := by
  obtain ⟨bp', u', v', e', hinteract, hu', hv', he'⟩ := hL.interact_eq (G := G) hroom hbp
  obtain rfl := hu'.unique hu
  obtain rfl := hv'.unique hv
  obtain rfl := he'.unique he
  exact ⟨bp', hinteract⟩

/-- A layer that can be settled ends as a finished layer. -/
theorem finished {u v e u' v' e' : BitArray} {f g c : Bits} {msgs : List (Msg G)} {K : Layer}
    (hL : L.Fed prev l m x y d) (hsettle : (L'.blinded d' u' v' e').settle msgs = some K) (hu' : u'.Represents (8*m) f)
    (hv' : v'.Represents (8*m) g) (hu : u.Represents (8*m) f) (hv : v.Represents (8*m) g) (he : e.Represents (8*m) c) :
    ∃ K, (L.blinded d u v e).settle msgs = some K ∧ ∃ z, K.Finished l m z := by
  obtain ⟨K, z, hK, hfin⟩ := settle_alike hsettle (hu'.alike hu) (hv'.alike hv) hL.currentSize_eq hL.data hu hv he
  rw [hL.layerNum_eq] at hfin
  exact ⟨K, hK, z, hfin⟩

/-- Layers of one size that are fed different streams look the same. -/
theorem interact_hides (hL : L.Fed prev l m x y d) (hL' : L'.Fed prev' l m x' y' d') (hroom : used + m ≤ (s+7)/8) :
    Hides adv (O.Triples s used m) (O.Triples s used m) Prod.fst Prod.fst
      (fun K K' => (∃ z, K.Finished l m z) ∧ ∃ z, K'.Finished l m z) h (fun bp => L.interact prev bp)
      fun bp => L'.interact prev' bp := by
  refine .exchange ((pad x y m).trans (pad x' y' m)) .beaver fun B bp₀ bp₀' hbp₀ hbp₀' => ?_
  have hpad : pad x' y' m (((pad x y m).trans (pad x' y' m)) B) = pad x y m B := (pad x' y' m).left_inv _
  obtain ⟨_, u, v, e, -, hu, hv, he⟩ := hL.interact_eq (G := G) hroom hbp₀
  obtain ⟨_, u', v', e', -, hu', hv', he'⟩ := hL'.interact_eq (G := G) hroom hbp₀'
  rw [hpad] at hu' hv'
  obtain rfl := hu.unique hu'
  obtain rfl := hv.unique hv'
  refine ⟨.beaver ⟨⟨[u, v]⟩, le_rfl⟩, fun msgs => ?_⟩
  -- both layers can be settled with what comes in, or neither can
  have hends : ∃ o : Option (Layer × Layer),
      (∀ K K', o = some (K, K') → (∃ z, K.Finished l m z) ∧ ∃ z, K'.Finished l m z) ∧
      (L.blinded d u v e).settle msgs = o.map Prod.fst ∧ (L'.blinded d' u v e').settle msgs = o.map Prod.snd := by
    cases hsettle : (L.blinded d u v e).settle msgs with
    | some K =>
      obtain ⟨K₁, hK₁, hfin⟩ := hL.finished hsettle hu hv hu hv he
      obtain rfl : K = K₁ := Option.some.inj (hsettle.symm.trans hK₁)
      obtain ⟨K', hK', hfin'⟩ := hL'.finished hsettle hu hv hu hv he'
      refine ⟨some (K, K'), fun K₁ K₁' heq => ?_, rfl, hK'⟩
      obtain ⟨rfl, rfl⟩ := Prod.mk.inj (Option.some.inj heq)
      exact ⟨hfin, hfin'⟩
    | none =>
      refine ⟨none, fun _ _ heq => (by cases heq), rfl, ?_⟩
      cases hsettle' : (L'.blinded d' u v e').settle msgs with
      | none => rfl
      | some K' =>
        obtain ⟨K, hK, -⟩ := hL.finished hsettle' hu hv hu hv he
        rw [hsettle] at hK
        cases hK
  obtain ⟨o, hP, ho, ho'⟩ := hends
  refine ⟨o, hP, fun bp hbp => ?_, fun bp hbp => ?_⟩
  · obtain ⟨bp', hinteract⟩ := hL.interact_masked (G := G) hroom hbp hu hv he
    exact ⟨_, hinteract, Proc.ends_lift (by rw [ho, Option.map_id'])⟩
  · rw [← hpad] at hu hv
    obtain ⟨bp', hinteract⟩ := hL'.interact_masked (G := G) hroom hbp hu hv he'
    exact ⟨_, hinteract, Proc.ends_lift (by rw [ho', Option.map_id'])⟩

end Fed
end Layer

namespace MpcProvider
variable {G : Type} {adv : Adversary (Msg G)} {h : List (Rounds.Event (Msg G))} {O : OtherShares} {Ls Ls' : List Layer}
  {prev prev' : Option Layer} {pc : Bool} {s used k below top : ℕ} {ms : List ℕ}

/-- `k` layers in the order of a run and their sizes. The layer below the first one has `below` bytes, and the last one,
which is the output layer, has `top` bytes. -/
inductive Chain (pc : Bool) (top : ℕ) : ℕ → ℕ → List Layer → List ℕ → Prop
  | nil : Chain pc top 0 top [] []
  | cons {k below m : ℕ} {L : Layer} {gs : List (Gate Bits)} {Ls : List Layer} {ms : List ℕ} (hL : L.Ticketed pc k gs)
      (hgs : ∀ g ∈ gs, g.Valid (k+1) below) (hm : layerBytes gs = m) (hpos : 0 < m) (hrest : Chain pc top k m Ls ms) :
      Chain pc top (k+1) below (L :: Ls) (m :: ms)

open Circuit in
/-- The layers of a circuit without empty layers. -/
theorem Built.chain {p : MpcProvider} {C : Circuit Bits} (hp : p.Built C) (hclosed : C.Closed) (hfull : C.FullFrom 0) :
    Chain p.partyConst (layerBytes (C.layer 0)) p.layers.length 0 p.layers.reverse
      (p.layers.map Layer.currentSize).reverse := by
  have hsteps : ∀ k ≤ C.length, Chain p.partyConst (layerBytes (C.layer 0)) k (layerBytes (C.layer k))
      (p.layers.take k).reverse ((List.map layerBytes C).take k).reverse := by
    intro k
    induction k with
    | zero => exact fun _ => .nil
    | succ k ih =>
      intro hk
      have hlen : k < p.layers.length := hp.length_eq ▸ hk
      have hlayer : C[k] = C.layer k := (List.getD_eq_getElem _ _ hk).symm
      rw [List.take_add_one, List.take_add_one, List.getElem?_eq_getElem hlen, List.getElem?_map,
        List.getElem?_eq_getElem hk, Option.map_some, hlayer]
      simp only [Option.toList_some, List.reverse_append, List.reverse_singleton, List.singleton_append]
      refine .cons (hp.layers k _ (List.getElem?_eq_getElem hlen)) (hclosed k) rfl ?_ (ih (by omega))
      cases hgs : C.layer k with
      | nil => exact absurd hgs (hfull k (Nat.zero_le k) hk)
      | cons g gs =>
        have hg := (hclosed k g (by rw [hgs]; exact List.mem_cons_self)).1
        have hsize := size_le_divCeil g.size
        rw [layerBytes_cons]
        omega
  have hall := hsteps C.length le_rfl
  rwa [layer_of_le le_rfl, layerBytes_nil, ← hp.sizes, ← hp.length_eq, List.take_length,
    List.take_of_length_le (List.length_map _).le] at hall

/-- Runs of layers of the same sizes look the same. -/
theorem runLayers_hides (hC : Chain pc top k below Ls ms) (hC' : Chain pc top k below Ls' ms)
    (hprev : ∃ z, Layer.Prev prev k below z) (hprev' : ∃ z, Layer.Prev prev' k below z)
    (hroom : used + ms.sum ≤ (s+7)/8) :
    Hides adv (O.Triples s used ms.sum) (O.Triples s used ms.sum) Prod.fst Prod.fst
      (fun P P' => (∃ z, Layer.Prev P 0 top z) ∧ ∃ z, Layer.Prev P' 0 top z) h
      (fun bp => runLayers Ls prev bp) fun bp => runLayers Ls' prev' bp := by
  induction hC generalizing Ls' prev prev' used h with
  | nil =>
    cases hC'
    exact .ret ⟨hprev, hprev'⟩ (fun _ _ _ => rfl) fun _ _ _ => rfl
  | @cons k below m L gs Ls ms hL hgs hm hpos _ ih =>
    rcases hC' with _ | ⟨hL', hgs', hm', -, hrest'⟩
    rename_i L' gs' Ls'
    obtain ⟨z, hz⟩ := hprev
    obtain ⟨z', hz'⟩ := hprev'
    obtain ⟨d, hfed⟩ := hL.fed hgs hz (hm ▸ hpos)
    obtain ⟨d', hfed'⟩ := hL'.fed hgs' hz' (hm' ▸ hpos)
    rw [hm] at hfed
    rw [hm'] at hfed'
    rw [List.sum_cons] at hroom ⊢
    have htail : ∀ K K' h', ((∃ z, K.Finished k m z) ∧ ∃ z, K'.Finished k m z) →
        Hides adv (fun (x : BeaverProvider × (Layer × BeaverProvider)) B => x.2.1 = K ∧
            O.Triples s (used+m) ms.sum x.2.2 B)
          (fun (x : BeaverProvider × (Layer × BeaverProvider)) B => x.2.1 = K' ∧ O.Triples s (used+m) ms.sum x.2.2 B)
          Prod.fst Prod.fst (fun P P' => (∃ z, Layer.Prev P 0 top z) ∧
            ∃ z, Layer.Prev P' 0 top z) h'
          (fun x => runLayers Ls (some x.2.1) x.2.2) fun x => runLayers Ls' (some x.2.1) x.2.2 := by
      intro K K' h' hfin
      have hrest := ih (h := h') hrest' (show ∃ z, Layer.Prev (some K) k m z from hfin.1)
        (show ∃ z, Layer.Prev (some K') k m z from hfin.2) (show used + m + ms.sum ≤ (s+7)/8 by omega)
      refine (hrest.comap (fun _ _ hx => hx.2) fun _ _ hx => hx.2).congr (fun x _ hx => ?_) fun x _ hx => ?_
      · rw [hx.1]
      · rw [hx.1]
    exact (hfed.interact_hides hfed' (by omega)).bind (splitBlock m ms.sum) htail
      (fun bp B hB => ⟨hB.first, fun r hr => hB.second (hL.currentSize_eq.trans hm ▸ Layer.interact_spends hr)⟩)
      fun bp B hB => ⟨hB.first, fun r hr => hB.second (hL'.currentSize_eq.trans hm' ▸ Layer.interact_spends hr)⟩

end MpcProvider
end PrivRecCert.Prc
