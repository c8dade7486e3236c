import PrivRecCert.Prc.Mpc
import PrivRecCert.Prc.LayerSpec

/-! A run of the engine at all parties. The parties hold shares of one circuit: routing adds up to
the routing of the plain circuit, and one exchange of blinded streams turns shares of the inputs
of a layer into shares of its outputs. -/
namespace PrivRecCert.Prc
open CorRnd SimdArray Rounds Sharing BeaverProvider
open scoped BigOperators

variable {n : ℕ}

/-- The providers hold shares of triples `a·b = c`, of which `used` bytes are gone. -/
structure BeaverShares (bp : Fin n → BeaverProvider) (s : ℕ) (a b c : Fin n → Bits) (used : ℕ) : Prop where
  holds : ∀ i, (bp i).Holds s [a i, b i, c i] used
  triple : ∀ k, (plain a k && plain b k) = plain c k

theorem plain_slice (f : Fin n → Bits) (u m k : ℕ) :
    plain (fun i => slice (f i) u m) k = slice (plain f) u m k := by
  by_cases h : k < 8*m
  · exact (Finset.sum_congr rfl fun i _ => if_pos h).trans (if_pos h).symm
  · exact ((Finset.sum_congr rfl fun i _ => if_neg h).trans Finset.sum_const_zero).trans (if_neg h).symm

/-- The parties' shares of a layer's outputs, from the opened differences to the masks. -/
theorem plain_andShare {p : Fin n} {a b c x y u v : Fin n → Bits} {used m : ℕ}
    (hu : ∀ i k, u i k = (slice (a i) used m k ^^ x i k)) (hv : ∀ i k, v i k = (slice (b i) used m k ^^ y i k))
    (htriple : ∀ k, (plain a k && plain b k) = plain c k) (k : ℕ) :
    plain (fun i => Layer.andShare (decide (i = p)) (x i) (y i) (plain u) (plain v) (slice (c i) used m)) k =
      (plain x k && plain y k) := by
  have hslice : (plain (fun i => slice (a i) used m) k && plain (fun i => slice (b i) used m) k) =
      plain (fun i => slice (c i) used m) k := by
    simp only [plain_slice, slice]
    split_ifs
    · exact htriple _
    · rfl
  have hsum : ∀ {f g h : Fin n → Bits}, (∀ i k, h i k = (g i k ^^ f i k)) → plain h k = ∑ i, (f i k + g i k) :=
    fun hh => Finset.sum_congr rfl fun i _ => (hh i k).trans (Bool.xor_comm _ _)
  refine Eq.trans (Finset.sum_congr rfl fun i _ => ?_) (sum_beaver p (fun i => x i k) (fun i => y i k)
    (fun i => slice (a i) used m k) (fun i => slice (b i) used m k) (fun i => slice (c i) used m k)
    (hsum hu) (hsum hv) hslice)
  by_cases hi : i = p
  · simp only [Layer.andShare, hi, decide_true, if_true]
    rfl
  · simp only [Layer.andShare, hi, decide_false, if_false]
    rfl

variable {G : Type}

section Run
variable [AddCommGroup G] [Module Scalar G] [Ristretto G] [LawfulRistretto G]

/-- One layer at all parties turns shares of its inputs into shares of their conjunction. -/
theorem interact_lockstep {p : Fin n} {l below s used : ℕ} {gs : List (Gate (Fin n → Bits))}
    {L : Fin n → Layer} {prev : Fin n → Option Layer} {z a b c : Fin n → Bits}
    {bp : Fin n → BeaverProvider}
    (hL : ∀ i, (L i).Ticketed (decide (i = p)) l (gs.map (Gate.map (· i))))
    (hgs : ∀ g ∈ gs, g.Valid (l+1) below) (hprev : ∀ i, Layer.Prev (prev i) (l+1) below (z i))
    (hm : 0 < layerBytes gs) (hm' : 8*layerBytes gs < 2^32) (hbp : BeaverShares bp s a b c used)
    (hroom : used + layerBytes gs ≤ (s+7)/8) :
    Lockstep Msg.kind (wire (G := G)) (fun out => ∃ z' : Fin n → Bits,
      (∀ i, (out i).1.Finished l (layerBytes gs) (z' i)) ∧
      (∀ k, plain z' k = (stream false (plain z) (fun _ => false) 0 (gs.map (Gate.map plain)) k &&
        stream true (plain z) (fun _ => false) 0 (gs.map (Gate.map plain)) k)) ∧
      BeaverShares (fun i => (out i).2) s a b c (used + layerBytes gs))
      fun i => (L i).interact (prev i) (bp i) := by
  set m := layerBytes gs with hmdef
  let x (i : Fin n) : Bits := stream false (z i) (fun _ => false) 0 (gs.map (Gate.map (· i)))
  let y (i : Fin n) : Bits := stream true (z i) (fun _ => false) 0 (gs.map (Gate.map (· i)))
  let u (i : Fin n) : Bits := fun k => slice (a i) used m k ^^ x i k
  let v (i : Fin n) : Bits := fun k => slice (b i) used m k ^^ y i k
  have hparty := fun i => Layer.interact_eq (G := G) (hL i)
    (fun g hg => by
      obtain ⟨g', hg', rfl⟩ := List.mem_map.mp hg
      exact (Gate.valid_map _ _ _ g').mpr (hgs g' hg'))
    (hprev i) (by rwa [layerBytes_map]) (hbp.holds i) (by rwa [layerBytes_map])
  simp only [layerBytes_map, ← hmdef] at hparty
  choose d k hint hdr hcont using hparty
  -- no stream reaches past the bytes that a frame carries
  have hzero : ∀ (f : Bits) (q : Bool) i k, 8*m ≤ k →
      (slice f used m k ^^ stream q (z i) (fun _ => false) 0 (gs.map (Gate.map (· i))) k) = false := by
    intro f q i k hk
    rw [stream_of_le _ _ _ _ _ (by rw [layerBytes_map, Nat.zero_add]; exact hk), slice,
      if_neg (by omega)]
    rfl
  have hwire := fun i => wire_beaver i (G := G) (hdr i) hm'
  choose e he her using hwire
  have hmsg : ∀ j, Layer.BeaverMsg m (Msg.beaver (G := G) (e j)) (u j, v j) := fun j => by
    refine ⟨e j, rfl, ?_⟩
    have huj : clip (8*m) (u j) = u j := funext (clip_of_zero (hzero (a j) false j))
    have hvj : clip (8*m) (v j) = v j := funext (clip_of_zero (hzero (b j) true j))
    have hj := her j
    change (e j).1.Represents (8*m) [clip (8*m) (u j), clip (8*m) (v j)] at hj
    rwa [huj, hvj] at hj
  refine .round (fun i => .beaver (d i)) (fun i => .beaver (e i)) .beaver k hint (fun _ => rfl) he
    fun dl hdl => ?_
  -- every party opens the same `u` and `v`
  have hfinish : ∀ i, ∃ L' bp', k i (dl i) = .ret (L', bp') ∧
      L'.Finished l m (Layer.andShare (decide (i = p)) (x i) (y i) (plain u) (plain v)
        (slice (c i) used m)) ∧ bp'.Holds s [a i, b i, c i] (used+m) := by
    intro i
    obtain ⟨fgs, hfgs, hperm⟩ := forall₂_of_perm hmsg (hdl i)
    have hfst : (fgs.map Prod.fst).Perm ((peers i).map u) := by
      simpa [Function.comp_def] using hperm.map Prod.fst
    have hsnd : (fgs.map Prod.snd).Perm ((peers i).map v) := by
      simpa [Function.comp_def] using hperm.map Prod.snd
    obtain ⟨L', bp', hret, hfin, hbp'⟩ := hcont i (dl i) fgs hfgs
    refine ⟨L', bp', hret, ?_, hbp'⟩
    have hu : opened (u i) (fgs.map Prod.fst) = plain u := opened_eq hfst
    have hv : opened (v i) (fgs.map Prod.snd) = plain v := opened_eq hsnd
    rw [← hu, ← hv]
    exact hfin
  choose L' bp' hret hfin hbp' using hfinish
  refine .done (fun i => (L' i, bp' i)) hret ⟨_, hfin, fun k => ?_, hbp', hbp.triple⟩
  have hx : plain x k = stream false (plain z) (fun _ => false) 0 (gs.map (Gate.map plain)) k :=
    stream_plain false z gs 0 k
  have hy : plain y k = stream true (plain z) (fun _ => false) 0 (gs.map (Gate.map plain)) k :=
    stream_plain true z gs 0 k
  rw [← hx, ← hy]
  exact plain_andShare (fun _ _ => rfl) (fun _ _ => rfl) hbp.triple k

/-- The layers of all parties, deepest first, turn shares of the inputs of a circuit into shares
of its outputs. `D` holds the layers that have been run already. -/
theorem runLayers_lockstep {p : Fin n} {s used : ℕ} {a b c : Fin n → Bits}
    (C D : Circuit (Fin n → Bits)) (hclosed : Circuit.Closed (C ++ D))
    (hpos : ∀ l < C.length, 0 < layerBytes (Circuit.layer (C ++ D) l))
    (hsize : ∀ l < C.length, 8*layerBytes (Circuit.layer (C ++ D) l) < 2^32)
    {ls : Fin n → List Layer} {prev : Fin n → Option Layer} {z : Fin n → Bits}
    {bp : Fin n → BeaverProvider} (hlen : ∀ i, (ls i).length = C.length)
    (hls : ∀ i l (L : Layer), (ls i)[l]? = some L →
      L.Ticketed (decide (i = p)) l ((Circuit.layer C l).map (Gate.map (· i))))
    (hprev : ∀ i, Layer.Prev (prev i) C.length (layerBytes (Circuit.layer D 0)) (z i))
    (hz : ∀ k, plain z k = Circuit.eval (Circuit.map plain D) k)
    (hbp : BeaverShares bp s a b c used) (hroom : used + Circuit.totalBytes C ≤ (s+7)/8) :
    Lockstep Msg.kind (wire (G := G)) (fun out => ∃ z' : Fin n → Bits,
      (∀ i, Layer.Prev (out i).1 0 (layerBytes (Circuit.layer (C ++ D) 0)) (z' i)) ∧
      (∀ k, plain z' k = Circuit.eval (Circuit.map plain (C ++ D)) k) ∧
      BeaverShares (fun i => (out i).2) s a b c (used + Circuit.totalBytes C))
      fun i => MpcProvider.runLayers (ls i).reverse (prev i) (bp i) := by
  induction C using List.reverseRecOn generalizing D ls prev z bp used with
  | nil =>
    refine .done (fun i => (prev i, bp i)) (fun i => ?_) ⟨z, hprev, hz, hbp⟩
    rw [List.length_eq_zero_iff.mp (hlen i)]
    rfl
  | append_singleton C gs ih =>
    have hsplit : ∀ i, ∃ l' L, ls i = l' ++ [L] := fun i => by
      have hne : ls i ≠ [] := fun h0 => by simpa [h0] using hlen i
      exact ⟨(ls i).dropLast, (ls i).getLast hne, (List.dropLast_append_getLast hne).symm⟩
    choose ls' L hsplit using hsplit
    have hlen' : ∀ i, (ls' i).length = C.length := fun i => by
      have := hlen i
      rw [hsplit i] at this
      simpa using this
    have hassoc : C ++ [gs] ++ D = C ++ (gs :: D) := by simp
    rw [hassoc] at hclosed hpos hsize ⊢
    have htotal : Circuit.totalBytes (C ++ [gs]) = layerBytes gs + Circuit.totalBytes C := by
      simp [Circuit.totalBytes, Nat.add_comm]
    rw [htotal, ← Nat.add_assoc] at hroom ⊢
    have hL : ∀ i, (L i).Ticketed (decide (i = p)) C.length (gs.map (Gate.map (· i))) := fun i => by
      have h := hls i C.length (L i) (by rw [hsplit i, ← hlen' i]; simp)
      rwa [Circuit.layer_append_length C [] gs] at h
    have hgs := hclosed C.length
    rw [Circuit.layer_append_length, Circuit.layer_append_succ] at hgs
    have hposgs := hpos C.length (by simp)
    have hsizegs := hsize C.length (by simp)
    rw [Circuit.layer_append_length] at hposgs hsizegs
    have hfirst := interact_lockstep (G := G) hL hgs (by simpa using hprev) hposgs hsizegs hbp (by omega)
    have hrun : (fun i => MpcProvider.runLayers (G := G) (ls i).reverse (prev i) (bp i)) = fun i =>
        (L i).interact (prev i) (bp i) >>= fun out => MpcProvider.runLayers (ls' i).reverse (some out.1) out.2 := by
      funext i
      rw [hsplit i, List.reverse_append]
      rfl
    rw [hrun]
    apply hfirst.bind
    intro out hout
    obtain ⟨z', hfin, hz', hbp'⟩ := hout
    refine ih (gs :: D) hclosed (fun l hl => hpos l (by simp; omega)) (fun l hl => hsize l (by simp; omega))
      hlen' (fun i l L' hl => ?_) hfin (fun k => ?_) hbp' (by omega)
    · have hlt : l < C.length := by
        rw [← hlen' i]
        exact (List.getElem?_eq_some_iff.mp hl).1
      have h := hls i l L' (by rw [hsplit i, List.getElem?_append_left (by rw [hlen' i]; exact hlt)]; exact hl)
      rwa [Circuit.layer_append_left [gs] hlt] at h
    · have heval : plain z = Circuit.eval (Circuit.map plain D) := funext hz
      rw [hz', heval]
      rfl

end Run
end PrivRecCert.Prc
