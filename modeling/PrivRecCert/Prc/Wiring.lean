import PrivRecCert.Prc.OneHot
import Mathlib.Data.Nat.Log
import Mathlib.Algebra.Order.Group.Multiset

/-! The wiring of the circuits that requests build: how deep they are, which tickets their layers hold, and which
tickets of the next deeper layer they read. -/
namespace PrivRecCert.Prc
open SimdArray

variable {S : Type}

/-- The tickets of the gates of layer `l`, from byte `st` on. -/
def gateTickets (l : ℕ) : ℕ → List (Gate S) → List Ticket
  | _, [] => []
  | st, g :: gs => gateTicket l st g.size :: gateTickets l (st + divCeil g.size 8) gs

theorem gateTickets_append (l st : ℕ) (gs gs' : List (Gate S)) :
    gateTickets l st (gs ++ gs') = gateTickets l st gs ++ gateTickets l (st + layerBytes gs) gs' := by
  induction gs generalizing st with
  | nil => rfl
  | cons g gs ih =>
    rw [List.cons_append, gateTickets, ih, gateTickets, layerBytes_cons, List.cons_append, Nat.add_assoc]

def Source.tickets : Source S → List Ticket
  | input _ _ => []
  | takeZ t => [t]

/-- The tickets that the streams of a gate read. -/
def Gate.reads (g : Gate S) : List Ticket := (g.feed false).src.tickets ++ (g.feed true).src.tickets

namespace Circuit

def tickets (C : Circuit S) (l : ℕ) : List Ticket := gateTickets l 0 (C.layer l)

def reads (C : Circuit S) (l : ℕ) : List Ticket := (C.layer l).flatMap Gate.reads

theorem tickets_addGate (C : Circuit S) (l j : ℕ) (g : Gate S) : (C.addGate l g).tickets j =
    C.tickets j ++ if j = l then [gateTicket l (layerBytes (C.layer l)) g.size] else [] := by
  rw [tickets, layer_addGate]
  split_ifs with h
  · rw [h, gateTickets_append, Nat.zero_add]
    rfl
  · rw [List.append_nil, tickets]

theorem reads_addGate (C : Circuit S) (l j : ℕ) (g : Gate S) :
    (C.addGate l g).reads j = C.reads j ++ if j = l then g.reads else [] := by
  rw [reads, layer_addGate]
  split_ifs with h
  · rw [h, List.flatMap_append, List.flatMap_singleton, reads]
  · rw [List.append_nil, reads]

/-- All tickets of the layers below layer 0 are read, apart from the tickets `free` of each layer. -/
def Balanced (C : Circuit S) (free : ℕ → Multiset Ticket) : Prop :=
  ∀ j, (C.tickets (j+1) : Multiset Ticket) = C.reads j + free (j+1)

theorem balanced_nil : Balanced ([] : Circuit S) 0 := fun _ => rfl

variable (leaf : ℕ → S)

/-- A one-hot vector leaves nothing unread but its own result. -/
theorem balanced_oheGates (l pos len : ℕ) {C : Circuit S} {free : ℕ → Multiset Ticket} (hC : C.Balanced free) :
    (oheGates leaf l pos len C).2.Balanced fun j =>
      free j + if j = l then ((oheGates leaf l pos len C).1.tickets : Multiset Ticket) else 0 := by
  induction len using Nat.strong_induction_on generalizing l pos C free with
  | _ len ih =>
    by_cases h : len ≤ 1
    · rw [oheGates_leaf _ h]
      intro j
      rw [hC j]
      simp [Source.tickets]
    · rw [oheGates, dif_neg h]
      simp only
      have hlow := ih ((len+1)/2) (by omega) (l+1) pos hC
      have hhigh := ih (len - (len+1)/2) (by omega) (l+1) (pos + (len+1)/2) hlow
      intro j
      rw [tickets_addGate, reads_addGate, ← Multiset.coe_add, ← Multiset.coe_add, hhigh j]
      by_cases hj : j = l
      · subst hj
        simp only [Gate.reads, oheGate_x, oheGate_y, ← Multiset.coe_add, if_true, Nat.succ_ne_self, if_false,
          Multiset.coe_nil]
        abel
      · have hne : j+1 ≠ l+1 := by omega
        simp only [hj, hne, if_false, Multiset.coe_nil, oheGate_size, Source.tickets]
        by_cases hl : j+1 = l
        · simp only [hl, if_true]
          abel
        · simp only [hl, if_false, Multiset.coe_nil]
          abel

/-- The layers of a one-hot vector of `2^len` bits. -/
theorem length_oheGates (l pos : ℕ) {len : ℕ} (hlen : 2 ≤ len) (C : Circuit S) :
    (oheGates leaf l pos len C).2.length = max C.length (l + Nat.clog 2 len) := by
  induction len using Nat.strong_induction_on generalizing l pos C with
  | _ len ih =>
    have hclog : Nat.clog 2 len = Nat.clog 2 ((len+1)/2) + 1 := Nat.clog_of_two_le Nat.one_lt_two hlen
    have hmono : Nat.clog 2 (len - (len+1)/2) ≤ Nat.clog 2 ((len+1)/2) := Nat.clog_mono_right 2 (by omega)
    rw [oheGates, dif_neg (by omega)]
    simp only [length_addGate]
    by_cases hlow : 2 ≤ (len+1)/2
    · have hlen₁ := ih ((len+1)/2) (by omega) (l+1) pos hlow C
      by_cases hhigh : 2 ≤ len - (len+1)/2
      · rw [ih _ (by omega) _ _ hhigh, hlen₁]
        omega
      · rw [oheGates_leaf _ (show len - (len+1)/2 ≤ 1 by omega), hlen₁]
        omega
    · rw [oheGates_leaf _ (show len - (len+1)/2 ≤ 1 by omega), oheGates_leaf _ (show (len+1)/2 ≤ 1 by omega)]
      have hone : (len+1)/2 = 1 := by omega
      rw [hclog, hone, Nat.clog_one_right]

end Circuit

namespace Request

/-- The layers that a request needs. -/
def depth : Request S → ℕ
  | and _ _ _ => 1
  | ohe bitLen _ => Nat.clog 2 bitLen

theorem length_build (C : Circuit S) {r : Request S} (hr : r.Valid) :
    (build C r).2.length = max C.length r.depth := by
  cases r with
  | and bitSize x y => exact Circuit.length_addGate C 0 _
  | ohe bitLen leaf =>
    by_cases h : bitLen ≤ 1
    · have hone : bitLen = 1 := le_antisymm h hr
      rw [build, Circuit.oheGates_leaf _ h, depth, hone, Nat.clog_one_right, max_eq_left (Nat.zero_le _)]
    · rw [build, Circuit.length_oheGates leaf 0 0 (by omega) C, Nat.zero_add, depth]

theorem length_buildAll (C : Circuit S) {rs : List (Request S)} (hrs : ∀ r ∈ rs, r.Valid) :
    (buildAll C rs).2.length = max C.length ((rs.map depth).foldr max 0) := by
  induction rs generalizing C with
  | nil => exact (max_eq_left (Nat.zero_le _)).symm
  | cons r rs ih =>
    rw [buildAll, ih _ fun r' hr' => hrs r' (by simp [hr']), length_build C (hrs r (by simp)), List.map_cons,
      List.foldr_cons, max_assoc]

theorem balanced_build {C : Circuit S} {free : ℕ → Multiset Ticket} (hC : C.Balanced free) (r : Request S) :
    ∃ free', (build C r).2.Balanced free' ∧ ∀ j, 0 < j → free' j = free j := by
  cases r with
  | and bitSize x y =>
    have hreads : Gate.reads (⟨bitSize, fun b => ⟨.copy, .input bitSize (if b then y else x)⟩⟩ : Gate S) = [] := rfl
    refine ⟨free, fun j => ?_, fun _ _ => rfl⟩
    rw [build, Circuit.tickets_addGate, Circuit.reads_addGate, hreads, if_neg (Nat.succ_ne_zero j), ite_self,
      List.append_nil, List.append_nil, hC j]
  | ohe bitLen leaf =>
    refine ⟨_, Circuit.balanced_oheGates leaf 0 0 bitLen hC, fun j hj => ?_⟩
    rw [if_neg (by omega), add_zero]

/-- In the circuit of any requests, every layer reads all tickets of the next deeper one, each of them once. -/
theorem reads_buildAll (C : Circuit S) (hC : C.Balanced 0) (rs : List (Request S)) :
    (buildAll C rs).2.Balanced 0 := by
  have hzero : ∀ (D : Circuit S) (free : ℕ → Multiset Ticket), D.Balanced free → (∀ j, 0 < j → free j = 0) →
      D.Balanced 0 := by
    intro D free hD hfree j
    rw [hD j, hfree (j+1) (Nat.succ_pos j)]
    rfl
  induction rs generalizing C with
  | nil => exact hC
  | cons r rs ih =>
    obtain ⟨free, hfree, heq⟩ := balanced_build hC r
    exact ih _ (hzero _ free hfree heq)

/-- The results of a request are taken from layer 0. -/
theorem build_tickets (C : Circuit S) (r : Request S) : ∀ t ∈ (build C r).1.tickets, t ∈ (build C r).2.tickets 0 := by
  cases r with
  | and bitSize x y =>
    rw [build, Circuit.tickets_addGate]
    simp [Source.tickets]
  | ohe bitLen leaf =>
    by_cases h : bitLen ≤ 1
    · rw [build, Circuit.oheGates_leaf _ h]
      simp [Source.tickets]
    · rw [build, Circuit.oheGates, dif_neg h]
      simp [Source.tickets, Circuit.tickets_addGate]

theorem tickets_subset {C D : Circuit S} (h : D.Extends C) (l : ℕ) : ∀ t ∈ C.tickets l, t ∈ D.tickets l := by
  obtain ⟨gs, hgs⟩ := h l
  intro t ht
  rw [Circuit.tickets, ← hgs, gateTickets_append]
  exact List.mem_append_left _ ht

theorem buildAll_tickets (C : Circuit S) (rs : List (Request S)) :
    ∀ src ∈ (buildAll C rs).1, ∀ t ∈ src.tickets, t ∈ (buildAll C rs).2.tickets 0 := by
  induction rs generalizing C with
  | nil => exact fun src hsrc => (nomatch hsrc)
  | cons r rs ih =>
    intro src hsrc t ht
    rcases List.mem_cons.mp hsrc with rfl | hmem
    · exact tickets_subset (buildAll_extends _ rs) 0 t (build_tickets C r t ht)
    · exact ih _ src hmem t ht

end Request
end PrivRecCert.Prc
