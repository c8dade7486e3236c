import PrivRecCert.Rounds.NetworkInvariant

/-! Sending, taking and handling a frame keep two consecutive rounds in view. -/
namespace PrivRecCert.Rounds
open Function
variable {n : ℕ} {M K F S α : Type} [DecidableEq K]
variable {E : Endpoint n M K F S} {kindOf : M → K} {wire : Fin n → M → Option M}
variable {slots : S → K → List M} {Q : (Fin n → α) → Prop}

namespace Window
variable {B : Round n M K α kindOf wire Q} {g : Ghost n M} {s : Net n M K F S α}

/-- A step of party `i` that leaves channels and counters alone. -/
theorem local_step (W : Window E slots B g s) (i : Fin n) {p : Phase n M K F α} {t : S}
    {o : List M}
    (hst : Stage (B.cur g.d (g.ahead i) i) (fun j => E.encode j (B.msg g.d (g.ahead i) j))
      (B.rcv g.d (g.ahead i)) i p (g.out i) (g.inn i) (slots t) o) {q : Fin n → List M}
    (hsent : q = update s.sent i (g.past i ++ (if g.ahead i then [B.m i] else []) ++ o)) :
    Window E slots B { g with opened := update g.opened i o }
      { s with phase := update s.phase i p, store := update s.store i t, sent := q } := by
  subst hsent
  refine { W with
    stage := fun j => ?_
    sent := fun j => ?_
    history := ⟨W.history.1, W.history.2, W.history.3⟩ }
  · by_cases hj : j = i
    · subst hj
      simpa using hst
    · simpa [update_of_ne hj] using W.stage j
  · by_cases hj : j = i
    · subst hj
      simp
    · simpa [update_of_ne hj] using W.sent j

theorem sent_self (W : Window E slots B g s) (i : Fin n) :
    s.sent = update s.sent i (g.past i ++ (if g.ahead i then [B.m i] else []) ++ g.opened i) := by
  rw [← W.sent i, update_eq_self]

theorem sending_ne (W : Window E slots B g s) {i j : Fin n} {m : M} {pending : List (Fin n)}
    {p : Proc M K α} (h : s.phase i = .sending m pending p) (hj : j ∈ pending) : i ≠ j := by
  have hst := W.stage i
  rw [h] at hst
  obtain ⟨kd, k, -, -, -, hi, -⟩ := hst.sending_inv
  exact fun he => hi (he ▸ hj)

theorem receiving_ne (W : Window E slots B g s) {i j : Fin n} {kd : K} {pending : List (Fin n)}
    {held : List F} {k : List M → Proc M K α} (h : s.phase i = .receiving kd pending held k)
    (hj : j ∈ pending) : i ≠ j := by
  have hst := W.stage i
  rw [h] at hst
  obtain ⟨m, handled, heldBy, -, -, hperm, -⟩ := hst.receiving_inv
  exact (mem_peers.mp (hperm.mem_iff.mp (List.mem_append_left _ hj))).symm

/-- A party sends the frame of its current round to one peer. -/
theorem push_step (W : Window E slots B g s) {i j : Fin n} {m : M} {pending : List (Fin n)}
    {p : Proc M K α} (h : s.phase i = .sending m pending p) (hj : j ∈ pending) :
    Window E slots B { g with out := update g.out i (update (g.out i) j 1) }
      { s with
        phase := update s.phase i (.sending m (pending.erase j) p)
        chan := update s.chan (i, j) (s.chan (i, j) ++ [E.encode i m]) } := by
  have hst := W.stage i
  rw [h] at hst
  obtain ⟨kd, k, rfl, hp, hnd, hi, hout, hinn, hsl, hop⟩ := hst.sending_inv
  have hji : j ≠ i := (W.sending_ne h hj).symm
  have hzero : g.out i j = 0 := by rw [hout j hji, if_pos hj]
  have hm : B.msg g.d (g.ahead i) i = m := B.msg_of_send g.d hp
  refine { W with
    stage := fun l => ?_
    chan := fun l q hlq => ?_
    taken := fun l q hlq => ?_
    chan_self := fun l => ?_
    history := ⟨W.history.1, W.history.2, W.history.3⟩ }
  · by_cases hl : l = i
    · subst hl
      simp only [update_self]
      refine .sending m kd k (pending.erase j) hp rfl (hnd.erase j)
        (fun he => hi (List.mem_of_mem_erase he)) (fun q hq => ?_) hinn hsl hop
      by_cases hqj : q = j
      · subst hqj
        rw [update_self, if_neg hnd.not_mem_erase]
      · rw [update_of_ne hqj, hout q hq]
        simp [List.mem_erase_of_ne hqj]
    · simpa [update_of_ne hl] using W.stage l
  · by_cases hl : l = i
    · subst hl
      by_cases hq : q = j
      · subst hq
        simp only [update_self]
        have ht := W.taken l q hlq
        rw [W.chan l q hlq, hzero] at *
        cases hah : g.ahead l with
        | false =>
          rw [hah] at hm ht
          have h0 : (g.ahead q).toNat + g.inn q l = 0 := by simpa using ht
          simp [h0, hm]
        | true =>
          rw [hah] at hm ht
          have h1 : (g.ahead q).toNat + g.inn q l ≤ 1 := by simpa using ht
          have hcases : (g.ahead q).toNat + g.inn q l = 0 ∨ (g.ahead q).toNat + g.inn q l = 1 := by
            omega
          rcases hcases with h0 | h0 <;> simp [h0, hm]
      · have hne : (l, q) ≠ (l, j) := fun he => hq (congrArg Prod.snd he)
        simpa [update_of_ne hne, update_of_ne hq] using W.chan l q hlq
    · have hne : (l, q) ≠ (i, j) := fun he => hl (congrArg Prod.fst he)
      simpa [update_of_ne hne, update_of_ne hl] using W.chan l q hlq
  · have ht := W.taken l q hlq
    by_cases hl : l = i
    · subst hl
      by_cases hq : q = j
      · subst hq
        simp only [update_self]
        omega
      · simpa [update_of_ne hq] using ht
    · simpa [update_of_ne hl] using ht
  · have hne : (l, l) ≠ (i, j) := fun he =>
      hji ((congrArg Prod.snd he).symm.trans (congrArg Prod.fst he))
    simpa [update_of_ne hne] using W.chan_self l

/-- Whoever's frame of this round has been taken has broadcast it. -/
theorem taken_sent (W : Window E slots B g s) {i x : Fin n} (hx : x ≠ i) (h : g.inn i x = 1) :
    ∃ m q, B.cur g.d (g.ahead i) x = .send m q := by
  have ht := W.taken x i hx
  rw [h] at ht
  cases hi : g.ahead i with
  | false => exact ⟨_, _, B.cur_false g.d x⟩
  | true =>
    have hle := (W.stage x).out_le hx.symm
    rw [hi] at ht
    cases hxa : g.ahead x with
    | false =>
      rw [hxa] at ht
      simp only [Bool.toNat_true, Bool.toNat_false] at ht
      omega
    | true =>
      rw [hxa] at ht
      simp only [Bool.toNat_true] at ht
      obtain ⟨m, q, hq, _⟩ := (W.stage x).opened_of_out hx.symm (by omega)
      exact ⟨m, q, hxa ▸ hq⟩

/-- A party takes the oldest frame of one peer, which is that peer's frame of the same round. -/
theorem pop_step (W : Window E slots B g s) {i j : Fin n} {kd : K} {pending : List (Fin n)}
    {held : List F} {k : List M → Proc M K α} {f : F} {rest : List F}
    (h : s.phase i = .receiving kd pending held k) (hj : j ∈ pending)
    (hf : s.chan (j, i) = f :: rest) :
    Window E slots B { g with inn := update g.inn i (update (g.inn i) j 1) }
      { s with
        phase := update s.phase i (.receiving kd (pending.erase j) (held ++ [f]) k)
        chan := update s.chan (j, i) rest } := by
  have hst := W.stage i
  rw [h] at hst
  obtain ⟨m, handled, heldBy, rfl, hp, hperm, hout, hinn, hsl, hop⟩ := hst.receiving_inv
  have hnd : pending.Nodup := ((hperm.nodup_iff.mpr (peers_nodup i)).of_append_left)
  have hji : j ≠ i := (W.receiving_ne h hj).symm
  have hzero : g.inn i j = 0 := by rw [hinn j hji, if_pos hj]
  have hchan := W.chan j i hji
  rw [hzero, Nat.add_zero, hf] at hchan
  -- the channel is not empty, so the sender is past this round's frame
  have hlt : (g.ahead i).toNat < (g.ahead j).toNat + g.out j i := by
    by_contra hge
    rw [List.drop_eq_nil_of_le (by rw [List.length_take]; omega)] at hchan
    cases hchan
  have hle := (W.stage j).out_le hji.symm
  have hfr : f = E.encode j (B.msg g.d (g.ahead i) j) ∧
      rest = ([E.encode j (B.msg g.d false j), E.encode j (B.msg g.d true j)].take
        ((g.ahead j).toNat + g.out j i)).drop ((g.ahead i).toNat + 1) := by
    have hcases : (g.ahead j).toNat + g.out j i = 1 ∨ (g.ahead j).toNat + g.out j i = 2 := by
      have := Bool.toNat_le (g.ahead j)
      omega
    cases hi : g.ahead i <;> rw [hi] at hchan hlt <;>
      rcases hcases with h1 | h1 <;> rw [h1] at hchan hlt ⊢ <;> simp_all
  refine { W with
    stage := fun l => ?_
    chan := fun l q hlq => ?_
    taken := fun l q hlq => ?_
    chan_self := fun l => ?_
    history := ⟨W.history.1, W.history.2, W.history.3⟩ }
  · by_cases hl : l = i
    · subst hl
      simp only [update_self]
      refine .receiving m kd k (pending.erase j) handled (heldBy ++ [j]) hp ?_ ?_ hout
        (fun q hq => ?_) hsl hop
      · rw [List.map_append, hfr.1]
        rfl
      · refine List.Perm.trans ?_ hperm
        have h1 : (pending.erase j ++ (handled ++ (heldBy ++ [j]))).Perm
            (j :: pending.erase j ++ (handled ++ heldBy)) := by
          rw [← List.append_assoc handled, ← List.append_assoc]
          exact List.perm_append_singleton j _
        exact h1.trans ((List.perm_cons_erase hj).symm.append_right _)
      · by_cases hqj : q = j
        · subst hqj
          rw [update_self, if_neg hnd.not_mem_erase]
        · rw [update_of_ne hqj, hinn q hq]
          simp [List.mem_erase_of_ne hqj]
    · simpa [update_of_ne hl] using W.stage l
  · by_cases hq : q = i
    · subst hq
      by_cases hl : l = j
      · subst hl
        simpa only [update_self] using hfr.2
      · have hne : (l, q) ≠ (j, q) := fun he => hl (congrArg Prod.fst he)
        simpa [update_of_ne hne, update_of_ne hl] using W.chan l q hlq
    · have hne : (l, q) ≠ (j, i) := fun he => hq (congrArg Prod.snd he)
      simpa [update_of_ne hne, update_of_ne hq] using W.chan l q hlq
  · have ht := W.taken l q hlq
    by_cases hq : q = i
    · subst hq
      by_cases hl : l = j
      · subst hl
        simp only [update_self]
        omega
      · simpa [update_of_ne hl] using ht
    · simpa [update_of_ne hq] using ht
  · have hne : (l, l) ≠ (j, i) := fun he =>
      hji ((congrArg Prod.fst he).symm.trans (congrArg Prod.snd he))
    simpa [update_of_ne hne] using W.chan_self l

/-- Handling a held frame stores it under the kind of the round. -/
theorem handle_step (L : Lawful E kindOf wire slots) (W : Window E slots B g s) {i : Fin n} {kd : K}
    {pending : List (Fin n)} {b c : List F} {f : F} {k : List M → Proc M K α}
    (h : s.phase i = .receiving kd pending (b ++ f :: c) k) :
    ∃ st, E.absorb i (s.store i) f = some st ∧
      Window E slots B g { s with
        phase := update s.phase i (.receiving kd pending (b ++ c) k)
        store := update s.store i st } := by
  have hst := W.stage i
  rw [h] at hst
  obtain ⟨m, handled, heldBy, hheld, hp, hperm, hout, hinn, hsl, hop⟩ := hst.receiving_inv
  obtain ⟨b, tl, rfl, rfl, h5⟩ := List.map_eq_append_iff.mp hheld.symm
  obtain ⟨x, a, rfl, rfl, rfl⟩ := List.map_eq_cons_iff.mp h5
  have hmem : x ∈ pending ++ (handled ++ (b ++ x :: a)) := by simp
  have hxi : x ≠ i := mem_peers.mp (hperm.mem_iff.mp hmem)
  have hnot : x ∉ pending := by
    intro hx
    have hnd := hperm.nodup_iff.mpr (peers_nodup i)
    exact (List.disjoint_of_nodup_append hnd) hx (by simp)
  obtain ⟨mx, q, hx⟩ := W.taken_sent hxi (by rw [hinn x hxi, if_neg hnot])
  have hw := B.wire_of_send g.d W.hd hx
  have hkd : kindOf mx = kd := by
    have hl := B.lockstep g.d W.hd (g.ahead i)
    obtain ⟨k2, _, hk2, _⟩ := hl.of_send hp
    injection hk2 with hkd _
    rw [hl.kind_eq hx hp, hkd]
  obtain ⟨st, hst, hslots⟩ := L.absorb i x mx _ (s.store i) hxi.symm hw
  refine ⟨st, by rw [B.msg_of_send g.d hx]; exact hst, ?_⟩
  have hnew : slots st = update (fun _ => []) kd ((handled ++ [x]).map (B.rcv g.d (g.ahead i))) := by
    rw [hslots, hsl, hkd, update_self, update_idem, List.map_append]
    rfl
  have hst' := W.local_step i (p := .receiving kd pending
    ((b ++ a).map fun j => E.encode j (B.msg g.d (g.ahead i) j)) k) (t := st) (o := g.opened i)
    (.receiving m kd k pending (handled ++ [x]) (b ++ a) hp rfl ?_ hout hinn hnew hop)
    (W.sent_self i)
  · simpa [update_eq_self] using hst'
  · refine List.Perm.trans (List.Perm.append_left _ ?_) hperm
    rw [List.append_assoc, List.singleton_append]
    exact List.Perm.append_left _ List.perm_middle.symm

end Window
end PrivRecCert.Rounds
