import PrivRecCert.Rounds.NetworkSteps

/-! Completing a receive moves a party to the next round; when the last party has completed the
older of two rounds, the newer one becomes the older. -/
namespace PrivRecCert.Rounds
open Function
variable {n : ℕ} {M K F S α : Type} [DecidableEq K]
variable {E : Endpoint n M K F S} {kindOf : M → K} {wire : Fin n → M → Option M}
variable {slots : S → K → List M} {Q : (Fin n → α) → Prop}

namespace Window
variable {B : Round n M K α kindOf wire Q} {g : Ghost n M} {s : Net n M K F S α}

/-- When every party has completed the older round, the newer one takes its place. -/
theorem rebase (W : Window E slots B g s) (h : ∀ i, g.ahead i = true) :
    (∃ b g, Quiet slots Q b g kindOf wire s) ∨
      ∃ (B' : Round n M K α kindOf wire Q) (g' : Ghost n M),
        Window E slots B' g' s ∧ ∀ i, g'.ahead i = false := by
  have hstage := W.stage
  have hchan := W.chan
  have htaken := W.taken
  have hsent := W.sent
  have hgot := W.got
  simp only [h, Bool.toNat_true, if_true] at hstage hchan htaken hsent hgot
  have hhist : ∀ g' : Ghost n M, (∀ i, g'.past i = g.past i ++ [B.m i]) →
      (∀ i, g'.pastGot i = g.pastGot i ++ [g.d i]) → g'.r0 = g.r0+1 → g'.History kindOf wire :=
    fun g' h1 h2 h3 => W.history.snoc (fun j => ⟨B.hkind j, B.hwire j⟩) W.hd h1 h2 h3
  cases B.lockstep g.d W.hd true with
  | done b hp hQ =>
    left
    have hstart : ∀ i, s.phase i = .ready (.ret (b i)) ∧ (∀ j, j ≠ i → g.out i j = 0) ∧
        (∀ j, j ≠ i → g.inn i j = 0) ∧ g.opened i = [] := by
      intro i
      have hi := hstage i
      rw [hp i] at hi
      cases hi with
      | start hph hout hinn _ hop => exact ⟨hph, hout, hinn, hop⟩
      | sending _ _ _ _ hp => cases hp
      | idle _ _ _ hp => cases hp
      | receiving _ _ _ _ _ _ hp => cases hp
    refine ⟨b, { g with
      past := fun i => g.past i ++ [B.m i], pastGot := fun i => g.pastGot i ++ [g.d i]
      r0 := g.r0+1 }, ⟨hQ, fun i => (hstart i).1, fun i j => ?_, fun i => ?_, fun i => ?_,
      hhist _ (fun _ => rfl) (fun _ => rfl) rfl⟩⟩
    · by_cases hij : i = j
      · rw [hij]; exact W.chan_self j
      · rw [hchan i j hij, (hstart i).2.1 j (Ne.symm hij), (hstart j).2.2.1 i hij]; rfl
    · rw [hsent i, (hstart i).2.2.2, List.append_nil]
    · rw [hgot i]
  | round m w kd k hp hkind hwire next =>
    right
    let B' : Round n M K α kindOf wire Q := ⟨m, w, kd, k, hkind, hwire, next⟩
    have hmsg : ∀ i, B.msg g.d true i = m i := fun i => B.msg_of_send g.d (hp i)
    have hrcv : ∀ i, B.rcv g.d true i = w i := fun i => by
      simp [Round.rcv, hmsg i, hwire i]
    refine ⟨B', { g with
      d := fun i => others w i, past := fun i => g.past i ++ [B.m i]
      pastGot := fun i => g.pastGot i ++ [g.d i], r0 := g.r0+1, ahead := fun _ => false },
      ⟨fun i => List.Perm.refl _, fun i => ?_, fun i j hij => ?_, fun i j hij => ?_, W.chan_self,
        fun i => ?_, fun i => ?_, hhist _ (fun _ => rfl) (fun _ => rfl) rfl⟩,
      fun _ => rfl⟩
    · have hi := hstage i
      rw [hp i] at hi
      exact hi.congr fun j _ _ => ⟨by rw [hmsg j]; rfl, by rw [hrcv j, Round.rcv_false]⟩
    · rw [hchan i j hij]
      have hle := (W.stage i).out_le (Ne.symm hij)
      have hle' := htaken i j hij
      have hout : g.out i j = 0 ∨ g.out i j = 1 := by omega
      have hinn : g.inn j i = 0 ∨ g.inn j i = 1 := by omega
      rcases hout with h1 | h1 <;> rcases hinn with h2 | h2 <;> simp [h1, h2, hmsg i, B']
    · have := htaken i j hij
      simp only [Bool.toNat_false]
      omega
    · rw [hsent i]; simp
    · rw [hgot i]; simp

/-- A party whose receive is complete moves to the next round, unless that is two rounds ahead. -/
theorem deliver_step (L : Lawful E kindOf wire slots) (W : Window E slots B g s) {i : Fin n} {kd : K}
    {k : List M → Proc M K α} (h : s.phase i = .receiving kd [] [] k) (hi : g.ahead i = false) :
    ∃ l st g', E.collect i kd (s.store i) = some (l, st) ∧ Window E slots B g' { s with
      phase := update s.phase i (.ready (k l))
      store := update s.store i st
      got := update s.got i (s.got i ++ [l]) } := by
  have hst := W.stage i
  rw [hi, h] at hst
  obtain ⟨m, handled, heldBy, hheld, hp, hperm, hout, hinn, hsl, hop⟩ := hst.receiving_inv
  obtain rfl : heldBy = [] := List.map_eq_nil_iff.mp hheld.symm
  rw [B.cur_false] at hp
  injection hp with hm hp
  injection hp with hkd hk
  subst hm hkd hk
  rw [List.nil_append, List.append_nil] at hperm
  have hlen : (slots (s.store i) B.kd).length = n-1 := by
    rw [hsl, update_self, List.length_map, hperm.length_eq, peers_length]
  obtain ⟨st, hst, hslots⟩ := L.collect i B.kd (s.store i) hlen
  have hl : slots (s.store i) B.kd = handled.map B.w := by
    rw [hsl, update_self]
    exact List.map_congr_left fun j _ => B.rcv_false g.d j
  rw [hl] at hst
  have hperm' : (handled.map B.w).Perm (others B.w i) := hperm.map B.w
  have hd' : ∀ j, (update g.d i (handled.map B.w) j).Perm (others B.w j) := by
    intro j
    by_cases hj : j = i
    · subst hj; rwa [update_self]
    · rw [update_of_ne hj]; exact W.hd j
  -- the other parties' rounds do not depend on what `i` has just received
  have hmsg : ∀ a j, j ≠ i ∨ a = false → B.msg (update g.d i (handled.map B.w)) a j = B.msg g.d a j :=
    fun a j hj => B.msg_update hj _
  have hone : ∀ j, j ≠ i → g.out i j = 1 := hout
  refine ⟨handled.map B.w, st, { g with
    d := update g.d i (handled.map B.w)
    ahead := update g.ahead i true
    out := update g.out i (fun _ => 0)
    inn := update g.inn i (fun _ => 0)
    opened := update g.opened i [] }, hst, hd', fun j => ?_, fun j q hjq => ?_,
    fun j q hjq => ?_, W.chan_self, fun j => ?_, fun j => ?_,
    ⟨W.history.1, W.history.2, W.history.3⟩⟩
  · by_cases hj : j = i
    · subst hj
      simp only [update_self]
      refine .start (by rw [B.cur_true, update_self]) (fun _ _ => rfl) (fun _ _ => rfl) ?_ rfl
      rw [hslots, hsl, update_idem]
      exact update_eq_self_iff.mpr rfl
    · have hstj := W.stage j
      simp only [update_of_ne hj]
      have hcur : B.cur (update g.d i (handled.map B.w)) (g.ahead j) j = B.cur g.d (g.ahead j) j := by
        simp [Round.cur, update_of_ne hj]
      rw [hcur]
      apply hstj.congr
      intro q hq hqi
      have hcase : q ≠ i ∨ g.ahead j = false := by
        by_contra hcon
        rw [not_or, not_not] at hcon
        obtain ⟨rfl, hja⟩ := hcon
        have ht := W.taken q j hq
        have hja' : g.ahead j = true := by simpa using hja
        rw [hqi, hi, hja', hone j (Ne.symm hq)] at ht
        simp at ht
      simp only [Round.rcv, hmsg _ q hcase, and_self]
  · by_cases hj : j = i
    · subst hj
      have hq : q ≠ j := Ne.symm hjq
      simp only [update_self, update_of_ne hq, Bool.toNat_true, Nat.add_zero]
      rw [W.chan j q hjq, hi, hone q hq]
      simp [hmsg false j (.inr rfl)]
    · simp only [update_of_ne hj]
      rw [hmsg false j (.inr rfl), hmsg true j (.inl hj), W.chan j q hjq]
      by_cases hq : q = i
      · subst hq
        have hnil : g.inn q j = 1 := by rw [hinn j hj, if_neg (by simp)]
        simp [hi, hnil]
      · simp [update_of_ne hq]
  · have ht := W.taken j q hjq
    by_cases hj : j = i
    · subst hj
      have hq : q ≠ j := Ne.symm hjq
      rw [hi, hone q hq] at ht
      simpa [update_of_ne hq] using ht
    · by_cases hq : q = i
      · subst hq
        have hnil : g.inn q j = 1 := by rw [hinn j hj, if_neg (by simp)]
        rw [hi, hnil] at ht
        simpa [update_of_ne hj] using ht
      · simpa [update_of_ne hj, update_of_ne hq] using ht
  · by_cases hj : j = i
    · subst hj
      rw [W.sent j, hi, hop]
      simp
    · simpa [update_of_ne hj] using W.sent j
  · by_cases hj : j = i
    · subst hj
      simp [W.got j, hi]
    · simpa [update_of_ne hj] using W.got j

/-- A receive with nothing left to take has handled one frame of every peer. -/
theorem ahead_of_complete (W : Window E slots B g s) {i : Fin n} {kd : K} {k : List M → Proc M K α}
    (h : s.phase i = .receiving kd [] [] k) (hi : g.ahead i = true) : ∀ j, g.ahead j = true := by
  intro j
  by_cases hj : j = i
  · rw [hj, hi]
  · have ht := W.taken j i hj
    have hle := (W.stage j).out_le (Ne.symm hj)
    have hst := W.stage i
    rw [h] at hst
    obtain ⟨m, handled, heldBy, -, -, -, -, hinn, -⟩ := hst.receiving_inv
    rw [hinn j hj, if_neg (by simp), hi] at ht
    cases hja : g.ahead j with
    | true => rfl
    | false =>
      rw [hja] at ht
      simp only [Bool.toNat_true, Bool.toNat_false] at ht
      omega

/-- A party that completes a receive does so in the older of two rounds. -/
theorem complete (W : Window E slots B g s) {i : Fin n} {kd : K} {k : List M → Proc M K α}
    (h : s.phase i = .receiving kd [] [] k) :
    ∃ (B' : Round n M K α kindOf wire Q) (g' : Ghost n M),
      Window E slots B' g' s ∧ g'.ahead i = false := by
  cases hi : g.ahead i with
  | false => exact ⟨B, g, W, hi⟩
  | true =>
    rcases W.rebase (W.ahead_of_complete h hi) with ⟨b, g', q⟩ | ⟨B', g', W', hall⟩
    · have hph := q.phase i
      rw [h] at hph
      cases hph
    · exact ⟨B', g', W', hall i⟩

end Window
end PrivRecCert.Rounds
