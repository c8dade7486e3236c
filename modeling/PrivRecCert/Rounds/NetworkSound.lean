import PrivRecCert.Rounds.NetworkRounds

/-! Every interleaving of a lockstep program keeps the two-round invariant, and so delivers the
messages of each round, never panics and never blocks. -/
namespace PrivRecCert.Rounds
open Function
variable {n : ℕ} {M K F S α : Type} [DecidableEq K]
variable {E : Endpoint n M K F S} {kindOf : M → K} {wire : Fin n → M → Option M}
variable {slots : S → K → List M} {Q : (Fin n → α) → Prop}

namespace Window
variable {B : Round n M K α kindOf wire Q} {g : Ghost n M} {s : Net n M K F S α}

theorem chan_le (W : Window E slots B g s) (i j : Fin n) : (s.chan (i, j)).length ≤ 2 := by
  by_cases hij : i = j
  · rw [hij, W.chan_self j]
    exact Nat.zero_le 2
  · rw [W.chan i j hij]
    simp only [List.length_drop, List.length_take, List.length_cons, List.length_nil]
    omega

/-- If nothing can move, an unfinished party waits for a frame that its sender has not sent. -/
theorem blocked (L : Lawful E kindOf wire slots) (W : Window E slots B g s)
    (hno : ∀ s', ¬ Step E s s') (i : Fin n) :
    (∃ b, B.cur g.d (g.ahead i) i = .ret b) ∨
      (∀ j, j ≠ i → g.out i j = 1) ∧ ∃ j, j ≠ i ∧ g.inn i j = 0 ∧ s.chan (j, i) = [] := by
  cases W.stage i with
  | start hph =>
    left
    cases hc : B.cur g.d (g.ahead i) i with
    | ret b => exact ⟨b, rfl⟩
    | fail => exact absurd hc ((B.lockstep g.d W.hd _).not_fail i)
    | send m p => exact absurd (Step.begin i m p (hc ▸ hph)) (hno _)
    | recv kd k => exact absurd hc ((B.lockstep g.d W.hd _).not_recv i kd k)
  | sending m kd k pending hp hph =>
    exfalso
    cases pending with
    | nil => exact hno _ (.finish i m _ hph)
    | cons j pending =>
      have hij := W.sending_ne hph List.mem_cons_self
      refine hno _ (.push i j m _ _ hph List.mem_cons_self ?_)
      rw [L.sender i j hij]
      exact (W.chan_le i j).trans_lt L.capacity
  | idle m kd k hp hph => exact absurd (Step.listen i kd k hph) (hno _)
  | receiving m kd k pending handled held hp hph hperm hout hinn =>
    right
    refine ⟨hout, ?_⟩
    cases held with
    | cons x held =>
      obtain ⟨st, hst, _⟩ := W.handle_step L (b := []) hph
      exact absurd (Step.handle i kd pending [] _ _ k st hph hst) (hno _)
    | nil =>
      cases pending with
      | nil =>
        exfalso
        cases hc : E.collect i kd (s.store i) with
        | none => exact hno _ (.missing i kd k hph hc)
        | some r => exact hno _ (.deliver i kd k r.1 r.2 hph hc)
      | cons j pending =>
        have hj : j ≠ i := mem_peers.mp (hperm.mem_iff.mp (by simp))
        refine ⟨j, hj, by rw [hinn j hj, if_pos (by simp)], ?_⟩
        cases hc : s.chan (j, i) with
        | nil => rfl
        | cons f rest =>
          rw [← L.receiver i j hj.symm] at hc
          exact absurd (Step.pop i j kd _ _ k f rest hph List.mem_cons_self hc) (hno _)

theorem blocked_ahead (L : Lawful E kindOf wire slots) (W : Window E slots B g s)
    (hno : ∀ s', ¬ Step E s s') (i : Fin n) : g.ahead i = true := by
  by_contra hne
  have hi : g.ahead i = false := by simpa using hne
  rcases W.blocked L hno i with ⟨b, hb⟩ | ⟨_, j, hj, hinn, hnil⟩
  · rw [hi] at hb
    cases hb
  · have hchan := W.chan j i hj
    rw [hnil, hi, hinn] at hchan
    have hlen := congrArg List.length hchan
    simp only [List.length_drop, List.length_take, List.length_cons, List.length_nil,
      Bool.toNat_false] at hlen
    have hja : g.ahead j = false := by
      cases hja : g.ahead j with
      | false => rfl
      | true => rw [hja, Bool.toNat_true] at hlen; omega
    rcases W.blocked L hno j with ⟨b, hb⟩ | ⟨hout, _⟩
    · rw [hja] at hb
      cases hb
    · rw [hout i hj.symm] at hlen
      omega

/-- Unless everybody has finished, somebody can move. -/
theorem progress (L : Lawful E kindOf wire slots) (W : Window E slots B g s) :
    (∃ b : Fin n → α, ∀ i, s.phase i = .ready (.ret (b i))) ∨ ∃ s', Step E s s' := by
  by_contra hcon
  rw [not_or, not_exists, not_exists] at hcon
  obtain ⟨hfin, hno⟩ := hcon
  rcases W.rebase (W.blocked_ahead L hno) with ⟨b, g', q⟩ | ⟨B', g', W', hall⟩
  · exact hfin b q.phase
  · have hempty : IsEmpty (Fin n) := ⟨fun i => by
      have hi := W'.blocked_ahead L hno i
      rw [hall i] at hi
      cases hi⟩
    exact hfin (fun i => hempty.elim i) fun i => hempty.elim i

theorem delivered (W : Window E slots B g s) (i : Fin n) (r : ℕ) (l : List M)
    (h : (s.got i)[r]? = some l) : ∃ (kd : K) (w : Fin n → M),
      (∀ j, ∃ m, (s.sent j)[r]? = some m ∧ kindOf m = kd ∧ wire j m = some (w j)) ∧
        l.Perm (others w i) := by
  have hlen := W.history.past_length
  have hglen := W.history.pastGot_length i
  rw [W.got i] at h
  by_cases hr : r < g.r0
  · obtain ⟨kd, w, hm, hl⟩ := W.history.round r hr
    obtain ⟨l', hl', hperm⟩ := hl i
    rw [List.getElem?_append_left (by omega), hl'] at h
    cases h
    refine ⟨kd, w, fun j => ?_, hperm⟩
    obtain ⟨m, hj, hm⟩ := hm j
    refine ⟨m, ?_, hm⟩
    rw [W.sent j, List.append_assoc, List.getElem?_append_left (by rw [hlen j]; exact hr), hj]
  · rw [List.getElem?_append_right (by omega), hglen] at h
    cases hi : g.ahead i with
    | false => rw [hi] at h; simp at h
    | true =>
      rw [hi, if_pos rfl] at h
      have hr0 : r = g.r0 := by
        have := List.getElem?_eq_some_iff.mp h
        obtain ⟨hlt, _⟩ := this
        simp only [List.length_singleton] at hlt
        omega
      subst hr0
      simp only [Nat.sub_self, List.getElem?_cons_zero, Option.some.injEq] at h
      subst h
      refine ⟨B.kd, B.w, fun j => ⟨B.m j, ?_, B.hkind j, B.hwire j⟩, W.hd i⟩
      rw [W.sent j, List.append_assoc, ← hlen j, List.getElem?_append_right le_rfl, Nat.sub_self]
      by_cases hj : j = i
      · rw [hj, hi]
        rfl
      · cases hja : g.ahead j with
        | true => rfl
        | false =>
          have ht := W.taken j i hj
          rw [hi, hja, Bool.toNat_true, Bool.toNat_false] at ht
          obtain ⟨m, q, hm, hop⟩ := (W.stage j).opened_of_out (Ne.symm hj) (by omega)
          rw [hja, B.cur_false] at hm
          cases hm
          rw [hop]
          rfl

end Window

theorem Invariant.init {procs : Fin n → Proc M K α} {empty : S}
    (h : Lockstep kindOf wire Q procs) (hempty : slots empty = fun _ => []) :
    Invariant E kindOf wire slots Q (Net.init procs empty) := by
  cases h with
  | done b hp hQ =>
    left
    refine ⟨b, ⟨fun _ => [], fun _ => false, 0, 0, fun _ => [], fun _ => [], fun _ => [], 0⟩, hQ,
      fun i => congrArg _ (hp i), fun _ _ => rfl, fun _ => rfl, fun _ => rfl,
      fun _ => rfl, fun _ => rfl, fun r hr => absurd hr (Nat.not_lt_zero r)⟩
  | round m w kd k hp hkind hwire next =>
    right
    refine ⟨⟨m, w, kd, k, hkind, hwire, next⟩, ⟨fun i => others w i, fun _ => false, 0, 0,
      fun _ => [], fun _ => [], fun _ => [], 0⟩, fun _ => List.Perm.refl _, fun i => ?_,
      fun _ _ _ => rfl, fun _ _ _ => le_rfl, fun _ => rfl, fun _ => rfl, fun _ => rfl,
      fun _ => rfl, fun _ => rfl, fun r hr => absurd hr (Nat.not_lt_zero r)⟩
    exact .start (congrArg _ (hp i)) (fun _ _ => rfl) (fun _ _ => rfl) hempty rfl

/-- No step leaves the invariant, and so no step is a panic. -/
theorem Invariant.step (L : Lawful E kindOf wire slots) {s s' : Net n M K F S α}
    (hI : Invariant E kindOf wire slots Q s) (hs : Step E s s') :
    Invariant E kindOf wire slots Q s' := by
  rcases hI with ⟨b, g, q⟩ | ⟨B, g, W⟩
  · exfalso
    have hph : ∀ i, s.phase i = .ready (.ret (b i)) := q.phase
    cases hs with
    | begin i m p h => rw [hph i] at h; cases h
    | push i j m pending p h => rw [hph i] at h; cases h
    | finish i m p h => rw [hph i] at h; cases h
    | listen i kd k h => rw [hph i] at h; cases h
    | pop i j kd pending held k f rest h => rw [hph i] at h; cases h
    | handle i kd pending before f after k st h => rw [hph i] at h; cases h
    | reject i kd pending before f after k h => rw [hph i] at h; cases h
    | deliver i kd k l st h => rw [hph i] at h; cases h
    | missing i kd k h => rw [hph i] at h; cases h
    | crash i h => rw [hph i] at h; cases h
  · cases hs with
    | begin i m p h =>
      right
      have hst := W.stage i
      rw [h] at hst
      rcases hst.ready_inv with ⟨hp, hout, hinn, hsl, hop⟩ | ⟨_, _, _, -, hq, -⟩
      · obtain ⟨k, _, rfl, _⟩ := (B.lockstep g.d W.hd _).of_send hp.symm
        have hout' : ∀ j, j ≠ i → g.out i j = if j ∈ peers i then 0 else 1 := fun j hj => by
          rw [hout j hj, if_pos (mem_peers.mpr hj)]
        have W' := W.local_step i (t := s.store i) (o := [m])
          (.sending m _ k (peers i) hp.symm rfl (peers_nodup i) (by simp) hout' hinn hsl rfl)
          (q := update s.sent i (s.sent i ++ [m])) (by rw [W.sent i, hop, List.append_nil])
        exact ⟨B, _, by simpa only [update_eq_self] using W'⟩
      · cases hq
    | push i j m pending p h hj hcap =>
      rw [L.sender i j (W.sending_ne h hj)]
      exact .inr ⟨B, _, W.push_step h hj⟩
    | finish i m p h =>
      right
      have hst := W.stage i
      rw [h] at hst
      obtain ⟨kd, k, rfl, hp, -, -, hout, hinn, hsl, hop⟩ := hst.sending_inv
      have hout' : ∀ j, j ≠ i → g.out i j = 1 := fun j hj => by rw [hout j hj, if_neg (by simp)]
      have W' := W.local_step i (t := s.store i) (o := g.opened i)
        (.idle m kd k hp rfl hout' hinn hsl hop) (W.sent_self i)
      exact ⟨B, _, by simpa only [update_eq_self] using W'⟩
    | listen i kd k h =>
      right
      have hst := W.stage i
      rw [h] at hst
      rcases hst.ready_inv with ⟨hp, -⟩ | ⟨m, kd', k', hp, hq, hout, hinn, hsl, hop⟩
      · exact absurd hp.symm ((B.lockstep g.d W.hd _).not_recv i kd k)
      · obtain ⟨rfl, rfl⟩ := Proc.recv.inj hq
        have hinn' : ∀ j, j ≠ i → g.inn i j = if j ∈ peers i then 0 else 1 := fun j hj => by
          rw [hinn j hj, if_pos (mem_peers.mpr hj)]
        have hsl' : slots (s.store i) = update (fun _ => []) kd [] :=
          hsl.trans (update_eq_self_iff.mpr rfl).symm
        have W' := W.local_step i (t := s.store i) (o := g.opened i)
          (.receiving m kd k (peers i) [] [] hp rfl (by simp) hout hinn' hsl' hop) (W.sent_self i)
        exact ⟨B, _, by simpa only [update_eq_self, List.map_nil] using W'⟩
    | pop i j kd pending held k f rest h hj hf =>
      rw [L.receiver i j (W.receiving_ne h hj)] at hf ⊢
      exact .inr ⟨B, _, W.pop_step h hj hf⟩
    | handle i kd pending before f after k st h ha =>
      obtain ⟨st', hst, W'⟩ := W.handle_step L h
      rw [ha] at hst
      cases hst
      exact .inr ⟨B, g, W'⟩
    | reject i kd pending before f after k h ha =>
      obtain ⟨st', hst, _⟩ := W.handle_step L h
      rw [ha] at hst
      cases hst
    | deliver i kd k l st h hc =>
      obtain ⟨B', g', W', hi⟩ := W.complete h
      obtain ⟨l', st', g2, hc', W2⟩ := W'.deliver_step L h hi
      rw [hc] at hc'
      cases hc'
      exact .inr ⟨B', g2, W2⟩
    | missing i kd k h hc =>
      obtain ⟨B', g', W', hi⟩ := W.complete h
      obtain ⟨l', st', g2, hc', _⟩ := W'.deliver_step L h hi
      rw [hc] at hc'
      cases hc'
    | crash i h =>
      have hst := W.stage i
      rw [h] at hst
      rcases hst.ready_inv with ⟨hp, -⟩ | ⟨_, _, _, -, hq, -⟩
      · exact absurd hp.symm ((B.lockstep g.d W.hd _).not_fail i)
      · cases hq

theorem Invariant.good (L : Lawful E kindOf wire slots) {s : Net n M K F S α}
    (hI : Invariant E kindOf wire slots Q s) : s.Good E kindOf wire Q := by
  rcases hI with ⟨b, g, q⟩ | ⟨B, g, W⟩
  · refine ⟨fun i => by rw [q.phase i]; exact nofun, fun i j => by rw [q.chan i j]; simp,
      .inl ⟨b, q.phase⟩, fun b' hb' => ?_, fun i r l h => ?_⟩
    · have he : b' = b := funext fun i => by
        have hi := hb' i
        rw [q.phase i] at hi
        injection hi with hi
        injection hi with hi
        exact hi.symm
      exact he ▸ q.result
    · rw [q.got i] at h
      have hr : r < g.r0 := by
        rw [← q.history.pastGot_length i]
        exact (List.getElem?_eq_some_iff.mp h).1
      obtain ⟨kd, w, hm, hl⟩ := q.history.round r hr
      obtain ⟨l', hl', hperm⟩ := hl i
      rw [hl'] at h
      cases h
      exact ⟨kd, w, fun j => by rw [q.sent j]; exact hm j, hperm⟩
  · refine ⟨fun i => ?_, W.chan_le, W.progress L, fun b hb => ?_, W.delivered⟩
    · cases W.stage i with
      | start hph => rw [hph]; exact nofun
      | sending _ _ _ _ _ hph => rw [hph]; exact nofun
      | idle _ _ _ _ hph => rw [hph]; exact nofun
      | receiving _ _ _ _ _ _ _ hph => rw [hph]; exact nofun
    · apply (B.lockstep g.d W.hd true).of_ret
      intro i
      have hst := W.stage i
      rw [hb i] at hst
      rcases hst.ready_inv with ⟨hp, -⟩ | ⟨_, _, _, -, hq, -⟩
      · cases hi : g.ahead i with
        | true => rw [hi] at hp; exact hp.symm
        | false => rw [hi] at hp; cases hp
      · cases hq

/-- Whatever the interleaving, the asynchronous execution of a lockstep program is good. -/
theorem Lockstep.network (L : Lawful E kindOf wire slots) {procs : Fin n → Proc M K α} {empty : S}
    (h : Lockstep kindOf wire Q procs) (hempty : slots empty = fun _ => [])
    {s : Net n M K F S α} (hr : Reachable E procs empty s) : s.Good E kindOf wire Q := by
  have hI : Invariant E kindOf wire slots Q s := by
    induction hr with
    | refl => exact .init h hempty
    | tail _ hs ih => exact ih.step L hs
  exact hI.good L

end PrivRecCert.Rounds
