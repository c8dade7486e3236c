import PrivRecCert.Rounds.Proc

/-! Joint runs of `n` programs that communicate in common rounds. `Lockstep` is a total-correctness
judgement: no program fails, all of them reach every round together, and whatever order the
messages of a round arrive in, the joint results satisfy the postcondition. -/
namespace PrivRecCert.Rounds
variable {n : ℕ} {M K α β : Type}

/-- The parties other than `i`, in the order of their numbers. -/
def peers (i : Fin n) : List (Fin n) := (List.finRange n).filter (· ≠ i)

/-- What party `i` is due from the others in one round. -/
def others (w : Fin n → M) (i : Fin n) : List M := (peers i).map w

@[simp] theorem mem_peers {i j : Fin n} : j ∈ peers i ↔ j ≠ i := by simp [peers]

theorem peers_nodup (i : Fin n) : (peers i).Nodup := (List.nodup_finRange n).filter _

theorem peers_perm (i : Fin n) : (i :: peers i).Perm (List.finRange n) := by
  refine (List.perm_ext_iff_of_nodup ?_ (List.nodup_finRange n)).mpr fun j => ?_
  · exact List.nodup_cons.mpr ⟨by simp, peers_nodup i⟩
  · by_cases hj : j = i <;> simp [hj]

@[simp] theorem peers_length (i : Fin n) : (peers i).length = n-1 := by
  have h := (peers_perm i).length_eq
  rw [List.length_cons, List.length_finRange] at h
  omega

@[simp] theorem others_length (w : Fin n → M) (i : Fin n) : (others w i).length = n-1 := by
  simp [others]

/-- What holds of every party's message holds of the messages a party is due, in any order. -/
theorem forall₂_of_perm {R : M → β → Prop} {w : Fin n → M} {f : Fin n → β} (hw : ∀ j, R (w j) (f j))
    {i : Fin n} {l : List M} (h : l.Perm (others w i)) :
    ∃ fs, List.Forall₂ R l fs ∧ fs.Perm ((peers i).map f) := by
  have hall : List.Forall₂ R (others w i) ((peers i).map f) :=
    List.forall₂_map_left_iff.mpr (List.forall₂_map_right_iff.mpr (List.forall₂_same.mpr fun j _ => hw j))
  obtain ⟨fs, hfs, hperm⟩ := List.perm_comp_forall₂ h hall
  exact ⟨fs, hfs, hperm⟩

/-- `wire j m` is what a receiver stores when party `j` broadcasts `m`; `none` when the
receiver would reject it. -/
inductive Lockstep (kindOf : M → K) (wire : Fin n → M → Option M) (Q : (Fin n → α) → Prop) :
    (Fin n → Proc M K α) → Prop
  | done {procs} (b : Fin n → α) (hp : ∀ i, procs i = .ret (b i)) (hQ : Q b) :
      Lockstep kindOf wire Q procs
  | round {procs} (m w : Fin n → M) (kd : K) (k : Fin n → List M → Proc M K α)
      (hp : ∀ i, procs i = .send (m i) (.recv kd (k i)))
      (hkind : ∀ i, kindOf (m i) = kd) (hwire : ∀ i, wire i (m i) = some (w i))
      (next : ∀ d : Fin n → List M, (∀ i, (d i).Perm (others w i)) →
        Lockstep kindOf wire Q fun i => k i (d i)) :
      Lockstep kindOf wire Q procs

namespace Lockstep
variable {kindOf : M → K} {wire : Fin n → M → Option M}
variable {Q R : (Fin n → α) → Prop} {procs : Fin n → Proc M K α}

theorem mono (h : Lockstep kindOf wire Q procs) (hQR : ∀ b, Q b → R b) :
    Lockstep kindOf wire R procs := by
  induction h with
  | done b hp hQ => exact .done b hp (hQR b hQ)
  | round m w kd k hp hkind hwire _ ih => exact .round m w kd k hp hkind hwire ih

/-- Sequential composition: the postcondition of the first part is the precondition of the second. -/
theorem bind {S : (Fin n → β) → Prop} {f : Fin n → α → Proc M K β}
    (h : Lockstep kindOf wire Q procs)
    (hf : ∀ b, Q b → Lockstep kindOf wire S fun i => f i (b i)) :
    Lockstep kindOf wire S fun i => procs i >>= f i := by
  induction h with
  | @done procs b hp hQ =>
    have he : (fun i => f i (b i)) = fun i => procs i >>= f i := by
      funext i
      rw [hp i, Proc.ret_bind]
    exact he ▸ hf b hQ
  | round m w kd k hp hkind hwire _ ih =>
    refine .round m w kd (fun i l => k i l >>= f i) (fun i => ?_) hkind hwire ih
    rw [hp i, Proc.send_bind, Proc.recv_bind]

theorem ret {b : Fin n → α} (hQ : Q b) :
    Lockstep kindOf wire Q fun i => (.ret (b i) : Proc M K α) := .done b (fun _ => rfl) hQ

/-- A local step that succeeds at every party. -/
theorem lift {o : Fin n → Option β} {a : Fin n → β} {f : Fin n → β → Proc M K α}
    (ho : ∀ i, o i = some (a i)) (h : Lockstep kindOf wire Q fun i => f i (a i)) :
    Lockstep kindOf wire Q fun i => Proc.lift (o i) >>= f i := by
  have he : (fun i => f i (a i)) = fun i => Proc.lift (o i) >>= f i := by
    funext i
    rw [ho i, Proc.lift_some, Proc.ret_bind]
  exact he ▸ h

/-- A program that has failed is in no lockstep run. -/
theorem not_fail (h : Lockstep kindOf wire Q procs) (i : Fin n) : procs i ≠ .fail := by
  cases h with
  | done b hp _ => rw [hp i]; exact nofun
  | round m w kd k hp _ _ _ => rw [hp i]; exact nofun

/-- In a lockstep run a broadcast is followed by the receive of the kind just broadcast. -/
theorem of_send (h : Lockstep kindOf wire Q procs) {i : Fin n} {m : M} {p : Proc M K α}
    (hi : procs i = .send m p) :
    ∃ k w, p = .recv (kindOf m) k ∧ wire i m = some w := by
  cases h with
  | done b hp _ => rw [hp i] at hi; cases hi
  | round ms w kd k hp hkind hwire _ =>
    rw [hp i] at hi
    cases hi
    exact ⟨k i, w i, by rw [hkind i], hwire i⟩

theorem kind_eq (h : Lockstep kindOf wire Q procs) {i j : Fin n} {m m' : M} {p p' : Proc M K α}
    (hi : procs i = .send m p) (hj : procs j = .send m' p') : kindOf m = kindOf m' := by
  cases h with
  | done b hp _ => rw [hp i] at hi; cases hi
  | round ms w kd k hp hkind _ _ =>
    rw [hp i] at hi
    rw [hp j] at hj
    cases hi
    cases hj
    rw [hkind i, hkind j]

/-- No party starts with a receive. -/
theorem not_recv (h : Lockstep kindOf wire Q procs) (i : Fin n) (kd : K)
    (k : List M → Proc M K α) : procs i ≠ .recv kd k := by
  cases h with
  | done b hp _ => rw [hp i]; exact nofun
  | round m w kd' k' hp _ _ _ => rw [hp i]; exact nofun

/-- Programs that have finished satisfy the postcondition. -/
theorem of_ret (h : Lockstep kindOf wire Q procs)
    {b : Fin n → α} (hb : ∀ i, procs i = .ret (b i)) : Q b := by
  induction h with
  | done b' hp hQ =>
    have he : b = b' := funext fun i => by
      have hi := hb i
      rw [hp i] at hi
      injection hi with hi
      exact hi.symm
    exact he ▸ hQ
  | round m w kd k hp _ _ _ ih =>
    refine ih (fun i => others w i) (fun _ => List.Perm.refl _) fun i => ?_
    have hi := hb i
    rw [hp i] at hi
    cases hi

/-- What each program does by itself, whatever it receives, it also does in lockstep. -/
theorem yields (h : Lockstep kindOf wire Q procs) {P : Fin n → α → Prop} (hP : ∀ i a, (procs i).Yields a → P i a) :
    Lockstep kindOf wire (fun b => Q b ∧ ∀ i, P i (b i)) procs := by
  induction h with
  | done b hp hQ => exact .done b hp ⟨hQ, fun i => hP i _ (by rw [hp i]; exact .ret _)⟩
  | round m w kd k hp hkind hwire _ ih =>
    refine .round m w kd k hp hkind hwire fun d hd => ih d hd fun i a ha => hP i a ?_
    rw [hp i]
    exact (ha.recv kd).send (m i)

end Lockstep
end PrivRecCert.Rounds
