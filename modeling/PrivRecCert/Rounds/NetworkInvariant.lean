import PrivRecCert.Rounds.Network

/-! The invariant behind the asynchronous execution of a lockstep program. At any moment some
parties are in one common round and the others in the round after it, so two consecutive rounds
describe everything in flight. -/
namespace PrivRecCert.Rounds
open Function
variable {n : ℕ} {M K F S α : Type}
variable {E : Endpoint n M K F S} {kindOf : M → K} {wire : Fin n → M → Option M}
variable {slots : S → K → List M} {Q : (Fin n → α) → Prop}

/-- The older of the two rounds in flight. -/
structure Round (n : ℕ) (M K α : Type) (kindOf : M → K) (wire : Fin n → M → Option M)
    (Q : (Fin n → α) → Prop) where
  m : Fin n → M
  w : Fin n → M
  kd : K
  k : Fin n → List M → Proc M K α
  hkind : ∀ i, kindOf (m i) = kd
  hwire : ∀ i, wire i (m i) = some (w i)
  next : ∀ d : Fin n → List M, (∀ i, (d i).Perm (others w i)) →
    Lockstep kindOf wire Q fun i => k i (d i)

/-- The message a program is about to broadcast. -/
def Proc.head (p : Proc M K α) (default : M) : M :=
  match p with
  | .send m _ => m
  | _ => default

namespace Round
variable (B : Round n M K α kindOf wire Q) (d : Fin n → List M)

/-- The program of party `i` at the start of the older or of the newer round. -/
def cur (ahead : Bool) (i : Fin n) : Proc M K α :=
  if ahead then B.k i (d i) else .send (B.m i) (.recv B.kd (B.k i))

def msg (ahead : Bool) (i : Fin n) : M := (B.cur d ahead i).head (B.m i)

def rcv (ahead : Bool) (i : Fin n) : M := (wire i (B.msg d ahead i)).getD (B.m i)

@[simp] theorem cur_false (i : Fin n) : B.cur d false i = .send (B.m i) (.recv B.kd (B.k i)) := rfl
@[simp] theorem cur_true (i : Fin n) : B.cur d true i = B.k i (d i) := rfl
@[simp] theorem msg_false (i : Fin n) : B.msg d false i = B.m i := rfl
@[simp] theorem rcv_false (i : Fin n) : B.rcv d false i = B.w i := by simp [rcv, B.hwire i]

theorem lockstep (hd : ∀ i, (d i).Perm (others B.w i)) (ahead : Bool) :
    Lockstep kindOf wire Q (B.cur d ahead) := by
  cases ahead with
  | true => exact B.next d hd
  | false => exact .round B.m B.w B.kd B.k (fun _ => rfl) B.hkind B.hwire B.next

theorem msg_of_send {ahead : Bool} {i : Fin n} {m : M} {p : Proc M K α}
    (h : B.cur d ahead i = .send m p) : B.msg d ahead i = m := by simp [msg, h, Proc.head]

theorem wire_of_send (hd : ∀ i, (d i).Perm (others B.w i)) {ahead : Bool} {i : Fin n} {m : M}
    {p : Proc M K α} (h : B.cur d ahead i = .send m p) : wire i m = some (B.rcv d ahead i) := by
  obtain ⟨_, w, _, hw⟩ := (B.lockstep d hd ahead).of_send h
  simp [rcv, B.msg_of_send d h, hw]

/-- The rounds of the other parties do not depend on what `i` receives, and no older round does. -/
theorem msg_update {d : Fin n → List M} {a : Bool} {i j : Fin n} (h : j ≠ i ∨ a = false) (l : List M) :
    B.msg (update d i l) a j = B.msg d a j := by
  rcases h with hj | rfl
  · simp [msg, cur, update_of_ne hj]
  · rfl

end Round

/-- Bookkeeping of a configuration: who is ahead, how many frames are sent and taken in the
current round of each party, and what happened in the `r0` rounds before the older one. -/
structure Ghost (n : ℕ) (M : Type) where
  d : Fin n → List M
  ahead : Fin n → Bool
  out : Fin n → Fin n → ℕ
  inn : Fin n → Fin n → ℕ
  opened : Fin n → List M
  past : Fin n → List M
  pastGot : Fin n → List (List M)
  r0 : ℕ

/-- The rounds before the older one are complete at every party. -/
structure Ghost.History (g : Ghost n M) (kindOf : M → K) (wire : Fin n → M → Option M) : Prop where
  past_length : ∀ i, (g.past i).length = g.r0
  pastGot_length : ∀ i, (g.pastGot i).length = g.r0
  round : ∀ r < g.r0, ∃ (kd : K) (w : Fin n → M),
    (∀ j, ∃ m, (g.past j)[r]? = some m ∧ kindOf m = kd ∧ wire j m = some (w j)) ∧
      ∀ i, ∃ l, (g.pastGot i)[r]? = some l ∧ l.Perm (others w i)

/-- One more complete round. -/
theorem Ghost.History.snoc {g g' : Ghost n M} (h : g.History kindOf wire) {kd : K}
    {m w : Fin n → M} {d : Fin n → List M} (hm : ∀ j, kindOf (m j) = kd ∧ wire j (m j) = some (w j))
    (hd : ∀ i, (d i).Perm (others w i)) (hpast : ∀ i, g'.past i = g.past i ++ [m i])
    (hgot : ∀ i, g'.pastGot i = g.pastGot i ++ [d i]) (hr0 : g'.r0 = g.r0+1) :
    g'.History kindOf wire := by
  refine ⟨fun i => ?_, fun i => ?_, fun r hr => ?_⟩
  · rw [hpast i, List.length_append, h.past_length i, hr0]; rfl
  · rw [hgot i, List.length_append, h.pastGot_length i, hr0]; rfl
  · by_cases hlt : r < g.r0
    · obtain ⟨kd', w', hm', hl⟩ := h.round r hlt
      refine ⟨kd', w', fun j => ?_, fun i => ?_⟩
      · rw [hpast j, List.getElem?_append_left (by rw [h.past_length]; exact hlt)]
        exact hm' j
      · rw [hgot i, List.getElem?_append_left (by rw [h.pastGot_length]; exact hlt)]
        exact hl i
    · have he : r = g.r0 := by omega
      subst he
      refine ⟨kd, w, fun j => ⟨m j, ?_, hm j⟩, fun i => ⟨d i, ?_, hd i⟩⟩
      · rw [hpast j, ← h.past_length j]; simp
      · rw [hgot i, ← h.pastGot_length i]; simp

variable [DecidableEq K]

/-- What one party has done in the round that its program `p` begins: `out j` and `inn j` say
whether its frame to `j` is sent and the one from `j` is taken. -/
inductive Stage (p : Proc M K α) (fr : Fin n → F) (w : Fin n → M) (i : Fin n)
    (ph : Phase n M K F α) (out inn : Fin n → ℕ) (sl : K → List M) (opened : List M) : Prop
  | start (hph : ph = .ready p) (hout : ∀ j, j ≠ i → out j = 0) (hinn : ∀ j, j ≠ i → inn j = 0)
      (hsl : sl = fun _ => []) (hop : opened = [])
  | sending (m kd k pending) (hp : p = .send m (.recv kd k))
      (hph : ph = .sending m pending (.recv kd k)) (hnd : pending.Nodup) (hi : i ∉ pending)
      (hout : ∀ j, j ≠ i → out j = if j ∈ pending then 0 else 1)
      (hinn : ∀ j, j ≠ i → inn j = 0) (hsl : sl = fun _ => []) (hop : opened = [m])
  | idle (m kd k) (hp : p = .send m (.recv kd k)) (hph : ph = .ready (.recv kd k))
      (hout : ∀ j, j ≠ i → out j = 1) (hinn : ∀ j, j ≠ i → inn j = 0)
      (hsl : sl = fun _ => []) (hop : opened = [m])
  | receiving (m kd k) (pending handled held : List (Fin n)) (hp : p = .send m (.recv kd k))
      (hph : ph = .receiving kd pending (held.map fr) k)
      (hperm : (pending ++ (handled ++ held)).Perm (peers i))
      (hout : ∀ j, j ≠ i → out j = 1) (hinn : ∀ j, j ≠ i → inn j = if j ∈ pending then 0 else 1)
      (hsl : sl = update (fun _ => []) kd (handled.map w)) (hop : opened = [m])

namespace Stage
variable {p : Proc M K α} {fr fr' : Fin n → F} {w w' : Fin n → M} {i : Fin n}
variable {ph : Phase n M K F α} {out inn : Fin n → ℕ} {sl : K → List M} {opened : List M}

theorem out_le (h : Stage p fr w i ph out inn sl opened) {j : Fin n} (hj : j ≠ i) : out j ≤ 1 := by
  cases h with
  | start _ hout => rw [hout j hj]; omega
  | sending _ _ _ _ _ _ _ _ hout => rw [hout j hj]; split <;> omega
  | idle _ _ _ _ _ hout => rw [hout j hj]
  | receiving _ _ _ _ _ _ _ _ _ hout => rw [hout j hj]

/-- Only the frames already taken off the channels matter to a party's stage. -/
theorem congr (h : Stage p fr w i ph out inn sl opened)
    (hf : ∀ j, j ≠ i → inn j = 1 → fr j = fr' j ∧ w j = w' j) :
    Stage p fr' w' i ph out inn sl opened := by
  cases h with
  | start hph hout hinn hsl hop => exact .start hph hout hinn hsl hop
  | sending m kd k pending hp hph hnd hi hout hinn hsl hop =>
    exact .sending m kd k pending hp hph hnd hi hout hinn hsl hop
  | idle m kd k hp hph hout hinn hsl hop => exact .idle m kd k hp hph hout hinn hsl hop
  | receiving m kd k pending handled held hp hph hperm hout hinn hsl hop =>
    have hnd : (pending ++ (handled ++ held)).Nodup := hperm.nodup_iff.mpr (peers_nodup i)
    have hmem : ∀ j ∈ handled ++ held, fr j = fr' j ∧ w j = w' j := by
      intro j hj
      have hji : j ≠ i := mem_peers.mp (hperm.mem_iff.mp (List.mem_append_right _ hj))
      apply hf j hji
      rw [hinn j hji, if_neg fun hp => (List.disjoint_of_nodup_append hnd) hp hj]
    have hheld : held.map fr = held.map fr' :=
      List.map_congr_left fun j hj => (hmem j (List.mem_append_right _ hj)).1
    have hhandled : handled.map w = handled.map w' :=
      List.map_congr_left fun j hj => (hmem j (List.mem_append_left _ hj)).2
    exact .receiving m kd k pending handled held hp (hheld ▸ hph) hperm hout hinn
      (hhandled ▸ hsl) hop

/-- A party between two communications is at the start of its round or has sent to everybody. -/
theorem ready_inv {q : Proc M K α} (h : Stage p fr w i (.ready q) out inn sl opened) :
    (q = p ∧ (∀ j, j ≠ i → out j = 0) ∧ (∀ j, j ≠ i → inn j = 0) ∧ sl = (fun _ => []) ∧ opened = []) ∨
      ∃ m kd k, p = .send m (.recv kd k) ∧ q = .recv kd k ∧ (∀ j, j ≠ i → out j = 1) ∧
        (∀ j, j ≠ i → inn j = 0) ∧ sl = (fun _ => []) ∧ opened = [m] := by
  cases h with
  | start hph hout hinn hsl hop => exact .inl ⟨Phase.ready.inj hph, hout, hinn, hsl, hop⟩
  | sending _ _ _ _ _ hph => cases hph
  | idle m kd k hp hph hout hinn hsl hop => exact .inr ⟨m, kd, k, hp, Phase.ready.inj hph, hout, hinn, hsl, hop⟩
  | receiving _ _ _ _ _ _ _ hph => cases hph

theorem sending_inv {m : M} {pending : List (Fin n)} {q : Proc M K α}
    (h : Stage p fr w i (.sending m pending q) out inn sl opened) :
    ∃ kd k, q = .recv kd k ∧ p = .send m (.recv kd k) ∧ pending.Nodup ∧ i ∉ pending ∧
      (∀ j, j ≠ i → out j = if j ∈ pending then 0 else 1) ∧ (∀ j, j ≠ i → inn j = 0) ∧ sl = (fun _ => []) ∧
      opened = [m] := by
  cases h with
  | start hph => cases hph
  | sending m' kd k pending' hp hph hnd hi hout hinn hsl hop =>
    obtain ⟨rfl, rfl, rfl⟩ := Phase.sending.inj hph
    exact ⟨kd, k, rfl, hp, hnd, hi, hout, hinn, hsl, hop⟩
  | idle _ _ _ _ hph => cases hph
  | receiving _ _ _ _ _ _ _ hph => cases hph

theorem receiving_inv {kd : K} {pending : List (Fin n)} {fs : List F} {k : List M → Proc M K α}
    (h : Stage p fr w i (.receiving kd pending fs k) out inn sl opened) :
    ∃ m handled held, fs = held.map fr ∧ p = .send m (.recv kd k) ∧ (pending ++ (handled ++ held)).Perm (peers i) ∧
      (∀ j, j ≠ i → out j = 1) ∧ (∀ j, j ≠ i → inn j = if j ∈ pending then 0 else 1) ∧
      sl = update (fun _ => []) kd (handled.map w) ∧ opened = [m] := by
  cases h with
  | start hph => cases hph
  | sending _ _ _ _ _ hph => cases hph
  | idle _ _ _ _ hph => cases hph
  | receiving m kd' k' pending' handled held hp hph hperm hout hinn hsl hop =>
    obtain ⟨rfl, rfl, hfs, rfl⟩ := Phase.receiving.inj hph
    exact ⟨m, handled, held, hfs, hp, hperm, hout, hinn, hsl, hop⟩

/-- A party whose round has begun but which has not sent to everybody can still send. -/
theorem opened_of_out (h : Stage p fr w i ph out inn sl opened) {j : Fin n} (hj : j ≠ i)
    (ho : 1 ≤ out j) : ∃ m q, p = .send m q ∧ opened = [m] := by
  cases h with
  | start _ hout => rw [hout j hj] at ho; omega
  | sending m kd k _ hp _ _ _ _ _ _ hop => exact ⟨m, _, hp, hop⟩
  | idle m kd k hp _ _ _ _ hop => exact ⟨m, _, hp, hop⟩
  | receiving m kd k _ _ _ hp _ _ _ _ _ hop => exact ⟨m, _, hp, hop⟩

end Stage

/-- Two consecutive rounds describe the configuration. -/
structure Window (E : Endpoint n M K F S) (slots : S → K → List M)
    (B : Round n M K α kindOf wire Q) (g : Ghost n M) (s : Net n M K F S α) : Prop where
  hd : ∀ i, (g.d i).Perm (others B.w i)
  stage : ∀ i, Stage (B.cur g.d (g.ahead i) i) (fun j => E.encode j (B.msg g.d (g.ahead i) j))
    (B.rcv g.d (g.ahead i)) i (s.phase i) (g.out i) (g.inn i) (slots (s.store i)) (g.opened i)
  chan : ∀ i j, i ≠ j → s.chan (i, j) =
    ([E.encode i (B.msg g.d false i), E.encode i (B.msg g.d true i)].take
      ((g.ahead i).toNat + g.out i j)).drop ((g.ahead j).toNat + g.inn j i)
  taken : ∀ i j, i ≠ j → (g.ahead j).toNat + g.inn j i ≤ (g.ahead i).toNat + g.out i j
  chan_self : ∀ i, s.chan (i, i) = []
  sent : ∀ i, s.sent i = g.past i ++ (if g.ahead i then [B.m i] else []) ++ g.opened i
  got : ∀ i, s.got i = g.pastGot i ++ if g.ahead i then [g.d i] else []
  history : g.History kindOf wire

/-- Everybody has finished and nothing is left over. -/
structure Quiet (slots : S → K → List M) (Q : (Fin n → α) → Prop) (b : Fin n → α) (g : Ghost n M)
    (kindOf : M → K) (wire : Fin n → M → Option M) (s : Net n M K F S α) : Prop where
  result : Q b
  phase : ∀ i, s.phase i = .ready (.ret (b i))
  chan : ∀ i j, s.chan (i, j) = []
  sent : ∀ i, s.sent i = g.past i
  got : ∀ i, s.got i = g.pastGot i
  history : g.History kindOf wire

def Invariant (E : Endpoint n M K F S) (kindOf : M → K) (wire : Fin n → M → Option M)
    (slots : S → K → List M) (Q : (Fin n → α) → Prop) (s : Net n M K F S α) : Prop :=
  (∃ b g, Quiet slots Q b g kindOf wire s) ∨
    ∃ (B : Round n M K α kindOf wire Q) (g : Ghost n M), Window E slots B g s

end PrivRecCert.Rounds
