import PrivRecCert.Rounds.Session
import Mathlib.Algebra.BigOperators.Group.List.Lemmas
import Mathlib.Tactic.Ring

/-! The books of a metered session. When all requests take rounds of the same costs, the number of frames that went
out on a channel tells what the next one costs, and each report is the cost of exactly one request; only the first
one comes on top of what the counters began with. -/
namespace PrivRecCert.Rounds
open Function

variable {n : ℕ} {M K F S A R T : Type}

/-- Requests are served in rounds of the costs that are listed, and channel `(i, j)` leads from `i` to `j`. -/
structure Metered.Regular (X : Metered n M K F S A R T) (costs : List ℕ) (Inv : Fin n → A → Prop)
    (Ask : Fin n → R → Prop) : Prop where
  tally : X.tally.Lawful
  sender : ∀ i j, i ≠ j → X.endpoint.sender i j = (i, j)
  receiver : ∀ i j, i ≠ j → X.endpoint.receiver i j = (j, i)
  connections : ∀ i, ∀ j ∈ X.connections i, j ≠ i
  serve : ∀ i a r, Inv i a → Ask i r →
    Proc.Sized (fun m => X.cost (X.endpoint.encode i m)) (Inv i) costs (X.serve i a r)

/-- Where a party is in a request whose rounds cost `due`: `out j` and `inn j` are the frames sent to and taken from
`j`, of which `base` belong to earlier requests. -/
inductive Position (size : M → ℕ) (Q : A → Prop) (due : List ℕ) (base : ℕ) (i : Fin n) (ph : Phase n M K F A)
    (out inn : Fin n → ℕ) : Prop
  | start (done todo p) (hdue : due = done ++ todo) (hp : Proc.Sized size Q todo p) (hph : ph = .ready p)
      (hout : ∀ j, j ≠ i → out j = base + done.length) (hinn : ∀ j, j ≠ i → inn j = base + done.length)
  | sending (done todo m kd k pending) (hdue : due = done ++ size m :: todo)
      (hnext : ∀ l, Proc.Sized size Q todo (k l)) (hph : ph = .sending m pending (.recv kd k))
      (hnd : pending.Nodup) (hi : i ∉ pending)
      (hout : ∀ j, j ≠ i → out j = base + done.length + if j ∈ pending then 0 else 1)
      (hinn : ∀ j, j ≠ i → inn j = base + done.length)
  | idle (done todo c kd k) (hdue : due = done ++ c :: todo) (hnext : ∀ l, Proc.Sized size Q todo (k l))
      (hph : ph = .ready (.recv kd k)) (hout : ∀ j, j ≠ i → out j = base + done.length + 1)
      (hinn : ∀ j, j ≠ i → inn j = base + done.length)
  | receiving (done todo c kd k pending held) (hdue : due = done ++ c :: todo)
      (hnext : ∀ l, Proc.Sized size Q todo (k l)) (hph : ph = .receiving kd pending held k)
      (hnd : pending.Nodup) (hi : i ∉ pending) (hout : ∀ j, j ≠ i → out j = base + done.length + 1)
      (hinn : ∀ j, j ≠ i → inn j = base + done.length + if j ∈ pending then 0 else 1)
  | panicked (hph : ph = .panicked)

namespace Position
variable {size : M → ℕ} {Q : A → Prop} {due : List ℕ} {base : ℕ} {i : Fin n} {out inn : Fin n → ℕ}

theorem ready_inv {p : Proc M K A} (h : Position size Q due base i (.ready p : Phase n M K F A) out inn) :
    (∃ done todo, due = done ++ todo ∧ Proc.Sized size Q todo p ∧ (∀ j, j ≠ i → out j = base + done.length) ∧
      ∀ j, j ≠ i → inn j = base + done.length) ∨
    ∃ done todo c kd k, due = done ++ c :: todo ∧ (∀ l, Proc.Sized size Q todo (k l)) ∧ p = .recv kd k ∧
      (∀ j, j ≠ i → out j = base + done.length + 1) ∧ ∀ j, j ≠ i → inn j = base + done.length := by
  cases h with
  | start done todo p' hdue hp hph hout hinn =>
    obtain rfl := Phase.ready.inj hph
    exact .inl ⟨done, todo, hdue, hp, hout, hinn⟩
  | sending done todo m kd k pending hdue hnext hph => cases hph
  | idle done todo c kd k hdue hnext hph hout hinn =>
    obtain rfl := Phase.ready.inj hph
    exact .inr ⟨done, todo, c, kd, k, hdue, hnext, rfl, hout, hinn⟩
  | receiving done todo c kd k pending held hdue hnext hph => cases hph
  | panicked hph => cases hph

theorem sending_inv {m : M} {pending : List (Fin n)} {p : Proc M K A}
    (h : Position size Q due base i (.sending m pending p : Phase n M K F A) out inn) :
    ∃ done todo kd k, due = done ++ size m :: todo ∧ (∀ l, Proc.Sized size Q todo (k l)) ∧ p = .recv kd k ∧
      pending.Nodup ∧ i ∉ pending ∧ (∀ j, j ≠ i → out j = base + done.length + if j ∈ pending then 0 else 1) ∧
      ∀ j, j ≠ i → inn j = base + done.length := by
  cases h with
  | start done todo p' hdue hp hph => cases hph
  | sending done todo m' kd k pending' hdue hnext hph hnd hi hout hinn =>
    obtain ⟨rfl, rfl, rfl⟩ := Phase.sending.inj hph
    exact ⟨done, todo, kd, k, hdue, hnext, rfl, hnd, hi, hout, hinn⟩
  | idle done todo c kd k hdue hnext hph => cases hph
  | receiving done todo c kd k pending' held hdue hnext hph => cases hph
  | panicked hph => cases hph

theorem receiving_inv {kd : K} {pending : List (Fin n)} {held : List F} {k : List M → Proc M K A}
    (h : Position size Q due base i (.receiving kd pending held k : Phase n M K F A) out inn) :
    ∃ done todo c, due = done ++ c :: todo ∧ (∀ l, Proc.Sized size Q todo (k l)) ∧ pending.Nodup ∧ i ∉ pending ∧
      (∀ j, j ≠ i → out j = base + done.length + 1) ∧
      ∀ j, j ≠ i → inn j = base + done.length + if j ∈ pending then 0 else 1 := by
  cases h with
  | start done todo p' hdue hp hph => cases hph
  | sending done todo m kd' k' pending' hdue hnext hph => cases hph
  | idle done todo c kd' k' hdue hnext hph => cases hph
  | receiving done todo c kd' k' pending' held' hdue hnext hph hnd hi hout hinn =>
    obtain ⟨rfl, rfl, rfl, rfl⟩ := Phase.receiving.inj hph
    exact ⟨done, todo, c, hdue, hnext, hnd, hi, hout, hinn⟩
  | panicked hph => cases hph

/-- A step that moves no frame leaves the numbers of frames right for the party that takes it. -/
theorem inner_step {E : Endpoint n M K F S} {s s' : Net n M K F S A} (h : Step E s s') (hchan : s'.chan = s.chan) :
    ∃ k ph, s'.phase = update s.phase k ph ∧ ∀ {size Q due base out inn},
      Position size Q due base k (s.phase k) out inn → Position size Q due base k ph out inn := by
  cases h with
  | begin k m p h =>
    refine ⟨k, _, rfl, fun hpos => ?_⟩
    rw [h] at hpos
    rcases hpos.ready_inv with ⟨done, todo, hdue, hp, hout, hinn⟩ | ⟨_, _, _, _, _, -, -, hp, -⟩
    · obtain ⟨kd, next, rest, rfl, rfl, hnext⟩ := hp.of_send
      refine .sending done rest m kd next (peers k) hdue hnext rfl (peers_nodup k) (by simp) (fun j hj => ?_) hinn
      rw [hout j hj, if_pos (mem_peers.mpr hj), Nat.add_zero]
    · cases hp
  | push k j m pending p h hj hcap =>
    have hlen := congrArg List.length (congrFun hchan (E.sender k j))
    change (update s.chan (E.sender k j) _ (E.sender k j)).length = _ at hlen
    rw [update_self, List.length_append, List.length_singleton] at hlen
    omega
  | finish k m p h =>
    refine ⟨k, _, rfl, fun hpos => ?_⟩
    rw [h] at hpos
    obtain ⟨done, todo, kd, next, hdue, hnext, rfl, -, -, hout, hinn⟩ := hpos.sending_inv
    refine .idle done todo _ kd next hdue hnext rfl (fun j hj => ?_) hinn
    rw [hout j hj, if_neg List.not_mem_nil]
  | listen k kd next h =>
    refine ⟨k, _, rfl, fun hpos => ?_⟩
    rw [h] at hpos
    rcases hpos.ready_inv with ⟨_, _, -, hp, -⟩ | ⟨done, todo, c, kd', next', hdue, hnext, hp, hout, hinn⟩
    · exact hp.not_recv.elim
    · obtain ⟨rfl, rfl⟩ := Proc.recv.inj hp
      refine .receiving done todo c kd next (peers k) [] hdue hnext rfl (peers_nodup k) (by simp) hout fun j hj => ?_
      rw [hinn j hj, if_pos (mem_peers.mpr hj), Nat.add_zero]
  | pop k j kd pending held next f rest h hj hf =>
    have heq := congrFun hchan (E.receiver k j)
    change update s.chan (E.receiver k j) rest (E.receiver k j) = _ at heq
    rw [update_self, hf] at heq
    have hlen := congrArg List.length heq
    rw [List.length_cons] at hlen
    omega
  | handle k kd pending before f after next st h ha =>
    refine ⟨k, _, rfl, fun hpos => ?_⟩
    rw [h] at hpos
    obtain ⟨done, todo, c, hdue, hnext, hnd, hi, hout, hinn⟩ := hpos.receiving_inv
    exact .receiving done todo c kd next pending _ hdue hnext rfl hnd hi hout hinn
  | reject k kd pending before f after next h ha => exact ⟨k, _, rfl, fun _ => .panicked rfl⟩
  | deliver k kd next l st h hc =>
    refine ⟨k, _, rfl, fun hpos => ?_⟩
    rw [h] at hpos
    obtain ⟨done, todo, c, hdue, hnext, -, -, hout, hinn⟩ := hpos.receiving_inv
    refine .start (done ++ [c]) todo (next l) (by rw [hdue, List.append_assoc]; rfl) (hnext l) rfl
      (fun j hj => ?_) fun j hj => ?_
    · rw [hout j hj, List.length_append, List.length_singleton, Nat.add_assoc]
    · rw [hinn j hj, if_neg List.not_mem_nil, List.length_append, List.length_singleton, Nat.add_assoc]
  | missing k kd next h hc => exact ⟨k, _, rfl, fun _ => .panicked rfl⟩
  | crash k h => exact ⟨k, _, rfl, fun _ => .panicked rfl⟩

end Position

section Books
variable {X : Metered n M K F S A R T} {costs : List ℕ} {Inv : Fin n → A → Prop} {Ask : Fin n → R → Prop}
  {opening : Fin n → Fin n → T}

/-- What the frame number `t` of a channel costs. -/
def dueAt (costs : List ℕ) (t : ℕ) : ℕ := costs.getD (t % costs.length) 0

/-- The rounds of a request that is under way, or of no request. -/
def dueOf (costs : List ℕ) (queue : List R) : List ℕ := if queue = [] then [] else costs

/-- What counters that start with `opening` and count the costs of `m` rounds of request number `d` show. -/
def shown (opening : ℕ) (costs : List ℕ) (d m : ℕ) : ℕ := (if d = 0 then opening else 0) + (costs.take m).sum

/-- The books of one party: the counters show what went over its connections since the last report, and the reports
show what went over them before. -/
structure Booked (X : Metered n M K F S A R T) (costs : List ℕ) (Inv : Fin n → A → Prop) (Ask : Fin n → R → Prop)
    (opening : Fin n → Fin n → T) (i : Fin n) (ph : Phase n M K F A) (queue : List R) (stat : Fin n → T)
    (reports : List T) (out inn : Fin n → ℕ) : Prop where
  position : Position (fun m => X.cost (X.endpoint.encode i m)) (Inv i) (dueOf costs queue)
    (costs.length*reports.length) i ph out inn
  asks : ∀ r ∈ queue, Ask i r
  sent : ∀ j, j ≠ i → X.tally.sent (stat j) =
    shown (X.tally.sent (opening i j)) costs reports.length (out j - costs.length*reports.length)
  received : ∀ j, j ≠ i → X.tally.received (stat j) =
    shown (X.tally.received (opening i j)) costs reports.length (inn j - costs.length*reports.length)
  reported : ∀ (d : ℕ) (t : T), reports[d]? = some t →
    X.tally.sent t = ((X.connections i).map fun j => shown (X.tally.sent (opening i j)) costs d costs.length).sum ∧
    X.tally.received t = ((X.connections i).map fun j => shown (X.tally.received (opening i j)) costs d costs.length).sum

/-- The books of all parties, and what is in flight. -/
structure Ledger (X : Metered n M K F S A R T) (costs : List ℕ) (Inv : Fin n → A → Prop) (Ask : Fin n → R → Prop)
    (opening : Fin n → Fin n → T) (s : Session n M K F S A R T) (out inn : Fin n → Fin n → ℕ) : Prop where
  party : ∀ i, Booked X costs Inv Ask opening i (s.net.phase i) (s.queue i) (s.stat i) (s.reports i) (out i) (inn i)
  taken : ∀ i j, i ≠ j → inn j i ≤ out i j
  chan : ∀ i j, i ≠ j → (s.net.chan (i, j)).map X.cost =
    (List.range' (inn j i) (out i j - inn j i)).map (dueAt costs)

theorem dueOf_eq {queue : List R} {done todo : List ℕ} {c : ℕ} (h : dueOf costs queue = done ++ c :: todo) :
    queue ≠ [] ∧ costs = done ++ c :: todo := by
  unfold dueOf at h
  split_ifs at h with hq
  · exact absurd h.symm (List.append_ne_nil_of_right_ne_nil _ (List.cons_ne_nil _ _))
  · exact ⟨hq, h⟩

theorem dueAt_eq {done todo : List ℕ} {c : ℕ} (h : costs = done ++ c :: todo) (d : ℕ) :
    dueAt costs (costs.length*d + done.length) = c := by
  have hlt : done.length < costs.length := by
    rw [h, List.length_append, List.length_cons]
    omega
  rw [dueAt, Nat.mul_add_mod, Nat.mod_eq_of_lt hlt, h]
  simp

/-- One more round. -/
theorem shown_succ {done todo : List ℕ} {c : ℕ} (h : costs = done ++ c :: todo) (opening d : ℕ) :
    shown opening costs d (done.length+1) = shown opening costs d done.length + c := by
  have hone : costs.take (done.length+1) = done ++ [c] := by
    rw [h, List.take_append, List.take_of_length_le (Nat.le_succ _), Nat.add_sub_cancel_left]
    rfl
  rw [shown, shown, hone, h, List.take_left, List.sum_append, List.sum_singleton, Nat.add_assoc]

theorem shown_zero (opening d : ℕ) (hd : d ≠ 0) : shown opening costs d 0 = 0 := by
  rw [shown, if_neg hd]
  rfl

/-- The sums of the counters are sums of what they show. -/
theorem total_eq (hX : X.tally.Lawful) {i : Fin n} {stat : Fin n → T} {sum : T} (h : X.total i stat = some sum) :
    X.tally.sent sum = ((X.connections i).map fun j => X.tally.sent (stat j)).sum ∧
    X.tally.received sum = ((X.connections i).map fun j => X.tally.received (stat j)).sum := by
  have hfold : ∀ (l : List (Fin n)) t, l.foldlM (fun out j => X.tally.add out (stat j)) t = some sum →
      X.tally.sent sum = X.tally.sent t + (l.map fun j => X.tally.sent (stat j)).sum ∧
      X.tally.received sum = X.tally.received t + (l.map fun j => X.tally.received (stat j)).sum := by
    intro l
    induction l with
    | nil =>
      intro t ht
      obtain rfl := Option.some.inj ht
      exact ⟨rfl, rfl⟩
    | cons j l ih =>
      intro t ht
      rw [List.foldlM_cons] at ht
      obtain ⟨u, hu, ht⟩ := Option.bind_eq_some_iff.mp ht
      obtain ⟨hsent, hreceived⟩ := ih u ht
      obtain ⟨husent, hureceived⟩ := hX.add t (stat j) u hu
      rw [List.map_cons, List.map_cons, List.sum_cons, List.sum_cons]
      exact ⟨by omega, by omega⟩
  have h' := hfold _ _ h
  rwa [hX.zero.1, hX.zero.2, Nat.zero_add, Nat.zero_add] at h'

variable {s t : Session n M K F S A R T} {out inn : Fin n → Fin n → ℕ}

/-- A step of party `i` needs new books for this party only. -/
theorem Ledger.move (L : Ledger X costs Inv Ask opening s out inn) {i : Fin n} {ph : Phase n M K F A} {queue : List R}
    {stat : Fin n → T} {reports : List T} {o e : Fin n → ℕ}
    (hi : Booked X costs Inv Ask opening i ph queue stat reports o e) (k : Fin n) :
    Booked X costs Inv Ask opening k (update s.net.phase i ph k) (update s.queue i queue k) (update s.stat i stat k)
      (update s.reports i reports k) (update out i o k) (update inn i e k) := by
  by_cases hk : k = i
  · subst hk
    simpa only [update_self] using hi
  · simpa only [update_of_ne hk] using L.party k

/-- A step of party `i` that neither sends nor takes a frame. -/
theorem Ledger.quiet (L : Ledger X costs Inv Ask opening s out inn) {i : Fin n} {ph : Phase n M K F A} {queue : List R}
    {stat : Fin n → T} {reports : List T} (hi : Booked X costs Inv Ask opening i ph queue stat reports (out i) (inn i))
    {net : Net n M K F S A} (hphase : net.phase = update s.net.phase i ph) (hchan : net.chan = s.net.chan) :
    Ledger X costs Inv Ask opening ⟨net, update s.queue i queue, update s.stat i stat, update s.reports i reports⟩
      out inn := by
  have hparty := L.move hi
  rw [update_eq_self, update_eq_self, ← hphase] at hparty
  exact ⟨hparty, L.taken, by rw [hchan]; exact L.chan⟩

theorem Ledger.sending_ne (L : Ledger X costs Inv Ask opening s out inn) {i j : Fin n} {m : M} {pending : List (Fin n)}
    {p : Proc M K A} (h : s.net.phase i = .sending m pending p) (hj : j ∈ pending) : i ≠ j := by
  have hpos := (L.party i).position
  rw [h] at hpos
  obtain ⟨_, _, _, _, -, -, -, -, hi, -⟩ := hpos.sending_inv
  exact fun he => hi (he ▸ hj)

theorem Ledger.receiving_ne (L : Ledger X costs Inv Ask opening s out inn) {i j : Fin n} {kd : K}
    {pending : List (Fin n)} {held : List F} {k : List M → Proc M K A}
    (h : s.net.phase i = .receiving kd pending held k) (hj : j ∈ pending) : i ≠ j := by
  have hpos := (L.party i).position
  rw [h] at hpos
  obtain ⟨_, _, _, -, -, -, hi, -⟩ := hpos.receiving_inv
  exact fun he => hi (he ▸ hj)

theorem Booked.panicked {i : Fin n} {ph : Phase n M K F A} {queue : List R} {stat : Fin n → T} {reports : List T}
    {o e : Fin n → ℕ} (B : Booked X costs Inv Ask opening i ph queue stat reports o e) :
    Booked X costs Inv Ask opening i .panicked queue stat reports o e := { B with position := .panicked rfl }

/-- Sending one frame. -/
theorem Ledger.push (hX : X.Regular costs Inv Ask) (L : Ledger X costs Inv Ask opening s out inn) {i j : Fin n} {m : M}
    {pending : List (Fin n)} {p : Proc M K A} {stat : T} (h : s.net.phase i = .sending m pending p) (hj : j ∈ pending)
    (hstat : X.tally.addSent (s.stat i j) (X.cost (X.endpoint.encode i m)) = some stat) :
    Ledger X costs Inv Ask opening { s with
      net := { s.net with
        phase := update s.net.phase i (.sending m (pending.erase j) p)
        chan := update s.net.chan (i, j) (s.net.chan (i, j) ++ [X.endpoint.encode i m]) }
      stat := update s.stat i (update (s.stat i) j stat) } (update out i (update (out i) j (out i j + 1))) inn := by
  have B := L.party i
  have hpos := B.position
  rw [h] at hpos
  obtain ⟨done, todo, kd, k, hdue, hnext, rfl, hnd, hi, hout, hinn⟩ := hpos.sending_inv
  have hcosts := (dueOf_eq hdue).2
  have hji : j ≠ i := fun he => hi (he ▸ hj)
  have hbefore : out i j = costs.length*(s.reports i).length + done.length := by
    rw [hout j hji, if_pos hj, Nat.add_zero]
  obtain ⟨hsent, hreceived⟩ := hX.tally.addSent _ _ _ hstat
  have hbooked : Booked X costs Inv Ask opening i (.sending m (pending.erase j) (.recv kd k)) (s.queue i)
      (update (s.stat i) j stat) (s.reports i) (update (out i) j (out i j + 1)) (inn i) := by
    refine { B with
      position := .sending done todo m kd k _ hdue hnext rfl (hnd.erase j)
        (fun he => hi (List.mem_of_mem_erase he)) (fun l hl => ?_) hinn
      sent := fun l hl => ?_
      received := fun l hl => ?_ }
    · by_cases hlj : l = j
      · subst hlj
        rw [update_self, if_neg hnd.not_mem_erase, hbefore]
      · rw [update_of_ne hlj, hout l hl]
        simp only [List.mem_erase_of_ne hlj]
    · by_cases hlj : l = j
      · subst hlj
        have hdone : out i l + 1 - costs.length*(s.reports i).length = done.length + 1 := by omega
        have hdone' : out i l - costs.length*(s.reports i).length = done.length := by omega
        rw [update_self, update_self, hsent, B.sent l hl, hdone, hdone', shown_succ hcosts]
      · rw [update_of_ne hlj, update_of_ne hlj]
        exact B.sent l hl
    · by_cases hlj : l = j
      · subst hlj
        rw [update_self, hreceived]
        exact B.received l hl
      · rw [update_of_ne hlj]
        exact B.received l hl
  refine ⟨fun l => ?_, fun a b hab => ?_, fun a b hab => ?_⟩
  · have hparty := L.move hbooked l
    rwa [update_eq_self, update_eq_self, update_eq_self] at hparty
  · have htaken := L.taken a b hab
    by_cases ha : a = i
    · subst ha
      by_cases hb : b = j
      · subst hb
        rw [update_self, update_self]
        omega
      · rwa [update_self, update_of_ne hb]
    · rwa [update_of_ne ha]
  · have hchan := L.chan a b hab
    change (update s.net.chan (i, j) _ (a, b)).map X.cost = _
    by_cases habij : (a, b) = (i, j)
    · obtain ⟨rfl, rfl⟩ := Prod.mk.inj habij
      have htaken := L.taken a b hab
      have hmore : out a b + 1 - inn b a = (out a b - inn b a) + 1 := by omega
      have hlast : inn b a + 1*(out a b - inn b a) = out a b := by omega
      rw [update_self, update_self, update_self, List.map_append, hchan, hmore, List.range'_concat, List.map_append,
        hlast, List.map_singleton, List.map_singleton, hbefore, dueAt_eq hcosts]
    · have hout' : update out i (update (out i) j (out i j + 1)) a b = out a b := by
        by_cases ha : a = i
        · subst ha
          rw [update_self, update_of_ne fun hb => habij (by rw [hb])]
        · rw [update_of_ne ha]
      rw [update_of_ne habij, hout']
      exact hchan

/-- A frame that waits for a party costs what its number says. -/
theorem Ledger.front (L : Ledger X costs Inv Ask opening s out inn) {i j : Fin n} (hji : j ≠ i) {f : F} {rest : List F}
    (hf : s.net.chan (j, i) = f :: rest) : ∃ left, out j i - inn i j = left + 1 ∧ X.cost f = dueAt costs (inn i j) ∧
      rest.map X.cost = (List.range' (inn i j + 1) left).map (dueAt costs) := by
  have hchan := L.chan j i hji
  rw [hf] at hchan
  cases hleft : out j i - inn i j with
  | zero =>
    rw [hleft] at hchan
    cases hchan
  | succ left =>
    rw [hleft, List.range'_succ, List.map_cons, List.map_cons] at hchan
    obtain ⟨hcost, hrest⟩ := List.cons.inj hchan
    exact ⟨left, rfl, hcost, hrest⟩

/-- Taking one frame. -/
theorem Ledger.pop (hX : X.Regular costs Inv Ask) (L : Ledger X costs Inv Ask opening s out inn) {i j : Fin n} {kd : K}
    {pending : List (Fin n)} {held : List F} {k : List M → Proc M K A} {f : F} {rest : List F} {stat : T}
    (h : s.net.phase i = .receiving kd pending held k) (hj : j ∈ pending) (hf : s.net.chan (j, i) = f :: rest)
    (hstat : X.tally.addReceived (s.stat i j) (X.cost f) = some stat) :
    Ledger X costs Inv Ask opening { s with
      net := { s.net with
        phase := update s.net.phase i (.receiving kd (pending.erase j) (held ++ [f]) k)
        chan := update s.net.chan (j, i) rest }
      stat := update s.stat i (update (s.stat i) j stat) } out (update inn i (update (inn i) j (inn i j + 1))) := by
  have B := L.party i
  have hpos := B.position
  rw [h] at hpos
  obtain ⟨done, todo, c, hdue, hnext, hnd, hi, hout, hinn⟩ := hpos.receiving_inv
  have hcosts := (dueOf_eq hdue).2
  have hji : j ≠ i := fun he => hi (he ▸ hj)
  have hbefore : inn i j = costs.length*(s.reports i).length + done.length := by
    rw [hinn j hji, if_pos hj, Nat.add_zero]
  -- the frame that is taken is the next one, and all frames with its number cost the same
  obtain ⟨left, hleft, hcost, hrest⟩ := L.front hji hf
  rw [hbefore, dueAt_eq hcosts] at hcost
  obtain ⟨hsent, hreceived⟩ := hX.tally.addReceived _ _ _ hstat
  have hbooked : Booked X costs Inv Ask opening i (.receiving kd (pending.erase j) (held ++ [f]) k) (s.queue i)
      (update (s.stat i) j stat) (s.reports i) (out i) (update (inn i) j (inn i j + 1)) := by
    refine { B with
      position := .receiving done todo c kd k _ _ hdue hnext rfl (hnd.erase j)
        (fun he => hi (List.mem_of_mem_erase he)) hout fun l hl => ?_
      sent := fun l hl => ?_
      received := fun l hl => ?_ }
    · by_cases hlj : l = j
      · subst hlj
        rw [update_self, if_neg hnd.not_mem_erase, hbefore]
      · rw [update_of_ne hlj, hinn l hl]
        simp only [List.mem_erase_of_ne hlj]
    · by_cases hlj : l = j
      · subst hlj
        rw [update_self, hsent]
        exact B.sent l hl
      · rw [update_of_ne hlj]
        exact B.sent l hl
    · by_cases hlj : l = j
      · subst hlj
        have hdone : inn i l + 1 - costs.length*(s.reports i).length = done.length + 1 := by omega
        have hdone' : inn i l - costs.length*(s.reports i).length = done.length := by omega
        rw [update_self, update_self, hreceived, B.received l hl, hdone, hdone', shown_succ hcosts, hcost]
      · rw [update_of_ne hlj, update_of_ne hlj]
        exact B.received l hl
  refine ⟨fun l => ?_, fun a b hab => ?_, fun a b hab => ?_⟩
  · have hparty := L.move hbooked l
    rwa [update_eq_self, update_eq_self, update_eq_self] at hparty
  · have htaken := L.taken a b hab
    by_cases hb : b = i
    · subst hb
      by_cases ha : a = j
      · subst ha
        rw [update_self, update_self]
        omega
      · rwa [update_self, update_of_ne ha]
    · rwa [update_of_ne hb]
  · have hchan := L.chan a b hab
    change (update s.net.chan (j, i) _ (a, b)).map X.cost = _
    by_cases habij : (a, b) = (j, i)
    · obtain ⟨rfl, rfl⟩ := Prod.mk.inj habij
      have hless : out a b - (inn b a + 1) = left := by omega
      rw [update_self, update_self, update_self, hless, hrest]
    · have hinn' : update inn i (update (inn i) j (inn i j + 1)) b a = inn b a := by
        by_cases hb : b = i
        · subst hb
          rw [update_self, update_of_ne fun ha => habij (by rw [ha])]
        · rw [update_of_ne hb]
      rw [update_of_ne habij, hinn']
      exact hchan

/-- Reporting the sums, and starting on the next request. -/
theorem Ledger.report (hX : X.Regular costs Inv Ask) (L : Ledger X costs Inv Ask opening s out inn) {i : Fin n} {a : A}
    {r : R} {rest : List R} {sum : T} (h : s.net.phase i = .ready (.ret a)) (hqueue : s.queue i = r :: rest)
    (hsum : X.total i (s.stat i) = some sum) :
    Ledger X costs Inv Ask opening {
      net := { s.net with phase := update s.net.phase i (.ready (X.next i a rest)) }
      queue := update s.queue i rest
      stat := update s.stat i fun _ => X.tally.zero
      reports := update s.reports i (s.reports i ++ [sum]) } out inn := by
  have B := L.party i
  have hpos := B.position
  have hdueOf : dueOf costs (r :: rest) = costs := if_neg (List.cons_ne_nil _ _)
  rw [h, hqueue, hdueOf] at hpos
  rcases hpos.ready_inv with ⟨done, todo, hdue, hp, hout, hinn⟩ | ⟨_, _, _, _, _, -, -, hp, -⟩
  · obtain ⟨rfl, ha⟩ := hp.of_ret
    rw [List.append_nil] at hdue
    subst hdue
    have hlen : (s.reports i ++ [sum]).length = (s.reports i).length + 1 := by
      rw [List.length_append, List.length_singleton]
    have hbase : ∀ x, x = costs.length*(s.reports i).length + costs.length →
        x = costs.length*(s.reports i ++ [sum]).length + 0 := by
      intro x hx
      rw [hlen, hx]
      ring
    have hnext : Position (fun m => X.cost (X.endpoint.encode i m)) (Inv i) (dueOf costs rest)
        (costs.length*(s.reports i ++ [sum]).length) i (.ready (X.next i a rest) : Phase n M K F A) (out i) (inn i) := by
      refine .start [] (dueOf costs rest) (X.next i a rest) rfl ?_ rfl (fun j hj => hbase _ (hout j hj))
        fun j hj => hbase _ (hinn j hj)
      cases rest with
      | nil => exact .ret ha
      | cons r' rest =>
        exact hX.serve i a r' ha (B.asks r' (by rw [hqueue]; exact List.mem_cons_of_mem _ List.mem_cons_self))
    have hshown : ∀ (x : Fin n → ℕ), (∀ j, j ≠ i → x j = costs.length*(s.reports i).length + costs.length) →
        ∀ j, j ≠ i → x j - costs.length*(s.reports i).length = costs.length := fun x hx j hj => by
      rw [hx j hj, Nat.add_sub_cancel_left]
    refine L.quiet ⟨hnext, fun r' hr' => B.asks r' ?_, fun j hj => ?_, fun j hj => ?_, fun d t ht => ?_⟩ rfl rfl
    · rw [hqueue]
      exact List.mem_cons_of_mem _ hr'
    · rw [hX.tally.zero.1, hbase _ (hout j hj), Nat.add_zero, Nat.sub_self, shown_zero _ _ (by rw [hlen]; omega)]
    · rw [hX.tally.zero.2, hbase _ (hinn j hj), Nat.add_zero, Nat.sub_self, shown_zero _ _ (by rw [hlen]; omega)]
    · by_cases hd : d < (s.reports i).length
      · rw [List.getElem?_append_left hd] at ht
        exact B.reported d t ht
      · have hlast := (List.getElem?_eq_some_iff.mp ht).1
        obtain rfl : d = (s.reports i).length := by omega
        rw [List.getElem?_concat_length] at ht
        obtain rfl := Option.some.inj ht
        obtain ⟨hsent, hreceived⟩ := total_eq hX.tally hsum
        rw [hsent, hreceived]
        constructor
        · apply congrArg List.sum
          refine List.map_congr_left fun j hj => ?_
          have hji := hX.connections i j hj
          rw [B.sent j hji, hshown _ hout j hji]
        · apply congrArg List.sum
          refine List.map_congr_left fun j hj => ?_
          have hji := hX.connections i j hj
          rw [B.received j hji, hshown _ hinn j hji]
  · cases hp

theorem Ledger.panic (L : Ledger X costs Inv Ask opening s out inn) (i : Fin n) :
    Ledger X costs Inv Ask opening { s with net := { s.net with phase := update s.net.phase i .panicked } } out inn := by
  have hquiet : Ledger X costs Inv Ask opening ⟨{ s.net with phase := update s.net.phase i .panicked },
      update s.queue i (s.queue i), update s.stat i (s.stat i), update s.reports i (s.reports i)⟩ out inn :=
    L.quiet (L.party i).panicked rfl rfl
  rwa [update_eq_self, update_eq_self, update_eq_self] at hquiet

/-- No step of a session leaves the books wrong. -/
theorem Ledger.step (hX : X.Regular costs Inv Ask) (L : Ledger X costs Inv Ask opening s out inn)
    (h : Session.Step X s t) : ∃ out' inn', Ledger X costs Inv Ask opening t out' inn' := by
  cases h with
  | inner net h hchan =>
    obtain ⟨k, ph, hphase, hpos⟩ := Position.inner_step h hchan
    have B := L.party k
    have hquiet := L.quiet { B with position := hpos B.position } hphase hchan
    rw [update_eq_self, update_eq_self, update_eq_self] at hquiet
    exact ⟨out, inn, hquiet⟩
  | push i j m pending p stat h hj hcap hstat =>
    have hij : i ≠ j := L.sending_ne h hj
    rw [hX.sender i j hij]
    exact ⟨_, _, L.push hX h hj hstat⟩
  | pop i j kd pending held k f rest stat h hj hf hstat =>
    have hij : i ≠ j := L.receiving_ne h hj
    rw [hX.receiver i j hij] at hf ⊢
    exact ⟨_, _, L.pop hX h hj hf hstat⟩
  | report i a r rest sum h hqueue hsum => exact ⟨out, inn, L.report hX h hqueue hsum⟩
  | pushOverflow i j m pending p h hj hstat => exact ⟨out, inn, L.panic i⟩
  | popOverflow i j kd pending held k f rest h hj hf hstat => exact ⟨out, inn, L.panic i⟩
  | sumOverflow i a r rest h hqueue hsum => exact ⟨out, inn, L.panic i⟩

/-- Books are opened with the counters as they are, and nothing in flight. -/
theorem ledger_init (hX : X.Regular costs Inv Ask) {start : Fin n → A} (hstart : ∀ i, Inv i (start i))
    {queue : Fin n → List R} (hqueue : ∀ i, ∀ r ∈ queue i, Ask i r) {chan : Fin n × Fin n → List F}
    (hchan : ∀ x, chan x = []) (empty : S) :
    Ledger X costs Inv Ask opening (Session.init X start queue opening chan empty) (fun _ _ => 0) fun _ _ => 0 where
  party i := by
    refine ⟨.start [] (dueOf costs (queue i)) (X.next i (start i) (queue i)) rfl ?_ rfl (fun _ _ => rfl) fun _ _ => rfl,
      hqueue i, fun j _ => ?_, fun j _ => ?_, fun d t ht => by cases ht⟩
    · cases hq : queue i with
      | nil => exact .ret (hstart i)
      | cons r rest => exact hX.serve i _ r (hstart i) (hqueue i r (by rw [hq]; exact List.mem_cons_self))
    · change _ = shown _ costs 0 (0 - _)
      rw [Nat.zero_sub, shown]
      rfl
    · change _ = shown _ costs 0 (0 - _)
      rw [Nat.zero_sub, shown]
      rfl
  taken _ _ _ := le_rfl
  chan i j _ := by
    change (chan (i, j)).map X.cost = _
    rw [hchan]
    rfl

/-- A run keeps the books right. -/
theorem Session.Reachable.ledger (hX : X.Regular costs Inv Ask) (h : Session.Reachable X s t)
    (L : Ledger X costs Inv Ask opening s out inn) : ∃ out' inn', Ledger X costs Inv Ask opening t out' inn' := by
  induction h with
  | refl => exact ⟨out, inn, L⟩
  | tail _ hstep ih =>
    obtain ⟨out', inn', L'⟩ := ih
    exact L'.step hX hstep

end Books
end PrivRecCert.Rounds
