import PrivRecCert.Rounds.StreamedLive

/-! A session over byte streams blocks in the first round whose frames do not fit into their streams: everybody is
writing, and nobody reads before all is written. -/
namespace PrivRecCert.Rounds
open Function Streams

variable {n : ℕ} {M K F B S A R T α : Type}

section Handed
variable {E : Endpoint n M K F S} {kindOf : M → K} {wire : Fin n → M → Option M} {slots : S → K → List M}
  {Q : (Fin n → α) → Prop} {s : Net n M K F S α} [DecidableEq K]

/-- When a party has handed over all frames of a broadcast, a channel holds all that it has ever broadcast but what the
peer has taken; and the peer has taken no more than it has itself broadcast before. -/
theorem Invariant.handed (I : Invariant E kindOf wire slots Q s) {i j : Fin n} {m : M} {p : Proc M K α} (hij : i ≠ j)
    (h : s.phase i = .sending m [] p) : ∃ t, s.chan (i, j) = ((s.sent i).drop t).map (E.encode i) ∧
      t ≤ (s.sent j).length ∧
      (∀ m' pending p', s.phase j = .sending m' pending p' → t+1 ≤ (s.sent j).length) ∧
      ∀ kd pending held k, s.phase j = .receiving kd pending held k → i ∈ pending → t+1 = (s.sent j).length := by
  rcases I with ⟨b, g, q⟩ | ⟨B, g, W⟩
  · rw [q.phase i] at h
    cases h
  · have hlength : ∀ x, (s.sent x).length = g.r0 + (g.ahead x).toNat + (g.opened x).length := by
      intro x
      rw [W.sent x, List.length_append, List.length_append, W.history.past_length x]
      cases g.ahead x with
      | true => rfl
      | false => rfl
    have hstage := W.stage i
    rw [h] at hstage
    obtain ⟨kd, k, -, hp, -, -, hout, -, -, hopened⟩ := hstage.sending_inv
    have hmsg := B.msg_of_send g.d hp
    have hchan := W.chan i j hij
    rw [hout j hij.symm, if_neg List.not_mem_nil] at hchan
    refine ⟨g.r0 + ((g.ahead j).toNat + g.inn j i), ?_, ?_, fun m' pending p' hph => ?_, fun kd pending held k hph hi => ?_⟩
    · rw [hchan, W.sent i, hopened, List.append_assoc, ← W.history.past_length i, List.drop_length_add_append,
        List.map_drop]
      cases hi : g.ahead i with
      | true =>
        rw [hi] at hmsg
        rw [hmsg]
        rfl
      | false =>
        rw [hi, B.msg_false] at hmsg
        rw [B.msg_false, hmsg]
        rfl
    · rw [hlength j]
      cases W.stage j with
      | start hph hout hinn => rw [hinn i hij]; omega
      | sending m' kd' k' pending hp' hph hnd hj hout' hinn => rw [hinn i hij]; omega
      | idle m' kd' k' hp' hph hout' hinn => rw [hinn i hij]; omega
      | receiving m' kd' k' pending handled held hp' hph hperm hout' hinn hsl hop =>
        rw [hinn i hij, hop, List.length_singleton]
        split_ifs <;> omega
    · have hj := W.stage j
      rw [hph] at hj
      obtain ⟨_, _, -, -, -, -, -, hinn, -, hop⟩ := hj.sending_inv
      rw [hlength j, hinn i hij, hop, List.length_singleton]
      omega
    · have hj := W.stage j
      rw [hph] at hj
      obtain ⟨_, _, _, -, -, -, -, hinn, -, hop⟩ := hj.receiving_inv
      rw [hlength j, hinn i hij, if_pos hi, hop, List.length_singleton]
      omega

end Handed

/-- The broadcasts that a party has yet to begin. -/
def Phase.Due (size : M → ℕ) (Q : α → Prop) (todo : List ℕ) : Phase n M K F α → Prop
  | .ready p => p.Sized size Q todo ∨ ∃ kd k, p = .recv kd k ∧ ∀ l, (k l).Sized size Q todo
  | .sending _ _ p => ∃ kd k, p = .recv kd k ∧ ∀ l, (k l).Sized size Q todo
  | .receiving _ _ _ k => ∀ l, (k l).Sized size Q todo
  | .panicked => True

section Short
variable {X : Metered n M K F S A R T} {costs : List ℕ} {Inv : Fin n → A → Prop} {Ask : Fin n → R → Prop} {r : ℕ}
  {s t : Session n M K F S A R T}

/-- A party that is in its first request, and has not finished the broadcast of round `r`. -/
structure Session.Short (X : Metered n M K F S A R T) (costs : List ℕ) (Inv : Fin n → A → Prop) (r : ℕ)
    (s : Session n M K F S A R T) (i : Fin n) : Prop where
  reports : s.reports i = []
  sent : ∃ todo, dueOf costs (s.queue i) = (s.net.sent i).map (fun m => X.cost (X.endpoint.encode i m)) ++ todo ∧
    (s.net.phase i).Due (fun m => X.cost (X.endpoint.encode i m)) (Inv i) todo
  early : (s.net.sent i).length ≤ r ∨
    (s.net.sent i).length = r+1 ∧ ∃ m pending p, s.net.phase i = .sending m pending p

theorem Session.Short.cost {i : Fin n} (h : s.Short X costs Inv r i) {k : ℕ} {m : M} (hm : (s.net.sent i)[k]? = some m) :
    costs[k]? = some (X.cost (X.endpoint.encode i m)) := by
  obtain ⟨todo, hdue, -⟩ := h.sent
  have hk : (dueOf costs (s.queue i))[k]? = some (X.cost (X.endpoint.encode i m)) := by
    rw [hdue, List.getElem?_append_left (by rw [List.length_map]; exact (List.getElem?_eq_some_iff.mp hm).1),
      List.getElem?_map, hm]
    rfl
  rw [dueOf] at hk
  split_ifs at hk with hqueue
  · cases hk
  · exact hk

/-- The party that takes a step, when it only goes on. -/
theorem Session.Short.put {i k : Fin n} {ph : Phase n M K F A} {net : Net n M K F S A} {stat : Fin n → Fin n → T}
    (h : ∀ i, s.Short X costs Inv r i) (hphase : net.phase = update s.net.phase k ph) (hsent : net.sent = s.net.sent)
    (hdue : ∀ todo, (s.net.phase k).Due (fun m => X.cost (X.endpoint.encode k m)) (Inv k) todo →
      ph.Due (fun m => X.cost (X.endpoint.encode k m)) (Inv k) todo)
    (hearly : (∃ m pending p, s.net.phase k = .sending m pending p) → (s.net.sent k).length = r+1 →
      ∃ m pending p, ph = .sending m pending p) : Session.Short X costs Inv r { s with net := net, stat := stat } i := by
  have hi := h i
  by_cases hik : i = k
  · subst hik
    obtain ⟨todo, htodo, hph⟩ := hi.sent
    refine ⟨hi.reports, ⟨todo, by rw [hsent]; exact htodo, ?_⟩, ?_⟩
    · simp only [hphase, update_self]
      exact hdue todo hph
    · simp only [hphase, update_self, hsent]
      exact hi.early.imp_right fun ⟨hlen, hsending⟩ => ⟨hlen, hearly hsending hlen⟩
  · refine ⟨hi.reports, ?_, ?_⟩
    · simp only [hphase, update_of_ne hik, hsent]
      exact hi.sent
    · simp only [hphase, update_of_ne hik, hsent]
      exact hi.early

/-- A party in its first request stays there, and where it finishes another broadcast than that of round `r` it stays
short of it. -/
theorem Session.Short.step (hr : r < costs.length) (h : ∀ i, s.Short X costs Inv r i) (hstep : Session.Step X s t)
    (halive : ∀ i, t.net.phase i ≠ .panicked)
    (hfinish : ∀ i m p, s.net.phase i = .sending m [] p → t.net.phase i ≠ s.net.phase i →
      (s.net.sent i).length ≠ r+1) (i : Fin n) : t.Short X costs Inv r i := by
  have hstill : ∀ {k : Fin n} {ph ph' : Phase n M K F A}, s.net.phase k = ph → (∀ m pending p, ph ≠ .sending m pending p) →
      (∃ m pending p, s.net.phase k = .sending m pending p) → (s.net.sent k).length = r+1 →
      ∃ m pending p, ph' = .sending m pending p := by
    rintro k ph ph' hph hne ⟨m, pending, p, hsending⟩ -
    exact absurd (hph.symm.trans hsending) (hne m pending p)
  cases hstep with
  | inner net hnet hchan =>
    cases hnet with
    | begin k m p hph =>
      obtain ⟨todo, htodo, hdue⟩ := (h k).sent
      have hearly : (s.net.sent k).length ≤ r := by
        rcases (h k).early with hlt | ⟨-, m', pending, p', hsending⟩
        · exact hlt
        · rw [hph] at hsending
          cases hsending
      rw [hph] at hdue
      rcases hdue with hp | ⟨kd, next, hp, -⟩
      · obtain ⟨kd, next, rest, rfl, rfl, hnext⟩ := hp.of_send
        by_cases hik : i = k
        · subst hik
          refine ⟨(h i).reports, ⟨rest, ?_, ?_⟩, ?_⟩
          · simp only [update_self]
            rw [htodo, List.map_append, List.append_assoc]
            rfl
          · simp only [update_self]
            exact ⟨kd, next, rfl, hnext⟩
          · simp only [update_self, List.length_append, List.length_singleton]
            rcases hearly.eq_or_lt with heq | hlt
            · exact .inr ⟨by rw [heq], m, _, _, rfl⟩
            · exact .inl hlt
        · refine ⟨(h i).reports, ?_, ?_⟩
          · simp only [update_of_ne hik]
            exact (h i).sent
          · simp only [update_of_ne hik]
            exact (h i).early
      · cases hp
    | push k j m pending p hph hj hcap =>
      have hlen := congrArg List.length (congrFun hchan (X.endpoint.sender k j))
      change (update s.net.chan (X.endpoint.sender k j) _ (X.endpoint.sender k j)).length = _ at hlen
      rw [update_self, List.length_append, List.length_singleton] at hlen
      omega
    | finish k m p hph =>
      refine Short.put h rfl rfl (fun todo hdue => ?_) fun hsending hlen => absurd hlen (hfinish k m p hph ?_)
      · rw [hph] at hdue
        exact .inr hdue
      · simp only [update_self, hph]
        exact fun he => by cases he
    | listen k kd next hph =>
      refine Short.put h rfl rfl (fun todo hdue => ?_) (hstill hph fun _ _ _ he => by cases he)
      rw [hph] at hdue
      rcases hdue with hp | ⟨kd', next', hp, hnext⟩
      · exact hp.not_recv.elim
      · obtain ⟨rfl, rfl⟩ := Proc.recv.inj hp
        exact hnext
    | pop k j kd pending held next f rest hph hj hf =>
      have heq := congrFun hchan (X.endpoint.receiver k j)
      change update s.net.chan (X.endpoint.receiver k j) rest (X.endpoint.receiver k j) = _ at heq
      rw [update_self, hf] at heq
      have hlen := congrArg List.length heq
      rw [List.length_cons] at hlen
      omega
    | handle k kd pending before f after next st hph ha =>
      refine Short.put h rfl rfl (fun todo hdue => ?_) (hstill hph fun _ _ _ he => by cases he)
      rw [hph] at hdue
      exact hdue
    | reject k kd pending before f after next hph ha => exact absurd (update_self ..) (halive k)
    | deliver k kd next l st hph hc =>
      refine Short.put h rfl rfl (fun todo hdue => ?_) (hstill hph fun _ _ _ he => by cases he)
      rw [hph] at hdue
      exact .inl (hdue l)
    | missing k kd next hph hc => exact absurd (update_self ..) (halive k)
    | crash k hph => exact absurd (update_self ..) (halive k)
  | push k j m pending p stat hph hj hcap hstat =>
    refine Short.put h rfl rfl (fun todo hdue => ?_) fun _ _ => ⟨m, _, p, rfl⟩
    rw [hph] at hdue
    exact hdue
  | pop k j kd pending held next f rest stat hph hj hf hstat =>
    refine Short.put h rfl rfl (fun todo hdue => ?_) (hstill hph fun _ _ _ he => by cases he)
    rw [hph] at hdue
    exact hdue
  | report k a r' rest sum hph hqueue hsum =>
    -- a request that is finished has taken all its rounds
    exfalso
    obtain ⟨todo, htodo, hdue⟩ := (h k).sent
    rw [hph] at hdue
    rcases hdue with hp | ⟨kd, next, hp, -⟩
    · obtain ⟨rfl, -⟩ := hp.of_ret
      rw [dueOf, if_neg (by rw [hqueue]; exact List.cons_ne_nil _ _), List.append_nil] at htodo
      have hlen := congrArg List.length htodo
      rw [List.length_map] at hlen
      rcases (h k).early with hlt | ⟨-, m, pending, p, hsending⟩
      · omega
      · rw [hph] at hsending
        cases hsending
    · cases hp
  | pushOverflow k j m pending p hph hj hstat => exact absurd (update_self ..) (halive k)
  | popOverflow k j kd pending held next f rest hph hj hf hstat => exact absurd (update_self ..) (halive k)
  | sumOverflow k a r' rest hph hqueue hsum => exact absurd (update_self ..) (halive k)

end Short

namespace Streamed
variable {X : Metered n M K (List B) S A R T} {φ : Framing B} {toll : ℕ → ℕ} {room : ℕ}
  {c c' : Streamed n M K B S A R T} {chan : Fin n × Fin n → List (List B)} {stat : Fin n → Fin n → T}

/-- Only what is written in full is behind a broadcast that has finished. -/
theorem Step.flushed (h : Step X φ toll room c c') {i : Fin n} {m : M} {p : Proc M K A}
    (hph : c.session.net.phase i = .sending m [] p) (hmoves : c'.session.net.phase i ≠ c.session.net.phase i) :
    c.Flushed X.endpoint i := by
  have hother : ∀ {k ph ph'}, c.session.net.phase k = ph → (∀ q, ph ≠ .sending m [] q) →
      update c.session.net.phase k ph' i = c.session.net.phase i := by
    intro k ph ph' hk hne
    refine update_of_ne ?_ ..
    rintro rfl
    exact hne p (hk.symm.trans hph)
  cases h with
  | inner net h hchan hflushed => exact hflushed i m p hph hmoves
  | start k j m' pending q u h hj hstat =>
    refine absurd (hother h fun q' he => ?_) hmoves
    rw [(Phase.sending.inj he).2.1] at hj
    cases hj
  | write x stream h => exact absurd rfl hmoves
  | read k j kd pending held next stream h hj hread => exact absurd rfl hmoves
  | announce k j kd pending held next got u h hj hreader hfull hstat =>
    exact absurd (hother h fun _ he => by cases he) hmoves
  | take k j kd pending held next len got h hj hreader hfull => exact absurd (hother h fun _ he => by cases he) hmoves
  | report k a r rest sum h hqueue hsum => exact absurd (hother h fun _ he => by cases he) hmoves
  | startOverflow k j m' pending q h hj hstat =>
    refine absurd (hother h fun q' he => ?_) hmoves
    rw [(Phase.sending.inj he).2.1] at hj
    cases hj
  | announceOverflow k j kd pending held next got h hj hreader hfull hstat =>
    exact absurd (hother h fun _ he => by cases he) hmoves
  | sumOverflow k a r rest h hqueue hsum => exact absurd (hother h fun _ he => by cases he) hmoves

/-- No more is in flight than there is room for, and only a party that waits for a frame has begun to read it. -/
structure Tidy (room : ℕ) (c : Streamed n M K B S A R T) : Prop where
  flight : ∀ x, (c.stream x).flight.length ≤ room
  engaged : ∀ i j, i ≠ j → (c.stream (j, i)).reader = .header [] ∨ (c.session.net.phase i).Waits j

theorem Tidy.idle (h : Tidy room c) {i j : Fin n} (hij : i ≠ j) (hph : ¬ (c.session.net.phase i).Waits j) :
    (c.stream (j, i)).reader = .header [] := (h.engaged i j hij).resolve_right hph

/-- A step of one party changes its own phase and the readers of what is sent to it. -/
theorem Tidy.turn (h : Tidy room c) (i : Fin n) (hflight : ∀ x, (c'.stream x).flight.length ≤ (c.stream x).flight.length)
    (hreader : ∀ x y, x ≠ i → (c'.stream (y, x)).reader = (c.stream (y, x)).reader)
    (hphase : ∀ x, x ≠ i → c'.session.net.phase x = c.session.net.phase x)
    (hi : ∀ j, i ≠ j → (c'.stream (j, i)).reader = .header [] ∨ (c'.session.net.phase i).Waits j) : Tidy room c' where
  flight x := (hflight x).trans (h.flight x)
  engaged x y hxy := by
    by_cases hx : x = i
    · rw [hx] at hxy ⊢
      exact hi y hxy
    · rw [hreader x y hx, hphase x hx]
      exact h.engaged x y hxy

theorem flight_update {stream : Fin n × Fin n → Stream B} {x : Fin n × Fin n} {st : Stream B}
    (h : st.flight.length ≤ (stream x).flight.length) (y : Fin n × Fin n) :
    (update stream x st y).flight.length ≤ (stream y).flight.length := by
  by_cases hyx : y = x
  · rw [hyx, update_self]
    exact h
  · rw [update_of_ne hyx]

theorem Tidy.step (t : Tidy room c) (hX : Wired X toll) (hfit : Fitting X φ.limit (c.frames chan stat))
    (h : Step X φ toll room c c') : Tidy room c' := by
  cases h with
  | inner net h hchan hflushed => exact ⟨t.flight, fun i j hij => (t.engaged i j hij).imp_right (h.waits hchan)⟩
  | start i j m pending p u h hj hstat =>
    refine t.turn i (flight_update le_rfl) (fun x y _ => reader_update (by rfl) _) (fun x hx => update_of_ne hx ..)
      fun x hx => .inl ((reader_update (by rfl) _).trans (t.idle hx ?_))
    rw [h]
    exact Phase.not_waits_sending
  | write x stream h =>
    refine ⟨fun y => ?_, fun i j hij => ?_⟩
    · change (update c.stream x stream y).flight.length ≤ room
      by_cases hy : y = x
      · rw [hy, update_self]
        exact h.flight_le
      · rw [update_of_ne hy]
        exact t.flight y
    · rw [reader_update h.reader_eq]
      exact t.engaged i j hij
  | read i j kd pending held k stream h hj hread =>
    have hij := hfit.receiving i j kd pending held k h hj
    rw [hX.receiver i j hij] at hread ⊢
    refine t.turn i (flight_update hread.flight_le) (fun x y hx => ?_) (fun _ _ => rfl) fun x hx => ?_
    · exact congrArg Stream.reader (update_of_ne (fun he => hx (Prod.mk.inj he).2) ..)
    · by_cases hxj : x = j
      · exact .inr (.inr ⟨kd, pending, held, k, h, hxj ▸ hj⟩)
      · simp only [update_of_ne fun he => hxj (Prod.mk.inj he).1]
        exact t.engaged i x hx
  | announce i j kd pending held k got u h hj hreader hfull hstat =>
    have hij := hfit.receiving i j kd pending held k h hj
    rw [hX.receiver i j hij]
    refine t.turn i (flight_update le_rfl) (fun x y hx => ?_) (fun x hx => update_of_ne hx ..) fun x hx => ?_
    · exact congrArg Stream.reader (update_of_ne (fun he => hx (Prod.mk.inj he).2) ..)
    · by_cases hxj : x = j
      · exact .inr (.inr ⟨kd, pending, held, k, update_self .., hxj ▸ hj⟩)
      · simp only [move, update_of_ne fun he => hxj (Prod.mk.inj he).1, update_self]
        rw [← h]
        exact t.engaged i x hx
  | take i j kd pending held k len got h hj hreader hfull =>
    have hij := hfit.receiving i j kd pending held k h hj
    rw [hX.receiver i j hij]
    refine t.turn i (flight_update le_rfl) (fun x y hx => ?_) (fun x hx => update_of_ne hx ..) fun x hx => ?_
    · exact congrArg Stream.reader (update_of_ne (fun he => hx (Prod.mk.inj he).2) ..)
    · by_cases hxj : x = j
      · subst hxj
        exact .inl (by simp only [update_self])
      · simp only [move, update_of_ne fun he => hxj (Prod.mk.inj he).1, update_self]
        refine (t.engaged i x hx).imp_right ?_
        rintro (hdead | ⟨kd', pending', held', k', hph, hmem⟩)
        · rw [h] at hdead
          cases hdead
        · obtain ⟨-, rfl, -⟩ := Phase.receiving.inj (h.symm.trans hph)
          exact .inr ⟨kd, _, _, k, rfl, (List.mem_erase_of_ne hxj).mpr hmem⟩
  | report i a r rest sum h hqueue hsum =>
    refine t.turn i (fun _ => le_rfl) (fun _ _ _ => rfl) (fun x hx => update_of_ne hx ..) fun x hx => .inl (t.idle hx ?_)
    rw [h]
    exact Phase.not_waits_ready
  | startOverflow i j m pending p h hj hstat =>
    exact t.turn i (fun _ => le_rfl) (fun _ _ _ => rfl) (fun x hx => update_of_ne hx ..) fun x _ =>
      .inr (.inl (update_self ..))
  | announceOverflow i j kd pending held k got h hj hreader hfull hstat =>
    exact t.turn i (fun _ => le_rfl) (fun _ _ _ => rfl) (fun x hx => update_of_ne hx ..) fun x _ =>
      .inr (.inl (update_self ..))
  | sumOverflow i a r rest h hqueue hsum =>
    exact t.turn i (fun _ => le_rfl) (fun _ _ _ => rfl) (fun x hx => update_of_ne hx ..) fun x _ =>
      .inr (.inl (update_self ..))

/-- Where everybody is short of a round whose frames are too long, nobody finishes the broadcast of that round. -/
theorem Stands.stalls [DecidableEq K] {kindOf : M → K} {wire : Fin n → M → Option M} {slots : S → K → List M}
    {Q : (Fin n → A) → Prop} {costs : List ℕ} {Inv : Fin n → A → Prop} {r cost : ℕ} (b : Stands X φ toll c chan stat)
    (t : Tidy room c) (hX : Wired X toll) (L : Lawful X.endpoint kindOf wire slots)
    (I : Invariant X.endpoint kindOf wire slots Q ((c.frames chan stat).whole X))
    (hshort : ∀ i, c.session.Short X costs Inv r i) (hcost : costs[r]? = some cost)
    (hlong : ∀ len, toll len = cost → room < φ.width + len) {i j : Fin n} (hij : i ≠ j) {m : M} {p : Proc M K A}
    (hph : c.session.net.phase i = .sending m [] p) (hlen : (c.session.net.sent i).length = r+1) :
    ¬ c.Flushed X.endpoint i := by
  intro hflushed
  have hwhole : ∀ k, ((c.frames chan stat).whole X).phase k =
      (c.session.net.phase k).bind fun a => X.program k a (c.session.queue k).tail := fun _ => rfl
  obtain ⟨taken, hchan, hle, hsending, hreceiving⟩ := I.handed hij (by rw [hwhole, hph]; rfl)
  change chan (i, j) = ((c.session.net.sent i).drop taken).map (X.endpoint.encode i) at hchan
  change taken ≤ (c.session.net.sent j).length at hle
  have htaken : taken ≤ r := by
    rcases (hshort j).early with hearly | ⟨hsent, m', pending, p', hj⟩
    · exact hle.trans hearly
    · have hlast := hsending m' pending _ (by rw [hwhole, hj]; rfl)
      change taken+1 ≤ (c.session.net.sent j).length at hlast
      omega
  -- the last frame is that of round `r`
  obtain ⟨last, hlast⟩ : ∃ last, (c.session.net.sent i)[r]? = some last :=
    ⟨_, List.getElem?_eq_getElem (by omega)⟩
  have hcost' := ((hshort i).cost hlast).symm.trans hcost
  have hframes : chan (i, j) =
      (((c.session.net.sent i).take r).drop taken).map (X.endpoint.encode i) ++ [X.endpoint.encode i last] := by
    have hsplit : (c.session.net.sent i).take r ++ [last] = c.session.net.sent i := by
      have hall := List.take_add_one (l := c.session.net.sent i) (i := r)
      rw [hlast, List.take_of_length_le hlen.le] at hall
      exact hall.symm
    rw [hchan, ← List.map_singleton, ← List.map_append,
      ← List.drop_append_of_le_length (by rw [List.length_take]; omega), hsplit]
  have hcarries := b.carries i j hij
  rw [hframes] at hcarries
  have hunsent := hflushed j hij.symm
  rw [hX.sender i j hij] at hunsent
  have hbytes := hcarries.last hunsent ?_
  · have hroom := t.flight (i, j)
    have hmore := hlong (X.endpoint.encode i last).length (by rw [← hX.cost]; exact Option.some.inj hcost')
    omega
  · rcases t.engaged j i hij.symm with hnone | hdead | ⟨kd, pending, held, k, hj, hi⟩
    · exact .inr hnone
    · exact absurd (Phase.bind_panicked hdead) ((I.good L).no_panic j)
    · left
      have hnext := hreceiving kd pending held _ (by rw [hwhole, hj]; rfl) hi
      change taken+1 = (c.session.net.sent j).length at hnext
      rcases (hshort j).early with hearly | ⟨-, m', pending', p', hsend⟩
      · intro hnil
        have hnone := congrArg List.length hnil
        rw [List.length_map, List.length_drop, List.length_take, List.length_nil] at hnone
        omega
      · rw [hj] at hsend
        cases hsend

/-- Neither the channels nor the counters have to do with it. -/
theorem short_frames (chan : Fin n × Fin n → List (List B)) (stat : Fin n → Fin n → T) {costs : List ℕ}
    {Inv : Fin n → A → Prop} {r : ℕ} {i : Fin n} :
    (c.frames chan stat).Short X costs Inv r i ↔ c.session.Short X costs Inv r i :=
  ⟨fun h => ⟨h.reports, h.sent, h.early⟩, fun h => ⟨h.reports, h.sent, h.early⟩⟩

section Runs
variable [DecidableEq K] {kindOf : M → K} {wire : Fin n → M → Option M} {slots : S → K → List M} {Q : (Fin n → A) → Prop}
  {costs : List ℕ} {Inv : Fin n → A → Prop} {Ask : Fin n → R → Prop} {opening : Fin n → Fin n → T} {limit : ℕ}
  {start : Fin n → A} {queue : Fin n → List R} {empty : S}

/-- A round whose frames are longer than the room on a stream is never finished, and so no request is: in every run,
whatever the interleaving and whatever the pieces, nobody ever reports. -/
theorem blocks (hn : 2 ≤ n) (L : Lawful X.endpoint kindOf wire slots) (hempty : slots empty = fun _ => [])
    (hrun : Lockstep kindOf wire Q fun i => X.program i (start i) (queue i)) (hX : X.Regular costs Inv Ask)
    (hfits : X.Fits costs opening limit) (hwired : Wired X toll) (hspeaks : X.Speaks (fun f => f.length < φ.limit) Inv Ask)
    (hstart : ∀ i, Inv i (start i)) (hqueue : ∀ i, ∀ r ∈ queue i, Ask i r) {r cost : ℕ} (hcost : costs[r]? = some cost)
    (hlong : ∀ len, toll len = cost → room < φ.width + len)
    (h : Reachable X φ toll room (.init X start queue opening (fun _ => []) empty) c) (i : Fin n) :
    c.session.Short X costs Inv r i := by
  have hfit : ∀ s, Session.Reachable X (.init X start queue opening (fun _ => []) empty) s → Fitting X φ.limit s :=
    fun s => session_fitting L hempty hrun hX hfits hspeaks (fun _ hf => hf) hstart hqueue
  have hnet : ∀ {s}, Session.Reachable X (.init X start queue opening (fun _ => []) empty) s →
      Invariant X.endpoint kindOf wire slots Q (s.whole X) := fun hs =>
    hrun.invariant L hempty (Session.Reachable.whole hX hfits hstart hqueue (fun _ => rfl) hs)
  suffices hall : (∀ i, c.session.Short X costs Inv r i) ∧ Tidy room c from hall.1 i
  induction h with
  | refl =>
    refine ⟨fun i => ⟨rfl, ⟨_, rfl, .inl ?_⟩, .inl (Nat.zero_le _)⟩, fun _ => Nat.zero_le _, fun _ _ _ => .inl rfl⟩
    change (X.next i (start i) (queue i)).Sized _ _ (dueOf costs (queue i))
    cases hi : queue i with
    | nil => exact .ret (hstart i)
    | cons req rest => exact hX.serve i (start i) req (hstart i) (hqueue i req (hi ▸ List.mem_cons_self))
  | tail hreach hstep ih =>
    rename_i c c'
    obtain ⟨hshort, t⟩ := ih
    obtain ⟨chan, stat, b, hs⟩ := Reachable.stands hwired rfl hfit hreach
    obtain ⟨chan', stat', b', hsame⟩ := b.step hwired (hfit _ hs) hstep
    refine ⟨?_, t.step hwired (hfit _ hs) hstep⟩
    rcases hsame with hsame | hnext
    · intro i
      rw [← short_frames chan' stat', hsame, short_frames]
      exact hshort i
    · refine fun i => (short_frames chan' stat').mp (Session.Short.step (List.getElem?_eq_some_iff.mp hcost).1
        (fun i => (short_frames chan stat).mpr (hshort i)) hnext
        (fun i hi => ((hnet (hs.tail hnext)).good L).no_panic i (Phase.bind_panicked hi)) (fun i m p hph hmoves hlen => ?_) i)
      obtain ⟨j, hij⟩ : ∃ j, i ≠ j := by
        have : Nontrivial (Fin n) := Fin.nontrivial_iff_two_le.mpr hn
        obtain ⟨j, hj⟩ := exists_ne i
        exact ⟨j, hj.symm⟩
      exact b.stalls t hwired L (hnet hs) hshort hcost hlong hij hph hlen (hstep.flushed hph hmoves)

end Runs
end Streamed
end PrivRecCert.Rounds
