import PrivRecCert.Prc.TcpGraph

/-! The end of the set-up over TCP. A party that has its handler has read every handshake, and when all have theirs
there are no more parties than a byte has values. -/
namespace PrivRecCert.Prc
open Function CorRnd SimdArray Rounds

namespace TcpSetup
variable {n : ℕ} {G : Type} [AddCommGroup G] [Module Scalar G] [Ristretto G] {infos : List (Fin n)} {s s' : TcpSetup n}

theorem entry_stream (i j : Fin n) : (entry i j).2.stream = if j < i then (i, j) else (j, i) := by
  unfold entry
  split_ifs
  · rfl
  · rfl

/-- A handshake has six bytes, and counts at both ends. -/
theorem entry_stat (i j : Fin n) : (entry i j).2.stat = if j < i then ⟨6, 0⟩ else ⟨0, 6⟩ := by
  unfold entry
  split_ifs
  · rfl
  · rfl

/-- In a full map, no two peers have the same key. -/
theorem Filed.key_injective {order : Connections n} {i j k : Fin n} (h : Filed i order) (hlen : order.length = n-1)
    (hj : j ≠ i) (hk : k ≠ i) (hkey : (entry i j).1 = (entry i k).1) : j = k := by
  obtain ⟨js, hjs, rfl⟩ := h.peers hlen
  have hnd := h.nodup
  rw [List.map_map] at hnd
  have hmem : ∀ l, l ≠ i → l ∈ js := fun l hl => hjs.mem_iff.mpr (mem_peers.mpr hl)
  exact List.inj_on_of_nodup_map hnd (hmem j hj) (hmem k hk) hkey

/-- With more parties than that, the handshake of party 256 takes the place of party 0 in the map of party 1. -/
theorem Filed.parties_le {order : Connections n} {i : Fin n} (h : Filed i order) (hlen : order.length = n-1)
    (hi : (i : ℕ) = 1) : n ≤ 256 := by
  by_contra hn
  let low : Fin n := ⟨0, by omega⟩
  let high : Fin n := ⟨256, by omega⟩
  have hlow : low < i := Fin.lt_def.mpr (by rw [hi]; exact Nat.zero_lt_one)
  have hhigh : i < high := Fin.lt_def.mpr (by rw [hi]; exact (by decide : 1 < 256))
  have hkey : (entry i low).1 = (entry i high).1 := by
    rw [entry, entry, if_pos hlow, if_neg (not_lt_of_gt hhigh)]
    exact (by decide : 0 = (BitVec.ofNat 8 256).toNat)
  have heq := h.key_injective hlen (ne_of_lt hlow) (ne_of_gt hhigh) hkey
  exact absurd (hlow.trans hhigh) (by rw [heq]; exact lt_irrefl _)

theorem Valid.parties_le (V : Valid G s) (hn : 2 ≤ n) (h : ∀ i, ∃ order, s.visited i = some order) : n ≤ 256 := by
  obtain ⟨order, horder⟩ := h ⟨1, hn⟩
  obtain ⟨hfiled, hlen⟩ := V.visited _ order horder
  exact hfiled.parties_le hlen rfl

/-- Party `i` has not yet written its handshake to `j`. -/
def Unsent (s : TcpSetup n) (i j : Fin n) : Prop := j ∈ s.todo i ∨ ∃ con, s.dialling i = .connected j con

/-- The stream on which `i` has dialled `j` is not on file at `j`. -/
def Unfiled (s : TcpSetup n) (i j : Fin n) : Prop := ∀ e ∈ s.connections j, e.2.stream ≠ (i, j)

/-- A handshake is written once, and read before the connection is on file. -/
structure Once (s : TcpSetup n) : Prop where
  todo : ∀ i, (s.todo i).Nodup
  connected : ∀ i j con, s.dialling i = .connected j con → j ∉ s.todo i
  unsent : ∀ i j, s.Unsent i j → s.wire (i, j) = [] ∧ s.Unfiled i j
  written : ∀ i j, s.wire (i, j) ≠ [] → j < i ∧ (s.wire (i, j)).length = 1 ∧ s.Unfiled i j

theorem once_init (h : infos.Perm (List.finRange n)) : Once (init infos) where
  todo _ := h.nodup_iff.mpr (List.nodup_finRange n)
  connected _ _ _ hdial := by cases hdial
  unsent _ _ _ := ⟨rfl, fun _ he => absurd he List.not_mem_nil⟩
  written _ _ hwire := absurd rfl hwire

/-- What a value is after an update. -/
theorem update_cases {A B : Type} [DecidableEq A] {f : A → B} {i a : A} {v w : B} (h : update f i v a = w) :
    (a = i ∧ v = w) ∨ (a ≠ i ∧ f a = w) := by
  by_cases ha : a = i
  · subst ha
    exact .inl ⟨rfl, by rw [← h, update_self]⟩
  · exact .inr ⟨ha, by rw [← h, update_of_ne ha]⟩

/-- Going through the list of peers. -/
theorem Once.shorter (O : Once s) {i j : Fin n} {rest : List (Fin n)} (htodo : s.todo i = j :: rest) :
    (∀ a, (update s.todo i rest a).Nodup) ∧ ∀ a b, b ∈ update s.todo i rest a → b ∈ s.todo a := by
  have hnd := O.todo i
  rw [htodo] at hnd
  refine ⟨fun a => ?_, fun a b hb => ?_⟩
  · by_cases ha : a = i
    · subst ha
      rw [update_self]
      exact (List.nodup_cons.mp hnd).2
    · rw [update_of_ne ha]
      exact O.todo a
  · by_cases ha : a = i
    · subst ha
      rw [update_self] at hb
      rw [htodo]
      exact List.mem_cons_of_mem _ hb
    · rwa [update_of_ne ha] at hb

/-- Filing one more connection leaves the other streams alone. -/
theorem Unfiled.insert {i j k : Fin n} (h : s.Unfiled i j) {id : ℕ} {con : TcpConnection n}
    (hcon : k = j → con.stream ≠ (i, j)) (t : TcpSetup n)
    (ht : t.connections = update s.connections k ((s.connections k).insert id con)) : t.Unfiled i j := by
  intro e he
  rw [ht] at he
  by_cases hkj : j = k
  · subst hkj
    rw [update_self] at he
    rcases List.mem_cons.mp he with rfl | hmem
    · exact hcon rfl
    · exact h e (List.mem_of_mem_filter hmem)
  · rw [update_of_ne hkj] at he
    exact h e he

theorem Once.step (V : Valid G s) (O : Once s) (h : Step G s s') : Once s' := by
  cases h with
  | skip i j rest h htodo hj =>
    have hshorter := O.shorter htodo
    exact ⟨hshorter.1, fun a b con hdial hb => O.connected a b con hdial (hshorter.2 a b hb), fun a b hab =>
      O.unsent a b (hab.imp_left (hshorter.2 a b)), O.written⟩
  | dial i j rest h htodo hj =>
    have hshorter := O.shorter htodo
    have hmem : j ∈ s.todo i := by
      rw [htodo]
      exact List.mem_cons_self
    refine ⟨hshorter.1, fun a b con hdial hb => ?_, fun a b hab => O.unsent a b ?_, O.written⟩
    · rcases update_cases hdial with ⟨rfl, hnew⟩ | ⟨-, hold⟩
      · obtain ⟨rfl, -⟩ := Dialling.connected.inj hnew
        have hnd := O.todo a
        rw [htodo] at hnd
        change j ∈ update s.todo a rest a at hb
        rw [update_self] at hb
        exact (List.nodup_cons.mp hnd).1 hb
      · exact O.connected a b con hold (hshorter.2 a b hb)
    · rcases hab with hb | ⟨con, hdial⟩
      · exact .inl (hshorter.2 a b hb)
      · rcases update_cases hdial with ⟨rfl, hnew⟩ | ⟨-, hold⟩
        · obtain ⟨rfl, -⟩ := Dialling.connected.inj hnew
          exact .inl hmem
        · exact .inr ⟨con, hold⟩
  | greet i j con stat h hstat =>
    have hdial := V.dialling i
    rw [h] at hdial
    obtain ⟨hji, rfl⟩ := hdial
    have hold := O.unsent i j (.inr ⟨_, h⟩)
    have hkeep : ∀ a b con', update s.dialling i (.greeted j ⟨stat, some j, (i, j), true⟩) a = .connected b con' →
        a ≠ i ∧ s.dialling a = .connected b con' := by
      intro a b con' hdial
      rcases update_cases hdial with ⟨-, hnew⟩ | hold
      · cases hnew
      · exact hold
    have hfresh : ∀ a b, b ∈ s.todo a ∨ (∃ con', a ≠ i ∧ s.dialling a = .connected b con') → (a, b) ≠ (i, j) := by
      rintro a b (hb | ⟨con', ha, -⟩) he
      · obtain ⟨rfl, rfl⟩ := Prod.mk.inj he
        exact O.connected a b _ h hb
      · exact ha (Prod.mk.inj he).1
    refine ⟨O.todo, fun a b con' hdial => O.connected a b con' (hkeep a b con' hdial).2, fun a b hab => ?_,
      fun a b hwire => ?_⟩
    · have hab' : b ∈ s.todo a ∨ ∃ con', a ≠ i ∧ s.dialling a = .connected b con' :=
        hab.imp_right fun ⟨con', hdial⟩ => ⟨con', hkeep a b con' hdial⟩
      change update s.wire (i, j) _ (a, b) = [] ∧ _
      rw [update_of_ne (hfresh a b hab')]
      exact O.unsent a b (hab'.imp_right fun ⟨con', _, hdial⟩ => ⟨con', hdial⟩)
    · change update s.wire (i, j) _ (a, b) ≠ [] at hwire
      change b < a ∧ (update s.wire (i, j) _ (a, b)).length = 1 ∧ _
      by_cases hab : (a, b) = (i, j)
      · obtain ⟨rfl, rfl⟩ := Prod.mk.inj hab
        rw [update_self]
        refine ⟨hji, ?_, hold.2⟩
        change (s.wire (a, b) ++ [_]).length = 1
        rw [hold.1]
        rfl
      · rw [update_of_ne hab] at hwire ⊢
        exact O.written a b hwire
  | file i j con h =>
    have hdial := V.dialling i
    rw [h] at hdial
    obtain ⟨hji, he⟩ := hdial
    have hstream : con.stream = (i, j) := by
      rw [show con = (entry i j).2 from congrArg Prod.snd he, entry_stream, if_pos hji]
    have hkeep : ∀ a b, s.Unfiled a b → Unfiled { s with
        dialling := update s.dialling i .idle
        connections := update s.connections i ((s.connections i).insert j con) } a b := by
      intro a b hold
      refine hold.insert (fun hib hcon => ?_) _ rfl
      rw [hstream] at hcon
      obtain ⟨rfl, rfl⟩ := Prod.mk.inj hcon
      exact ne_of_gt hji hib
    have hdials : ∀ a b con', update s.dialling i .idle a = .connected b con' → s.dialling a = .connected b con' := by
      intro a b con' hdial
      rcases update_cases hdial with ⟨-, hnew⟩ | ⟨-, hold⟩
      · cases hnew
      · exact hold
    refine ⟨O.todo, fun a b con' hdial => O.connected a b con' (hdials a b con' hdial), fun a b hab => ?_,
      fun a b hwire => ?_⟩
    · have hold := O.unsent a b (hab.imp_right fun ⟨con', hdial⟩ => ⟨con', hdials a b con' hdial⟩)
      exact ⟨hold.1, hkeep a b hold.2⟩
    · have hold := O.written a b hwire
      exact ⟨hold.1, hold.2.1, hkeep a b hold.2.2⟩
  | accept i x rest h hx => exact ⟨O.todo, O.connected, O.unsent, O.written⟩
  | welcome i con frame rest id con' h hframe hnew =>
    obtain ⟨j, hij, rfl, hentry⟩ := V.welcomed h hframe
    have hstream : con'.stream = (j, i) := by
      rw [show con' = (entry i j).2 from congrArg Prod.snd (Option.some.inj (hnew.symm.trans hentry)), entry_stream,
        if_neg (not_lt_of_gt hij)]
    change s.wire (j, i) = frame :: rest at hframe
    have hrest : rest = [] := by
      have hlen := (O.written j i (by rw [hframe]; exact List.cons_ne_nil _ _)).2.1
      rw [hframe] at hlen
      exact List.length_eq_zero_iff.mp (Nat.succ.inj hlen)
    subst hrest
    have hkeep : ∀ a b, (a, b) ≠ (j, i) → s.Unfiled a b → Unfiled { s with
        listening := update s.listening i .idle
        wire := update s.wire (j, i) []
        connections := update s.connections i ((s.connections i).insert id con') } a b := by
      intro a b hab hold
      refine hold.insert (fun _ hcon => hab ?_) _ rfl
      rw [← hcon, hstream]
    refine ⟨O.todo, O.connected, fun a b hunsent => ?_, fun a b hwire => ?_⟩
    · have hold := O.unsent a b hunsent
      have hab : (a, b) ≠ (j, i) := by
        rintro he
        rw [he, hframe] at hold
        exact List.cons_ne_nil _ _ hold.1
      change update s.wire (j, i) [] (a, b) = [] ∧ _
      rw [update_of_ne hab]
      exact ⟨hold.1, hkeep a b hab hold.2⟩
    · change update s.wire (j, i) [] (a, b) ≠ [] at hwire
      change b < a ∧ (update s.wire (j, i) [] (a, b)).length = 1 ∧ _
      have hab : (a, b) ≠ (j, i) := by
        intro he
        rw [he, update_self] at hwire
        exact hwire rfl
      rw [update_of_ne hab] at hwire ⊢
      have hold := O.written a b hwire
      exact ⟨hold.1, hold.2.1, hkeep a b hab hold.2.2⟩
  | reject i con frame rest h hframe hnew => exact ⟨O.todo, O.connected, O.unsent, O.written⟩
  | ready i order htodo h hvisited hlen horder => exact ⟨O.todo, O.connected, O.unsent, O.written⟩

theorem Reachable.once (hinfos : infos.Perm (List.finRange n)) (h : Reachable G infos s) : Once s := by
  induction h with
  | refl => exact once_init hinfos
  | tail hs hstep ih => exact ih.step (Reachable.valid hs) hstep

/-- What a party got with its handler stays on file. -/
theorem Reachable.on_file (h : Reachable G infos s) {i : Fin n} {order : Connections n}
    (horder : s.visited i = some order) : ∀ e ∈ order, e ∈ s.connections i := by
  induction h with
  | refl => cases horder
  | @tail s s' hs hstep ih =>
    have V := Reachable.valid hs
    have hinsert : ∀ a j : Fin n, j ≠ a → ∀ e ∈ order, ∀ e', e' = entry a j → s.visited i = some order →
        e ∈ update s.connections a ((s.connections a).insert e'.1 e'.2) i := by
      rintro a j hja e he e' rfl hvisited
      by_cases hia : i = a
      · subst hia
        obtain ⟨hfiled, hlen⟩ := V.visited i order hvisited
        obtain ⟨k, hk, rfl⟩ := hfiled.entries e he
        rw [update_self]
        by_cases hkey : (entry i k).1 = (entry i j).1
        · rw [hfiled.key_injective hlen hk hja hkey]
          exact List.mem_cons_self
        · exact List.mem_cons_of_mem _ (List.mem_filter.mpr ⟨ih hvisited _ he, decide_eq_true hkey⟩)
      · rw [update_of_ne hia]
        exact ih hvisited e he
    cases hstep with
    | skip i j rest h htodo hj => exact ih horder
    | dial i j rest h htodo hj => exact ih horder
    | greet i j con stat h hstat => exact ih horder
    | file a j con h =>
      have hdial := V.dialling a
      rw [h] at hdial
      intro e he
      exact hinsert a j (ne_of_lt hdial.1) e he (j, con) hdial.2 horder
    | accept i x rest h hx => exact ih horder
    | welcome a con frame rest id con' h hframe hnew =>
      obtain ⟨j, hij, -, hentry⟩ := V.welcomed h hframe
      intro e he
      exact hinsert a j (ne_of_gt hij) e he (id, con') (Option.some.inj (hnew.symm.trans hentry)) horder
    | reject i con frame rest h hframe hnew => exact ih horder
    | ready a order' htodo h hvisited hlen horder' =>
      rcases update_cases horder with ⟨rfl, hnew⟩ | ⟨-, hold⟩
      · obtain rfl := Option.some.inj hnew
        exact fun e he => horder'.mem_iff.mp he
      · exact ih hold

/-- A party that has its handler has read all handshakes. -/
theorem Reachable.wire_eq_nil (hinfos : infos.Perm (List.finRange n)) (h : Reachable G infos s)
    {j : Fin n} {order : Connections n} (horder : s.visited j = some order) (i : Fin n) : s.wire (i, j) = [] := by
  by_contra hwire
  obtain ⟨hji, -, hunfiled⟩ := (h.once hinfos).written i j hwire
  obtain ⟨hfiled, hlen⟩ := h.valid.visited j order horder
  obtain ⟨js, hjs, rfl⟩ := hfiled.peers hlen
  have hmem : entry j i ∈ js.map (entry j) :=
    List.mem_map_of_mem (hjs.mem_iff.mpr (mem_peers.mpr (ne_of_gt hji)))
  apply hunfiled _ (h.on_file horder _ hmem)
  rw [entry_stream, if_neg (not_lt_of_gt hji)]

/-- A party that has its handler has dialled all it had to. -/
theorem Reachable.dialled (h : Reachable G infos s) {i : Fin n} (hi : s.visited i ≠ none) :
    s.todo i = [] ∧ s.dialling i = .idle := by
  induction h with
  | refl => exact absurd rfl hi
  | @tail s s' hs hstep ih =>
    -- whoever has something to dial is not the party that is done
    have htodo_ne : ∀ a j rest, s.visited i ≠ none → s.todo a = j :: rest → i ≠ a := by
      rintro a j rest hvisited htodo rfl
      rw [(ih hvisited).1] at htodo
      cases htodo
    have hdial_ne : ∀ a, s.visited i ≠ none → s.dialling a ≠ .idle → i ≠ a := by
      rintro a hvisited hdial rfl
      exact hdial (ih hvisited).2
    cases hstep with
    | skip a j rest h htodo hj =>
      have hne := htodo_ne a j rest hi htodo
      exact ⟨(update_of_ne hne _ _).trans (ih hi).1, (ih hi).2⟩
    | dial a j rest h htodo hj =>
      have hne := htodo_ne a j rest hi htodo
      exact ⟨(update_of_ne hne _ _).trans (ih hi).1, (update_of_ne hne _ _).trans (ih hi).2⟩
    | greet a j con stat h hstat =>
      have hne := hdial_ne a hi (by simp [h])
      exact ⟨(ih hi).1, (update_of_ne hne _ _).trans (ih hi).2⟩
    | file a j con h =>
      have hne := hdial_ne a hi (by simp [h])
      exact ⟨(ih hi).1, (update_of_ne hne _ _).trans (ih hi).2⟩
    | accept a x rest h hx => exact ih hi
    | welcome a con frame rest id con' h hframe hnew => exact ih hi
    | reject a con frame rest h hframe hnew => exact ih hi
    | ready a order htodo h hvisited hlen horder =>
      by_cases hia : i = a
      · subst hia
        exact ⟨htodo, h⟩
      · change update s.visited a (some order) i ≠ none at hi
        rw [update_of_ne hia] at hi
        exact ih hi

end TcpSetup
end PrivRecCert.Prc
