import PrivRecCert.Prc.TcpReady

/-! Once all parties listen, the set-up over TCP comes to an end. Nobody takes infinitely many steps, and as long as the
numbers of the parties fit into a byte, nobody is left waiting: when no step is possible any more, every party has its
handler. -/
namespace PrivRecCert.Prc.TcpSetup
open Function CorRnd SimdArray Rounds
open scoped BigOperators

variable {n : ℕ} {G : Type} [AddCommGroup G] [Module Scalar G] [Ristretto G] {infos : List (Fin n)} {s s' : TcpSetup n}

/-- A sum after one of its terms has been replaced. -/
theorem sum_update {A : Type} (w : A → ℕ) {f : Fin n → A} {i : Fin n} {x : A} (h : f i = x) (v : A) :
    ∑ a, w (update f i v a) + w x = ∑ a, w (f a) + w v := by
  have hrest : ∑ a ∈ Finset.univ.erase i, w (update f i v a) = ∑ a ∈ Finset.univ.erase i, w (f a) :=
    Finset.sum_congr rfl fun a ha => by rw [update_of_ne (Finset.ne_of_mem_erase ha)]
  rw [← Finset.add_sum_erase _ _ (Finset.mem_univ i), ← Finset.add_sum_erase _ (fun a => w (f a)) (Finset.mem_univ i),
    update_self, hrest, h]
  omega

/-- The steps that a party still takes for the connection that it is setting up. -/
def dialWork : Dialling n → ℕ
  | .idle => 0
  | .connected _ _ => 2
  | .greeted _ _ => 1

def listenWork : Listening n → ℕ
  | .idle => 0
  | .waiting _ => 1
  | .panicked => 0

def visitWork : Option (Connections n) → ℕ
  | none => 1
  | some _ => 0

/-- No more steps than this are left. -/
def work (s : TcpSetup n) : ℕ :=
  5*∑ i, (s.todo i).length + ∑ i, dialWork (s.dialling i) + 2*∑ i, (s.backlog i).length +
    ∑ i, listenWork (s.listening i) + ∑ i, visitWork (s.visited i)

/-- Every step is progress. -/
theorem Step.work_lt (h : Step G s s') : s'.work < s.work := by
  cases h with
  | skip i j rest h htodo hj =>
    have htodo' : _ + (rest.length + 1) = _ + rest.length := sum_update List.length htodo rest
    simp only [work]
    omega
  | dial i j rest h htodo hj =>
    have htodo' : _ + (rest.length + 1) = _ + rest.length := sum_update List.length htodo rest
    have hdial : _ + 0 = _ + 2 := sum_update dialWork h (.connected j ⟨.zero, some j, (i, j), true⟩)
    have hback := sum_update List.length (Eq.refl (s.backlog j)) (s.backlog j ++ [(i, j)])
    rw [List.length_append, List.length_singleton] at hback
    simp only [work]
    omega
  | greet i j con stat h hstat =>
    have hdial : _ + 2 = _ + 1 := sum_update dialWork h (.greeted j { con with stat := stat })
    simp only [work]
    omega
  | file i j con h =>
    have hdial : _ + 1 = _ + 0 := sum_update dialWork h .idle
    simp only [work]
    omega
  | accept i x rest h hx =>
    have hlisten : _ + 0 = _ + 1 := sum_update listenWork h (.waiting ⟨.zero, none, x, false⟩)
    have hback : _ + (rest.length + 1) = _ + rest.length := sum_update List.length hx rest
    simp only [work]
    omega
  | welcome i con frame rest id con' h hframe hnew =>
    have hlisten : _ + 1 = _ + 0 := sum_update listenWork h .idle
    simp only [work]
    omega
  | reject i con frame rest h hframe hnew =>
    have hlisten : _ + 1 = _ + 0 := sum_update listenWork h .panicked
    simp only [work]
    omega
  | ready i order htodo h hvisited hlen horder =>
    have hvisit : _ + 1 = _ + 0 := sum_update visitWork hvisited (some order)
    simp only [work]
    omega

theorem step_wellFounded : WellFounded fun t s : TcpSetup n => Step G s t :=
  Subrelation.wf (fun h => h.work_lt) (measure work).wf

/-- The stream whose handshake a party waits for. -/
def awaited : Listening n → List (Fin n × Fin n)
  | .idle => []
  | .waiting con => [con.stream]
  | .panicked => []

/-- The streams that a party has not yet on file although they have been dialled. -/
def incoming (s : TcpSetup n) (j : Fin n) : List (Fin n × Fin n) := awaited (s.listening j) ++ s.backlog j

/-- A stream comes in once, and then its handshake is on the way. -/
structure Queued (s : TcpSetup n) : Prop where
  nodup : ∀ j, (s.incoming j).Nodup
  fresh : ∀ i j, j ∈ s.todo i → (i, j) ∉ s.incoming j
  greeting : ∀ i j, (i, j) ∈ s.incoming j → (∃ con, s.dialling i = .connected j con) ∨ s.wire (i, j) ≠ []

theorem queued_init : Queued (init infos) where
  nodup _ := List.nodup_nil
  fresh _ _ _ h := absurd h List.not_mem_nil
  greeting _ _ h := absurd h List.not_mem_nil

theorem incoming_dial {i j : Fin n} {rest : List (Fin n)} (k : Fin n) : incoming { s with
    todo := update s.todo i rest
    dialling := update s.dialling i (.connected j ⟨.zero, some j, (i, j), true⟩)
    backlog := update s.backlog j (s.backlog j ++ [(i, j)]) } k =
      if k = j then s.incoming k ++ [(i, j)] else s.incoming k := by
  dsimp only [incoming]
  by_cases hk : k = j
  · subst hk
    rw [update_self, if_pos rfl, List.append_assoc]
  · rw [update_of_ne hk, if_neg hk]

/-- Accepting a stream only moves it from the one list to the other. -/
theorem incoming_accept {i : Fin n} {x : Fin n × Fin n} {rest : List (Fin n × Fin n)} (h : s.listening i = .idle)
    (hx : s.backlog i = x :: rest) (k : Fin n) : incoming { s with
      listening := update s.listening i (.waiting ⟨.zero, none, x, false⟩)
      backlog := update s.backlog i rest } k = s.incoming k := by
  dsimp only [incoming]
  by_cases hk : k = i
  · subst hk
    rw [update_self, update_self, h, hx]
    rfl
  · rw [update_of_ne hk, update_of_ne hk]

/-- A stream that is on file is no longer on its way. -/
theorem incoming_welcome {i : Fin n} (wire : Fin n × Fin n → List (List U8)) (connections : Fin n → Connections n)
    (k : Fin n) : incoming { s with
      listening := update s.listening i .idle
      wire := wire
      connections := connections } k = if k = i then s.backlog k else s.incoming k := by
  dsimp only [incoming]
  by_cases hk : k = i
  · subst hk
    rw [update_self, if_pos rfl]
    rfl
  · rw [update_of_ne hk, if_neg hk]

theorem Queued.step (V : Valid G s) (O : Once s) (Q : Queued s) (h : Step G s s') : Queued s' := by
  cases h with
  | skip i j rest h htodo hj =>
    exact ⟨Q.nodup, fun a b hb => Q.fresh a b ((O.shorter htodo).2 a b hb), Q.greeting⟩
  | dial i j rest h htodo hj =>
    have hmem : j ∈ s.todo i := by
      rw [htodo]
      exact List.mem_cons_self
    have hnd := O.todo i
    rw [htodo] at hnd
    refine ⟨fun k => ?_, fun a b hb => ?_, fun a b hab => ?_⟩
    · rw [incoming_dial]
      split_ifs with hk
      · subst hk
        exact List.nodup_append.mpr ⟨Q.nodup k, List.nodup_singleton _, fun x hx y hy he => by
          rw [he, List.mem_singleton.mp hy] at hx
          exact Q.fresh i k hmem hx⟩
      · exact Q.nodup k
    · have hold := Q.fresh a b ((O.shorter htodo).2 a b hb)
      rw [incoming_dial]
      split_ifs with hk
      · subst hk
        rw [List.mem_append, not_or, List.mem_singleton]
        refine ⟨hold, fun he => ?_⟩
        obtain ⟨rfl, -⟩ := Prod.mk.inj he
        change b ∈ update s.todo a rest a at hb
        rw [update_self] at hb
        exact (List.nodup_cons.mp hnd).1 hb
      · exact hold
    · -- the new stream has a handshake to come, and the others are not those of the party that dials
      have hkeep : (a, b) ∈ s.incoming b → (∃ con, update s.dialling i (.connected j ⟨.zero, some j, (i, j), true⟩) a =
          .connected b con) ∨ s.wire (a, b) ≠ [] := fun hold => (Q.greeting a b hold).imp_left fun ⟨con, hcon⟩ => by
        have hai : a ≠ i := by
          rintro rfl
          cases h.symm.trans hcon
        exact ⟨con, by rw [update_of_ne hai, hcon]⟩
      rw [incoming_dial] at hab
      split_ifs at hab with hk
      · rcases List.mem_append.mp hab with hold | hnew
        · exact hkeep hold
        · obtain ⟨rfl, rfl⟩ := Prod.mk.inj (List.mem_singleton.mp hnew)
          exact .inl ⟨_, update_self _ _ _⟩
      · exact hkeep hab
  | greet i j con stat h hstat =>
    have hdial := V.dialling i
    rw [h] at hdial
    obtain ⟨-, rfl⟩ := hdial
    refine ⟨Q.nodup, Q.fresh, fun a b hab => ?_⟩
    change (∃ con, update s.dialling i _ a = .connected b con) ∨ update s.wire (i, j) _ (a, b) ≠ []
    by_cases hnew : (a, b) = (i, j)
    · rw [hnew, update_self]
      exact .inr (List.append_ne_nil_of_right_ne_nil _ (List.cons_ne_nil _ _))
    · rw [update_of_ne hnew]
      refine (Q.greeting a b hab).imp_left fun ⟨con, hcon⟩ => ⟨con, ?_⟩
      have hai : a ≠ i := by
        rintro rfl
        obtain ⟨rfl, -⟩ := Dialling.connected.inj (h.symm.trans hcon)
        exact hnew rfl
      rw [update_of_ne hai, hcon]
  | file i j con h =>
    refine ⟨Q.nodup, Q.fresh, fun a b hab => (Q.greeting a b hab).imp_left fun ⟨con', hcon⟩ => ⟨con', ?_⟩⟩
    have hai : a ≠ i := by
      rintro rfl
      cases h.symm.trans hcon
    exact (update_of_ne hai _ _).trans hcon
  | accept i x rest h hx =>
    refine ⟨fun k => ?_, fun a b hb => ?_, fun a b hab => ?_⟩
    · rw [incoming_accept h hx]
      exact Q.nodup k
    · rw [incoming_accept h hx]
      exact Q.fresh a b hb
    · rw [incoming_accept h hx] at hab
      exact Q.greeting a b hab
  | welcome i con frame rest id con' h hframe hnew =>
    obtain ⟨j, hij, rfl, -⟩ := V.welcomed h hframe
    have hin : s.incoming i = (j, i) :: s.backlog i := by
      rw [incoming, h]
      rfl
    have hnd := Q.nodup i
    rw [hin] at hnd
    have hsub : ∀ k x, x ∈ (if k = i then s.backlog k else s.incoming k) → x ∈ s.incoming k := fun k x hx => by
      split_ifs at hx with hk
      · exact List.mem_append_right _ hx
      · exact hx
    refine ⟨fun k => ?_, fun a b hb => ?_, fun a b hab => ?_⟩
    · rw [incoming_welcome]
      split_ifs with hk
      · rw [hk]
        exact (List.nodup_cons.mp hnd).2
      · exact Q.nodup k
    · rw [incoming_welcome]
      exact mt (hsub b _) (Q.fresh a b hb)
    · rw [incoming_welcome] at hab
      have hne : (a, b) ≠ (j, i) := by
        intro he
        obtain ⟨rfl, rfl⟩ := Prod.mk.inj he
        rw [if_pos rfl] at hab
        exact (List.nodup_cons.mp hnd).1 hab
      change (∃ con, s.dialling a = .connected b con) ∨ update s.wire (j, i) rest (a, b) ≠ []
      rw [update_of_ne hne]
      exact Q.greeting a b (hsub b _ hab)
  | reject i con frame rest h hframe hnew =>
    obtain ⟨j, -, -, hentry⟩ := V.welcomed h hframe
    cases hnew.symm.trans hentry
  | ready i order htodo h hvisited hlen horder => exact ⟨Q.nodup, Q.fresh, Q.greeting⟩

theorem Reachable.queued (hinfos : infos.Perm (List.finRange n)) (h : Reachable G infos s) : Queued s := by
  induction h with
  | refl => exact queued_init
  | tail hs hstep ih => exact ih.step (Reachable.valid hs) (Reachable.once hinfos hs) hstep

/-- Filing one more connection keeps those that are there. -/
theorem Filed.keeps (hn : n ≤ 256) {m : Connections n} {i j : Fin n} (hm : Filed i m) {e e' : ℕ × TcpConnection n}
    (he : e ∈ m) (he' : e' = entry i j) : e ∈ m.insert e'.1 e'.2 := by
  subst he'
  obtain ⟨k, -, rfl⟩ := hm.entries e he
  by_cases hkj : k = j
  · subst hkj
    exact List.mem_cons_self
  · refine List.mem_cons_of_mem _ (List.mem_filter.mpr ⟨he, decide_eq_true ?_⟩)
    rw [entry_fst hn, entry_fst hn]
    exact mt Fin.ext hkj

theorem Step.keeps (hn : n ≤ 256) (V : Valid G s) (h : Step G s s') {i : Fin n} {e : ℕ × TcpConnection n}
    (he : e ∈ s.connections i) : e ∈ s'.connections i := by
  have hinsert : ∀ a j e', e' = entry a j → e ∈ update s.connections a ((s.connections a).insert e'.1 e'.2) i := by
    intro a j e' he'
    by_cases hia : i = a
    · subst hia
      rw [update_self]
      exact (V.connections i).keeps hn he he'
    · rwa [update_of_ne hia]
  cases h with
  | skip i j rest h htodo hj => exact he
  | dial i j rest h htodo hj => exact he
  | greet i j con stat h hstat => exact he
  | file a j con h =>
    have hdial := V.dialling a
    rw [h] at hdial
    exact hinsert a j (j, con) hdial.2
  | accept i x rest h hx => exact he
  | welcome a con frame rest id con' h hframe hnew =>
    obtain ⟨j, -, -, hentry⟩ := V.welcomed h hframe
    exact hinsert a j (id, con') (Option.some.inj (hnew.symm.trans hentry))
  | reject i con frame rest h hframe hnew => exact he
  | ready i order htodo h hvisited hlen horder => exact he

/-- A peer that is not the next one stays in the list. -/
theorem later_mem {i j a b : Fin n} {rest : List (Fin n)} (htodo : s.todo i = j :: rest) (hmem : b ∈ s.todo a)
    (hne : (a, b) ≠ (i, j)) : b ∈ update s.todo i rest a := by
  by_cases hai : a = i
  · subst hai
    rw [update_self]
    rw [htodo] at hmem
    exact (List.mem_cons.mp hmem).resolve_left fun hbj => hne (by rw [hbj])
  · rwa [update_of_ne hai]

/-- Where a party stands with a peer that it has to dial. -/
inductive Dialled (s : TcpSetup n) (i j : Fin n) : Prop
  | todo (h : j ∈ s.todo i)
  | connected (con : TcpConnection n) (h : s.dialling i = .connected j con)
  | greeted (con : TcpConnection n) (h : s.dialling i = .greeted j con)
  | filed (h : entry i j ∈ s.connections i)

theorem Dialled.step (hn : n ≤ 256) (V : Valid G s) (h : Step G s s') {a b : Fin n} (hab : b < a)
    (D : s.Dialled a b) : s'.Dialled a b := by
  cases D with
  | filed hfiled => exact .filed (h.keeps hn V hfiled)
  | todo hmem =>
    cases h with
    | skip i j rest h htodo hj =>
      refine .todo (later_mem htodo hmem fun he => ?_)
      obtain ⟨rfl, rfl⟩ := Prod.mk.inj he
      exact hj hab
    | dial i j rest h htodo hj =>
      by_cases he : (a, b) = (i, j)
      · obtain ⟨rfl, rfl⟩ := Prod.mk.inj he
        exact .connected _ (update_self _ _ _)
      · exact .todo (later_mem htodo hmem he)
    | greet i j con stat h hstat => exact .todo hmem
    | file i j con h => exact .todo hmem
    | accept i x rest h hx => exact .todo hmem
    | welcome i con frame rest id con' h hframe hnew => exact .todo hmem
    | reject i con frame rest h hframe hnew => exact .todo hmem
    | ready i order htodo h hvisited hlen horder => exact .todo hmem
  | connected con hcon =>
    have hbusy : ∀ i, s.dialling i ≠ .connected b con → a ≠ i := by
      rintro i hi rfl
      exact hi hcon
    cases h with
    | skip i j rest h htodo hj => exact .connected con hcon
    | dial i j rest h htodo hj =>
      exact .connected con ((update_of_ne (hbusy i (by simp [h])) _ _).trans hcon)
    | greet i j con' stat h hstat =>
      by_cases hai : a = i
      · subst hai
        obtain ⟨rfl, rfl⟩ := Dialling.connected.inj (h.symm.trans hcon)
        exact .greeted _ (update_self _ _ _)
      · exact .connected con ((update_of_ne hai _ _).trans hcon)
    | file i j con' h => exact .connected con ((update_of_ne (hbusy i (by simp [h])) _ _).trans hcon)
    | accept i x rest h hx => exact .connected con hcon
    | welcome i con' frame rest id con'' h hframe hnew => exact .connected con hcon
    | reject i con' frame rest h hframe hnew => exact .connected con hcon
    | ready i order htodo h hvisited hlen horder => exact .connected con hcon
  | greeted con hcon =>
    have hbusy : ∀ i, s.dialling i ≠ .greeted b con → a ≠ i := by
      rintro i hi rfl
      exact hi hcon
    cases h with
    | skip i j rest h htodo hj => exact .greeted con hcon
    | dial i j rest h htodo hj => exact .greeted con ((update_of_ne (hbusy i (by simp [h])) _ _).trans hcon)
    | greet i j con' stat h hstat => exact .greeted con ((update_of_ne (hbusy i (by simp [h])) _ _).trans hcon)
    | file i j con' h =>
      by_cases hai : a = i
      · subst hai
        obtain ⟨rfl, rfl⟩ := Dialling.greeted.inj (h.symm.trans hcon)
        have hdial := V.dialling a
        rw [h] at hdial
        refine .filed ?_
        change entry a j ∈ update s.connections a ((s.connections a).insert j con') a
        rw [update_self, ← hdial.2]
        exact List.mem_cons_self
      · exact .greeted con ((update_of_ne hai _ _).trans hcon)
    | accept i x rest h hx => exact .greeted con hcon
    | welcome i con' frame rest id con'' h hframe hnew => exact .greeted con hcon
    | reject i con' frame rest h hframe hnew => exact .greeted con hcon
    | ready i order htodo h hvisited hlen horder => exact .greeted con hcon

/-- Where a party stands with a peer that has to dial it. -/
inductive Heard (s : TcpSetup n) (i j : Fin n) : Prop
  | todo (h : j ∈ s.todo i)
  | incoming (h : (i, j) ∈ s.incoming j)
  | filed (h : entry j i ∈ s.connections j)

theorem Heard.step (hn : n ≤ 256) (V : Valid G s) (h : Step G s s') {a b : Fin n} (hab : b < a) (H : s.Heard a b) :
    s'.Heard a b := by
  cases H with
  | filed hfiled => exact .filed (h.keeps hn V hfiled)
  | todo hmem =>
    cases h with
    | skip i j rest h htodo hj =>
      refine .todo (later_mem htodo hmem fun he => ?_)
      obtain ⟨rfl, rfl⟩ := Prod.mk.inj he
      exact hj hab
    | dial i j rest h htodo hj =>
      by_cases he : (a, b) = (i, j)
      · obtain ⟨rfl, rfl⟩ := Prod.mk.inj he
        refine .incoming ?_
        rw [incoming_dial, if_pos rfl]
        exact List.mem_append_right _ (List.mem_singleton_self _)
      · exact .todo (later_mem htodo hmem he)
    | greet i j con stat h hstat => exact .todo hmem
    | file i j con h => exact .todo hmem
    | accept i x rest h hx => exact .todo hmem
    | welcome i con frame rest id con' h hframe hnew => exact .todo hmem
    | reject i con frame rest h hframe hnew => exact .todo hmem
    | ready i order htodo h hvisited hlen horder => exact .todo hmem
  | incoming hin =>
    cases h with
    | skip i j rest h htodo hj => exact .incoming hin
    | dial i j rest h htodo hj =>
      refine .incoming ?_
      rw [incoming_dial]
      split_ifs
      · exact List.mem_append_left _ hin
      · exact hin
    | greet i j con stat h hstat => exact .incoming hin
    | file i j con h => exact .incoming hin
    | accept i x rest h hx =>
      refine .incoming ?_
      rw [incoming_accept h hx]
      exact hin
    | welcome i con frame rest id con' h hframe hnew =>
      obtain ⟨j, -, rfl, hentry⟩ := V.welcomed h hframe
      by_cases he : (a, b) = (j, i)
      · obtain ⟨rfl, rfl⟩ := Prod.mk.inj he
        refine .filed ?_
        change entry b a ∈ update s.connections b ((s.connections b).insert id con') b
        rw [update_self, ← Option.some.inj (hnew.symm.trans hentry)]
        exact List.mem_cons_self
      · refine .incoming ?_
        rw [incoming_welcome]
        split_ifs with hb
        · subst hb
          rw [TcpSetup.incoming, h] at hin
          exact (List.mem_cons.mp hin).resolve_left he
        · exact hin
    | reject i con frame rest h hframe hnew =>
      obtain ⟨j, -, -, hentry⟩ := V.welcomed h hframe
      cases hnew.symm.trans hentry
    | ready i order htodo h hvisited hlen horder => exact .incoming hin

theorem Reachable.traced (hn : n ≤ 256) (hinfos : infos.Perm (List.finRange n)) (h : Reachable G infos s)
    {i j : Fin n} (hij : j < i) : s.Dialled i j ∧ s.Heard i j := by
  induction h with
  | refl =>
    have hmem : j ∈ infos := hinfos.mem_iff.mpr (List.mem_finRange j)
    exact ⟨.todo hmem, .todo hmem⟩
  | tail hs hstep ih =>
    have V := Reachable.valid hs
    exact ⟨ih.1.step hn V hstep hij, ih.2.step hn V hstep hij⟩

/-- Nothing can happen any more but that a party gets its handler. -/
def Settled (G : Type) [AddCommGroup G] [Module Scalar G] [Ristretto G] (s : TcpSetup n) : Prop :=
  ∀ t, Step G s t → t.visited ≠ s.visited

section Settled
variable (hs : Settled G s)
include hs

theorem Settled.idle (V : Valid G s) (i : Fin n) : s.dialling i = .idle := by
  cases h : s.dialling i with
  | idle => rfl
  | connected j con =>
    have hdial := V.dialling i
    rw [h] at hdial
    obtain ⟨-, rfl⟩ := hdial
    exact (hs _ (.greet i j _ ⟨6, 0⟩ h rfl) rfl).elim
  | greeted j con => exact (hs _ (.file i j con h) rfl).elim

theorem Settled.todo (V : Valid G s) (i : Fin n) : s.todo i = [] := by
  cases h : s.todo i with
  | nil => rfl
  | cons j rest =>
    by_cases hj : j < i
    · exact (hs _ (.dial i j rest (hs.idle V i) h hj) rfl).elim
    · exact (hs _ (.skip i j rest (hs.idle V i) h hj) rfl).elim

/-- Whoever waits for a handshake can go on, as all have been sent. -/
theorem Settled.incoming (V : Valid G s) (Q : Queued s) (i : Fin n) : s.incoming i = [] := by
  cases h : s.listening i with
  | idle =>
    cases hx : s.backlog i with
    | nil =>
      rw [TcpSetup.incoming, h, hx]
      rfl
    | cons x rest => exact (hs _ (.accept i x rest h hx) rfl).elim
  | waiting con =>
    have hlisten := V.listening i
    rw [h] at hlisten
    obtain ⟨j, -, rfl⟩ := hlisten
    have hin : (j, i) ∈ s.incoming i := by
      rw [TcpSetup.incoming, h]
      exact List.mem_cons_self
    rcases Q.greeting j i hin with ⟨con, hcon⟩ | hwire
    · cases (hs.idle V j).symm.trans hcon
    · obtain ⟨frame, rest, hframe⟩ := List.exists_cons_of_ne_nil hwire
      obtain ⟨k, -, -, hnew⟩ := V.welcomed h hframe
      exact (hs _ (.welcome i _ frame rest _ _ h hframe hnew) rfl).elim
  | panicked =>
    have hlisten := V.listening i
    rw [h] at hlisten
    exact hlisten.elim

theorem Settled.filed (hn : n ≤ 256) (hinfos : infos.Perm (List.finRange n)) (h : Reachable G infos s)
    {i j : Fin n} (hij : j ≠ i) : entry i j ∈ s.connections i := by
  have V := h.valid
  rcases lt_or_gt_of_ne hij with hlt | hlt
  · cases (h.traced hn hinfos hlt).1 with
    | todo hmem =>
      rw [hs.todo V i] at hmem
      cases hmem
    | connected con hcon => cases (hs.idle V i).symm.trans hcon
    | greeted con hcon => cases (hs.idle V i).symm.trans hcon
    | filed hfiled => exact hfiled
  · cases (h.traced hn hinfos hlt).2 with
    | todo hmem =>
      rw [hs.todo V j] at hmem
      cases hmem
    | incoming hin =>
      rw [hs.incoming V (h.queued hinfos) i] at hin
      cases hin
    | filed hfiled => exact hfiled

end Settled

/-- A party that knows all its peers has them all on file, in some order. -/
theorem Filed.perm_peers (hn : n ≤ 256) {m : Connections n} {i : Fin n} (hm : Filed i m)
    (hall : ∀ j, j ≠ i → entry i j ∈ m) : m.Perm ((Rounds.peers i).map (entry i)) := by
  have hkeys : ∀ l : List (Fin n), (l.map (entry i)).map Prod.fst = l.map Fin.val := fun l => by
    rw [List.map_map]
    exact List.map_congr_left fun j _ => entry_fst hn i j
  have hnd : ((Rounds.peers i).map (entry i)).Nodup := by
    refine List.Nodup.of_map Prod.fst ?_
    rw [hkeys]
    exact ((List.nodup_finRange n).filter _).map Fin.val_injective
  refine (List.perm_ext_iff_of_nodup hm.nodup.of_map hnd).mpr fun e => ⟨fun he => ?_, fun he => ?_⟩
  · obtain ⟨j, hj, rfl⟩ := hm.entries e he
    exact List.mem_map_of_mem (mem_peers.mpr hj)
  · obtain ⟨j, hj, rfl⟩ := List.mem_map.mp he
    exact hall j (mem_peers.mp hj)

/-- Then it can get its handler, with its connections in any order. -/
theorem Settled.ready (hs : Settled G s) (hn : n ≤ 256) (hinfos : infos.Perm (List.finRange n)) (h : Reachable G infos s)
    {i : Fin n} {order : Connections n} (horder : order.Perm ((Rounds.peers i).map (entry i)))
    (hvisited : s.visited i = none) : Step G s { s with visited := update s.visited i (some order) } := by
  have V := h.valid
  have hperm := (V.connections i).perm_peers hn fun j hj => hs.filed hn hinfos h hj
  have hlen : (s.connections i).length = n-1 := by rw [hperm.length_eq, List.length_map, peers_length]
  exact .ready i order (hs.todo V i) (hs.idle V i) hvisited hlen (horder.trans hperm.symm)

/-- The set-up can be brought to its end, in which the parties come across their connections in given orders. -/
theorem Reachable.completes (hn : n ≤ 256) (hinfos : infos.Perm (List.finRange n)) {order : Fin n → Connections n}
    (horder : ∀ i, (order i).Perm ((Rounds.peers i).map (entry i))) (h : Reachable G infos s)
    (hvisited : ∀ i, s.visited i = none ∨ s.visited i = some (order i)) :
    ∃ t, Relation.ReflTransGen (Step G) s t ∧ ∀ i, t.visited i = some (order i) := by
  induction s using (step_wellFounded (G := G)).induction with
  | _ s ih =>
    by_cases hs : Settled G s
    · by_cases hall : ∀ i, s.visited i = some (order i)
      · exact ⟨s, .refl, hall⟩
      · obtain ⟨i, hi⟩ := not_forall.mp hall
        have hstep := hs.ready hn hinfos h (horder i) ((hvisited i).resolve_right hi)
        obtain ⟨t, ht, hdone⟩ := ih _ hstep (h.tail hstep) fun k => by
          change update s.visited i (some (order i)) k = none ∨ update s.visited i (some (order i)) k = _
          by_cases hk : k = i
          · subst hk
            exact .inr (update_self _ _ _)
          · rw [update_of_ne hk]
            exact hvisited k
        exact ⟨t, ht.head hstep, hdone⟩
    · obtain ⟨u, hu⟩ := not_forall.mp hs
      obtain ⟨hstep, hsame⟩ := Classical.not_imp.mp hu
      obtain ⟨t, ht, hdone⟩ := ih u hstep (h.tail hstep) (by rw [not_not.mp hsame]; exact hvisited)
      exact ⟨t, ht.head hstep, hdone⟩

theorem Reachable.listening_ne (h : Reachable G infos s) (i : Fin n) : s.listening i ≠ .panicked := by
  intro hi
  have hlisten := h.valid.listening i
  rw [hi] at hlisten
  exact hlisten

/-- If the numbers of the parties fit into a byte, all have their handlers when nothing is left to do. -/
theorem Reachable.visited_of_stuck (hn : n ≤ 256) (hinfos : infos.Perm (List.finRange n)) (h : Reachable G infos s)
    (hstuck : ∀ t, ¬ Step G s t) (i : Fin n) : ∃ order, s.visited i = some order := by
  cases hvisited : s.visited i with
  | some order => exact ⟨order, rfl⟩
  | none =>
    have hsettled : Settled G s := fun t ht => absurd ht (hstuck t)
    exact absurd (hsettled.ready hn hinfos h (.refl _) hvisited) (hstuck _)

/-- With more parties, party 1 never gets its handler. -/
theorem Reachable.visited_eq_none (hn : 256 < n) (h : Reachable G infos s) {i : Fin n} (hi : (i : ℕ) = 1) :
    s.visited i = none := by
  cases hvisited : s.visited i with
  | none => rfl
  | some order =>
    obtain ⟨hfiled, hlen⟩ := h.valid.visited _ order hvisited
    exact absurd (hfiled.parties_le hlen hi) (Nat.not_le.mpr hn)

end PrivRecCert.Prc.TcpSetup
