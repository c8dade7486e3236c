import PrivRecCert.Prc.TcpLive
import PrivRecCert.Rounds.Session

/-! Queries over connections that are being set up. A server starts with its queries when it has its own handler,
and by then some of its peers may still be waiting for handshakes. All of it goes over the same streams, but frames
of queries never get in the way of a handshake. -/
namespace PrivRecCert.Prc
open Function CorRnd SimdArray Rounds

variable {n : ℕ}

namespace TcpSetup
variable {G : Type} [AddCommGroup G] [Module Scalar G] [Ristretto G] {infos : List (Fin n)} {s s' : TcpSetup n}

/-- The same parties over other streams. -/
def rewired (s : TcpSetup n) (wire : Fin n × Fin n → List (List U8)) : TcpSetup n := { s with wire := wire }

variable {ahead frames : Fin n × Fin n → List (List U8)}

/-- A party that waits for a handshake finds one, whatever comes behind it. -/
theorem Queued.front (V : Valid G (s.rewired ahead)) (Q : Queued (s.rewired ahead))
    (hwire : ∀ x, s.wire x = ahead x ++ frames x)
    (hsilent : ∀ i con j, s.dialling i = .connected j con → frames (i, j) = []) {i : Fin n} {con : TcpConnection n}
    {frame : List U8} {rest : List (List U8)} (h : s.listening i = .waiting con)
    (hframe : s.wire con.receiver = frame :: rest) :
    ∃ ahead', ahead con.receiver = frame :: ahead' ∧ rest = ahead' ++ frames con.receiver := by
  have hlisten := V.listening i
  rw [show (s.rewired ahead).listening i = _ from h] at hlisten
  obtain ⟨j, hij, rfl⟩ := hlisten
  change s.wire (j, i) = _ at hframe
  change ∃ ahead', ahead (j, i) = frame :: ahead' ∧ rest = ahead' ++ frames (j, i)
  have hmem : (j, i) ∈ (s.rewired ahead).incoming i := by
    rw [incoming, show (s.rewired ahead).listening i = _ from h]
    exact List.mem_cons_self
  rw [hwire] at hframe
  have hne : ahead (j, i) ≠ [] := by
    rcases Q.greeting j i hmem with ⟨con, hdial⟩ | hne
    · rw [hsilent j con i hdial, List.append_nil] at hframe
      rw [hframe]
      exact List.cons_ne_nil _ _
    · exact hne
  obtain ⟨f, ahead', hahead⟩ := List.exists_cons_of_ne_nil hne
  rw [hahead, List.cons_append] at hframe
  obtain ⟨rfl, rfl⟩ := List.cons.inj hframe
  exact ⟨ahead', hahead, rfl⟩

/-- Frames that follow the handshakes make no difference to the set-up. -/
theorem Step.behind (V : Valid G (s.rewired ahead)) (Q : Queued (s.rewired ahead)) (h : Step G s s')
    (hwire : ∀ x, s.wire x = ahead x ++ frames x)
    (hsilent : ∀ i con j, s.dialling i = .connected j con → frames (i, j) = []) :
    ∃ ahead', (∀ x, s'.wire x = ahead' x ++ frames x) ∧ Step G (s.rewired ahead) (s'.rewired ahead') := by
  cases h with
  | skip i j rest h htodo hj => exact ⟨ahead, hwire, .skip (s := s.rewired ahead) i j rest h htodo hj⟩
  | dial i j rest h htodo hj => exact ⟨ahead, hwire, .dial (s := s.rewired ahead) i j rest h htodo hj⟩
  | greet i j con stat h hstat =>
    have hdial := V.dialling i
    rw [show (s.rewired ahead).dialling i = _ from h] at hdial
    obtain ⟨-, rfl⟩ := hdial
    refine ⟨update ahead (i, j) (ahead (i, j) ++ [handshakeFrame G i]), fun x => ?_,
      .greet (s := s.rewired ahead) i j _ stat h hstat⟩
    change update s.wire (i, j) (s.wire (i, j) ++ [handshakeFrame G i]) x = _
    by_cases hx : x = (i, j)
    · subst hx
      rw [update_self, update_self, hwire, hsilent i _ j h, List.append_nil, List.append_nil]
    · rw [update_of_ne hx, update_of_ne hx, hwire]
  | file i j con h => exact ⟨ahead, hwire, .file (s := s.rewired ahead) i j con h⟩
  | accept i x rest h hx => exact ⟨ahead, hwire, .accept (s := s.rewired ahead) i x rest h hx⟩
  | welcome i con frame rest id con' h hframe hnew =>
    obtain ⟨ahead', hahead, rfl⟩ := Q.front V hwire hsilent h hframe
    refine ⟨update ahead con.receiver ahead', fun x => ?_,
      .welcome (s := s.rewired ahead) i con frame ahead' id con' h hahead hnew⟩
    change update s.wire con.receiver _ x = _
    by_cases hx : x = con.receiver
    · subst hx
      rw [update_self, update_self]
    · rw [update_of_ne hx, update_of_ne hx, hwire]
  | reject i con frame rest h hframe hnew =>
    obtain ⟨ahead', hahead, -⟩ := Q.front V hwire hsilent h hframe
    exact ⟨ahead, hwire, .reject (s := s.rewired ahead) i con frame ahead' h hahead hnew⟩
  | ready i order htodo h hvisited hlen horder =>
    exact ⟨ahead, hwire, .ready (s := s.rewired ahead) i order htodo h hvisited hlen horder⟩

/-- And a step of the set-up is possible whatever follows the handshakes. -/
theorem Step.before {u : TcpSetup n} (V : Valid G (s.rewired ahead)) (h : Step G (s.rewired ahead) u)
    (hsilent : ∀ i con j, s.dialling i = .connected j con → frames (i, j) = []) :
    Step G (s.rewired fun x => ahead x ++ frames x) (u.rewired fun x => u.wire x ++ frames x) := by
  cases h with
  | skip i j rest h htodo hj => exact .skip (s := s.rewired _) i j rest h htodo hj
  | dial i j rest h htodo hj => exact .dial (s := s.rewired _) i j rest h htodo hj
  | greet i j con stat h hstat =>
    have hdial := V.dialling i
    rw [h] at hdial
    obtain ⟨-, rfl⟩ := hdial
    have hwire : (fun x => update ahead (i, j) (ahead (i, j) ++ [handshakeFrame G i]) x ++ frames x) =
        update (fun x => ahead x ++ frames x) (i, j) ((ahead (i, j) ++ frames (i, j)) ++ [handshakeFrame G i]) := by
      funext x
      by_cases hx : x = (i, j)
      · subst hx
        rw [update_self, update_self, hsilent i _ j h, List.append_nil, List.append_nil]
      · rw [update_of_ne hx, update_of_ne hx]
    have hstep := Step.greet (s := s.rewired fun x => ahead x ++ frames x) i j _ stat h hstat
    exact (congrArg (Step G _) (congrArg (rewired _) hwire)).mpr hstep
  | file i j con h => exact .file (s := s.rewired _) i j con h
  | accept i x rest h hx => exact .accept (s := s.rewired _) i x rest h hx
  | welcome i con frame rest id con' h hframe hnew =>
    have hwire : (fun x => update ahead con.receiver rest x ++ frames x) =
        update (fun x => ahead x ++ frames x) con.receiver (rest ++ frames con.receiver) := by
      funext x
      by_cases hx : x = con.receiver
      · subst hx
        rw [update_self, update_self]
      · rw [update_of_ne hx, update_of_ne hx]
    have hfront : (s.rewired fun x => ahead x ++ frames x).wire con.receiver = frame :: (rest ++ frames con.receiver) :=
      congrArg (· ++ frames con.receiver) hframe
    have hstep := Step.welcome (s := s.rewired fun x => ahead x ++ frames x) i con frame _ id con' h hfront hnew
    exact (congrArg (Step G _) (congrArg (rewired _) hwire)).mpr hstep
  | reject i con frame rest h hframe hnew =>
    obtain ⟨j, -, -, hentry⟩ := V.welcomed h hframe
    cases hnew.symm.trans hentry
  | ready i order htodo h hvisited hlen horder => exact .ready (s := s.rewired _) i order htodo h hvisited hlen horder

theorem Step.visited_none (h : Step G s s') {i : Fin n} (hi : s'.visited i = none) : s.visited i = none := by
  cases h with
  | ready a order htodo h hvisited hlen horder =>
    rcases update_cases hi with ⟨-, hnew⟩ | ⟨-, hold⟩
    · cases hnew
    · exact hold
  | skip | dial | greet | file | accept | welcome | reject => exact hi

end TcpSetup

section Deployment
variable {M K S A R T : Type} (G : Type) [AddCommGroup G] [Module Scalar G] [Ristretto G]
  (X : Metered n M K (List U8) S A R T) (order : Fin n → Connections n)

/-- One step of the set-up, or of a server that has its handler. Both go over the same streams. -/
inductive Deploy : TcpSetup n × Rounds.Session n M K (List U8) S A R T →
    TcpSetup n × Rounds.Session n M K (List U8) S A R T → Prop
  | connect {t s t'} (h : TcpSetup.Step G t t') : Deploy (t, s) (t', s.rewired t'.wire)
  | serve {t s s'} (h : Session.Step X s s')
      (hready : ∀ i, s'.net.phase i ≠ s.net.phase i → t.visited i = some (order i)) :
      Deploy (t, s) (t.rewired s'.net.chan, s')

/-- The handshakes that are in flight, with the frames of queries behind them: a state of the set-up and a state of the
session. -/
structure Apart (infos : List (Fin n)) (s₀ : Rounds.Session n M K (List U8) S A R T) (t : TcpSetup n)
    (s : Rounds.Session n M K (List U8) S A R T) (ahead frames : Fin n × Fin n → List (List U8)) : Prop where
  wire : t.wire = s.net.chan
  chan : ∀ x, s.net.chan x = ahead x ++ frames x
  setup : TcpSetup.Reachable G infos (t.rewired ahead)
  session : Session.Reachable X s₀ (s.rewired frames)
  silent : ∀ i, t.visited i = none → ∀ j, frames (i, j) = []

variable {G X order} {infos : List (Fin n)} {s₀ s s' : Rounds.Session n M K (List U8) S A R T} {t t' : TcpSetup n}
  {ahead frames : Fin n × Fin n → List (List U8)}

/-- Whoever has its handler sends on its own streams and receives on its own streams. -/
def Tied (X : Metered n M K (List U8) S A R T)
    (order : Fin n → Connections n) : Prop :=
  ∀ i, TcpSetup.Complete i (some (order i)) → ∀ j, (X.endpoint.sender i j).1 = i ∧ (X.endpoint.receiver i j).2 = i

/-- Whoever is about to greet a peer has not sent anything else to it. -/
theorem Apart.quiet (P : Apart G X infos s₀ t s ahead frames) (i : Fin n) (con : TcpConnection n) (j : Fin n)
    (hdial : t.dialling i = .connected j con) : frames (i, j) = [] := by
  refine P.silent i ?_ j
  by_contra hvisited
  have hidle := (P.setup.dialled (i := i) hvisited).2
  rw [show (t.rewired ahead).dialling i = _ from hdial] at hidle
  cases hidle

theorem Apart.step (hinfos : infos.Perm (List.finRange n)) (htied : Tied X order)
    (h : Deploy G X order (t, s) (t', s')) (P : Apart G X infos s₀ t s ahead frames) :
    ∃ ahead' frames', Apart G X infos s₀ t' s' ahead' frames' := by
  cases h with
  | connect h =>
    obtain ⟨ahead', hwire, hstep⟩ := h.behind P.setup.valid (P.setup.queued hinfos)
      (fun x => by rw [P.wire, P.chan]) P.quiet
    exact ⟨ahead', frames, rfl, hwire, P.setup.tail hstep, P.session, fun i hi => P.silent i (h.visited_none hi)⟩
  | serve h hready =>
    obtain ⟨frames', hchan, hstep, hkeep⟩ := h.behind P.chan fun i hi j => by
      have hvisited : (t.rewired ahead).visited i = some (order i) := hready i hi
      obtain ⟨hsender, hreceiver⟩ := htied i (hvisited ▸ P.setup.valid.visited i) j
      have hends : X.endpoint.receiver i j = ((X.endpoint.receiver i j).1, i) := Prod.ext rfl hreceiver
      rw [hends]
      exact ⟨hsender, P.setup.wire_eq_nil hinfos hvisited _⟩
    refine ⟨ahead, frames', rfl, hchan, P.setup, P.session.tail hstep, fun i hi j => hkeep i ?_ j (P.silent i hi j)⟩
    by_contra hmoves
    have hvisited := hready i hmoves
    rw [show t.visited i = none from hi] at hvisited
    cases hvisited

/-- What is in flight comes apart in every state. -/
theorem Deploy.apart (hinfos : infos.Perm (List.finRange n)) (htied : Tied X order) (hs₀ : s₀.net.chan = fun _ => [])
    (h : Relation.ReflTransGen (Deploy G X order) (.init infos, s₀) (t, s)) :
    ∃ ahead frames, Apart G X infos s₀ t s ahead frames := by
  have hall : ∀ p, Relation.ReflTransGen (Deploy G X order) (.init infos, s₀) p →
      ∃ ahead frames, Apart G X infos s₀ p.1 p.2 ahead frames := by
    intro p hp
    induction hp with
    | refl =>
      refine ⟨fun _ => [], fun _ => [], hs₀.symm, fun x => by rw [hs₀]; rfl, .refl, ?_, fun _ _ _ => rfl⟩
      have hsame : s₀.rewired (fun _ => []) = s₀ := by
        rw [← hs₀]
        rfl
      rw [hsame]
      exact .refl
    | tail _ hstep ih =>
      obtain ⟨ahead, frames, P⟩ := ih
      exact P.step hinfos htied hstep
  exact hall _ h

/-- When all servers have their handlers, no handshake is left. -/
theorem Apart.settled (hinfos : infos.Perm (List.finRange n)) (P : Apart G X infos s₀ t s ahead frames)
    (hready : ∀ i, t.visited i = some (order i)) : s.rewired frames = s := by
  have hframes : frames = s.net.chan := by
    funext x
    have hnil := P.setup.wire_eq_nil hinfos (show (t.rewired ahead).visited x.2 = _ from hready x.2) x.1
    rw [P.chan, show ahead x = [] from hnil, List.nil_append]
  rw [hframes]
  rfl

/-- Whatever the steps of the set-up and of the servers, when all servers have their handlers they have come as far as
in a session over connections that were ready from the start. -/
theorem Deploy.session (hinfos : infos.Perm (List.finRange n)) (htied : Tied X order)
    (hs₀ : s₀.net.chan = fun _ => []) (h : Relation.ReflTransGen (Deploy G X order) (.init infos, s₀) (t, s))
    (hready : ∀ i, t.visited i = some (order i)) :
    Session.Reachable X s₀ s ∧ ∃ ahead, TcpSetup.Reachable G infos (t.rewired ahead) := by
  obtain ⟨ahead, frames, P⟩ := Deploy.apart hinfos htied hs₀ h
  have hsession := P.session
  rw [P.settled hinfos hready] at hsession
  exact ⟨hsession, ahead, P.setup⟩

/-- A step that the set-up can take by itself, it can take with the frames of the servers in flight. -/
theorem Apart.connect (P : Apart G X infos s₀ t s ahead frames) {u : TcpSetup n}
    (h : TcpSetup.Step G (t.rewired ahead) u) :
    ∃ t', Deploy G X order (t, s) (t', s.rewired t'.wire) ∧ t'.rewired u.wire = u ∧
      Apart G X infos s₀ t' (s.rewired t'.wire) u.wire frames := by
  have hsame : (t.rewired fun x => ahead x ++ frames x) = t := by
    rw [show (fun x => ahead x ++ frames x) = t.wire from (P.wire.trans (funext P.chan)).symm]
    rfl
  have hstep := h.before P.setup.valid P.quiet
  rw [hsame] at hstep
  exact ⟨_, .connect hstep, rfl, rfl, fun _ => rfl, P.setup.tail h, P.session, fun i hi => P.silent i
    (h.visited_none hi)⟩

theorem Apart.connects (P : Apart G X infos s₀ t s ahead frames) {u : TcpSetup n}
    (h : Relation.ReflTransGen (TcpSetup.Step G) (t.rewired ahead) u) :
    ∃ t' s', Relation.ReflTransGen (Deploy G X order) (t, s) (t', s') ∧ t'.rewired u.wire = u ∧
      Apart G X infos s₀ t' s' u.wire frames := by
  induction h with
  | refl => exact ⟨t, s, .refl, rfl, P⟩
  | tail _ hstep ih =>
    obtain ⟨t', s', hsteps, hu, P'⟩ := ih
    rw [← hu] at hstep
    obtain ⟨t'', hdeploy, hv, P''⟩ := P'.connect hstep
    exact ⟨t'', _, hsteps.tail hdeploy, hv, P''⟩

/-- The set-up can be brought to its end from every state, and the servers keep what they have sent. -/
theorem Deploy.completes (hn : n ≤ 256) (hinfos : infos.Perm (List.finRange n)) (htied : Tied X order)
    (horder : ∀ i, (order i).Perm ((peers i).map (TcpSetup.entry i))) (hs₀ : s₀.net.chan = fun _ => [])
    (h : Relation.ReflTransGen (Deploy G X order) (.init infos, s₀) (t, s))
    (hvisited : ∀ i, t.visited i = none ∨ t.visited i = some (order i)) :
    ∃ t' s', Relation.ReflTransGen (Deploy G X order) (t, s) (t', s') ∧ ∀ i, t'.visited i = some (order i) := by
  obtain ⟨ahead, frames, P⟩ := Deploy.apart hinfos htied hs₀ h
  obtain ⟨u, hu, hready⟩ := P.setup.completes hn hinfos horder hvisited
  obtain ⟨t', s', hsteps, hsame, -⟩ := P.connects hu
  refine ⟨t', s', hsteps, fun i => ?_⟩
  rw [← hready i, ← hsame]
  rfl

/-- The set-up by itself. -/
theorem Deploy.of_setup (hchan : s.net.chan = fun _ => []) (h : TcpSetup.Reachable G infos t) :
    Relation.ReflTransGen (Deploy G X order) (.init infos, s) (t, s.rewired t.wire) := by
  induction h with
  | refl =>
    have hsame : s.rewired (TcpSetup.init infos).wire = s := by
      simp only [Rounds.Session.rewired, TcpSetup.init, ← hchan]
    rw [hsame]
  | tail _ hstep ih => exact ih.tail (.connect hstep)

end Deployment
end PrivRecCert.Prc
