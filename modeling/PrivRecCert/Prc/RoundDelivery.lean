import PrivRecCert.Prc.Traffic
import PrivRecCert.Rounds.Counted

/-! Programs that consist of rounds of one broadcast and one receive each, on the handlers of one
`ChannelManager`: every receive returns what the others broadcast in the same round, until a `u32` counter
overflows. -/
namespace PrivRecCert.Prc
open Function Bytes CorRnd SimdArray Rounds

variable {n : ℕ} {G : Type}

/-- The same payload: of Beaver shares, the two arrays that a broadcast carries. -/
def Msg.Same : Msg G → Msg G → Prop
  | beaver d, beaver e => List.Forall₂ SameBytes (d.1.arrays.take 2) (e.1.arrays.take 2)
  | dabit b, dabit c => SameBytes b c
  | commit c, commit c' => c = c'
  | _, _ => False

/-- What a round does: one of `send_beaver_shares`, `send_dabit_shares` and `send_commit_to_agg`. -/
def sendPayload : Msg G → Party G Unit
  | .beaver d => sendBeaverShares d.1
  | .dabit b => sendDabitShares b
  | .commit c => sendCommitToAgg c

/-- What the three receives return. -/
inductive Received (G : Type) : Type
  | beaver (l : List D2BitArray)
  | dabit (l : List BitArray)
  | commit (l : List (Commitment G))

def receivePayloads : Kind → Party G (Received G)
  | .beaver => do return .beaver (← receiveBeaverShares)
  | .dabit => do return .dabit (← receiveDabitShares)
  | .commit => do return .commit (← receiveAggCommits)

/-- A program of rounds of the given kinds. What is broadcast may depend on all that was received. -/
def roundsProgram (next : List (Received G) → Msg G) : List Kind → List (Received G) → Party G (List (Received G))
  | [], got => return got
  | kd :: kinds, got => do
    sendPayload (next got)
    let received ← receivePayloads kd
    roundsProgram next kinds (got ++ [received])

@[simp] theorem sendPayload_eq (m : Msg G) : sendPayload m = .send m (.ret ()) := by
  cases m with
  | beaver d => exact dif_pos d.2
  | dabit b => rfl
  | commit c => rfl

theorem mapM_of_forall {A B : Type} {f : A → Option B} {l : List A} (h : ∀ a ∈ l, ∃ b, f a = some b) :
    ∃ bs, l.mapM f = some bs := by
  induction l with
  | nil => exact ⟨[], rfl⟩
  | cons a l ih =>
    obtain ⟨b, hb⟩ := h a (by simp)
    obtain ⟨bs, hbs⟩ := ih fun a ha => h a (by simp [ha])
    exact ⟨b :: bs, by simp [List.mapM_cons, hb, hbs]⟩

theorem receive_of_kind {kd : Kind} {A : Type} {f : Msg G → Option A} (c : List A → Received G)
    (hf : ∀ m : Msg G, m.kind = kd → ∃ a, f m = some a) {l : List (Msg G)} (hl : ∀ m ∈ l, m.kind = kd) :
    ∃ received, ((.lift (l.mapM f) : Party G (List A)) >>= fun as => .ret (c as)) = .ret received := by
  obtain ⟨as, has⟩ := mapM_of_forall fun m hm => hf m (hl m hm)
  exact ⟨c as, by rw [has]; rfl⟩

/-- The receive of a kind takes messages of this kind. -/
theorem receivePayloads_eq (kd : Kind) : ∃ k, (receivePayloads kd : Party G _) = .recv kd k ∧
    ∀ l : List (Msg G), (∀ m ∈ l, m.kind = kd) → ∃ received, k l = .ret received := by
  cases kd with
  | beaver =>
    exact ⟨_, rfl, fun l hl => receive_of_kind .beaver (fun m hm => by cases m <;> simp_all [Msg.kind, Msg.asBeaver]) hl⟩
  | dabit =>
    exact ⟨_, rfl, fun l hl => receive_of_kind .dabit (fun m hm => by cases m <;> simp_all [Msg.kind, Msg.asDabit]) hl⟩
  | commit =>
    exact ⟨_, rfl, fun l hl => receive_of_kind .commit (fun m hm => by cases m <;> simp_all [Msg.kind, Msg.asCommit]) hl⟩

theorem receive_costs {size : Msg G → ℕ} {b : ℕ} {A B : Type} {o : List (Msg G) → Option A} {c : A → Received G}
    {f : Received G → Party G B} (h : ∀ received, (f received).Costs size b) (kd : Kind) :
    Proc.Costs size b (.recv kd fun l => ((.lift (o l) : Party G A) >>= fun as => .ret (c as)) >>= f) := by
  refine .recv kd fun l => ?_
  cases o l with
  | none => exact .fail b
  | some as => exact h (c as)

/-- Broadcasts whose sizes depend on the number of the round only. -/
theorem roundsProgram_costs {size : Msg G → ℕ} {next : List (Received G) → Msg G} {f : ℕ → ℕ}
    (hsize : ∀ got, size (next got) = f got.length) (kinds : List Kind) (got : List (Received G)) :
    (roundsProgram next kinds got).Costs size ((List.range' got.length kinds.length).map f).sum := by
  induction kinds generalizing got with
  | nil => exact .ret got
  | cons kd kinds ih =>
    rw [roundsProgram, sendPayload_eq, List.length_cons, List.range'_succ, List.map_cons, List.sum_cons, ← hsize got]
    have hnext : ∀ received, (roundsProgram next kinds (got ++ [received])).Costs size
        ((List.range' (got.length+1) kinds.length).map f).sum := fun received => by
      have h := ih (got ++ [received])
      rwa [List.length_append, List.length_singleton] at h
    refine .send (next got) ?_
    cases kd with
    | beaver => exact receive_costs hnext .beaver
    | dabit => exact receive_costs hnext .dabit
    | commit => exact receive_costs hnext .commit

section Curve
variable [AddCommGroup G] [Module Scalar G] [Ristretto G]

theorem wire_kind {m w : Msg G} {j : Fin n} (h : wire j m = some w) : w.kind = m.kind := by
  obtain ⟨cmd, hcmd, hw⟩ := Option.bind_eq_some_iff.mp h
  exact (Cmd.deserialize_toCmd hcmd).2 w hw

open Classical in
/-- The wire, for well-formed payloads only. -/
noncomputable def wireWF (j : Fin n) (m : Msg G) : Option (Msg G) := if m.WF then wire j m else none

theorem wireWF_eq_some {j : Fin n} {m w : Msg G} : wireWF j m = some w ↔ m.WF ∧ wire j m = some w := by
  unfold wireWF
  split_ifs with h <;> simp [h]

variable [LawfulRistretto G]

/-- A well-formed payload survives its frame. -/
theorem wire_same {m : Msg G} (h : m.WF) (j : Fin n) : ∃ w, wire j m = some w ∧ m.Same w := by
  rw [wire_eq_payload j h]
  cases m with
  | beaver d =>
    obtain ⟨⟨arrays⟩, hd⟩ := d
    obtain ⟨a, b, rest, hab, ha, hb, hsize⟩ := h
    simp only at hab
    subst hab
    obtain ⟨a', ha', hsa⟩ := fromByteSlice_same ha
    obtain ⟨b', hb', hsb⟩ := fromByteSlice_same hb
    rw [← hsize] at hb'
    refine ⟨.beaver ⟨⟨[a', b']⟩, le_rfl⟩, ?_, .cons hsa (.cons hsb .nil)⟩
    have hmod : a.bitSize % 4294967296 = a.bitSize := Nat.mod_eq_of_lt ha.bitSize_lt
    simp [Msg.toCmd, Cmd.payload, hmod, ha', hb']
  | dabit b =>
    obtain ⟨b', hb', hsb⟩ := fromByteSlice_same h
    have hmod : b.bitSize % 4294967296 = b.bitSize := Nat.mod_eq_of_lt h.bitSize_lt
    exact ⟨.dabit b', by simp [Msg.toCmd, Cmd.payload, hmod, hb'], hsb⟩
  | commit c => exact ⟨_, rfl, rfl⟩

/-- Programs that go through the same kinds of rounds run in lockstep. -/
theorem roundsProgram_lockstep {kinds : List Kind} {next : Fin n → List (Received G) → Msg G}
    (hkind : ∀ i got (h : got.length < kinds.length), (next i got).kind = kinds.get ⟨got.length, h⟩)
    (hwf : ∀ i got, got.length < kinds.length → (next i got).WF) (done rest : List Kind)
    (hsplit : kinds = done ++ rest) (got : Fin n → List (Received G))
    (hgot : ∀ i, (got i).length = done.length) :
    Lockstep Msg.kind wireWF (fun _ => True) fun i => roundsProgram (next i) rest (got i) := by
  induction rest generalizing done got with
  | nil => exact .ret trivial
  | cons kd rest ih =>
    have hlt : ∀ i, (got i).length < kinds.length := fun i => by
      rw [hgot i, hsplit, List.length_append, List.length_cons]
      omega
    obtain ⟨k, hk, hret⟩ := receivePayloads_eq (G := G) kd
    choose w hw hsame using fun i => wire_same (hwf i (got i) (hlt i)) i
    have hkd : ∀ i, (next i (got i)).kind = kd := fun i => by
      rw [hkind i (got i) (hlt i)]
      simp [hsplit, hgot i]
    refine .round (fun i => next i (got i)) w kd
      (fun i l => k l >>= fun received => roundsProgram (next i) rest (got i ++ [received]))
      (fun i => by rw [roundsProgram, sendPayload_eq, hk]; rfl) hkd
      (fun i => wireWF_eq_some.mpr ⟨hwf i (got i) (hlt i), hw i⟩) fun d hd => ?_
    have hall : ∀ i, ∃ received, k (d i) = .ret received := fun i => hret (d i) fun m hm => by
      obtain ⟨j, -, rfl⟩ := List.mem_map.mp ((hd i).mem_iff.mp hm)
      rw [wire_kind (hw j), hkd j]
    choose received hreceived using hall
    simp only [hreceived, Proc.ret_bind]
    exact ih (done ++ [kd]) (by rw [hsplit, List.append_assoc]; rfl) _ fun i => by
      rw [List.length_append, List.length_append, hgot i]
      rfl

omit [LawfulRistretto G] in
/-- The counters of connections that come from a `ChannelManager`. -/
theorem statTo_channels {handlers : Fin n → List (ChannelConnection n)} {i : Fin n}
    (h : handlers i = (peers i).map (ChannelManager.connection i)) (j : Fin n) :
    statTo (channelHandlers handlers i) j = .zero := by
  rw [statTo, channelHandlers, h, List.map_map]
  cases hfind : List.find? _ _ with
  | none => rfl
  | some c =>
    obtain ⟨k, -, rfl⟩ := List.mem_map.mp (List.mem_of_find?_eq_some hfind)
    rfl

/-- The parties over the connections of their handlers, which count the bytes that go over them. -/
def counted (handlers : Fin n → List (ChannelConnection n)) (A : Type) :
    Metered n (Msg G) Kind (List U8) (MpcMessageHandler G) A Empty NetStat where
  endpoint := endpoint handlers
  tally := NetStat.tally
  cost frame := ConnectionKind.channel.bytes frame.length
  connections i := (handlers i).map ChannelConnection.peerId
  serve _ _ r := r.elim

/-- The parties at the start of their programs. -/
def startRounds {A : Type} (handlers : Fin n → List (ChannelConnection n)) (procs : Fin n → Party G A) :
    Rounds.Session n (Msg G) Kind (List U8) (MpcMessageHandler G) A Empty NetStat :=
  .begin procs (fun i => statTo (channelHandlers handlers i)) .new

omit [LawfulRistretto G] in
theorem counted_wired {handlers : Fin n → List (ChannelConnection n)} (hn : n ≤ 256)
    (h : ∀ a, handlers a = (peers a).map (ChannelManager.connection a)) (A : Type) :
    (counted (G := G) handlers A).Wired where
  tally := NetStat.tally_lawful
  sender := (endpoint_lawful hn h).sender
  receiver := (endpoint_lawful hn h).receiver

omit [LawfulRistretto G] in
theorem counted_zero {handlers : Fin n → List (ChannelConnection n)}
    (h : ∀ a, handlers a = (peers a).map (ChannelManager.connection a)) (A : Type) (i j : Fin n) (_ : i ≠ j) :
    (counted (G := G) handlers A).tally.sent (statTo (channelHandlers handlers i) j) = 0 ∧
      (counted (G := G) handlers A).tally.received (statTo (channelHandlers handlers i) j) = 0 := by
  rw [statTo_channels (h i)]
  exact ⟨rfl, rfl⟩

/-- However the sends, receives and frames of `n` parties interleave: as long as nobody has broadcast `2^32` bytes,
nobody panics, no channel holds more than two frames, the parties are never stuck, and round `r` of every party
returns what the others broadcast in their round `r`. -/
theorem roundsProgram_delivers (hn : n ≤ 256) {order : List (Fin n)} (horder : order.Perm (List.finRange n))
    {kinds : List Kind} {next : Fin n → List (Received G) → Msg G}
    (hkind : ∀ i got (h : got.length < kinds.length), (next i got).kind = kinds.get ⟨got.length, h⟩)
    (hwf : ∀ i got, got.length < kinds.length → (next i got).WF) :
    ∃ handlers m, (ChannelManager.new n).getHandlers order = some (handlers, m) ∧
      ∀ s, Session.Reachable (counted handlers _) (startRounds handlers fun i => roundsProgram (next i) kinds []) s →
        (∀ i, s.net.broadcast (counted handlers (List (Received G))).size i < 2^32) →
        (∀ i, s.net.phase i ≠ .panicked) ∧ (∀ i j, (s.net.chan (i, j)).length ≤ 2) ∧
        ((∃ b : Fin n → List (Received G), ∀ i, s.net.phase i = .ready (.ret (b i))) ∨
          ∃ s', Session.Step (counted handlers _) s s') ∧
        ∀ (i : Fin n) (r : ℕ) (l : List (Msg G)), (s.net.got i)[r]? = some l →
          ∃ (kd : Kind) (m w : Fin n → Msg G),
            (∀ j, (s.net.sent j)[r]? = some (m j) ∧ (m j).kind = kd ∧ (w j).kind = kd ∧ (m j).Same (w j)) ∧
              l.Perm (others w i) := by
  obtain ⟨handlers, m, hm, hconn⟩ := ChannelManager.getHandlers_eq
    (horder.nodup_iff.mpr (List.nodup_finRange n)) fun a _ => ChannelManager.holds_new a (List.finRange n)
  have hall := fun a => hconn a (horder.mem_iff.mpr (List.mem_finRange a))
  have hlaw := endpoint_lawful (G := G) hn hall
  have hlaw' := hlaw.mono fun j m w (h : wireWF j m = some w) => (wireWF_eq_some.mp h).2
  have hstep := roundsProgram_lockstep hkind hwf [] kinds rfl (fun _ => []) fun _ => rfl
  refine ⟨handlers, m, hm, fun s hs hbytes => ?_⟩
  have hnet := Session.Reachable.network (counted_wired hn hall _)
    (counted_zero hall _) NetStat.tally_holds hs hbytes
  have hgood := hstep.network hlaw' (funext fun kd => by cases kd <;> rfl) hnet
  refine ⟨hgood.no_panic, hgood.chan_le, hgood.progress.imp_right fun ⟨_, hnext⟩ => Session.Step.of_net hnext,
    fun i r l hl => ?_⟩
  obtain ⟨kd, w, hw, hperm⟩ := hgood.delivered i r l hl
  choose m hm hk hwire using hw
  refine ⟨kd, m, w, fun j => ?_, hperm⟩
  obtain ⟨hmwf, hmw⟩ := wireWF_eq_some.mp (hwire j)
  obtain ⟨w', hw', hsame⟩ := wire_same hmwf j
  obtain rfl : w j = w' := Option.some.inj (hmw.symm.trans hw')
  exact ⟨hm j, hk j, (wire_kind hmw).trans (hk j), hsame⟩

end Curve

/-- In a two-party round, the frame of party 0 reaches party 1. -/
theorem first_frame {M K F S α : Type} (E : Endpoint 2 M K F S) (h01 : E.sender 0 1 = (0, 1))
    (h10 : E.sender 1 0 = (1, 0)) (hr : E.receiver 1 0 = (0, 1)) (hcap : 0 < E.capacity) (m : M) (kd : K)
    (k : List M → Proc M K α) (empty : S) : ∃ s : Net 2 M K F S α,
      Reachable E (fun _ => .send m (.recv kd k)) empty s ∧
      s.phase 1 = .receiving kd [] [E.encode 0 m] k ∧ s.store 1 = empty ∧ s.sent 0 = [m] ∧ s.got 1 = [] := by
  have hp0 : peers (0 : Fin 2) = [1] := by decide
  have hp1 : peers (1 : Fin 2) = [0] := by decide
  have r0 : Reachable E (fun _ => .send m (.recv kd k)) empty (Net.init (fun _ => .send m (.recv kd k)) empty) := .refl
  have r1 := r0.tail (Step.begin 0 m (.recv kd k) rfl)
  have r2 := r1.tail (Step.push 0 1 m (peers 0) (.recv kd k) rfl (by simp [hp0]) (by simp [Net.init, hcap]))
  have r3 := r2.tail (Step.begin 1 m (.recv kd k) rfl)
  have r4 := r3.tail (Step.push 1 0 m (peers 1) (.recv kd k) rfl (by simp [hp1])
    (by simp [Net.init, hcap, h01, h10]))
  have r5 := r4.tail (Step.finish 1 m (.recv kd k) rfl)
  have r6 := r5.tail (Step.listen 1 kd k rfl)
  have r7 := r6.tail (Step.pop 1 0 kd (peers 1) [] k (E.encode 0 m) [] rfl (by simp [hp1])
    (by simp [Net.init, h01, h10, hr]))
  exact ⟨_, r7, by simp [hp1], rfl, rfl, rfl⟩

/-- `2^32` bits, all zero. -/
def wideArray : BitArray where
  data := ⟨List.replicate (2^29) 0, 2^29, by rw [List.length_replicate]; decide⟩
  bitSize := 2^32
  byteSize := 2^29

/-- The handlers of two parties. -/
theorem two_handlers : ∃ handlers r, (ChannelManager.new 2).getHandlers (List.finRange 2) = some (handlers, r) ∧
    ∀ a, handlers a = (peers a).map (ChannelManager.connection a) := by
  obtain ⟨handlers, r, hr, hconn⟩ := ChannelManager.getHandlers_eq (List.nodup_finRange 2)
    fun a _ => ChannelManager.holds_new a (List.finRange 2)
  exact ⟨handlers, r, hr, fun a => hconn a (List.mem_finRange a)⟩

/-- Two parties that broadcast `m` in one round: what party 1 receives is what the wire makes of it. -/
theorem received_from_zero {m w : Msg Scalar} (hw : wire (0 : Fin 2) m = some w) :
    ∃ handlers r, (ChannelManager.new 2).getHandlers (List.finRange 2) = some (handlers, r) ∧
      ∃ s, Session.Reachable (counted handlers _)
          (startRounds handlers fun _ => roundsProgram (fun _ => m) [m.kind] []) s ∧
        s.net.sent 0 = [m] ∧ s.net.got 1 = [[w]] := by
  obtain ⟨handlers, r, hr, hconn⟩ := two_handlers
  have L := endpoint_lawful (G := Scalar) (by decide) hconn
  obtain ⟨k, hprog⟩ : ∃ k, roundsProgram (fun _ => m) [m.kind] [] = .send m (.recv m.kind k) := by
    obtain ⟨k, hk, -⟩ := receivePayloads_eq (G := Scalar) m.kind
    exact ⟨fun l => k l >>= fun received => .ret [received], by rw [roundsProgram, sendPayload_eq, hk]; rfl⟩
  obtain ⟨s, hs, hphase, hstore, hsent, hgot⟩ := first_frame (endpoint (G := Scalar) handlers)
    (L.sender 0 1 (by decide)) (L.sender 1 0 (by decide)) (L.receiver 1 0 (by decide))
    (lt_trans (by decide) L.capacity) m m.kind k .new
  obtain ⟨st, hst, hslots⟩ := L.absorb 1 0 m w (s.store 1) (by decide) hw
  have hslot : st.slots m.kind = [w] := by
    rw [hslots, update_self, hstore]
    cases m <;> rfl
  obtain ⟨st', hst', -⟩ := L.collect 1 m.kind st (by rw [hslot]; rfl)
  rw [hslot] at hst'
  have h1 := hs.tail (Step.handle 1 m.kind [] [] _ [] _ st hphase hst)
  have h2 := h1.tail (Step.deliver 1 m.kind k [w] st' (by simp) (by simpa using hst'))
  rw [← hprog] at h2
  -- one frame of each party is within the counters
  obtain ⟨t, ht, hnet⟩ := Session.Reachable.of_network (counted_wired (by decide) hconn _) (counted_zero hconn _)
    NetStat.tally_holds h2 fun i => by
      obtain ⟨left, -, hsum⟩ := Rounds.Reachable.costs h2 (i := i) (roundsProgram_costs
        (f := fun _ => (counted handlers (List (Received Scalar))).size i m) (fun _ => rfl) [m.kind] [])
      have hlt : (counted (G := Scalar) handlers (List (Received Scalar))).size i m < 2^32 := Nat.mod_lt _ (by decide)
      change left + _ = (counted handlers (List (Received Scalar))).size i m + 0 at hsum
      omega
  refine ⟨handlers, r, hr, t, ht, ?_, ?_⟩
  · rw [hnet]
    exact hsent
  · rw [hnet]
    change update s.got 1 (s.got 1 ++ [[w]]) 1 = _
    rw [update_self, hgot]
    rfl

/-- One byte and two bytes, although a frame has one size for both arrays. -/
def unevenShares : BeaverShare :=
  ⟨⟨[⟨⟨List.replicate 32 0, 1, rfl⟩, 8, 1⟩, ⟨⟨List.replicate 32 0, 2, rfl⟩, 16, 2⟩]⟩, two_le_pair _ _⟩

/-- Two parties broadcast `m` in one round, and one of them can receive something else. -/
def Garbled (m : Msg Scalar) : Prop := ∃ w handlers r,
  (ChannelManager.new 2).getHandlers (List.finRange 2) = some (handlers, r) ∧
    ∃ s, Session.Reachable (counted handlers _) (startRounds handlers fun _ => roundsProgram (fun _ => m) [m.kind] []) s ∧
      s.net.sent 0 = [m] ∧ s.net.got 1 = [[w]] ∧ ¬ m.Same w

/-- `2^32 - 8` bits, all zero. -/
def longArray : BitArray where
  data := ⟨List.replicate (2^29) 0, 2^29 - 1, by rw [List.length_replicate]; decide⟩
  bitSize := 2^32 - 8
  byteSize := 2^29 - 1

/-- Two parties broadcast `m` in each of some rounds, and one of them can panic. -/
def Overflows (m : Msg Scalar) (rounds : ℕ) : Prop := m.WF ∧ ∃ handlers r,
  (ChannelManager.new 2).getHandlers (List.finRange 2) = some (handlers, r) ∧
    ∃ s, Session.Reachable (counted handlers _)
      (startRounds handlers fun _ => roundsProgram (fun _ => m) (List.replicate rounds m.kind) []) s ∧
      ∃ k, s.net.phase k = .panicked

/-- Well-formed payloads that are together too long for a counter. -/
theorem overflows_of_le {m : Msg Scalar} (hm : m.WF) {rounds : ℕ}
    (h : 2^32 ≤ rounds*((m.frameLength (ownerId (0 : Fin 2))) % 2^32)) : Overflows m rounds := by
  obtain ⟨handlers, r, hr, hconn⟩ := two_handlers
  have L := endpoint_lawful (G := Scalar) (by decide) hconn
  have L' := L.mono fun j m w (h : wireWF j m = some w) => (wireWF_eq_some.mp h).2
  have hkind : ∀ (_ : Fin 2) (got : List (Received Scalar)) (h : got.length < (List.replicate rounds m.kind).length),
      m.kind = (List.replicate rounds m.kind).get ⟨got.length, h⟩ := fun _ _ _ => by
    rw [List.get_eq_getElem, List.getElem_replicate]
  have hstep : Lockstep Msg.kind wireWF (fun _ => True) fun _ : Fin 2 =>
      roundsProgram (fun _ => m) (List.replicate rounds m.kind) [] :=
    roundsProgram_lockstep hkind (fun _ _ _ => hm) [] _ rfl (fun _ => []) fun _ => rfl
  have hstart : ∀ i j, (statTo (channelHandlers handlers i) j).sent < 2^32 := fun i j => by
    rw [statTo_channels (hconn i)]
    exact Nat.two_pow_pos 32
  have hempty : (.new : MpcMessageHandler Scalar).slots = fun _ => [] := funext fun kd => by cases kd <;> rfl
  have hcosts := roundsProgram_costs (G := Scalar)
    (f := fun _ => (counted handlers (List (Received Scalar))).size 0 m) (fun _ => rfl) (List.replicate rounds m.kind) []
  rw [List.map_const', List.length_range', List.length_replicate, List.sum_replicate, smul_eq_mul] at hcosts
  obtain ⟨s, hs, hpanic⟩ := Session.overflows (counted_wired (by decide) hconn _) (counted_zero hconn _)
    (fun _ _ _ => NetStat.addSent_lt) hstart (fun net hnet => (hstep.network L' hempty hnet).progress)
    (by decide : (0 : Fin 2) ≠ 1) hcosts h
  exact ⟨hm, handlers, r, hr, s, hs, hpanic⟩

/-- No bound on the payloads can be dropped. -/
theorem roundsProgram_garbled : Garbled (.dabit wideArray) ∧ Garbled (.beaver unevenShares) ∧
    Overflows (.dabit longArray) 8 := by
  refine ⟨?_, ?_, ?_⟩
  · obtain ⟨handlers, r, hr, s, hs, hsent, hgot⟩ :=
      received_from_zero (wire_dabit_overflow 0 (b := wideArray) rfl)
    exact ⟨_, handlers, r, hr, s, hs, hsent, hgot, fun h => absurd h.1 (by decide)⟩
  · have hw : wire (0 : Fin 2) (.beaver unevenShares : Msg Scalar) =
        some (.beaver ⟨⟨[⟨.fromSlice [0], 8, 1⟩, ⟨.fromSlice [0], 8, 1⟩]⟩, le_rfl⟩) := rfl
    obtain ⟨handlers, r, hr, s, hs, hsent, hgot⟩ := received_from_zero hw
    refine ⟨_, handlers, r, hr, s, hs, hsent, hgot, fun h => ?_⟩
    rcases h with _ | ⟨-, _ | ⟨h, -⟩⟩
    exact absurd h.1 (by decide)
  · have hlong : Sendable longArray := ⟨⟨rfl, rfl⟩, by decide⟩
    refine overflows_of_le (show (Msg.dabit longArray : Msg Scalar).WF from hlong) ?_
    rw [frameLength_dabit]
    decide

/-- Two rounds among three parties, whose handlers are made last to first. -/
theorem roundsProgram_delivers_three :
    let next : Fin 3 → List (Received Scalar) → Msg Scalar := fun i got =>
      if got.length = 0 then .commit ⟨((i : ℕ) : Scalar)⟩ else .dabit ⟨.fromSlice [BitVec.ofNat 8 i], 8, 1⟩
    ∃ handlers m, (ChannelManager.new 3).getHandlers [2, 1, 0] = some (handlers, m) ∧
      ∀ s, Session.Reachable (counted handlers _)
        (startRounds handlers fun i => roundsProgram (next i) [.commit, .dabit] []) s →
        (∀ i, s.net.phase i ≠ .panicked) ∧ (∀ i j, (s.net.chan (i, j)).length ≤ 2) ∧
        ((∃ b : Fin 3 → List (Received Scalar), ∀ i, s.net.phase i = .ready (.ret (b i))) ∨
          ∃ s', Session.Step (counted handlers _) s s') ∧
        ∀ (i : Fin 3) (r : ℕ) (l : List (Msg Scalar)), (s.net.got i)[r]? = some l →
          ∃ (kd : Kind) (m w : Fin 3 → Msg Scalar), (∀ j, (s.net.sent j)[r]? = some (m j) ∧
            (m j).kind = kd ∧ (w j).kind = kd ∧ (m j).Same (w j)) ∧ l.Perm (others w i) := by
  intro next
  have hkind : ∀ i got (h : got.length < [Kind.commit, Kind.dabit].length),
      (next i got).kind = [Kind.commit, Kind.dabit].get ⟨got.length, h⟩ := fun i got h => by
    by_cases h0 : got.length = 0
    · simp only [next, h0, if_true]
      rfl
    · have h1 : got.length = 1 := by simp only [List.length_cons, List.length_nil] at h; omega
      simp only [next, h1]
      rfl
  have hwf : ∀ i got, got.length < [Kind.commit, Kind.dabit].length → (next i got).WF := fun i got _ => by
    by_cases h0 : got.length = 0
    · simp only [next, h0, if_true]
      trivial
    · simp only [next, h0, if_false]
      exact ⟨⟨by simp, rfl⟩, by simp⟩
  obtain ⟨handlers, m, hm, hdelivers⟩ := roundsProgram_delivers (by decide)
    (show [2, 1, 0].Perm (List.finRange 3) by decide) hkind hwf
  refine ⟨handlers, m, hm, fun s hs => hdelivers s hs fun i => ?_⟩
  -- every party broadcasts 34 bytes and then 7
  have hconn : ∀ a, handlers a = (peers a).map (ChannelManager.connection a) := by
    obtain ⟨handlers', m', hm', hconn⟩ := ChannelManager.getHandlers_eq
      (show ([2, 1, 0] : List (Fin 3)).Nodup by decide) fun a _ => ChannelManager.holds_new a (List.finRange 3)
    obtain ⟨rfl, -⟩ := Prod.mk.inj (Option.some.inj (hm.symm.trans hm'))
    exact fun a => hconn a (by fin_cases a <;> decide)
  have hsize : ∀ got, (counted (G := Scalar) handlers (List (Received Scalar))).size i (next i got) =
      if got.length = 0 then 34 else 7 := fun got => by
    by_cases h0 : got.length = 0
    · simp only [next, h0, if_true]
      exact congrArg (· % 2^32 + 0) (frameLength_commit (o := ownerId i) _)
    · simp only [next, h0, if_false]
      exact congrArg (· % 2^32 + 0) (frameLength_dabit (G := Scalar) (o := ownerId i) _)
  obtain ⟨left, -, hsum⟩ := Session.Reachable.costs (counted_wired (by decide) hconn _) (counted_zero hconn _) hs
    (roundsProgram_costs (f := fun r => if r = 0 then 34 else 7) hsize [.commit, .dabit] [])
  change left + _ = 41 at hsum
  omega

end PrivRecCert.Prc
