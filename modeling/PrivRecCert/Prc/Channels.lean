import PrivRecCert.Prc.Connection
import PrivRecCert.Rounds.NetworkSound

/-! The handlers that one `ChannelManager` gives to its parties, and what they guarantee: channel
`(a, b)` leads from `a` to `b`, and a frame from a peer ends in the storage of its kind. -/
namespace PrivRecCert.Prc
open Function CorRnd SimdArray Rounds

variable {n : ℕ}

/-- Bytes sent and received over one connection. The counters are `u32`s. -/
structure NetStat where
  sent : ℕ
  received : ℕ
  deriving DecidableEq

namespace NetStat

def zero : NetStat := ⟨0, 0⟩

def addSent (s : NetStat) (bytes : ℕ) : Option NetStat :=
  if s.sent + bytes < 2^32 then some { s with sent := s.sent + bytes } else none

def addReceived (s : NetStat) (bytes : ℕ) : Option NetStat :=
  if s.received + bytes < 2^32 then some { s with received := s.received + bytes } else none

def add (self other : NetStat) : Option NetStat :=
  if self.sent + other.sent < 2^32 ∧ self.received + other.received < 2^32 then
    some ⟨self.sent + other.sent, self.received + other.received⟩
  else none

theorem addSent_lt {s t : NetStat} {bytes : ℕ} (h : s.addSent bytes = some t) : t.sent < 2^32 := by
  unfold addSent at h
  split_ifs at h with hlt
  rwa [← Option.some.inj h]

end NetStat

/-- The two ends that a party holds towards a peer; a channel is named by the loop indices `(a, b)`
it was created with. -/
structure ChannelConnection (n : ℕ) where
  peerId : Fin n
  stat : NetStat
  sender : Fin n × Fin n
  receiver : Fin n × Fin n

structure ChannelManager (n : ℕ) where
  senderChannels : Fin n × Fin n → Option (Fin n × Fin n)
  receiverChannels : Fin n × Fin n → Option (Fin n × Fin n)

namespace ChannelManager

/-- The two ends of channel `(a, b)` are filed under `(a, b)` and under `(b, a)`. -/
def insert (m : ChannelManager n) (a b : Fin n) : ChannelManager n where
  senderChannels := update m.senderChannels (a, b) (some (a, b))
  receiverChannels := update m.receiverChannels (b, a) (some (a, b))

def new (n : ℕ) : ChannelManager n :=
  (List.finRange n).foldl (fun m a => (List.finRange n).foldl (fun m b =>
    if a ≠ b then m.insert a b else m) m) ⟨fun _ => none, fun _ => none⟩

def getSingleConnection (m : ChannelManager n) (a b : Fin n) :
    Option (ChannelConnection n × ChannelManager n) := do
  let tx ← m.senderChannels (a, b)
  let rx ← m.receiverChannels (a, b)
  some (⟨b, .zero, tx, rx⟩, ⟨update m.senderChannels (a, b) none, update m.receiverChannels (a, b) none⟩)

/-- The connections of one handler, taken out of the manager peer by peer. -/
def connect (m : ChannelManager n) (peerId : Fin n) :
    List (Fin n) → Option (List (ChannelConnection n) × ChannelManager n)
  | [] => some ([], m)
  | i :: is =>
    if i = peerId then m.connect peerId is
    else do
      let (conToI, m) ← m.getSingleConnection peerId i
      let (cons, m) ← m.connect peerId is
      some (conToI :: cons, m)

def getHandler (m : ChannelManager n) (peerId : Fin n) :
    Option (List (ChannelConnection n) × ChannelManager n) := m.connect peerId (List.finRange n)

/-- The handlers of several parties, in the order in which they are asked for. -/
def getHandlers (m : ChannelManager n) :
    List (Fin n) → Option ((Fin n → List (ChannelConnection n)) × ChannelManager n)
  | [] => some (fun _ => [], m)
  | peerId :: order => do
    let (cons, m) ← m.getHandler peerId
    let (handlers, m) ← m.getHandlers order
    some (update handlers peerId cons, m)

/-- Nothing that party `a` needs towards the peers `is` has been taken out yet. -/
def Holds (m : ChannelManager n) (a : Fin n) (is : List (Fin n)) : Prop :=
  ∀ i ∈ is, i ≠ a → m.senderChannels (a, i) = some (a, i) ∧ m.receiverChannels (a, i) = some (i, a)

/-- Both ends of channel `(a, b)` are on file. -/
def Entry (a b : Fin n) (m : ChannelManager n) : Prop :=
  m.senderChannels (a, b) = some (a, b) ∧ m.receiverChannels (b, a) = some (a, b)

theorem Entry.insert_self (m : ChannelManager n) (a b : Fin n) : Entry a b (m.insert a b) :=
  ⟨update_self .., update_self ..⟩

theorem Entry.insert {m : ChannelManager n} {a b : Fin n} (h : Entry a b m) (c d : Fin n) :
    Entry a b (m.insert c d) := by
  by_cases he : (a, b) = (c, d)
  · obtain ⟨rfl, rfl⟩ := Prod.mk.inj he
    exact insert_self m a b
  · have he' : (b, a) ≠ (d, c) := fun h => he (by rw [(Prod.mk.inj h).1, (Prod.mk.inj h).2])
    exact ⟨(update_of_ne he ..).trans h.1, (update_of_ne he' ..).trans h.2⟩

/-- A loop that keeps `P` and establishes it at `x` has `P` in the end. -/
theorem foldl_of_mem {A B : Type} {P : A → Prop} {f : A → B → A} (hkeep : ∀ m x, P m → P (f m x))
    {l : List B} {x : B} (hx : x ∈ l) (hset : ∀ m, P (f m x)) (m : A) : P (l.foldl f m) := by
  have hfold : ∀ (l : List B) m, P m → P (l.foldl f m) := by
    intro l
    induction l with
    | nil => exact fun _ hm => hm
    | cons y l ih => exact fun m hm => ih _ (hkeep m y hm)
  induction l generalizing m with
  | nil => cases hx
  | cons y l ih =>
    rcases List.mem_cons.mp hx with rfl | hx
    · exact hfold l _ (hset m)
    · exact ih hx _

theorem entry_new {a b : Fin n} (hab : a ≠ b) : Entry a b (new n) := by
  have hkeep : ∀ c m d, Entry a b m → Entry a b (if c ≠ d then ChannelManager.insert m c d else m) := by
    intro c m d hm
    split_ifs
    · exact hm.insert c d
    · exact hm
  refine foldl_of_mem (fun m c hm => ?_) (List.mem_finRange a) (fun m => ?_) _
  · exact List.foldlRecOn _ _ hm fun m' hm' d _ => hkeep c m' d hm'
  · exact foldl_of_mem (hkeep a) (List.mem_finRange b) (fun m => by rw [if_pos hab]; exact Entry.insert_self m a b) m

theorem holds_new (a : Fin n) (is : List (Fin n)) : (new n).Holds a is :=
  fun _ _ hia => ⟨(entry_new hia.symm).1, (entry_new hia).2⟩

/-- The connection of `a` to `i`. -/
def connection (a i : Fin n) : ChannelConnection n := ⟨i, .zero, (a, i), (i, a)⟩

theorem connect_eq {m : ChannelManager n} {a : Fin n} {is : List (Fin n)} (hnd : is.Nodup)
    (h : m.Holds a is) : ∃ m', m.connect a is = some ((is.filter (· ≠ a)).map (connection a), m') ∧
      ∀ b ≠ a, ∀ js, m.Holds b js → m'.Holds b js := by
  induction is generalizing m with
  | nil => exact ⟨m, rfl, fun _ _ _ h => h⟩
  | cons i is ih =>
    obtain ⟨hi, hnd⟩ := List.nodup_cons.mp hnd
    by_cases hia : i = a
    · obtain ⟨m', hm', hrest⟩ := ih hnd fun j hj => h j (by simp [hj])
      exact ⟨m', by simp [connect, hia, hm'], hrest⟩
    · obtain ⟨htx, hrx⟩ := h i (by simp) hia
      have hnext : Holds ⟨update m.senderChannels (a, i) none, update m.receiverChannels (a, i) none⟩ a is := by
        intro j hj hja
        have hji : (a, j) ≠ (a, i) := fun he => hi ((Prod.mk.inj he).2 ▸ hj)
        simpa only [update_of_ne hji] using h j (by simp [hj]) hja
      obtain ⟨m', hm', hrest⟩ := ih hnd hnext
      refine ⟨m', ?_, fun b hb js hjs => hrest b hb js fun j hj hjb => ?_⟩
      · simp [connect, hia, getSingleConnection, htx, hrx, hm', connection]
      · have hne : (b, j) ≠ (a, i) := fun he => hb (Prod.mk.inj he).1
        simpa only [update_of_ne hne] using hjs j hj hjb

/-- Whatever the order in which the handlers are asked for, party `a` sends to `i` on channel
`(a, i)` and receives from `i` on channel `(i, a)`. -/
theorem getHandlers_eq {m : ChannelManager n} {order : List (Fin n)} (hnd : order.Nodup)
    (h : ∀ a ∈ order, m.Holds a (List.finRange n)) : ∃ handlers m', m.getHandlers order = some (handlers, m') ∧
      ∀ a ∈ order, handlers a = (peers a).map (connection a) := by
  induction order generalizing m with
  | nil => exact ⟨_, m, rfl, fun a ha => nomatch ha⟩
  | cons a order ih =>
    obtain ⟨ha, hnd⟩ := List.nodup_cons.mp hnd
    obtain ⟨m₁, hm₁, hrest⟩ := connect_eq (List.nodup_finRange n) (h a (by simp))
    obtain ⟨handlers, m', hm', hall⟩ := ih hnd fun b hb =>
      hrest b (fun he => ha (he ▸ hb)) _ (h b (by simp [hb]))
    change m.connect a _ = some ((peers a).map (connection a), m₁) at hm₁
    refine ⟨update handlers a ((peers a).map (connection a)), m',
      by simp [getHandlers, getHandler, hm₁, hm'], fun b hb => ?_⟩
    by_cases hba : b = a
    · subst hba
      rw [update_self]
    · rw [update_of_ne hba]
      exact hall b ((List.mem_cons.mp hb).resolve_left hba)

end ChannelManager

variable {G : Type}

/-- What a handler has in store, by kind. -/
def MpcMessageHandler.slots (h : MpcMessageHandler G) : Kind → List (Msg G)
  | .beaver => h.activeBeaverStorage.map .beaver
  | .dabit => h.activeDabitStorage.map .dabit
  | .commit => h.commitStorage.map .commit

def Cmd.senderId : Cmd G → U8
  | handshake peerId => peerId
  | beaverExchange senderId _ _ _ => senderId
  | dabitExchange senderId _ _ => senderId
  | aggCommit senderId _ => senderId

/-- A frame of somebody else goes to the end of the storage of its kind. -/
theorem MpcMessageHandler.handleCmd_eq {h : MpcMessageHandler G} {id : U8} {cmd : Cmd G} {w : Msg G}
    (hid : cmd.senderId ≠ id) (hw : cmd.payload = some w) : ∃ h', h.handleCmd id cmd = some h' ∧
      h'.slots = update h.slots w.kind (h.slots w.kind ++ [w]) := by
  cases cmd with
  | handshake peerId => cases hw
  | beaverExchange senderId size dataA dataB =>
    simp only [Cmd.payload, Option.bind_eq_bind, Option.bind_eq_some_iff] at hw
    obtain ⟨a, ha, b, hb, hw⟩ := hw
    obtain rfl := Option.some.inj hw
    replace hid : senderId ≠ id := hid
    refine ⟨{ h with activeBeaverStorage := h.activeBeaverStorage ++ [⟨⟨[a, b]⟩, le_rfl⟩] },
      by simp [handleCmd, hid, ha, hb], funext fun kd => ?_⟩
    cases kd <;> simp [slots, Msg.kind]
  | dabitExchange senderId size data =>
    simp only [Cmd.payload, Option.bind_eq_bind, Option.bind_eq_some_iff] at hw
    obtain ⟨a, ha, hw⟩ := hw
    obtain rfl := Option.some.inj hw
    replace hid : senderId ≠ id := hid
    refine ⟨{ h with activeDabitStorage := h.activeDabitStorage ++ [a] },
      by simp [handleCmd, hid, ha], funext fun kd => ?_⟩
    cases kd <;> simp [slots, Msg.kind]
  | aggCommit senderId c =>
    obtain rfl := Option.some.inj hw
    refine ⟨_, if_pos hid, funext fun kd => ?_⟩
    cases kd <;> simp [slots, Msg.kind]

theorem MpcMessageHandler.receive_eq {h : MpcMessageHandler G} {peerNum : ℕ} {kd : Kind}
    (hlen : (h.slots kd).length = peerNum) : ∃ h', h.receive peerNum kd = some (h.slots kd, h') ∧
      h'.slots = update h.slots kd [] := by
  cases kd with
  | beaver =>
    rw [slots, List.length_map] at hlen
    exact ⟨_, if_pos hlen, funext fun kd => by cases kd <;> simp [slots]⟩
  | dabit =>
    rw [slots, List.length_map] at hlen
    exact ⟨_, if_pos hlen, funext fun kd => by cases kd <;> simp [slots]⟩
  | commit =>
    rw [slots, List.length_map] at hlen
    exact ⟨_, if_pos hlen, funext fun kd => by cases kd <;> simp [slots]⟩

theorem ownerId_injective (hn : n ≤ 256) {i j : Fin n} (h : ownerId i = ownerId j) : i = j := by
  have hi := i.isLt
  have hj := j.isLt
  have hval := congrArg BitVec.toNat h
  rw [ownerId, ownerId, BitVec.toNat_ofNat, BitVec.toNat_ofNat, Nat.mod_eq_of_lt (by omega),
    Nat.mod_eq_of_lt (by omega)] at hval
  exact Fin.ext hval

section Endpoint
variable [AddCommGroup G] [Module Scalar G] [Ristretto G]

/-- The message handling of parties that hold the connections `handlers`. -/
def endpoint (handlers : Fin n → List (ChannelConnection n)) :
    Endpoint n (Msg G) Kind (List U8) (MpcMessageHandler G) where
  sender i j := (((handlers i).find? (·.peerId = j)).map ChannelConnection.sender).getD (i, i)
  receiver i j := (((handlers i).find? (·.peerId = j)).map ChannelConnection.receiver).getD (i, i)
  encode i m := (m.toCmd (ownerId i)).serialize
  absorb i h frame := do h.handleCmd (ownerId i) (← Cmd.deserialize frame)
  collect i kd h := h.receive (handlers i).length kd
  capacity := 100

/-- A frame names its sender, and its payload is of the kind that was sent. -/
theorem Cmd.deserialize_toCmd {m : Msg G} {id : U8} {cmd : Cmd G}
    (h : Cmd.deserialize (m.toCmd id).serialize = some cmd) :
    cmd.senderId = id ∧ ∀ w, cmd.payload = some w → w.kind = m.kind := by
  cases m with
  | beaver d =>
    simp only [Msg.toCmd, serialize, deserialize, List.cons_append, List.nil_append,
      List.getElem?_cons_zero, List.getElem?_cons_succ, Option.bind_eq_bind, Option.bind_some, if_true,
      Option.bind_eq_some_iff] at h
    obtain ⟨_, -, dataA, -, dataB, -, he⟩ := h
    obtain rfl := Option.some.inj he
    refine ⟨rfl, fun w hw => ?_⟩
    simp only [payload, Option.bind_eq_bind, Option.bind_eq_some_iff] at hw
    obtain ⟨a, -, b, -, hw⟩ := hw
    exact Option.some.inj hw ▸ rfl
  | dabit b =>
    have hne : (2 : U8) ≠ 0 ∧ (2 : U8) ≠ 1 := by decide
    simp only [Msg.toCmd, serialize, deserialize, List.cons_append, List.nil_append,
      List.getElem?_cons_zero, List.getElem?_cons_succ, Option.bind_eq_bind, Option.bind_some, if_true,
      hne.1, hne.2, if_false, Option.bind_eq_some_iff] at h
    obtain ⟨_, -, data, -, he⟩ := h
    obtain rfl := Option.some.inj he
    refine ⟨rfl, fun w hw => ?_⟩
    simp only [payload, Option.bind_eq_bind, Option.bind_eq_some_iff] at hw
    obtain ⟨a, -, hw⟩ := hw
    exact Option.some.inj hw ▸ rfl
  | commit c =>
    have hne : (3 : U8) ≠ 0 ∧ (3 : U8) ≠ 1 ∧ (3 : U8) ≠ 2 := by decide
    simp only [Msg.toCmd, serialize, deserialize, List.cons_append, List.nil_append,
      List.getElem?_cons_zero, List.getElem?_cons_succ, Option.bind_eq_bind, Option.bind_some, if_true,
      hne.1, hne.2.1, hne.2.2, if_false, Option.bind_eq_some_iff] at h
    obtain ⟨_, -, c', -, he⟩ := h
    obtain rfl := Option.some.inj he
    exact ⟨rfl, fun w hw => Option.some.inj hw ▸ rfl⟩

theorem endpoint_lawful (hn : n ≤ 256) {handlers : Fin n → List (ChannelConnection n)}
    (hh : ∀ a, handlers a = (peers a).map (ChannelManager.connection a)) :
    Lawful (endpoint (G := G) handlers) Msg.kind wire MpcMessageHandler.slots := by
  have hfind : ∀ i j : Fin n, i ≠ j → (handlers i).find? (·.peerId = j) = some (ChannelManager.connection i j) := by
    intro i j hij
    have hmem : ChannelManager.connection i j ∈ handlers i := by
      rw [hh i]
      exact List.mem_map_of_mem (mem_peers.mpr hij.symm)
    cases hf : (handlers i).find? (·.peerId = j) with
    | none => exact absurd (decide_eq_true rfl) (List.find?_eq_none.mp hf _ hmem)
    | some c =>
      have hj : c.peerId = j := by simpa using List.find?_some hf
      have hc := List.mem_of_find?_eq_some hf
      rw [hh i] at hc
      obtain ⟨j', -, rfl⟩ := List.mem_map.mp hc
      rw [← hj]
      rfl
  refine ⟨fun i j hij => ?_, fun i j hij => ?_, fun i j m w st hij hw => ?_, fun i kd st hlen => ?_,
    (by decide : 2 < 100)⟩
  · simp only [endpoint, hfind i j hij]
    rfl
  · simp only [endpoint, hfind i j hij]
    rfl
  · obtain ⟨cmd, hcmd, hpay⟩ := Option.bind_eq_some_iff.mp hw
    obtain ⟨hid, hkind⟩ := Cmd.deserialize_toCmd hcmd
    have hne : cmd.senderId ≠ ownerId i := fun he => hij (ownerId_injective hn (hid ▸ he)).symm
    obtain ⟨st', hst, hslots⟩ := MpcMessageHandler.handleCmd_eq (h := st) hne hpay
    rw [hkind w hpay] at hslots
    exact ⟨st', by simp [endpoint, hcmd, hst], hslots⟩
  · apply MpcMessageHandler.receive_eq
    rw [hlen, hh i, List.length_map, peers_length]

end Endpoint
end PrivRecCert.Prc
