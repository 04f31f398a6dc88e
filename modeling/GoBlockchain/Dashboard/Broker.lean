import GoBlockchain.Core.UtxoSet
import Mathlib.Data.Finset.Basic

/-!
# The event broker of the dashboard

`sse.go`. The broker keeps the connected clients in a map from ids and hands every broadcast to the
channels of the clients in the map; `ServeHTTP` registers a client when it connects and unregisters
it when the connection ends, whatever ends it. The id of a client is taken from the query of the
request, so two connections may have one id, while the channel belongs to the connection.

In every run the broker sends on no closed channel and closes none twice, so it does not panic
(`Sound.exists_run`). That connected clients are in the map, and that clients that have gone have
their channel closed, is kept by every event but one: a client that connects with the id of a
connected client takes its place in the map (`alwaysServed_iff`).
-/

namespace GoBlockchain.Dashboard

/-! ### Channels and clients -/

/-- A client: a connection, and the id under which it is kept. -/
structure Client where
  connection : ℕ
  id : Bytes
deriving DecidableEq, Repr

/-- The id of a request: of its query, or its address as `%p` writes it. -/
def clientID (address query : Bytes) : Bytes :=
  ascii "client_" ++ if query = [] then address else query

/-- The buffer of a channel of events. -/
def capacity : ℕ := 50

/-- A channel: what is waiting in it, and how often it was closed. -/
structure Channel where
  buffer : List Bytes
  closes : ℕ
deriving DecidableEq, Repr

namespace Channel

/-- A message is taken if there is room, and dropped otherwise. -/
def deliver (msg : Bytes) (ch : Channel) : Channel :=
  if ch.buffer.length < capacity then { ch with buffer := ch.buffer ++ [msg] } else ch

/-- `select` with a send and a default. -/
def offer (msg : Bytes) (ch : Channel) : Go Channel :=
  if 0 < ch.closes then .error (.panic "send on closed channel") else .ok (ch.deliver msg)

/-- The first message is taken out. -/
def receive (ch : Channel) : Channel := { ch with buffer := ch.buffer.tail }

def close (ch : Channel) : Go Channel :=
  if 0 < ch.closes then .error (.panic "close of closed channel")
  else .ok { ch with closes := ch.closes + 1 }

@[simp] theorem closes_deliver (msg : Bytes) (ch : Channel) :
    (ch.deliver msg).closes = ch.closes := by
  rw [deliver]
  split
  · rfl
  · rfl

theorem offer_of_open {ch : Channel} (h : ch.closes = 0) (msg : Bytes) :
    ch.offer msg = .ok (ch.deliver msg) := by
  simp [offer, h]

theorem close_of_open {ch : Channel} (h : ch.closes = 0) :
    ch.close = .ok { ch with closes := 1 } := by
  simp [close, h]

end Channel

/-! ### The broker -/

/-- The broker: the clients it knows under their ids, and the channel of every client. -/
structure Broker where
  clients : ByteMap Client
  channels : Client → Channel

namespace Broker

/-- `NewSSEBroker`. -/
def newSSEBroker : Broker := ⟨∅, fun _ ↦ ⟨[], 0⟩⟩

/-- A client is registered. -/
def register (client : Client) (b : Broker) : Broker :=
  { b with clients := b.clients.insert client.id client }

/-- A client is unregistered, which looks at ids only. -/
def unregister (client : Client) (b : Broker) : Go Broker :=
  if client.id ∈ b.clients then
    match (b.channels client).close with
    | .error e => .error e
    | .ok ch => .ok ⟨b.clients.erase client.id, Function.update b.channels client ch⟩
  else .ok b

/-- The loop over the clients of a broadcast. -/
def offerAll (msg : Bytes) : List (Bytes × Client) → Broker → Go Broker
  | [], b => .ok b
  | (_, client) :: rest, b =>
    match (b.channels client).offer msg with
    | .error e => .error e
    | .ok ch => offerAll msg rest { b with channels := Function.update b.channels client ch }

/-- A message is broadcast to the clients in the map, in the order in which Go iterates it. -/
def broadcast (order : MapOrder (Bytes × Client)) (msg : Bytes) (b : Broker) : Go Broker :=
  b.offerAll msg (order.order b.clients.toList)

/-- The handler of a client takes the next message from its channel. -/
def receive (client : Client) (b : Broker) : Broker :=
  { b with channels := Function.update b.channels client (b.channels client).receive }

/-- **The loop delivers to every client once**, if their channels are open. -/
theorem offerAll_eq_ok {msg : Bytes} {entries : List (Bytes × Client)} {b : Broker}
    (hopen : ∀ e ∈ entries, (b.channels e.2).closes = 0)
    (hnodup : (entries.map Prod.snd).Nodup) :
    ∃ b', b.offerAll msg entries = .ok b' ∧ b'.clients = b.clients ∧
      ∀ c, b'.channels c =
        if c ∈ entries.map Prod.snd then (b.channels c).deliver msg else b.channels c := by
  induction entries generalizing b with
  | nil => exact ⟨b, rfl, rfl, fun c ↦ by simp⟩
  | cons e rest ih =>
    obtain ⟨k, client⟩ := e
    obtain ⟨hfirst, hrest⟩ := List.forall_mem_cons.1 hopen
    obtain ⟨hnew, hnodup⟩ := List.nodup_cons.1 hnodup
    have hnew : client ∉ rest.map Prod.snd := hnew
    set b₁ : Broker :=
      { b with channels := Function.update b.channels client ((b.channels client).deliver msg) }
    have hopen₁ : ∀ e ∈ rest, (b₁.channels e.2).closes = 0 := by
      intro e he
      have hmem : e.2 ∈ rest.map Prod.snd := List.mem_map_of_mem he
      have hne : e.2 ≠ client := fun heq ↦ hnew (heq ▸ hmem)
      rw [show b₁.channels e.2 = b.channels e.2 from Function.update_of_ne hne ..]
      exact hrest e he
    obtain ⟨b', heq, hclients, hchannels⟩ := ih hopen₁ hnodup
    refine ⟨b', ?_, hclients, fun c ↦ ?_⟩
    · rw [offerAll, Channel.offer_of_open hfirst]
      exact heq
    · rw [hchannels c, List.map_cons]
      by_cases hc : c = client
      · subst hc
        rw [if_neg hnew, if_pos List.mem_cons_self]
        exact Function.update_self ..
      · have hold : b₁.channels c = b.channels c := Function.update_of_ne hc ..
        simp only [hold, List.mem_cons, hc, false_or]

end Broker

/-! ### Connections -/

/-- What happens at the broker. -/
inductive Event
  | connect (client : Client)
  | disconnect (client : Client)
  | broadcast (order : MapOrder (Bytes × Client)) (msg : Bytes)
  | receive (client : Client)

/-- The clients that have registered and not yet unregistered, and those that have unregistered. -/
structure Presence where
  connected : Finset Client
  gone : Finset Client

namespace Presence

def next (p : Presence) : Event → Presence
  | .connect client => ⟨insert client p.connected, p.gone⟩
  | .disconnect client => ⟨p.connected.erase client, insert client p.gone⟩
  | .broadcast _ _ => p
  | .receive _ => p

/-- What `ServeHTTP` can do: a connection registers once, and unregisters once after that. -/
def Enabled (p : Presence) : Event → Prop
  | .connect client => client ∉ p.connected ∧ client ∉ p.gone
  | .disconnect client => client ∈ p.connected
  | .broadcast _ _ => True
  | .receive client => client ∈ p.connected

/-- No client connects with the id of a connected client. -/
def Exclusive (p : Presence) : Event → Prop
  | .connect client => ∀ c ∈ p.connected, c.id ≠ client.id
  | _ => True

/-- A property of each event of a run. -/
def Along (P : Presence → Event → Prop) : Presence → List Event → Prop
  | _, [] => True
  | p, e :: events => P p e ∧ Along P (p.next e) events

instance (p : Presence) : DecidablePred p.Enabled
  | .connect client => inferInstanceAs (Decidable (client ∉ p.connected ∧ client ∉ p.gone))
  | .disconnect client => inferInstanceAs (Decidable (client ∈ p.connected))
  | .broadcast _ _ => inferInstanceAs (Decidable True)
  | .receive client => inferInstanceAs (Decidable (client ∈ p.connected))

instance (p : Presence) : DecidablePred p.Exclusive
  | .connect client => inferInstanceAs (Decidable (∀ c ∈ p.connected, c.id ≠ client.id))
  | .disconnect _ => inferInstanceAs (Decidable True)
  | .broadcast _ _ => inferInstanceAs (Decidable True)
  | .receive _ => inferInstanceAs (Decidable True)

instance decidableAlong {P : Presence → Event → Prop} [∀ p, DecidablePred (P p)] (p : Presence) :
    DecidablePred (Along P p)
  | [] => inferInstanceAs (Decidable True)
  | e :: events =>
    have : Decidable (Along P (p.next e) events) := decidableAlong (p.next e) events
    inferInstanceAs (Decidable (P p e ∧ Along P (p.next e) events))

end Presence

/-- The broker and the connections. -/
structure System where
  broker : Broker
  presence : Presence

namespace System

/-- Before any connection. -/
def start : System := ⟨Broker.newSSEBroker, ⟨∅, ∅⟩⟩

/-- What the broker makes of an event. -/
def listen (s : System) : Event → Go Broker
  | .connect client => .ok (s.broker.register client)
  | .disconnect client => s.broker.unregister client
  | .broadcast order msg => s.broker.broadcast order msg
  | .receive client => .ok (s.broker.receive client)

def step (s : System) (e : Event) : Go System :=
  match s.listen e with
  | .error fault => .error fault
  | .ok broker => .ok ⟨broker, s.presence.next e⟩

/-- What holds in every run: the map has connected clients only, each under its id, and a channel is
closed at most once, after its client has gone. -/
structure Sound (s : System) : Prop where
  keyed : ∀ {id c}, s.broker.clients[id]? = some c → c.id = id ∧ c ∈ s.presence.connected
  disjoint : ∀ {c}, c ∈ s.presence.connected → c ∉ s.presence.gone
  closes_eq_zero : ∀ {c}, c ∉ s.presence.gone → (s.broker.channels c).closes = 0
  closes_le_one : ∀ c, (s.broker.channels c).closes ≤ 1

/-- Connected clients are in the map, and the channels of clients that have gone were closed
exactly once. -/
structure Good (s : System) : Prop where
  inMap : ∀ c ∈ s.presence.connected, s.broker.clients[c.id]? = some c
  closedOnce : ∀ c ∈ s.presence.gone, (s.broker.channels c).closes = 1

/-- A broadcast is offered to every connected client. -/
def Offers (s : System) (e : Event) (s' : System) : Prop :=
  ∀ order msg, e = .broadcast order msg → ∀ c ∈ s.presence.connected,
    s'.broker.channels c = (s.broker.channels c).deliver msg

/-- After each event of a run everything is as it should be. -/
def AlwaysServed : System → List Event → Prop
  | _, [] => True
  | s, e :: events => ∃ s', s.step e = .ok s' ∧ s'.Good ∧ s.Offers e s' ∧ AlwaysServed s' events

variable {s s' : System}

theorem sound_start : start.Sound where
  keyed h := by simp [start, Broker.newSSEBroker] at h
  disjoint h := by simp [start] at h
  closes_eq_zero _ := rfl
  closes_le_one _ := Nat.zero_le 1

theorem good_start : start.Good where
  inMap c h := by simp [start] at h
  closedOnce c h := by simp [start] at h

theorem Sound.closes_of_connected (h : s.Sound) {c : Client} (hc : c ∈ s.presence.connected) :
    (s.broker.channels c).closes = 0 :=
  h.closes_eq_zero (h.disjoint hc)

/-! ### One event -/

/-- The clients of the map, in any order, are different. -/
theorem Sound.nodup_order (h : s.Sound) (order : MapOrder (Bytes × Client)) :
    ((order.order s.broker.clients.toList).map Prod.snd).Nodup := by
  have hperm := (order.perm s.broker.clients.toList).map Prod.snd
  rw [hperm.nodup_iff]
  -- the ids of the clients are the keys
  have hkeys : (s.broker.clients.toList.map Prod.snd).map Client.id =
      s.broker.clients.toList.map Prod.fst := by
    rw [List.map_map]
    apply List.map_congr_left
    intro e he
    exact (h.keyed (Std.ExtTreeMap.mem_toList_iff_getElem?_eq_some.1 he)).1
  apply List.Nodup.of_map Client.id
  rw [hkeys, Std.ExtTreeMap.map_fst_toList_eq_keys]
  exact Std.ExtTreeMap.nodup_keys

theorem mem_order_iff {order : MapOrder (Bytes × Client)} {e : Bytes × Client} :
    e ∈ order.order s.broker.clients.toList ↔ s.broker.clients[e.1]? = some e.2 :=
  (order.perm _).mem_iff.trans Std.ExtTreeMap.mem_toList_iff_getElem?_eq_some

/-- **A broadcast is delivered to the clients in the map.** -/
theorem Sound.broadcast_eq_ok (h : s.Sound) (order : MapOrder (Bytes × Client)) (msg : Bytes) :
    ∃ b, s.broker.broadcast order msg = .ok b ∧ b.clients = s.broker.clients ∧
      ∀ c, b.channels c = if s.broker.clients[c.id]? = some c then (s.broker.channels c).deliver msg
        else s.broker.channels c := by
  have hopen : ∀ e ∈ order.order s.broker.clients.toList, (s.broker.channels e.2).closes = 0 :=
    fun e he ↦ h.closes_of_connected (h.keyed (mem_order_iff.1 he)).2
  obtain ⟨b, heq, hclients, hchannels⟩ :=
    @Broker.offerAll_eq_ok msg _ s.broker hopen (h.nodup_order order)
  refine ⟨b, heq, hclients, fun c ↦ ?_⟩
  have hmem : c ∈ (order.order s.broker.clients.toList).map Prod.snd ↔
      s.broker.clients[c.id]? = some c := by
    rw [List.mem_map]
    constructor
    · rintro ⟨e, he, rfl⟩
      have hget := mem_order_iff.1 he
      rw [(h.keyed hget).1]
      exact hget
    · intro hget
      exact ⟨(c.id, c), mem_order_iff.2 hget, rfl⟩
  rw [hchannels c]
  simp only [hmem]

/-- What an event does to the map and to the closing of channels. -/
structure Handled (s : System) (e : Event) (b : Broker) : Prop where
  clients_eq : ∀ id, b.clients[id]? =
    match e with
    | .connect client => if client.id = id then some client else s.broker.clients[id]?
    | .disconnect client => if client.id = id then none else s.broker.clients[id]?
    | _ => s.broker.clients[id]?
  closes_eq : ∀ c, (b.channels c).closes =
    match e with
    | .disconnect client =>
      if c = client ∧ client.id ∈ s.broker.clients then 1 else (s.broker.channels c).closes
    | _ => (s.broker.channels c).closes

/-- **The broker handles every event**: no channel it sends on or closes is closed. -/
theorem Sound.exists_handled (h : s.Sound) {e : Event} (he : s.presence.Enabled e) :
    ∃ b, s.listen e = .ok b ∧ s.Handled e b := by
  cases e with
  | connect client =>
    refine ⟨_, rfl, fun id ↦ ?_, fun c ↦ rfl⟩
    rw [Broker.register, Std.ExtTreeMap.getElem?_insert]
    simp only [Std.LawfulEqCmp.compare_eq_iff_eq]
  | disconnect client =>
    show ∃ b, s.broker.unregister client = .ok b ∧ s.Handled _ b
    rw [Broker.unregister]
    by_cases hmem : client.id ∈ s.broker.clients
    · rw [if_pos hmem, Channel.close_of_open (h.closes_of_connected he)]
      refine ⟨_, rfl, fun id ↦ ?_, fun c ↦ ?_⟩
      · rw [Std.ExtTreeMap.getElem?_erase]
        simp only [Std.LawfulEqCmp.compare_eq_iff_eq]
      · by_cases hc : c = client
        · simp [hc, hmem]
        · simp [hc]
    · rw [if_neg hmem]
      refine ⟨_, rfl, fun id ↦ ?_, fun c ↦ by simp [hmem]⟩
      by_cases hid : client.id = id
      · subst hid
        simp [hmem]
      · simp [hid]
  | broadcast order msg =>
    obtain ⟨b, heq, hclients, hchannels⟩ := h.broadcast_eq_ok order msg
    refine ⟨b, heq, fun id ↦ by rw [hclients], fun c ↦ ?_⟩
    rw [hchannels c]
    split
    · exact Channel.closes_deliver msg _
    · rfl
  | receive client =>
    refine ⟨_, rfl, fun id ↦ rfl, fun c ↦ ?_⟩
    by_cases hc : c = client
    · simp [Broker.receive, Channel.receive, hc]
    · simp [Broker.receive, hc]

theorem Sound.of_frame (h : s.Sound) {b : Broker}
    (hclients : ∀ id : Bytes, b.clients[id]? = s.broker.clients[id]?)
    (hcloses : ∀ c, (b.channels c).closes = (s.broker.channels c).closes) :
    Sound ⟨b, s.presence⟩ where
  keyed hc := h.keyed ((hclients _).symm.trans hc)
  disjoint := h.disjoint
  closes_eq_zero hc := (hcloses _).trans (h.closes_eq_zero hc)
  closes_le_one c := (hcloses c).trans_le (h.closes_le_one c)

theorem Good.of_frame (h : s.Good) {b : Broker}
    (hclients : ∀ id : Bytes, b.clients[id]? = s.broker.clients[id]?)
    (hcloses : ∀ c, (b.channels c).closes = (s.broker.channels c).closes) :
    Good ⟨b, s.presence⟩ where
  inMap c hc := (hclients _).trans (h.inMap c hc)
  closedOnce c hc := (hcloses c).trans (h.closedOnce c hc)

/-- **An event keeps the broker sound.** -/
theorem Sound.next (h : s.Sound) {e : Event} (he : s.presence.Enabled e) {b : Broker}
    (hb : s.Handled e b) : Sound ⟨b, s.presence.next e⟩ := by
  cases e with
  | connect client =>
    refine ⟨fun {id c} hc ↦ ?_, fun {c} hc ↦ ?_, fun {c} hc ↦ ?_, fun c ↦ ?_⟩
    · rw [hb.clients_eq] at hc
      simp only at hc
      split at hc
      · next hid =>
        obtain rfl := Option.some.inj hc
        exact ⟨hid, Finset.mem_insert_self ..⟩
      · exact ⟨(h.keyed hc).1, Finset.mem_insert_of_mem (h.keyed hc).2⟩
    · rcases Finset.mem_insert.1 hc with rfl | hold
      · exact he.2
      · exact h.disjoint hold
    · rw [hb.closes_eq]
      exact h.closes_eq_zero hc
    · rw [hb.closes_eq]
      exact h.closes_le_one c
  | disconnect client =>
    refine ⟨fun {id c} hc ↦ ?_, fun {c} hc ↦ ?_, fun {c} hc ↦ ?_, fun c ↦ ?_⟩
    · rw [hb.clients_eq] at hc
      simp only at hc
      split at hc
      · cases hc
      · next hid =>
        obtain ⟨hkey, hconnected⟩ := h.keyed hc
        have hne : c ≠ client := fun heq ↦ hid (heq ▸ hkey)
        exact ⟨hkey, Finset.mem_erase.2 ⟨hne, hconnected⟩⟩
    · obtain ⟨hne, hold⟩ := Finset.mem_erase.1 hc
      show c ∉ insert client s.presence.gone
      simp [hne, h.disjoint hold]
    · obtain ⟨hne, hold⟩ := not_or.1 (mt Finset.mem_insert.2 hc)
      rw [hb.closes_eq]
      simp only [hne, false_and, if_false]
      exact h.closes_eq_zero hold
    · rw [hb.closes_eq]
      simp only
      split
      · exact Nat.le_refl 1
      · exact h.closes_le_one c
  | broadcast order msg => exact h.of_frame hb.clients_eq hb.closes_eq
  | receive client => exact h.of_frame hb.clients_eq hb.closes_eq

/-- **An event of clients with different ids keeps everything as it should be.** -/
theorem Good.next (h : s.Good) (hs : s.Sound) {e : Event} (he : s.presence.Enabled e)
    (hx : s.presence.Exclusive e) {b : Broker} (hb : s.Handled e b) :
    Good ⟨b, s.presence.next e⟩ := by
  cases e with
  | connect client =>
    refine ⟨fun c hc ↦ ?_, fun c hc ↦ ?_⟩
    · show b.clients[c.id]? = some c
      rw [hb.clients_eq]
      rcases Finset.mem_insert.1 hc with rfl | hold
      · exact if_pos rfl
      · exact (if_neg (hx c hold).symm).trans (h.inMap c hold)
    · show (b.channels c).closes = 1
      rw [hb.closes_eq]
      exact h.closedOnce c hc
  | disconnect client =>
    have hclient : s.broker.clients[client.id]? = some client := h.inMap client he
    refine ⟨fun c hc ↦ ?_, fun c hc ↦ ?_⟩
    · obtain ⟨hne, hold⟩ := Finset.mem_erase.1 hc
      have hid : client.id ≠ c.id := by
        intro heq
        rw [heq, h.inMap c hold] at hclient
        exact hne (Option.some.inj hclient)
      show b.clients[c.id]? = some c
      rw [hb.clients_eq]
      exact (if_neg hid).trans (h.inMap c hold)
    · show (b.channels c).closes = 1
      rw [hb.closes_eq]
      rcases Finset.mem_insert.1 hc with rfl | hold
      · exact if_pos ⟨rfl, Std.ExtTreeMap.mem_iff_isSome_getElem?.2 (by rw [hclient]; rfl)⟩
      · have hne : c ≠ client := fun heq ↦ hs.disjoint he (heq ▸ hold)
        exact (if_neg fun hboth ↦ hne hboth.1).trans (h.closedOnce c hold)
  | broadcast order msg => exact h.of_frame hb.clients_eq hb.closes_eq
  | receive client => exact h.of_frame hb.clients_eq hb.closes_eq

/-- **A client that takes the id of a connected client takes its place in the map.** -/
theorem not_good_of_not_exclusive {e : Event} (he : s.presence.Enabled e)
    (hx : ¬ s.presence.Exclusive e) {b : Broker} (hb : s.Handled e b) :
    ¬ Good ⟨b, s.presence.next e⟩ := by
  cases e with
  | connect client =>
    intro hgood
    apply hx
    intro c hc hid
    have hmap : b.clients[c.id]? = some c := hgood.inMap c (Finset.mem_insert_of_mem hc)
    have hnew : b.clients[c.id]? = some client := (hb.clients_eq c.id).trans (if_pos hid.symm)
    obtain rfl : c = client := Option.some.inj (hmap.symm.trans hnew)
    exact he.1 hc
  | disconnect client => exact absurd trivial hx
  | broadcast order msg => exact absurd trivial hx
  | receive client => exact absurd trivial hx

theorem Good.offers (h : s.Good) (hs : s.Sound) {e : Event} {b : Broker}
    (hb : s.listen e = .ok b) : s.Offers e ⟨b, s.presence.next e⟩ := by
  intro order msg he c hc
  subst he
  obtain ⟨b', heq, -, hchannels⟩ := hs.broadcast_eq_ok order msg
  obtain rfl : b = b' := Except.ok.inj (hb.symm.trans heq)
  exact (hchannels c).trans (if_pos (h.inMap c hc))

/-! ### Runs -/

/-- **Every run is handled without a panic**, with clients of any ids. -/
theorem Sound.exists_run {events : List Event} {s : System} (h : s.Sound)
    (hrun : s.presence.Along Presence.Enabled events) :
    ∃ s', events.foldlM System.step s = .ok s' ∧ s'.Sound := by
  induction events generalizing s with
  | nil => exact ⟨s, rfl, h⟩
  | cons e events ih =>
    obtain ⟨he, hrest⟩ := hrun
    obtain ⟨b, hlisten, hb⟩ := h.exists_handled he
    obtain ⟨s', hs', hsound⟩ := ih (h.next he hb) hrest
    refine ⟨s', ?_, hsound⟩
    rw [List.foldlM_cons, step, hlisten]
    exact hs'

theorem alwaysServed_iff_of_good {events : List Event} {s : System} (hs : s.Sound) (h : s.Good)
    (hrun : s.presence.Along Presence.Enabled events) :
    s.AlwaysServed events ↔ s.presence.Along Presence.Exclusive events := by
  induction events generalizing s with
  | nil => exact Iff.rfl
  | cons e events ih =>
    obtain ⟨he, hrest⟩ := hrun
    obtain ⟨b, hlisten, hb⟩ := hs.exists_handled he
    have hstep : s.step e = .ok ⟨b, s.presence.next e⟩ := by rw [step, hlisten]
    have hnext := hs.next he hb
    constructor
    · intro hserved
      obtain ⟨s', heq, hgood, -, hevents⟩ := hserved
      obtain rfl := Except.ok.inj (hstep.symm.trans heq)
      have hx : s.presence.Exclusive e := by
        by_contra hx
        exact not_good_of_not_exclusive he hx hb hgood
      exact ⟨hx, (ih hnext hgood hrest).1 hevents⟩
    · intro hexclusive
      have hgood := h.next hs he hexclusive.1 hb
      exact ⟨_, hstep, hgood, h.offers hs hlisten, (ih hnext hgood hrest).2 hexclusive.2⟩

/-- **Connected clients keep receiving, as long as no two of them have one id.** In a run of the
broker every connected client is in the map after each event, every broadcast is offered to it, and
the channel of every client that has gone was closed exactly once, exactly if no client of the run
connects with the id of a connected client. -/
theorem alwaysServed_iff {events : List Event}
    (hrun : start.presence.Along Presence.Enabled events) :
    start.AlwaysServed events ↔ start.presence.Along Presence.Exclusive events :=
  alwaysServed_iff_of_good sound_start good_start hrun

/-- A connection that asks for the id `a`. -/
def sampleClient (connection : ℕ) : Client := ⟨connection, clientID (ascii "0xc000") (ascii "a")⟩

/-- Two such connections, one after the other. -/
def sampleEvents : List Event :=
  [.connect (sampleClient 0), .broadcast (MapOrder.listed _) (ascii "event"),
    .disconnect (sampleClient 0), .connect (sampleClient 1)]

theorem alwaysServed_iff_sample : start.AlwaysServed sampleEvents := by
  refine (alwaysServed_iff ?_).2 ?_
  · decide
  · decide

/-- **A second connection with the id of the first displaces it.** -/
theorem connected_client_displaced :
    ¬ ∀ events, start.presence.Along Presence.Enabled events → start.AlwaysServed events := by
  intro h
  have hserved := h [.connect (sampleClient 0), .connect (sampleClient 1)] (by decide)
  obtain ⟨s₁, heq₁, -, -, s₂, heq₂, hgood, -⟩ := hserved
  obtain rfl := Except.ok.inj heq₁
  obtain rfl := Except.ok.inj heq₂
  have hmap := hgood.inMap (sampleClient 0) (by decide)
  exact absurd hmap (by decide +kernel)

end System

end GoBlockchain.Dashboard
