import GoBlockchain.Network.Stream

/-!
# The subscribers of new blocks

Any number of calls of `StreamNewBlocks` run at the same time, beside goroutines that add blocks and
call `notifyBlock`. `SubscribeBlocks` and `UnsubscribeBlocks` change the list of channels under the
lock of the server, while the loop of `notifyBlock` has it for reading only: several loops may go
over the list at once, each at its own pace, and clients take blocks out of their channels in the
meantime.

No loop sends on a closed channel and no channel is closed twice, and what any one client sees is a
run of the stream for one client, with `notifyBlock` as one step (`subscribers_of_run`). So nothing
that holds of every run of `Stream` is lost by looking at one client only.
-/

namespace GoBlockchain.Subscribers

open Transition

/-! ### Channels -/

/-- A channel of blocks. -/
structure Channel where
  buffer : List Block
  closed : Bool

/-- `select` with a send and a default: the block is skipped if the buffer is full. -/
def Channel.offer (b : Block) (c : Channel) : Go Channel :=
  if c.closed then .error (.panic "send on closed channel")
  else .ok { c with
    buffer := if c.buffer.length < Stream.channelSize then c.buffer ++ [b] else c.buffer }

def Channel.close (c : Channel) : Go Channel :=
  if c.closed then .error (.panic "close of closed channel") else .ok { c with closed := true }

/-- The channels of a server. They are told apart by the calls that have made them. -/
structure Registry where
  blockSubscribers : List ℕ
  channels : ℕ → Channel
  made : ℕ

namespace Registry

/-- `NewServer` starts without subscribers. -/
def empty : Registry := ⟨[], fun _ ↦ ⟨[], false⟩, 0⟩

/-- A channel is written to. -/
def set (ch : ℕ) (c : Channel) (r : Registry) : Registry :=
  { r with channels := Function.update r.channels ch c }

/-- `SubscribeBlocks` adds a subscription channel for new blocks. -/
def subscribeBlocks (r : Registry) : ℕ × Registry :=
  (r.made, ⟨r.blockSubscribers ++ [r.made], Function.update r.channels r.made ⟨[], false⟩,
    r.made + 1⟩)

/-- `UnsubscribeBlocks` removes a subscription channel, the first in the list that is the given
one, and closes it. -/
def unsubscribeBlocks (ch : ℕ) (r : Registry) : Go Registry :=
  if ch ∈ r.blockSubscribers then
    match (r.channels ch).close with
    | .error e => .error e
    | .ok c => .ok { r.set ch c with blockSubscribers := r.blockSubscribers.erase ch }
  else .ok r

end Registry

/-! ### The system -/

/-- How far a call of `StreamNewBlocks` is. -/
inductive Phase
  | idle
  /-- These historical blocks are still to be sent. -/
  | sending (rest : List Block)
  | live (ch : ℕ)
  | closed

/-- A call of `StreamNewBlocks`. -/
structure Client where
  phase : Phase
  /-- What the loop over `Blocks` saw. -/
  scanned : List Block
  /-- The blocks of the events sent, oldest first. -/
  sent : List Block
  /-- The blocks whose `notifyBlock` has passed the client by or has offered it the block. -/
  notified : List Block

/-- A block that was added, and how far `notifyBlock` is with it: not called yet, or in its loop
with these channels to come. -/
structure Notice where
  block : Block
  loop : Option (List ℕ)

/-- The chain, the subscribers and any number of clients. -/
structure System (ι : Type) where
  bc : Blockchain
  registry : Registry
  /-- Newest first. -/
  notices : List Notice
  clients : ι → Client

variable {ι : Type} [DecidableEq ι]

namespace System

/-- Before any call of `StreamNewBlocks`. -/
def init (bc : Blockchain) : System ι := ⟨bc, .empty, [], fun _ ↦ ⟨.idle, [], [], []⟩⟩

/-- No loop of `notifyBlock` holds the lock. -/
def Unlocked (st : System ι) : Prop := ∀ n ∈ st.notices, n.loop = none

def setRegistry (r : Registry) (st : System ι) : System ι := { st with registry := r }

def setNotices (notices : List Notice) (st : System ι) : System ι := { st with notices := notices }

/-- A client goes on. -/
def setClient (i : ι) (c : Client) (st : System ι) : System ι :=
  { st with clients := Function.update st.clients i c }

/-- Record that a block was notified, for some clients. -/
def record (b : Block) (who : Client → Bool) (st : System ι) : System ι :=
  { st with clients := fun i ↦
      if who (st.clients i) then { st.clients i with notified := b :: (st.clients i).notified }
      else st.clients i }

end System

/-- The client has the channel. -/
def Client.listensOn (ch : ℕ) (c : Client) : Bool :=
  match c.phase with
  | .live ch' => ch' == ch
  | _ => false

/-- The client has one of the channels. -/
def Client.listens (chs : List ℕ) (c : Client) : Bool :=
  match c.phase with
  | .live ch => chs.contains ch
  | _ => false

section Steps

variable (rt : Runtime) (start : ι → Int64)

/-- The steps of the chain, of `notifyBlock` and of the clients, in any order. -/
inductive Step : System ι → System ι → Prop
  | add {st : System ι} {b : Block} {bc' : Blockchain} : Stream.OnTop rt st.bc b bc' →
      Step st { st with bc := bc', notices := ⟨b, none⟩ :: st.notices }
  -- the loop ranges over the list as it is when the lock is taken
  | notify {st : System ι} {b : Block} {before after : List Notice} :
      st.notices = before ++ ⟨b, none⟩ :: after →
      Step st ((st.setNotices (before ++ ⟨b, some st.registry.blockSubscribers⟩ :: after)).record b
        fun c ↦ !c.listens st.registry.blockSubscribers)
  | offer {st : System ι} {b : Block} {before after : List Notice} {ch : ℕ} {rest : List ℕ}
      {c : Channel} : st.notices = before ++ ⟨b, some (ch :: rest)⟩ :: after →
      (st.registry.channels ch).offer b = .ok c →
      Step st (((st.setNotices (before ++ ⟨b, some rest⟩ :: after)).setRegistry
        (st.registry.set ch c)).record b fun c ↦ c.listensOn ch)
  | unlock {st : System ι} {b : Block} {before after : List Notice} :
      st.notices = before ++ ⟨b, some []⟩ :: after →
      Step st (st.setNotices (before ++ after))
  | scan {st : System ι} {i : ι} {bs : List Block} : 0 < start i →
      (st.clients i).phase = .idle → st.bc.blocks rt = .ok bs →
      Step st (st.setClient i { st.clients i with
        phase := .sending (Stream.historical (start i) bs).reverse
        scanned := bs })
  | skip {st : System ι} {i : ι} : ¬ 0 < start i → (st.clients i).phase = .idle →
      Step st (st.setClient i { st.clients i with phase := .sending [] })
  | send {st : System ι} {i : ι} {b : Block} {rest : List Block} :
      (st.clients i).phase = .sending (b :: rest) →
      Step st (st.setClient i { st.clients i with
        phase := .sending rest
        sent := (st.clients i).sent ++ [b] })
  -- a send failed
  | abort {st : System ι} {i : ι} {rest : List Block} : (st.clients i).phase = .sending rest →
      Step st (st.setClient i { st.clients i with phase := .closed })
  | subscribeBlocks {st : System ι} {i : ι} : (st.clients i).phase = .sending [] → st.Unlocked →
      Step st ((st.setRegistry st.registry.subscribeBlocks.2).setClient i
        { st.clients i with phase := .live st.registry.subscribeBlocks.1 })
  | receive {st : System ι} {i : ι} {ch : ℕ} {b : Block} {buffer : List Block} :
      (st.clients i).phase = .live ch → (st.registry.channels ch).buffer = b :: buffer →
      Step st ((st.setRegistry
        (st.registry.set ch { st.registry.channels ch with buffer := buffer })).setClient i
        { st.clients i with
          sent := if b.height < start i then (st.clients i).sent
            else (st.clients i).sent ++ [b] })
  -- the client is gone, or a send failed
  | unsubscribeBlocks {st : System ι} {i : ι} {ch : ℕ} {r : Registry} :
      (st.clients i).phase = .live ch → st.Unlocked →
      st.registry.unsubscribeBlocks ch = .ok r →
      Step st ((st.setRegistry r).setClient i { st.clients i with phase := .closed })

end Steps

/-- A chain that `Blocks` walks to the end, before any call of `StreamNewBlocks`. -/
def Start (rt : Runtime) (st : System ι) : Prop :=
  ∃ bc bs, bc.blocks rt = .ok bs ∧ st = System.init bc

/-! ### What one client sees -/

/-- The client has not been notified yet. -/
def Notice.awaits (c : Client) (n : Notice) : Bool :=
  match n.loop with
  | none => true
  | some chs => c.listens chs

/-- The blocks that are still to be notified, as far as the client is concerned. -/
def pendingFor (c : Client) (notices : List Notice) : List Block :=
  (notices.filter (Notice.awaits c)).map Notice.block

/-- The phase with the blocks in the channel. -/
def Phase.view (r : Registry) : Phase → Stream.Phase
  | .idle => .idle
  | .sending rest => .sending rest
  | .live ch => .live (r.channels ch).buffer
  | .closed => .closed

/-- The system as one client sees it. -/
def System.view (st : System ι) (i : ι) : Stream.State where
  bc := st.bc
  pending := pendingFor (st.clients i) st.notices
  notified := (st.clients i).notified
  phase := (st.clients i).phase.view st.registry
  scanned := (st.clients i).scanned
  sent := (st.clients i).sent

section Views

variable {st : System ι} {i j : ι} {c : Client} {r : Registry} {phase : Phase} {b : Block}
  {ch : ℕ} {chs : List ℕ}

omit [DecidableEq ι] in
@[simp] theorem phase_record (who : Client → Bool) :
    ((st.record b who).clients i).phase = (st.clients i).phase := by
  simp only [System.record]
  split
  · rfl
  · rfl

theorem clients_setClient_self : (st.setClient i c).clients i = c := Function.update_self ..

theorem clients_setClient_of_ne (h : j ≠ i) : (st.setClient i c).clients j = st.clients j :=
  Function.update_of_ne h ..

/-- What a client does, the others do not see. -/
theorem view_setClient_of_ne (h : j ≠ i) : (st.setClient i c).view j = st.view j := by
  simp only [System.view, clients_setClient_of_ne h]
  rfl

/-- A client sees its own channel only. -/
theorem view_phase_congr {r' : Registry}
    (h : ∀ ch, phase = .live ch → (r'.channels ch).buffer = (r.channels ch).buffer) :
    phase.view r' = phase.view r := by
  cases phase with
  | live ch =>
    show CatchUp.Phase.live (r'.channels ch).buffer = _
    rw [h ch rfl]
    rfl
  | _ => rfl

theorem view_set_of_ne (h : phase ≠ .live ch) (x : Channel) :
    phase.view (r.set ch x) = phase.view r := by
  refine view_phase_congr fun ch' hlive ↦ ?_
  have hne : ch' ≠ ch := fun heq ↦ h (heq ▸ hlive)
  show (Function.update r.channels ch x ch').buffer = _
  rw [Function.update_of_ne hne]

theorem listens_eq_false_of_not_live (h : ∀ ch, c.phase ≠ .live ch) : c.listens chs = false := by
  rw [Client.listens]
  split
  · next ch hlive => exact absurd hlive (h ch)
  · rfl

/-- Without a channel, no loop is to come. -/
theorem listens_eq_of_not_live {c' : Client} (h : ∀ ch, c.phase ≠ .live ch)
    (h' : ∀ ch, c'.phase ≠ .live ch) (chs : List ℕ) : c'.listens chs = c.listens chs := by
  rw [listens_eq_false_of_not_live h, listens_eq_false_of_not_live h']

theorem listens_of_live (h : c.phase = .live ch) : c.listens chs = chs.contains ch := by
  rw [Client.listens, h]

theorem listensOn_iff : c.listensOn ch = true ↔ c.phase = .live ch := by
  rw [Client.listensOn]
  split
  · next ch' hlive =>
    rw [hlive, beq_iff_eq]
    constructor
    · rintro rfl
      rfl
    · intro heq
      cases heq
      rfl
  · next hnot => exact ⟨fun h ↦ absurd h Bool.false_ne_true, fun h ↦ absurd h (hnot ch)⟩

/-- Whether a loop is still to come to a client does not depend on the other channels. -/
theorem listens_cons_of_ne (h : c.phase ≠ .live ch) : c.listens (ch :: chs) = c.listens chs := by
  rw [Client.listens, Client.listens]
  split
  · next ch' hlive =>
    have hne : ch' ≠ ch := fun heq ↦ h (heq ▸ hlive)
    simp [hne]
  · rfl

theorem pendingFor_append (c : Client) (before after : List Notice) :
    pendingFor c (before ++ after) = pendingFor c before ++ pendingFor c after := by
  rw [pendingFor, List.filter_append, List.map_append]
  rfl

theorem pendingFor_cons (c : Client) (n : Notice) (after : List Notice) :
    pendingFor c (n :: after) =
      if n.awaits c then n.block :: pendingFor c after else pendingFor c after := by
  rw [pendingFor, List.filter_cons]
  split
  · rfl
  · rfl

/-- What is still to be notified depends on the channel of the client only. -/
theorem pendingFor_congr {c' : Client} (h : ∀ chs, c'.listens chs = c.listens chs)
    (notices : List Notice) : pendingFor c' notices = pendingFor c notices := by
  have hawaits : Notice.awaits c' = Notice.awaits c := by
    funext n
    rw [Notice.awaits, Notice.awaits]
    split
    · rfl
    · exact h _
  rw [pendingFor, pendingFor, hawaits]

theorem listens_congr {c' : Client} (h : c'.phase = c.phase) (chs : List ℕ) :
    c'.listens chs = c.listens chs := by
  rw [Client.listens, Client.listens, h]

omit [DecidableEq ι] in
/-- While no loop runs, every block is still to be notified. -/
theorem pendingFor_of_unlocked (h : st.Unlocked) (c : Client) :
    pendingFor c st.notices = st.notices.map Notice.block := by
  have hall : st.notices.filter (Notice.awaits c) = st.notices := by
    refine List.filter_eq_self.2 fun n hn ↦ ?_
    rw [Notice.awaits, h n hn]
  rw [pendingFor, hall]

omit [DecidableEq ι] in
/-- A client that is notified. -/
theorem view_record_of_true {who : Client → Bool} (h : who (st.clients i) = true) :
    (st.record b who).view i = { st.view i with notified := b :: (st.clients i).notified } := by
  have hphase : ((st.record b who).clients i).phase = (st.clients i).phase := phase_record who
  have hpending := pendingFor_congr (listens_congr hphase) st.notices
  simp only [System.record, h, if_true] at hpending
  simp only [System.view, System.record, h, if_true]
  rw [hpending]

omit [DecidableEq ι] in
/-- A client that is not notified. -/
theorem view_record_of_false {who : Client → Bool} (h : who (st.clients i) = false) :
    (st.record b who).view i = st.view i := by
  have hsame : (st.record b who).clients i = st.clients i := if_neg (by simp [h])
  simp only [System.view, hsame]
  rfl

omit [DecidableEq ι] in
/-- A client that does not see a change of the notices and the channels. -/
theorem view_replace {notices : List Notice}
    (hpending : pendingFor (st.clients i) notices = pendingFor (st.clients i) st.notices)
    (hphase : (st.clients i).phase.view r = (st.clients i).phase.view st.registry) :
    ((st.setNotices notices).setRegistry r).view i = st.view i := by
  show (⟨st.bc, pendingFor (st.clients i) notices, _, (st.clients i).phase.view r, _, _⟩ :
    Stream.State) = ⟨st.bc, pendingFor (st.clients i) st.notices, _,
      (st.clients i).phase.view st.registry, _, _⟩
  rw [hpending, hphase]
  rfl

omit [DecidableEq ι] in
theorem setNotices_eq (notices : List Notice) :
    st.setNotices notices = (st.setNotices notices).setRegistry st.registry := rfl

omit [DecidableEq ι] in
theorem setRegistry_eq (r : Registry) :
    st.setRegistry r = (st.setNotices st.notices).setRegistry r := rfl

/-- What a client sees when it goes on. -/
theorem view_moved (h : pendingFor c st.notices = pendingFor (st.clients i) st.notices) :
    ((st.setRegistry r).setClient i c).view i = { st.view i with
      notified := c.notified
      phase := c.phase.view r
      scanned := c.scanned
      sent := c.sent } := by
  simp only [System.view, clients_setClient_self]
  rw [← h]
  rfl

theorem view_setClient_self
    (h : pendingFor c st.notices = pendingFor (st.clients i) st.notices) :
    (st.setClient i c).view i = { st.view i with
      notified := c.notified
      phase := c.phase.view st.registry
      scanned := c.scanned
      sent := c.sent } :=
  view_moved (r := st.registry) h

end Views

/-! ### Channels are used as they should be -/

/-- What holds in every run: subscribers are different open channels, a client that is subscribed
has one of them for itself, and the loops range over subscribers. -/
structure Sound (st : System ι) : Prop where
  nodup : st.registry.blockSubscribers.Nodup
  lt_made : ∀ ch ∈ st.registry.blockSubscribers, ch < st.registry.made
  isOpen : ∀ ch ∈ st.registry.blockSubscribers, (st.registry.channels ch).closed = false
  mem_of_live : ∀ i ch, (st.clients i).phase = .live ch → ch ∈ st.registry.blockSubscribers
  live_inj : ∀ i j ch, (st.clients i).phase = .live ch → (st.clients j).phase = .live ch → i = j
  loops : ∀ n ∈ st.notices, ∀ chs, n.loop = some chs →
    chs.Nodup ∧ chs ⊆ st.registry.blockSubscribers

section Channels

variable {rt : Runtime} {start : ι → Int64} {st st' : System ι} {i : ι} {ch : ℕ} {b : Block}
  {x : Channel} {r : Registry}

theorem offer_eq_ok_iff : (x.offer b = .ok { x with
    buffer := if x.buffer.length < Stream.channelSize then x.buffer ++ [b] else x.buffer }) ↔
      x.closed = false := by
  rw [Channel.offer]
  split
  · next h => simp [h]
  · next h => simpa using h

theorem eq_of_offer {x' : Channel} (h : x.offer b = .ok x') : x.closed = false ∧ x' = { x with
    buffer := if x.buffer.length < Stream.channelSize then x.buffer ++ [b] else x.buffer } := by
  rw [Channel.offer] at h
  split at h
  · cases h
  · next hopen => exact ⟨by simpa using hopen, (Except.ok.inj h).symm⟩

theorem unsubscribeBlocks_of_mem (hmem : ch ∈ r.blockSubscribers)
    (hopen : (r.channels ch).closed = false) :
    r.unsubscribeBlocks ch = .ok { r.set ch { r.channels ch with closed := true } with
      blockSubscribers := r.blockSubscribers.erase ch } := by
  rw [Registry.unsubscribeBlocks, if_pos hmem, Channel.close, if_neg (by simp [hopen])]

omit [DecidableEq ι] in
theorem sound_init (bc : Blockchain) : Sound (System.init bc : System ι) where
  nodup := List.nodup_nil
  lt_made ch h := absurd h List.not_mem_nil
  isOpen ch h := absurd h List.not_mem_nil
  mem_of_live i ch h := by cases h
  live_inj i j ch h := by cases h
  loops n h := absurd h List.not_mem_nil

omit [DecidableEq ι] in
/-- A channel is written to, and stays open. -/
theorem Sound.set (h : Sound st) (hx : x.closed = false) :
    Sound (st.setRegistry (st.registry.set ch x)) where
  nodup := h.nodup
  lt_made := h.lt_made
  isOpen ch' hch' := by
    show (Function.update st.registry.channels ch x ch').closed = false
    by_cases heq : ch' = ch
    · subst heq
      rwa [Function.update_self]
    · rw [Function.update_of_ne heq]
      exact h.isOpen ch' hch'
  mem_of_live := h.mem_of_live
  live_inj := h.live_inj
  loops := h.loops

/-- A client goes on and has no channel that it did not have. -/
theorem Sound.setClient (h : Sound st) {c : Client}
    (hlive : ∀ ch, c.phase = .live ch → (st.clients i).phase = .live ch) :
    Sound (st.setClient i c) := by
  have hphase : ∀ j ch, ((st.setClient i c).clients j).phase = .live ch →
      (st.clients j).phase = .live ch := by
    intro j ch hj
    by_cases hji : j = i
    · subst hji
      rw [clients_setClient_self] at hj
      exact hlive ch hj
    · rwa [clients_setClient_of_ne hji] at hj
  exact ⟨h.nodup, h.lt_made, h.isOpen, fun j ch hj ↦ h.mem_of_live j ch (hphase j ch hj),
    fun j k ch hj hk ↦ h.live_inj j k ch (hphase j ch hj) (hphase k ch hk), h.loops⟩

omit [DecidableEq ι] in
theorem Sound.record (h : Sound st) (who : Client → Bool) : Sound (st.record b who) where
  nodup := h.nodup
  lt_made := h.lt_made
  isOpen := h.isOpen
  mem_of_live i ch hi := h.mem_of_live i ch (by rwa [phase_record] at hi)
  live_inj i j ch hi hj :=
    h.live_inj i j ch (by rwa [phase_record] at hi) (by rwa [phase_record] at hj)
  loops := h.loops

omit [DecidableEq ι] in
theorem Sound.notices (h : Sound st) {notices : List Notice}
    (hloops : ∀ n ∈ notices, ∀ chs, n.loop = some chs →
      chs.Nodup ∧ chs ⊆ st.registry.blockSubscribers) :
    Sound (st.setNotices notices) :=
  ⟨h.nodup, h.lt_made, h.isOpen, h.mem_of_live, h.live_inj, hloops⟩

omit [DecidableEq ι] in
/-- A notice gets further with its loop. -/
theorem Sound.replace (h : Sound st) {before after : List Notice} {n n' : Notice}
    (hnotices : st.notices = before ++ n :: after)
    (hloop : ∀ chs, n'.loop = some chs → chs.Nodup ∧ chs ⊆ st.registry.blockSubscribers) :
    Sound (st.setNotices (before ++ n' :: after)) := by
  refine h.notices fun m hm chs hchs ↦ ?_
  rcases List.mem_append.1 hm with hm | hm
  · exact h.loops m (hnotices ▸ List.mem_append_left _ hm) chs hchs
  · rcases List.mem_cons.1 hm with rfl | hm
    · exact hloop chs hchs
    · exact h.loops m (hnotices ▸ List.mem_append_right _ (List.mem_cons_of_mem _ hm)) chs hchs

theorem Sound.subscribeBlocks (h : Sound st) (hunlocked : st.Unlocked) (c : Client) :
    Sound ((st.setRegistry st.registry.subscribeBlocks.2).setClient i
      { c with phase := .live st.registry.subscribeBlocks.1 }) := by
  have hnew : st.registry.made ∉ st.registry.blockSubscribers := fun hmem ↦
    lt_irrefl _ (h.lt_made _ hmem)
  have hsubs : ∀ ch, ch ∈ st.registry.subscribeBlocks.2.blockSubscribers ↔
      ch ∈ st.registry.blockSubscribers ∨ ch = st.registry.made := by
    simp [Registry.subscribeBlocks]
  have hphase : ∀ j ch, (((st.setRegistry st.registry.subscribeBlocks.2).setClient i
      { c with phase := .live st.registry.subscribeBlocks.1 }).clients j).phase =
        .live ch → (j = i ∧ ch = st.registry.made) ∨
          (j ≠ i ∧ (st.clients j).phase = .live ch) := by
    intro j ch hj
    by_cases hji : j = i
    · subst hji
      rw [clients_setClient_self] at hj
      cases hj
      exact Or.inl ⟨rfl, rfl⟩
    · rw [clients_setClient_of_ne hji] at hj
      exact Or.inr ⟨hji, hj⟩
  refine ⟨?_, fun ch hch ↦ ?_, fun ch hch ↦ ?_, fun j ch hj ↦ ?_, fun j k ch hj hk ↦ ?_,
    fun n hn chs hchs ↦ ?_⟩
  · refine List.nodup_append'.2 ⟨h.nodup, List.nodup_singleton _, fun ch hch hmem ↦ ?_⟩
    rw [List.mem_singleton.1 hmem] at hch
    exact hnew hch
  · rcases (hsubs ch).1 hch with hold | rfl
    · exact (h.lt_made ch hold).trans (Nat.lt_succ_self _)
    · exact Nat.lt_succ_self _
  · show (Function.update st.registry.channels st.registry.made ⟨[], false⟩ ch).closed = false
    rcases (hsubs ch).1 hch with hold | rfl
    · have hne : ch ≠ st.registry.made := fun heq ↦ hnew (heq ▸ hold)
      rw [Function.update_of_ne hne]
      exact h.isOpen ch hold
    · rw [Function.update_self]
  · rcases hphase j ch hj with ⟨-, rfl⟩ | ⟨-, hold⟩
    · exact (hsubs _).2 (Or.inr rfl)
    · exact (hsubs ch).2 (Or.inl (h.mem_of_live j ch hold))
  · rcases hphase j ch hj with ⟨rfl, rfl⟩ | ⟨-, hold⟩
    · rcases hphase k _ hk with ⟨rfl, -⟩ | ⟨-, hold'⟩
      · rfl
      · exact absurd (h.mem_of_live k _ hold') hnew
    · rcases hphase k ch hk with ⟨rfl, rfl⟩ | ⟨-, hold'⟩
      · exact absurd (h.mem_of_live j _ hold) hnew
      · exact h.live_inj j k ch hold hold'
  · rw [hunlocked n hn] at hchs
    cases hchs

theorem Sound.unsubscribeBlocks (h : Sound st) (hlive : (st.clients i).phase = .live ch)
    (hunlocked : st.Unlocked) (hr : st.registry.unsubscribeBlocks ch = .ok r) (c : Client) :
    Sound ((st.setRegistry r).setClient i { c with phase := .closed }) := by
  have hmem := h.mem_of_live i ch hlive
  rw [unsubscribeBlocks_of_mem hmem (h.isOpen ch hmem)] at hr
  obtain rfl := Except.ok.inj hr
  -- the channel of any other client is another one
  have hphase : ∀ r j ch', (((st.setRegistry r).setClient i { c with phase := .closed }).clients
      j).phase = .live ch' → ch' ≠ ch ∧ (st.clients j).phase = .live ch' := by
    intro r j ch' hj
    by_cases hji : j = i
    · subst hji
      rw [clients_setClient_self] at hj
      cases hj
    · rw [clients_setClient_of_ne hji] at hj
      exact ⟨fun heq ↦ hji (h.live_inj j i ch (heq ▸ hj) hlive), hj⟩
  refine ⟨h.nodup.erase ch, fun ch' hch' ↦ h.lt_made ch' (List.mem_of_mem_erase hch'),
    fun ch' hch' ↦ ?_, fun j ch' hj ↦ ?_, fun j k ch' hj hk ↦ ?_, fun n hn chs hchs ↦ ?_⟩
  · have hne : ch' ≠ ch := (h.nodup.mem_erase_iff.1 hch').1
    show (Function.update st.registry.channels ch _ ch').closed = false
    rw [Function.update_of_ne hne]
    exact h.isOpen ch' (List.mem_of_mem_erase hch')
  · obtain ⟨hne, hold⟩ := hphase _ j ch' hj
    exact h.nodup.mem_erase_iff.2 ⟨hne, h.mem_of_live j ch' hold⟩
  · exact h.live_inj j k ch' (hphase _ j ch' hj).2 (hphase _ k ch' hk).2
  · rw [hunlocked n hn] at hchs
    cases hchs

/-- **Every step keeps the channels sound.** -/
theorem Sound.step (h : Sound st) (hstep : Step rt start st st') : Sound st' := by
  cases hstep with
  | add htop =>
    refine ⟨h.nodup, h.lt_made, h.isOpen, h.mem_of_live, h.live_inj, fun n hn chs hchs ↦ ?_⟩
    rcases List.mem_cons.1 hn with rfl | hn
    · cases hchs
    · exact h.loops n hn chs hchs
  | notify hnotices =>
    refine (h.replace hnotices fun chs hchs ↦ ?_).record _
    obtain rfl := Option.some.inj hchs
    exact ⟨h.nodup, List.Subset.refl _⟩
  | @offer b before after ch rest x hnotices hoffer =>
    obtain ⟨hnodup, hsub⟩ := h.loops _ (hnotices ▸ List.mem_append_right _ List.mem_cons_self) _ rfl
    refine Sound.record (Sound.set (h.replace hnotices fun chs hchs ↦ ?_) ?_) _
    · obtain rfl := Option.some.inj hchs
      exact ⟨hnodup.of_cons, fun ch' hch' ↦ hsub (List.mem_cons_of_mem _ hch')⟩
    · obtain ⟨hopen, rfl⟩ := eq_of_offer hoffer
      exact hopen
  | unlock hnotices =>
    refine h.notices fun n hn ↦ h.loops n (hnotices ▸ ?_)
    rcases List.mem_append.1 hn with hn | hn
    · exact List.mem_append_left _ hn
    · exact List.mem_append_right _ (List.mem_cons_of_mem _ hn)
  | scan => exact h.setClient fun ch hch ↦ by cases hch
  | skip => exact h.setClient fun ch hch ↦ by cases hch
  | send => exact h.setClient fun ch hch ↦ by cases hch
  | abort => exact h.setClient fun ch hch ↦ by cases hch
  | subscribeBlocks _ hunlocked => exact h.subscribeBlocks hunlocked _
  | @receive i ch b buffer hlive hbuffer =>
    refine Sound.setClient (Sound.set h ?_) fun ch' hch' ↦ hch'
    exact h.isOpen ch (h.mem_of_live i ch hlive)
  | unsubscribeBlocks hlive hunlocked hr => exact h.unsubscribeBlocks hlive hunlocked hr _

end Channels

/-! ### Every client sees a run of the stream -/

section Projection

variable {rt : Runtime} {start : ι → Int64} {st st' : System ι} {i j : ι}

omit [DecidableEq ι] in
/-- A loop that has come to a client, or passes it by, is `notifyBlock` for the client. -/
theorem step_of_notified {b : Block} {before after : List Notice} {n n' : Notice} {r : Registry}
    {who : Client → Bool} (hwho : who (st.clients i) = true)
    (hnotices : st.notices = before ++ n :: after) (hb : n.block = b)
    (hn : n.awaits (st.clients i) = true) (hn' : n'.awaits (st.clients i) = false)
    (hphase : (st.clients i).phase.view r =
      Stream.notifyBlock b ((st.clients i).phase.view st.registry)) :
    Stream.Step rt (start i) (.announce b) (st.view i)
      ((((st.setNotices (before ++ n' :: after)).setRegistry r).record b who).view i) := by
  have hpending : (st.view i).pending =
      pendingFor (st.clients i) before ++ b :: pendingFor (st.clients i) after := by
    show pendingFor (st.clients i) st.notices = _
    rw [hnotices, pendingFor_append, pendingFor_cons, if_pos hn, hb]
  have hpending' : pendingFor (st.clients i) (before ++ n' :: after) =
      pendingFor (st.clients i) before ++ pendingFor (st.clients i) after := by
    rw [pendingFor_append, pendingFor_cons, if_neg (by simp [hn'])]
  rw [view_record_of_true (by exact hwho)]
  show Stream.Step rt (start i) (.announce b) (st.view i)
    ⟨st.bc, pendingFor (st.clients i) (before ++ n' :: after), b :: (st.clients i).notified,
      (st.clients i).phase.view r, (st.clients i).scanned, (st.clients i).sent⟩
  rw [hpending', hphase]
  exact .notify hpending

omit [DecidableEq ι] in
theorem view_phase_of {phase : Phase} (h : (st.clients i).phase = phase) :
    (st.view i).phase = phase.view st.registry := by
  rw [← h]
  rfl

/-- **Every step is a step of the stream for a client, or none.** -/
theorem view_step (h : Sound st) (hstep : Step rt start st st') (i : ι) :
    st'.view i = st.view i ∨ ∃ l, Stream.Step rt (start i) l (st.view i) (st'.view i) := by
  cases hstep with
  | add htop => exact Or.inr ⟨_, .add htop⟩
  | @notify b before after hnotices =>
    rw [setNotices_eq]
    by_cases hlistens : (st.clients i).listens st.registry.blockSubscribers = true
    · -- the loop has still to come to the client
      left
      rw [view_record_of_false (by simp [System.setNotices, System.setRegistry, hlistens])]
      refine view_replace ?_ rfl
      rw [hnotices, pendingFor_append, pendingFor_append, pendingFor_cons, pendingFor_cons]
      show _ ++ (if Client.listens _ _ = true then _ else _) = _ ++ if true = true then _ else _
      rw [if_pos hlistens, if_pos rfl]
    · -- the client has no channel
      right
      have hnot : (st.clients i).listens st.registry.blockSubscribers = false := by
        simpa using hlistens
      refine ⟨_, step_of_notified (by simp [hnot]) hnotices rfl rfl hnot ?_⟩
      rcases hphase : (st.clients i).phase with _ | rest | ch | _
      · rfl
      · rfl
      · rw [listens_of_live hphase] at hlistens
        exact absurd (List.contains_iff_mem.2 (h.mem_of_live i ch hphase)) hlistens
      · rfl
  | @offer b before after ch rest x hnotices hoffer =>
    obtain ⟨-, rfl⟩ := eq_of_offer hoffer
    obtain ⟨hnodup, -⟩ := h.loops _ (hnotices ▸ List.mem_append_right _ List.mem_cons_self) _ rfl
    by_cases hlive : (st.clients i).phase = .live ch
    · right
      refine ⟨_, step_of_notified (listensOn_iff.2 hlive) hnotices rfl ?_ ?_ ?_⟩
      · show Client.listens _ _ = true
        simp [listens_of_live hlive]
      · show Client.listens _ _ = false
        simpa [listens_of_live hlive] using (List.nodup_cons.1 hnodup).1
      · rw [hlive]
        show CatchUp.Phase.live (Function.update st.registry.channels ch _ ch).buffer = _
        rw [Function.update_self]
        rfl
    · left
      have hnot : Client.listensOn ch (st.clients i) = false := by
        rw [Bool.eq_false_iff]
        exact fun hon ↦ hlive (listensOn_iff.1 hon)
      rw [view_record_of_false (by exact hnot)]
      refine view_replace ?_ (view_set_of_ne hlive _)
      rw [hnotices, pendingFor_append, pendingFor_append, pendingFor_cons, pendingFor_cons]
      show _ ++ (if Client.listens _ _ = true then _ else _) =
        _ ++ if Client.listens _ _ = true then _ else _
      rw [listens_cons_of_ne hlive]
  | @unlock b before after hnotices =>
    left
    have hnot : (st.clients i).listens [] = false := by
      rw [Client.listens]
      split
      · rfl
      · rfl
    rw [setNotices_eq]
    refine view_replace ?_ rfl
    rw [hnotices, pendingFor_append, pendingFor_append, pendingFor_cons]
    show _ = _ ++ if Client.listens _ _ = true then _ else _
    rw [if_neg (by simp [hnot])]
  | @scan j bs hstart hidle hbs =>
    by_cases hij : i = j
    · subst hij
      right
      rw [view_setClient_self (pendingFor_congr
        (listens_eq_of_not_live (by simp [hidle]) (by simp)) _)]
      exact ⟨_, .scan hstart (view_phase_of hidle) hbs⟩
    · exact Or.inl (view_setClient_of_ne hij)
  | @skip j hstart hidle =>
    by_cases hij : i = j
    · subst hij
      right
      rw [view_setClient_self (pendingFor_congr
        (listens_eq_of_not_live (by simp [hidle]) (by simp)) _)]
      exact ⟨_, .skip hstart (view_phase_of hidle)⟩
    · exact Or.inl (view_setClient_of_ne hij)
  | @send j b rest hsending =>
    by_cases hij : i = j
    · subst hij
      right
      rw [view_setClient_self (pendingFor_congr
        (listens_eq_of_not_live (by simp [hsending]) (by simp)) _)]
      exact ⟨_, .send (view_phase_of hsending)⟩
    · exact Or.inl (view_setClient_of_ne hij)
  | @abort j rest hsending =>
    by_cases hij : i = j
    · subst hij
      right
      rw [view_setClient_self (pendingFor_congr
        (listens_eq_of_not_live (by simp [hsending]) (by simp)) _)]
      refine ⟨_, .close ?_⟩
      rw [view_phase_of hsending]
      exact fun heq ↦ by cases heq
    · exact Or.inl (view_setClient_of_ne hij)
  | @subscribeBlocks j hsending hunlocked =>
    by_cases hij : i = j
    · subst hij
      right
      rw [view_moved ((pendingFor_of_unlocked hunlocked _).trans
        (pendingFor_of_unlocked hunlocked _).symm)]
      have hnew : Phase.view st.registry.subscribeBlocks.2 (.live st.registry.subscribeBlocks.1) =
          .live [] := by
        show CatchUp.Phase.live (Function.update st.registry.channels st.registry.made ⟨[], false⟩
          st.registry.made).buffer = _
        rw [Function.update_self]
      refine ⟨.subscribe, ?_⟩
      show Stream.Step rt (start i) .subscribe (st.view i)
        { st.view i with
          phase := Phase.view st.registry.subscribeBlocks.2 (.live st.registry.subscribeBlocks.1) }
      rw [hnew]
      exact .subscribeBlocks (view_phase_of hsending)
    · left
      rw [view_setClient_of_ne hij, setRegistry_eq]
      refine view_replace rfl (view_phase_congr fun ch hlive ↦ ?_)
      have hne : ch ≠ st.registry.made := (h.lt_made ch (h.mem_of_live i ch hlive)).ne
      show (Function.update st.registry.channels st.registry.made _ ch).buffer = _
      rw [Function.update_of_ne hne]
  | @receive j ch b buffer hlive hbuffer =>
    by_cases hij : i = j
    · subst hij
      right
      rw [view_moved (pendingFor_congr (listens_congr (by rfl)) _)]
      refine ⟨.receive, ?_⟩
      have hphase : Phase.view
          (st.registry.set ch { st.registry.channels ch with buffer := buffer })
          (st.clients i).phase = .live buffer := by
        rw [hlive]
        show CatchUp.Phase.live (Function.update st.registry.channels ch _ ch).buffer = _
        rw [Function.update_self]
      have hview : (st.view i).phase = .live (b :: buffer) := by
        rw [view_phase_of hlive, ← hbuffer]
        rfl
      show Stream.Step rt (start i) .receive (st.view i)
        { st.view i with
          phase := Phase.view (st.registry.set ch _) (st.clients i).phase
          sent := if b.height < start i then (st.view i).sent else (st.view i).sent ++ [b] }
      rw [hphase]
      exact .receive hview
    · left
      rw [view_setClient_of_ne hij, setRegistry_eq]
      exact view_replace rfl (view_set_of_ne (fun heq ↦ hij (h.live_inj i j ch heq hlive)) _)
  | @unsubscribeBlocks j ch r hlive hunlocked hr =>
    have hmem := h.mem_of_live j ch hlive
    rw [unsubscribeBlocks_of_mem hmem (h.isOpen ch hmem)] at hr
    obtain rfl := Except.ok.inj hr
    by_cases hij : i = j
    · subst hij
      right
      rw [view_moved ((pendingFor_of_unlocked hunlocked _).trans
        (pendingFor_of_unlocked hunlocked _).symm)]
      refine ⟨_, .close ?_⟩
      rw [view_phase_of hlive]
      exact fun heq ↦ by cases heq
    · left
      rw [view_setClient_of_ne hij, setRegistry_eq]
      refine view_replace rfl (view_phase_congr fun ch' hlive' ↦ ?_)
      have hne : ch' ≠ ch := fun heq ↦ hij (h.live_inj i j ch (heq ▸ hlive') hlive)
      show (Function.update st.registry.channels ch _ ch').buffer = _
      rw [Function.update_of_ne hne]

/-! ### Runs -/

/-- Whatever a loop or a client does next to a channel, the runtime does not panic. -/
structure PanicFree (st : System ι) : Prop where
  offer : ∀ n ∈ st.notices, ∀ ch rest, n.loop = some (ch :: rest) →
    ∃ x, (st.registry.channels ch).offer n.block = .ok x
  unsubscribeBlocks : ∀ i ch, (st.clients i).phase = .live ch →
    ∃ r, st.registry.unsubscribeBlocks ch = .ok r

omit [DecidableEq ι] in
theorem Sound.panicFree (h : Sound st) : PanicFree st where
  offer n hn ch _ hloop :=
    ⟨_, offer_eq_ok_iff.2 (h.isOpen ch ((h.loops n hn _ hloop).2 List.mem_cons_self))⟩
  unsubscribeBlocks i ch hlive :=
    ⟨_, unsubscribeBlocks_of_mem (h.mem_of_live i ch hlive)
      (h.isOpen ch (h.mem_of_live i ch hlive))⟩

theorem sound_of_reachable (h : Reachable (Start rt) (Step rt start) st) : Sound st := by
  refine h.invariant ?_ fun _ _ _ hst hstep ↦ hst.step hstep
  rintro _ ⟨bc, -, -, rfl⟩
  exact sound_init bc

/-- **The subscribers of a server.** However the loops of `notifyBlock` and the clients interleave,
no send and no close panics, and every client sees a run of the stream for one client. -/
theorem subscribers_of_run (h : Reachable (Start rt) (Step rt start) st) :
    PanicFree st ∧ ∀ i, Reachable (Stream.Start rt)
      (fun s t ↦ ∃ l, Stream.Step rt (start i) l s t) (st.view i) := by
  refine ⟨(sound_of_reachable h).panicFree, fun i ↦ ?_⟩
  refine h.project (fun st ↦ st.view i) ?_ fun s t hs hstep ↦ ?_
  · rintro _ ⟨bc, bs, hbs, rfl⟩
    exact ⟨bc, bs, hbs, rfl⟩
  · exact view_step (sound_of_reachable hs) hstep i

end Projection

/-- A loop has come to the channel of one client, while the other is not subscribed yet. -/
theorem subscribers_of_run_sample :
    ∃ st : System Bool, st.notices.map Notice.loop = [some [0]] ∧
      (st.clients true).phase = .live 0 ∧ PanicFree st ∧
      Reachable (Stream.Start Sample.runtime) (fun s t ↦ ∃ l, Stream.Step Sample.runtime 0 l s t)
        (st.view false) := by
  have hstart : Reachable (Start Sample.runtime) (Step Sample.runtime fun _ : Bool ↦ 0)
      (System.init Sample.chain) := .start ⟨Sample.chain, _, Sample.blocks_chain, rfl⟩
  have hskip := hstart.next (.skip (i := true) (by decide) rfl)
  have hsubscribed := hskip.next (.subscribeBlocks (i := true) rfl fun n hn ↦ by cases hn)
  have hadded := hsubscribed.next (.add Stream.onTop_sampleChild)
  have hnotified := hadded.next (@Step.notify _ _ _ _ _ Stream.sampleChild [] [] rfl)
  obtain ⟨hfree, hview⟩ := subscribers_of_run hnotified
  exact ⟨_, rfl, rfl, hfree, hview false⟩

end GoBlockchain.Subscribers
