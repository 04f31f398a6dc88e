import GoBlockchain.Lib.Roster
import GoBlockchain.Network.Acts
import GoBlockchain.Network.Issuance

/-!
# The known nodes

A node knows the first node of the network from the start. It learns of others from `addr` messages
and from the senders of `version` messages, and forgets a node that it cannot reach. Every handler
may send something, to all known nodes or to the sender of a message, and so forget nodes on the
way; the loop that announces a mined block does so once for every block.

Whatever is received, valid or not, the changes of the list are those of a roster (`Act.roams`,
`roams_handles`). So over every run no node is listed twice, no
node is listed that nobody has named, and a node that can always be reached stays, at the head if it
was there (`knownNodes_of_run`). Whether a node is the first, and so announces transactions instead
of mining them, is settled from the start as long as the first node can be reached
(`isFirstNode_of_run`).
-/

namespace GoBlockchain.Server

open Roster (Moves)

/-- From one state of a node to a later one, as far as its own address and the known nodes are
concerned: the address stays, and the list changes as a roster. -/
structure Roams (learns forgets : Bytes → Prop) (s s' : Server) : Prop where
  nodeAddress : s'.nodeAddress = s.nodeAddress
  moves : Moves learns forgets s.knownNodes s'.knownNodes

variable {rt : Runtime} {w : Wire} {learns forgets : Bytes → Prop} {s s' t : Server}

theorem Roams.trans (h : Roams learns forgets s t) (h' : Roams learns forgets t s') :
    Roams learns forgets s s' :=
  ⟨h'.nodeAddress.trans h.nodeAddress, h.moves.trans h'.moves⟩

theorem Roams.mono {learns' forgets' : Bytes → Prop} (hlearns : ∀ a, learns a → learns' a)
    (hforgets : ∀ a, forgets a → forgets' a) (h : Roams learns forgets s s') :
    Roams learns' forgets' s s' :=
  ⟨h.nodeAddress, h.moves.mono hlearns hforgets⟩

/-! ### Acts -/

theorem roams_sendData {dialed : Bool} {addr : Bytes} (h : dialed = false → forgets addr)
    (data : Bytes) (s : Server) :
    Roams learns forgets s (s.sendData dialed addr data) := by
  cases dialed with
  | true => exact ⟨rfl, .refl⟩
  | false => exact ⟨rfl, .single (.forget (h rfl))⟩

theorem roams_addNode {addr : Bytes} (h : learns addr) (s : Server) :
    Roams learns forgets s (s.addNode addr) := by
  rw [addNode]
  split
  · exact ⟨rfl, .refl⟩
  next hunknown =>
    refine ⟨rfl, .single (.learn h fun hmem ↦ hunknown ?_)⟩
    exact List.any_eq_true.2 ⟨addr, hmem, decide_eq_true rfl⟩

/-- **What an act can do to the known nodes.** -/
theorem Act.roams {given : Given} (h : Act rt w given s s') :
    Roams given.names given.fails s s' := by
  cases h with
  | tell hfail _ => exact roams_sendData hfail _ s
  | @ask kind id transit _ _ hfail _ _ =>
    have hasked : Roams given.names given.fails { s with blocksInTransit := transit } _ :=
      roams_sendData hfail ((Packet.getData kind id).encode rt w s.nodeAddress) _
    exact ⟨hasked.nodeAddress, hasked.moves⟩
  | learn hnamed => exact roams_addNode hnamed s
  | received => exact ⟨rfl, .refl⟩
  | admitted => exact ⟨rfl, .refl⟩
  | mined => exact ⟨rfl, .refl⟩
  | evicted => exact ⟨rfl, .refl⟩
  | indexed => exact ⟨rfl, .refl⟩

theorem Acts.roams {given : Given} (h : Acts rt w given s s') :
    Roams given.names given.fails s s' := by
  induction h with
  | refl => exact ⟨rfl, .refl⟩
  | tail _ hlast ih => exact ih.trans hlast.roams

/-! ### Runs -/

/-- What happens to a node. -/
inductive Event
  /-- Bytes arrive over a connection. -/
  | connection (env : ConnEnv) (conn : Bytes)
  /-- A client submits a transaction. -/
  | submit (dial : ℕ → Bytes → Bool) (tx : Transaction)

/-- The event names the node. -/
def Event.Names (w : Wire) (a : Bytes) : Event → Prop
  | .connection _ conn => Heard w conn a
  | .submit _ _ => False

/-- An attempt to reach the node fails. -/
def Event.Fails (a : Bytes) : Event → Prop
  | .connection env _ => Unreachable env a
  | .submit dial _ => ∃ n, dial n a = false

/-- The node serves an event and returns. -/
inductive Handles (rt : Runtime) (w : Wire) (s : Server) : Event → Server → Prop
  | connection {env : ConnEnv} {conn : Bytes} {s' : Server} :
      s.handleConnection rt w env conn = .ok s' → Handles rt w s (.connection env conn) s'
  | submit {dial : ℕ → Bytes → Bool} {tx : Transaction} {r : Except Err Unit} {s' : Server} :
      s.submitTransaction rt w dial tx = .ok (r, s') → Handles rt w s (.submit dial tx) s'

/-- The node serves events one after another. -/
def Run (rt : Runtime) (w : Wire) : Server → List Event → Server → Prop
  | s, [], s' => s' = s
  | s, e :: es, s' => ∃ t, Handles rt w s e t ∧ Run rt w t es s'

theorem Run.of_append {es es' : List Event} :
    ∀ {s : Server}, Run rt w s (es ++ es') s' → ∃ t, Run rt w s es t ∧ Run rt w t es' s' := by
  induction es with
  | nil => exact fun h ↦ ⟨_, rfl, h⟩
  | cons e es ih =>
    rintro s ⟨t, hevent, hrest⟩
    obtain ⟨u, hu, hrest⟩ := ih hrest
    exact ⟨u, ⟨t, hevent, hu⟩, hrest⟩

theorem roams_handles {e : Event} (h : Handles rt w s e s') :
    Roams (fun a ↦ e.Names w a) (fun a ↦ e.Fails a) s s' := by
  cases h with
  | connection hok => exact (acts_handleConnection hok).roams
  | submit hok =>
    obtain ⟨-, -, rfl⟩ | ⟨-, -, hacts⟩ := acts_submitTransaction hok
    · exact ⟨rfl, .refl⟩
    · exact hacts.roams

/-- **The known nodes over a run** are those of a roster. -/
theorem roams_run {es : List Event} (h : Run rt w s es s') :
    Roams (fun a ↦ ∃ e ∈ es, e.Names w a) (fun a ↦ ∃ e ∈ es, e.Fails a) s s' := by
  induction es generalizing s with
  | nil =>
    obtain rfl : s' = s := h
    exact ⟨rfl, .refl⟩
  | cons e es ih =>
    obtain ⟨t, hevent, hrest⟩ := h
    refine ((roams_handles hevent).mono (fun a ha ↦ ?_) fun a ha ↦ ?_).trans
      ((ih hrest).mono (fun a ha ↦ ?_) fun a ha ↦ ?_)
    · exact ⟨e, List.mem_cons_self, ha⟩
    · exact ⟨e, List.mem_cons_self, ha⟩
    · obtain ⟨e', he', ha⟩ := ha
      exact ⟨e', List.mem_cons_of_mem _ he', ha⟩
    · obtain ⟨e', he', ha⟩ := ha
      exact ⟨e', List.mem_cons_of_mem _ he', ha⟩

variable {nodeID minerAddress : Bytes} {bc : Blockchain} {es es' : List Event}

/-- **The known nodes of a server.** After any messages and submissions no node is listed twice, and
every listed node is the first one or was named in a message. A node that was listed at some point
and could be reached ever since is still listed. -/
theorem knownNodes_of_run (h : Run rt w (newServer nodeID minerAddress bc) (es ++ es') s') :
    s'.knownNodes.Nodup ∧
    (∀ a ∈ s'.knownNodes, a = ascii "localhost:3000" ∨ ∃ e ∈ es ++ es', e.Names w a) ∧
    ∃ t, Run rt w (newServer nodeID minerAddress bc) es t ∧ Run rt w t es' s' ∧
      ∀ a ∈ t.knownNodes, (∀ e ∈ es', ¬ e.Fails a) → a ∈ s'.knownNodes := by
  have hroams := (roams_run h).moves
  refine ⟨hroams.nodup (List.nodup_singleton _), fun a ha ↦ ?_, ?_⟩
  · exact (hroams.mem_or_learns ha).imp_left List.mem_singleton.1
  · obtain ⟨t, ht, hrest⟩ := h.of_append
    refine ⟨t, ht, hrest, fun a ha hreach ↦ (roams_run hrest).moves.mem ?_ ha⟩
    rintro ⟨e, he, hfail⟩
    exact hreach e he hfail

/-- A peer names two nodes, one of which cannot be reached. -/
def sampleNaming : Event :=
  .connection (.calm fun a ↦ a ≠ ascii "localhost:8001") (commandToBytes "addr" ++
    Sample.wire.gobAddr.encode ⟨[ascii "localhost:8001", ascii "localhost:8002"]⟩)

theorem exists_run_sampleNaming :
    ∃ s', Run Sample.runtime Sample.wire (newServer (ascii "3000") [] Sample.chain) [sampleNaming]
      s' ∧ s'.knownNodes = [ascii "localhost:3000", ascii "localhost:8002"] := by
  have hsome : (Sample.returned ((newServer (ascii "3000") [] Sample.chain).handleConnection
      Sample.runtime Sample.wire (.calm fun a ↦ a ≠ ascii "localhost:8001")
      (commandToBytes "addr" ++ Sample.wire.gobAddr.encode
        ⟨[ascii "localhost:8001", ascii "localhost:8002"]⟩))).any
      (fun s' ↦ s'.knownNodes = [ascii "localhost:3000", ascii "localhost:8002"]) = true := by
    decide +kernel
  obtain ⟨s', hs', hnodes⟩ := (Option.any_eq_true _ _).1 hsome
  exact ⟨s', ⟨s', .connection (Sample.returned_eq_some hs'), rfl⟩, of_decide_eq_true hnodes⟩

/-- One of the nodes stays. -/
theorem knownNodes_of_run_sample :
    ∃ s' : Server, s'.knownNodes = [ascii "localhost:3000", ascii "localhost:8002"] ∧
      s'.knownNodes.Nodup ∧
      ∀ a ∈ s'.knownNodes, a = ascii "localhost:3000" ∨
        ∃ e ∈ [sampleNaming] ++ [], e.Names Sample.wire a := by
  obtain ⟨s', hrun, hnodes⟩ := exists_run_sampleNaming
  have hknown := knownNodes_of_run (show Run _ _ _ ([sampleNaming] ++ []) s' from hrun)
  exact ⟨s', hnodes, hknown.1, hknown.2.1⟩

/-- **The role of a node is settled from the start**: as long as the first node can be reached, it
comes first, and the node is the first one exactly if it was at the start. -/
theorem isFirstNode_of_run (h : Run rt w (newServer nodeID minerAddress bc) es s')
    (hreach : ∀ e ∈ es, ¬ e.Fails (ascii "localhost:3000")) :
    s'.knownNodes.head? = some (ascii "localhost:3000") ∧
      s'.isFirstNode = (newServer nodeID minerAddress bc).isFirstNode := by
  have hroams := roams_run h
  have hhead : s'.knownNodes.head? = some (ascii "localhost:3000") := by
    refine hroams.moves.head? ?_ rfl
    rintro ⟨e, he, hfail⟩
    exact hreach e he hfail
  refine ⟨hhead, ?_⟩
  rw [isFirstNode, isFirstNode, hhead, hroams.nodeAddress]
  rfl

/-- The first node stays the first. -/
theorem isFirstNode_of_run_sample :
    ∃ s' : Server, s'.knownNodes = [ascii "localhost:3000", ascii "localhost:8002"] ∧
      s'.knownNodes.head? = some (ascii "localhost:3000") ∧ s'.isFirstNode = true := by
  obtain ⟨s', hrun, hnodes⟩ := exists_run_sampleNaming
  have hreach : ∀ e ∈ [sampleNaming], ¬ e.Fails (ascii "localhost:3000") := by
    have hup : ¬ decide (ascii "localhost:3000" ≠ ascii "localhost:8001") = false := by decide
    rintro e he
    obtain rfl := List.mem_singleton.1 he
    rintro (⟨n, hfail⟩ | ⟨round, n, hfail⟩)
    · exact hup hfail
    · exact hup hfail
  obtain ⟨hhead, hfirst⟩ := isFirstNode_of_run hrun hreach
  exact ⟨s', hnodes, hhead, hfirst.trans (by decide)⟩

end GoBlockchain.Server
