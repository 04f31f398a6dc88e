import GoBlockchain.Network.Messages

/-!
# Two nodes and their messages

`Net` is a node and a peer with the messages under way. The oldest message is handled to its end
before the next, and what a handler sends joins the queue; nothing else happens in between. An
exchange that ends is determined (`run_unique`).

For each message of a block download there is a lemma that says what its handler does, for messages
within the limit of a connection.
-/

namespace GoBlockchain

/-! ### Two nodes and the messages between them -/

/-- A node, its peer, and the messages under way with their addresses, oldest first. -/
structure Net where
  node : Server
  peer : Server
  queue : List (Bytes × Bytes)

namespace Net

/-- What a server has sent since. -/
def newlySent (before after : Server) : List (Bytes × Bytes) :=
  after.sent.drop before.sent.length

section Exchange

variable (rt : Runtime) (w : Wire) (nodeEnv peerEnv : ConnEnv)

/-- Handle the oldest message; what it causes to be sent joins the queue. -/
def step (net : Net) : Go Net :=
  match net.queue with
  | [] => .ok net
  | (addr, data) :: rest =>
    if addr = net.node.nodeAddress then
      match net.node.handleConnection rt w nodeEnv data with
      | .error e => .error e
      | .ok s => .ok ⟨s, net.peer, rest ++ newlySent net.node s⟩
    else if addr = net.peer.nodeAddress then
      match net.peer.handleConnection rt w peerEnv data with
      | .error e => .error e
      | .ok s => .ok ⟨net.node, s, rest ++ newlySent net.peer s⟩
    else .ok { net with queue := rest } -- to a third node

/-- Handle so many messages. -/
def run : ℕ → Net → Go Net
  | 0, net => .ok net
  | n + 1, net =>
    match net.step rt w nodeEnv peerEnv with
    | .error e => .error e
    | .ok net' => run n net'

/-- The peer sends its version to the node. -/
def start (node peer : Server) : Net :=
  let peer' := peer.sendVersion rt w (peerEnv.dial 0 node.nodeAddress) node.nodeAddress
  ⟨node, peer', newlySent peer peer'⟩

end Exchange

variable {rt : Runtime} {w : Wire} {nodeEnv peerEnv : ConnEnv} {net net' net'' : Net}

theorem run_add {m n : ℕ} (hm : net.run rt w nodeEnv peerEnv m = .ok net')
    (hn : net'.run rt w nodeEnv peerEnv n = .ok net'') :
    net.run rt w nodeEnv peerEnv (m + n) = .ok net'' := by
  induction m generalizing net with
  | zero =>
    obtain rfl := Except.ok.inj hm
    rwa [Nat.zero_add]
  | succ m ih =>
    rw [Nat.succ_add]
    rw [run] at hm ⊢
    rcases hstep : net.step rt w nodeEnv peerEnv with e | net₁
    · simp only [hstep, reduceCtorEq] at hm
    · simp only [hstep] at hm ⊢
      exact ih hm

theorem run_of_queue_nil (h : net.queue = []) (n : ℕ) :
    net.run rt w nodeEnv peerEnv n = .ok net := by
  have hstep : net.step rt w nodeEnv peerEnv = .ok net := by
    rw [step, h]
  induction n with
  | zero => rfl
  | succ n ih => rw [run, hstep]; exact ih

/-- The end of an exchange is determined. -/
theorem run_unique {m n : ℕ} (hm : net.run rt w nodeEnv peerEnv m = .ok net')
    (hn : net.run rt w nodeEnv peerEnv n = .ok net'') (hqueue : net'.queue = [])
    (hqueue' : net''.queue = []) : net' = net'' := by
  have h₁ := run_add hm (run_of_queue_nil hqueue n)
  have h₂ := run_add hn (run_of_queue_nil hqueue' m)
  rw [Nat.add_comm, h₁] at h₂
  exact Except.ok.inj h₂

variable {node peer s : Server} {data : Bytes} {sent : List (Bytes × Bytes)}

theorem step_node (hhandle : node.handleConnection rt w nodeEnv data = .ok s)
    (hsent : s.sent = node.sent ++ sent) :
    (⟨node, peer, [(node.nodeAddress, data)]⟩ : Net).run rt w nodeEnv peerEnv 1 =
      .ok ⟨s, peer, sent⟩ := by
  simp [run, step, hhandle, newlySent, hsent]

theorem step_peer (hne : node.nodeAddress ≠ peer.nodeAddress)
    (hhandle : peer.handleConnection rt w peerEnv data = .ok s)
    (hsent : s.sent = peer.sent ++ sent) :
    (⟨node, peer, [(peer.nodeAddress, data)]⟩ : Net).run rt w nodeEnv peerEnv 1 =
      .ok ⟨node, s, sent⟩ := by
  simp [run, step, hhandle, newlySent, hsent, hne.symm]

end Net

/-! ### The messages of the exchange -/

namespace Server

variable {rt : Runtime} {w : Wire} {env : ConnEnv} {s : Server} {addrFrom : Bytes}

theorem sendData_true (addr data : Bytes) (s : Server) :
    s.sendData true addr data = { s with sent := s.sent ++ [(addr, data)] } := rfl

/-- A node that is lower asks for the hashes. -/
theorem handle_version {myBestHeight bestHeight : Int64}
    (hsize : (versionMessage w bestHeight addrFrom).length ≤ maxMsgSize)
    (hdial : env.dial 0 addrFrom = true) (hbest : s.bc.getBestHeight rt = .ok myBestHeight)
    (hlt : myBestHeight < bestHeight) :
    s.handleConnection rt w env (versionMessage w bestHeight addrFrom) =
      .ok ({ s with sent := s.sent ++ [(addrFrom, getBlocksMessage w s.nodeAddress)] }.addNode
        addrFrom) := by
  have hcommand : bytesToCommand (commandToBytes "version") = ascii "version" := by decide
  rw [versionMessage, handleConnection_message hsize, hcommand]
  show s.handleVersion rt w env _ = _
  simp only [handleVersion, payloadOf_message, hbest, if_pos hlt, hdial, sendGetBlocks,
    sendData_true, getBlocksMessage]

/-- The hashes of the chain are announced. -/
theorem handle_getBlocks {hashes : List Bytes}
    (hsize : (getBlocksMessage w addrFrom).length ≤ maxMsgSize)
    (hdial : env.dial 0 addrFrom = true) (hhashes : s.bc.getBlockHashes rt = .ok hashes) :
    s.handleConnection rt w env (getBlocksMessage w addrFrom) =
      .ok { s with sent := s.sent ++ [(addrFrom, invMessage w s.nodeAddress hashes)] } := by
  have hcommand : bytesToCommand (commandToBytes "getblocks") = ascii "getblocks" := by decide
  rw [getBlocksMessage, handleConnection_message hsize, hcommand]
  show s.handleGetBlocks rt w env _ = _
  simp only [handleGetBlocks, payloadOf_message, hhashes, hdial, sendInv, sendData_true,
    itemsMessage, Item.name]

/-- The first announced block is asked for, and the others are in transit. -/
theorem handle_inv {hash : Bytes} {hashes : List Bytes} (hmem : hash ∉ hashes)
    (hsize : (invMessage w addrFrom (hash :: hashes)).length ≤ maxMsgSize)
    (hdial : env.dial 0 addrFrom = true) :
    s.handleConnection rt w env (invMessage w addrFrom (hash :: hashes)) =
      .ok { s with
        blocksInTransit := hashes
        sent := s.sent ++ [(addrFrom, getDataMessage w s.nodeAddress hash)] } := by
  have hcommand : bytesToCommand (commandToBytes "inv") = ascii "inv" := by decide
  have hfilter : (hash :: hashes).filter (fun b ↦ b ≠ hash) = hashes := by
    rw [List.filter_cons_of_neg (by simp), List.filter_eq_self]
    intro b hb
    exact decide_eq_true fun heq ↦ hmem (heq ▸ hb)
  rw [invMessage, itemsMessage, handleConnection_message hsize, hcommand]
  show s.handleInv w env _ = _
  simp only [handleInv, payloadOf_message, Item.name, if_true, hfilter, hdial, sendGetData,
    sendData_true, itemRequest]

/-- A block that is asked for is sent. -/
theorem handle_getData {hash : Bytes} {b : Block}
    (hsize : (getDataMessage w addrFrom hash).length ≤ maxMsgSize)
    (hdial : env.dial 0 addrFrom = true) (hget : s.bc.getBlock rt hash = .ok b) :
    s.handleConnection rt w env (getDataMessage w addrFrom hash) =
      .ok { s with sent := s.sent ++ [(addrFrom, blockMessage rt w s.nodeAddress b)] } := by
  have hcommand : bytesToCommand (commandToBytes "getdata") = ascii "getdata" := by decide
  rw [getDataMessage, itemRequest, handleConnection_message hsize, hcommand]
  show s.handleGetData rt w env _ = _
  simp only [handleGetData, payloadOf_message, Item.name, if_true, hget, hdial, sendBlock,
    sendData_true, blockMessage]

/-- A block that arrives is added to the chain, if `AddBlock` takes it. -/
theorem handle_block {b : Block} {bc : Blockchain} (hcanon : b.canon = b)
    (hsize : (blockMessage rt w addrFrom b).length ≤ maxMsgSize)
    (hadd : s.bc.addBlock rt env.authorizedKeys b = .ok (.ok (), bc)) :
    s.handleConnection rt w env (blockMessage rt w addrFrom b) =
      nextInTransit rt w env addrFrom
        { s with bc := bc, mempool := evict s.mempool b.transactions } := by
  have hcommand : bytesToCommand (commandToBytes "block") = ascii "block" := by decide
  rw [blockMessage, handleConnection_message hsize, hcommand]
  show s.handleBlock rt w env _ = _
  simp only [handleBlock, payloadOf_message, deserializeBlock_serialize, hcanon, hadd]

end Server

end GoBlockchain
