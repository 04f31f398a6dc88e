import GoBlockchain.Network.Server

/-!
# Connections

The handlers of `server.go` for the other messages, and `handleConnection`, which reads a message
and calls the handler its command names. A message is a command of twelve bytes and the gob of a
payload; what cannot be decoded is dropped.

A connection is read up to a limit. A longer message is cut there, not refused, and what becomes of
it is up to the handler (`handleConnection_message` is about messages within the limit).

As before a handler runs to its end. `handleBlock` also cancels the node's own mining, which is up
to the surroundings here (`MineEnv`).
-/

namespace GoBlockchain

/-- The version of the protocol. -/
def nodeVersion : Int64 := 1

/-- The longest message that is read in full, 32 MB. -/
def maxMsgSize : ℕ := 32 * 2 ^ 20

/-- `bytesToCommand` drops the zeros. -/
def bytesToCommand (b : Bytes) : Bytes :=
  b.filter fun bt ↦ bt ≠ 0

/-- What the surroundings supply to a handler. -/
structure ConnEnv where
  /-- The keys of the authorities. -/
  authorizedKeys : List Bytes
  /-- Which connections can be made. -/
  dial : ℕ → Bytes → Bool
  /-- The order in which `Reindex` iterates its map. -/
  reindexOrder : MapOrder (Bytes × TXOutputs)
  /-- The rounds of the mining loop. -/
  rounds : ℕ → Server.RoundEnv

/-- Surroundings in which nothing goes wrong, but that not all nodes may be reached. -/
def ConnEnv.calm (reached : Bytes → Bool) : ConnEnv :=
  ⟨[], fun _ ↦ reached, .listed _, fun _ ↦ .calm reached⟩

namespace Server

variable (rt : Runtime) (w : Wire)

/-! ### Sending -/

/-- `sendBlock`. -/
def sendBlock (dialed : Bool) (addr : Bytes) (b : Block) (s : Server) : Server :=
  s.sendData dialed addr
    (commandToBytes "block" ++ w.gobBlock.encode ⟨s.nodeAddress, b.serialize rt⟩)

/-- `sendGetBlocks`. -/
def sendGetBlocks (dialed : Bool) (address : Bytes) (s : Server) : Server :=
  s.sendData dialed address (commandToBytes "getblocks" ++ w.gobGetBlocks.encode ⟨s.nodeAddress⟩)

/-- `sendGetData`. -/
def sendGetData (dialed : Bool) (address : Bytes) (kind : String) (id : Bytes) (s : Server) :
    Server :=
  s.sendData dialed address
    (commandToBytes "getdata" ++ w.gobGetData.encode ⟨s.nodeAddress, ascii kind, id⟩)

/-- `sendVersion`. -/
def sendVersion (dialed : Bool) (addr : Bytes) (s : Server) : Server :=
  match s.bc.getBestHeight rt with
  | .error _ => s
  | .ok bestHeight => s.sendData dialed addr
      (commandToBytes "version" ++ w.gobVersion.encode ⟨nodeVersion, bestHeight, s.nodeAddress⟩)

/-- `requestBlocks` asks all known nodes for their blocks. -/
def requestBlocks (dial : ℕ → Bytes → Bool) (s : Server) : Server :=
  s.knownNodes.zipIdx.foldl (fun s (node, i) ↦ s.sendGetBlocks w (dial i node) node) s

/-! ### Handlers -/

/-- The payload of a request, or `none` where it cannot be decoded. -/
def payloadOf {α : Type} (gob : Gob α id) (request : Bytes) : Go (Option α) :=
  if request.length < commandLength then .error (.panic "slice bounds out of range")
  else .ok (gob.decode (request.drop commandLength))

/-- Remember a node. -/
def addNode (addr : Bytes) (s : Server) : Server :=
  if s.knownNodes.any fun node ↦ node = addr then s
  else { s with knownNodes := s.knownNodes ++ [addr] }

/-- `handleAddr`. -/
def handleAddr (env : ConnEnv) (request : Bytes) (s : Server) : Go Server :=
  match payloadOf w.gobAddr request with
  | .error e => .error e
  | .ok none => .ok s
  | .ok (some payload) =>
    .ok ((payload.addrList.foldl (fun s newAddr ↦ s.addNode newAddr) s).requestBlocks w env.dial)

/-- What `handleBlock` does once the block is added: ask for the next block in transit, or rebuild
the index when there is none. -/
def nextInTransit (env : ConnEnv) (addrFrom : Bytes) (s : Server) : Go Server :=
  match s.blocksInTransit with
  | blockHash :: rest =>
    .ok ({ s with blocksInTransit := rest }.sendGetData w (env.dial 0 addrFrom) addrFrom "block"
      blockHash)
  | [] =>
    match UTXOSet.reindex rt env.reindexOrder s.bc with
    | .error e => .error e
    | .ok (_, bc) => .ok { s with bc := bc } -- an error of `Reindex` is only logged

/-- `handleBlock`. -/
def handleBlock (env : ConnEnv) (request : Bytes) (s : Server) : Go Server :=
  match payloadOf w.gobBlock request with
  | .error e => .error e
  | .ok none => .ok s
  | .ok (some payload) =>
    match deserializeBlock rt payload.block with
    | .error _ => .ok s
    | .ok b =>
      match s.bc.addBlock rt env.authorizedKeys b with
      | .error e => .error e
      | .ok (.error _, bc) => .ok { s with bc := bc }
      | .ok (.ok (), bc) =>
        { s with bc := bc, mempool := evict s.mempool b.transactions }.nextInTransit rt w env
          payload.addrFrom

/-- `handleInv`. -/
def handleInv (env : ConnEnv) (request : Bytes) (s : Server) : Go Server :=
  match payloadOf w.gobInv request with
  | .error e => .error e
  | .ok none => .ok s
  | .ok (some payload) =>
    match payload.items with
    | [] => .ok s
    | first :: _ =>
      if payload.type = ascii "block" then
        .ok ({ s with blocksInTransit := payload.items.filter fun b ↦ b ≠ first }.sendGetData w
          (env.dial 0 payload.addrFrom) payload.addrFrom "block" first)
      else if payload.type = ascii "tx" then
        if Hex.encode first ∈ s.mempool then .ok s
        else .ok (s.sendGetData w (env.dial 0 payload.addrFrom) payload.addrFrom "tx" first)
      else .ok s

/-- `handleGetBlocks`. -/
def handleGetBlocks (env : ConnEnv) (request : Bytes) (s : Server) : Go Server :=
  match payloadOf w.gobGetBlocks request with
  | .error e => .error e
  | .ok none => .ok s
  | .ok (some payload) =>
    match s.bc.getBlockHashes rt with
    | .error e => .error e
    | .ok blocks =>
      .ok (s.sendInv w (env.dial 0 payload.addrFrom) payload.addrFrom "block" blocks)

/-- `handleGetData`. -/
def handleGetData (env : ConnEnv) (request : Bytes) (s : Server) : Go Server :=
  match payloadOf w.gobGetData request with
  | .error e => .error e
  | .ok none => .ok s
  | .ok (some payload) =>
    if payload.type = ascii "block" then
      match s.bc.getBlock rt payload.id with
      | .error _ => .ok s
      | .ok block =>
        .ok (s.sendBlock rt w (env.dial 0 payload.addrFrom) payload.addrFrom block)
    else if payload.type = ascii "tx" then
      match s.mempool[Hex.encode payload.id]? with
      | none => .ok s
      | some tx => .ok (s.sendTx rt w (env.dial 0 payload.addrFrom) payload.addrFrom tx)
    else .ok s

/-- `handleVersion`. -/
def handleVersion (env : ConnEnv) (request : Bytes) (s : Server) : Go Server :=
  match payloadOf w.gobVersion request with
  | .error e => .error e
  | .ok none => .ok s
  | .ok (some payload) =>
    match s.bc.getBestHeight rt with
    | .error _ => .ok s
    | .ok myBestHeight =>
      let s :=
        if myBestHeight < payload.bestHeight then
          s.sendGetBlocks w (env.dial 0 payload.addrFrom) payload.addrFrom
        else if myBestHeight > payload.bestHeight then
          s.sendVersion rt w (env.dial 0 payload.addrFrom) payload.addrFrom
        else s
      .ok (s.addNode payload.addrFrom)

/-- The handlers by command. -/
def dispatch (env : ConnEnv) (command request : Bytes) (s : Server) : Go Server :=
  if command = ascii "addr" then s.handleAddr w env request
  else if command = ascii "block" then s.handleBlock rt w env request
  else if command = ascii "inv" then s.handleInv w env request
  else if command = ascii "getblocks" then s.handleGetBlocks rt w env request
  else if command = ascii "getdata" then s.handleGetData rt w env request
  else if command = ascii "tx" then (s.handleTx rt w env.dial env.rounds request).2
  else if command = ascii "version" then s.handleVersion rt w env request
  else .ok s -- unknown command received

/-- `handleConnection`, on all that is sent over a connection. -/
def handleConnection (env : ConnEnv) (conn : Bytes) (s : Server) : Go Server :=
  let request := conn.take maxMsgSize
  if request.length < commandLength then .ok s
  else s.dispatch rt w env (bytesToCommand (request.take commandLength)) request

/-- `Start`, once the listener is there and before connections are accepted: a node that is not the
first one tells the first one its version. -/
def start (dialed : Bool) (s : Server) : Server :=
  match s.knownNodes with
  | [] => s
  | first :: _ =>
    if s.nodeAddress ≠ first ∧ first ≠ [] then s.sendVersion rt w dialed first else s

/-! ### Messages within the limit -/

variable {rt w} {env : ConnEnv} {s : Server}

theorem length_commandToBytes (command : String) :
    (commandToBytes command).length = commandLength := by
  simp [commandToBytes, commandLength]

theorem payloadOf_message {α : Type} (gob : Gob α id) (command : String) (a : α) :
    payloadOf gob (commandToBytes command ++ gob.encode a) = .ok (some a) := by
  rw [payloadOf, if_neg (by simp [length_commandToBytes]),
    List.drop_left' (length_commandToBytes command), gob.decode_encode]
  rfl

/-- A message within the limit reaches the handler of its command as it was sent. -/
theorem handleConnection_message {command : String} {payload : Bytes}
    (hsize : (commandToBytes command ++ payload).length ≤ maxMsgSize) :
    s.handleConnection rt w env (commandToBytes command ++ payload) =
      s.dispatch rt w env (bytesToCommand (commandToBytes command))
        (commandToBytes command ++ payload) := by
  rw [handleConnection, List.take_of_length_le hsize]
  rw [if_neg (by simp [length_commandToBytes]), List.take_left' (length_commandToBytes command)]

end Server

end GoBlockchain
