import GoBlockchain.Network.Connection

/-!
# Messages

The bytes of the messages that the `send` functions of a server make: the command, filled up to its
length, and the payload. A `Packet` is what a message says, apart from the address of the sender.
-/

namespace GoBlockchain

/-- What inventories list. -/
inductive Item
  | block
  | tx
deriving DecidableEq

/-- The type in a message. -/
def Item.name : Item → String
  | .block => "block"
  | .tx => "tx"

/-- The commands of messages. -/
inductive Command
  | addr
  | block
  | inv
  | getBlocks
  | getData
  | tx
  | version
deriving DecidableEq

def Command.name : Command → String
  | .addr => "addr"
  | .block => "block"
  | .inv => "inv"
  | .getBlocks => "getblocks"
  | .getData => "getdata"
  | .tx => "tx"
  | .version => "version"

/-- What a node sends to another. -/
inductive Packet
  | block (b : Block)
  | inv (kind : Item) (items : List Bytes)
  | getBlocks
  | getData (kind : Item) (id : Bytes)
  | tx (tnx : Transaction)
  | version (bestHeight : Int64)

def Packet.command : Packet → Command
  | .block _ => .block
  | .inv _ _ => .inv
  | .getBlocks => .getBlocks
  | .getData _ _ => .getData
  | .tx _ => .tx
  | .version _ => .version

namespace Server

section Messages

variable (rt : Runtime) (w : Wire)

def versionMessage (bestHeight : Int64) (addrFrom : Bytes) : Bytes :=
  commandToBytes "version" ++ w.gobVersion.encode ⟨nodeVersion, bestHeight, addrFrom⟩

def getBlocksMessage (addrFrom : Bytes) : Bytes :=
  commandToBytes "getblocks" ++ w.gobGetBlocks.encode ⟨addrFrom⟩

/-- The message that announces items of a kind. -/
def itemsMessage (kind : Item) (addrFrom : Bytes) (items : List Bytes) : Bytes :=
  commandToBytes "inv" ++ w.gobInv.encode ⟨addrFrom, ascii kind.name, items⟩

abbrev invMessage (addrFrom : Bytes) (hashes : List Bytes) : Bytes :=
  itemsMessage w .block addrFrom hashes

abbrev txInvMessage (addrFrom id : Bytes) : Bytes :=
  itemsMessage w .tx addrFrom [id]

/-- The message that asks for an item of a kind. -/
def itemRequest (kind : Item) (addrFrom id : Bytes) : Bytes :=
  commandToBytes "getdata" ++ w.gobGetData.encode ⟨addrFrom, ascii kind.name, id⟩

abbrev getDataMessage (addrFrom hash : Bytes) : Bytes :=
  itemRequest w .block addrFrom hash

abbrev txGetDataMessage (addrFrom id : Bytes) : Bytes :=
  itemRequest w .tx addrFrom id

def blockMessage (addrFrom : Bytes) (b : Block) : Bytes :=
  commandToBytes "block" ++ w.gobBlock.encode ⟨addrFrom, b.serialize rt⟩

def txMessage (addrFrom : Bytes) (tx : Transaction) : Bytes :=
  commandToBytes "tx" ++ w.gobTx.encode ⟨addrFrom, tx.serialize rt⟩

end Messages

end Server

open Server

/-- The bytes of a message. -/
def Packet.encode (rt : Runtime) (w : Wire) (addrFrom : Bytes) : Packet → Bytes
  | .block b => blockMessage rt w addrFrom b
  | .inv kind items => itemsMessage w kind addrFrom items
  | .getBlocks => getBlocksMessage w addrFrom
  | .getData kind id => itemRequest w kind addrFrom id
  | .tx tnx => txMessage rt w addrFrom tnx
  | .version bestHeight => versionMessage w bestHeight addrFrom

variable {rt : Runtime} {w : Wire} {m : Packet} {a : Bytes}

/-! ### Reading messages back -/

theorem Command.eq_of_commandToBytes {c c' : Command}
    (h : commandToBytes c.name = commandToBytes c'.name) : c = c' := by
  revert h
  cases c <;> cases c' <;> decide

theorem Item.eq_block_of_name {kind : Item} (h : ascii kind.name = ascii "block") :
    kind = .block := by
  cases kind with
  | block => rfl
  | tx => exact absurd h (by decide)

/-- A message starts with its command. -/
theorem Packet.take_encode (rt : Runtime) (w : Wire) (a : Bytes) (m : Packet) :
    (m.encode rt w a).take commandLength = commandToBytes m.command.name := by
  cases m <;> exact List.take_left' (length_commandToBytes _)

/-- An announcement can be told from every other message. -/
theorem Packet.eq_inv_of_encode_eq {a' : Bytes} {kind : Item} {items : List Bytes}
    (h : m.encode rt w a = Packet.encode rt w a' (.inv kind items)) : m = .inv kind items := by
  have hcommand := congrArg (List.take commandLength) h
  rw [Packet.take_encode, Packet.take_encode] at hcommand
  cases m with
  | inv kind' items' =>
    have hdecode := congrArg w.gobInv.decode (List.append_cancel_left h)
    rw [w.gobInv.decode_encode, w.gobInv.decode_encode] at hdecode
    obtain ⟨-, hkind, rfl⟩ := InvPayload.mk.inj (Option.some.inj hdecode)
    cases kind' <;> cases kind <;> first | rfl | exact absurd hkind (by decide)
  | block | getBlocks | getData | tx | version => cases Command.eq_of_commandToBytes hcommand

/-- The transaction of a message is read back, up to the form of its ID. -/
theorem Server.decodeTx_txMessage (rt : Runtime) (w : Wire) (addrFrom : Bytes) (tx : Transaction) :
    decodeTx rt w (txMessage rt w addrFrom tx) = .ok (some (addrFrom, tx.canon)) := by
  have hdecode : Transaction.deserializeTransaction rt (tx.serialize rt) = .ok tx.canon := by
    simp only [Transaction.deserializeTransaction, Transaction.serialize,
      rt.gobTransaction.decode_encode]
  rw [decodeTx, txMessage, if_neg (by simp [length_commandToBytes]),
    List.drop_left' (length_commandToBytes "tx"), w.gobTx.decode_encode]
  simp only [id_eq, hdecode]

end GoBlockchain
