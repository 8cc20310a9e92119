import Cimabue.Model.Message

/-!
# Model — Node

`libcimabue/src/nodes/Node.cpp`: the parsers of the text `nickname:address:port` under which a
client registers, and what a node does to the world while it handles a message (`Effect`,
`Env`).

A parser that returns `false` leaves its outputs as they were; here it returns none, and a caller
that reads the port all the same reads an unset variable.  `parseNicknameAndName`, which nothing
calls, is left out.
-/

namespace Cimabue

/-- The separator of `tokenizeClientData`. -/
def dataSeparator : Byte := ch ':'

/-- `tokenizeClientData`: the tokens, none when there are none. -/
def tokenizeClientData (data : Bytes) : Except Fault (Option (List Bytes)) := do
  let tokens ← tokenize dataSeparator data
  pure (if tokens.length > 0 then some tokens else none)

/-- `parseNickname`. -/
def parseNickname (nodeData : Bytes) : Except Fault Bytes := do
  match ← tokenizeClientData nodeData with
  | none => pure []
  | some tokens => do
      let (nickname, _) ← popFront tokens
      pure nickname

/-- `parseAddress`: the address and the port. -/
def parseAddress (nodeAddress : Bytes) : Except Fault (Option (Bytes × Nat)) := do
  match ← tokenizeClientData nodeAddress with
  | none => pure none
  | some tokens => do
      let (_, tokens) ← popFront tokens
      let (address, tokens) ← popFront tokens
      let (port, _) ← popFront tokens
      pure (some (address, toUInt32 (atoi port)))

/-- `parseNicknameAndAddress`: the nickname, the address and the port. -/
def parseNicknameAndAddress (nodeAddress : Bytes) : Except Fault (Option (Bytes × Bytes × Nat)) := do
  match ← tokenizeClientData nodeAddress with
  | none => pure none
  | some tokens => do
      let (nickname, tokens) ← popFront tokens
      let (address, tokens) ← popFront tokens
      let (port, _) ← popFront tokens
      pure (some (nickname, address, toUInt32 (atoi port)))

/-! ### Effects -/

/-- A message on its way to an address. -/
structure Packet where
  ip : Bytes
  port : Nat
  msg : Message
deriving DecidableEq

/-- The events of `Event.h` that a client's handlers build. -/
inductive Event where
  /-- `EventMessage` -/
  | message (nickname content : Bytes)
  /-- `EventUpdateAdd` -/
  | updateAdd (nickname : Bytes)
  /-- `EventUpdateRem` -/
  | updateRem (nickname : Bytes)
deriving DecidableEq

/-- What a handler does besides changing its node. -/
inductive Effect where
  /-- `Send` -/
  | send (p : Packet)
  /-- `Reply`, on the socket the message came from -/
  | reply (m : Message)
  /-- `close`, of the socket the message came from -/
  | close
  /-- `updateViews` -/
  | notify (e : Event)
deriving DecidableEq

/-- What the world answers a handler. -/
structure Env where
  /-- The clock. -/
  now : Int := 0
  /-- What the system calls of `Send` come to, for each packet. -/
  exchange : Packet → Message.Transport := fun _ => .noConnection
  /-- Whether `Reply` gets its whole text sent. -/
  replied : Message → Bool := fun _ => true

/-- The return value of `Reply`. -/
def Env.replyRet (env : Env) (m : Message) : Ret := if env.replied m then .success else .error

/-- What `HandleTCPRequest` queues: the message after `Recv`, whose return value it drops. -/
def receive (peer : Bytes) : Except Fault Message := do
  let (_, m) ← Message.recv {} peer
  pure m

end Cimabue
