import Cimabue.Support.Bytes
import Cimabue.Model.Tokenizer

/-!
# Model — Message

`libcimabue/src/message/Message.h` and `Message.cpp`: the fields of a message, its text
(`serialize`, `deserialize`), what `Recv` makes of the bytes a peer sends, and `Send`.

A peer is the list of the bytes it sends before it closes its side; after them `recv` returns 0,
or -1 when the connection breaks or times out, and `Recv` leaves by the same return either way.
The logging, the `id` nothing sets and the constructor from a text, which nothing calls, are left
out.
-/

namespace Cimabue

/-- `RET_SUCCESS`, `RET_ERROR` and `NODE_RET_DESTINATION_IS_NOT_ME` (`NODE_RET_ERROR` is
`RET_ERROR`). -/
inductive Ret where
  | success
  | error
  | destinationIsNotMe
deriving DecidableEq, Repr

/-- `message_t`. -/
inductive MessageType where
  /-- `MSG_NONE` -/
  | none
  /-- `MSG_ADD_CLIENT` -/
  | addClient
  /-- `MSG_REM_CLIENT` -/
  | remClient
  /-- `MSG_SEND_MESSAGE` -/
  | sendMessage
  /-- `MSG_UPDATE_ADD_CLIENTS` -/
  | updateAddClients
  /-- `MSG_UPDATE_REM_CLIENTS` -/
  | updateRemClients
  /-- `MSG_SET_CLIENT_LIST` -/
  | setClientList
  /-- `MSG_PING_CLIENT` -/
  | pingClient
  /-- `MSG_USER` -/
  | user
  /-- `MSG_ERROR` -/
  | error
deriving DecidableEq, Repr

/-- `message_priority_t`. -/
inductive MessagePriority where
  | low
  | normal
  | high
  | critical
deriving DecidableEq, Repr

/-- `MSG_BUFFER_SIZE`. -/
def msgBufferSize : Nat := 4096

/-- The character of `MSG_SEPARATOR`. -/
def msgSeparator : Byte := ch '-'

/-- `MSG_VOID`. -/
def msgVoid : Bytes := lit " "

/-- The character of `MSG_END`. -/
def msgEnd : Byte := ch '|'

/-- A message; the defaults are those of `Message()`. -/
structure Message where
  type : MessageType := .none
  clientSrc : Bytes := msgVoid
  clientDest : Bytes := msgVoid
  serverSrc : Bytes := msgVoid
  serverDest : Bytes := msgVoid
  data : Bytes := msgVoid
  priority : MessagePriority := .normal
deriving DecidableEq

/-! ### The text of a message -/

/-- `encodeType`. -/
def encodeType (s : Bytes) : MessageType :=
  if s = lit "MSG_ADD_CLIENT" then .addClient
  else if s = lit "MSG_UPDATE_ADD_CLIENTS" then .updateAddClients
  else if s = lit "MSG_UPDATE_REM_CLIENTS" then .updateRemClients
  else if s = lit "MSG_REM_CLIENT" then .remClient
  else if s = lit "MSG_USER" then .user
  else if s = lit "MSG_SEND_MESSAGE" then .sendMessage
  else if s = lit "MSG_PING_CLIENT" then .pingClient
  else if s = lit "MSG_ERROR" then .error
  else .none

/-- `decodeType`. -/
def decodeType : MessageType → Bytes
  | .addClient => lit "MSG_ADD_CLIENT"
  | .updateAddClients => lit "MSG_UPDATE_ADD_CLIENTS"
  | .updateRemClients => lit "MSG_UPDATE_REM_CLIENTS"
  | .remClient => lit "MSG_REM_CLIENT"
  | .sendMessage => lit "MSG_SEND_MESSAGE"
  | .pingClient => lit "MSG_PING_CLIENT"
  | .user => lit "MSG_USER"
  | .error => lit "MSG_ERROR"
  | .none | .setClientList => lit "MSG_NONE"

/-- `encodePriority`, which ignores its argument. -/
def encodePriority (_ : Bytes) : MessagePriority := .normal

/-- `decodePriority`, which ignores its argument. -/
def decodePriority (_ : MessagePriority) : Bytes := lit "MSG_PRIORITY_NORMAL"

namespace Message

/-- `serialize`. -/
def serialize (m : Message) : Bytes :=
  decodeType m.type
    ++ ([msgSeparator] ++ m.clientSrc)
    ++ ([msgSeparator] ++ m.clientDest)
    ++ ([msgSeparator] ++ m.serverSrc)
    ++ ([msgSeparator] ++ m.serverDest)
    ++ ([msgSeparator] ++ m.data)
    ++ ([msgSeparator] ++ decodePriority m.priority)
    ++ [msgEnd]

/-- `deserialize`: seven tokens are taken from the front of the list, the rest is dropped.  Every
field of the message is overwritten. -/
def deserialize (s : Bytes) : Except Fault Message := do
  let tokens ← tokenize msgSeparator s
  let (type, tokens) ← popFront tokens
  let (clientSrc, tokens) ← popFront tokens
  let (clientDest, tokens) ← popFront tokens
  let (serverSrc, tokens) ← popFront tokens
  let (serverDest, tokens) ← popFront tokens
  let (data, tokens) ← popFront tokens
  let (priority, _) ← popFront tokens
  pure { type := encodeType type, clientSrc, clientDest, serverSrc, serverDest, data,
         priority := encodePriority priority }

/-! ### Recv -/

/-- The loop of `Recv`, one byte at a time into a buffer with `room` bytes left: the bytes read,
none when the peer stops first. -/
def recvLoop : Nat → Bytes → Option Bytes
  | 0, _ => some []
  | _ + 1, [] => none
  | room + 1, b :: peer =>
      if b = msgEnd then some [b] else (recvLoop room peer).map (b :: ·)

/-- The text `Recv` hands to `deserialize`: the last byte read is overwritten by NUL, and
`string(recv_buf)` stops at the first NUL. -/
def received (peer : Bytes) : Option Bytes :=
  (recvLoop msgBufferSize peer).map fun buf => cstr (buf.set (buf.length - 1) 0)

/-- `Recv`, called on the message `m`: what it returns, and the message afterwards. -/
def recv (m : Message) (peer : Bytes) : Except Fault (Ret × Message) :=
  match received peer with
  | none => .ok (.error, m)
  | some text => do
      let m' ← deserialize text
      pure (.success, m')

/-! ### Send -/

/-- What the system calls of `Send` come to. -/
inductive Transport where
  /-- `socket()` fails. -/
  | noSocket
  /-- `connect()` fails. -/
  | noConnection
  /-- `send()` does not take the whole text. -/
  | shortSend
  /-- The text is sent; `peer` is what the other side sends back before it closes. -/
  | exchanged (peer : Bytes)
deriving DecidableEq

/-- The message `Send` makes up when it fails. -/
def errorMessage (text : Bytes) : Message := { type := .error, data := text }

/-- `Send`: the reply, or an error message. -/
def send : Transport → Except Fault Message
  | .noSocket => .ok (errorMessage (lit "Error creating socket"))
  | .noConnection => .ok (errorMessage (lit "Error connecting"))
  | .shortSend => .ok (errorMessage (lit "Error sending message"))
  | .exchanged peer => do
      let (ret, reply) ←
        recv { type := .none, clientSrc := [], clientDest := [], serverSrc := [], serverDest := [],
               data := [] } peer
      if ret = .success then pure reply
      else pure (errorMessage (lit "Error receiving reply"))

/-- `isErrorMessage`. -/
def isErrorMessage (m : Message) : Bool := m.type = .error

end Message

end Cimabue
