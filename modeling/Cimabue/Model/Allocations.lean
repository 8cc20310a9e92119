import Cimabue.Support.Allocation
import Cimabue.Model.Client
import Cimabue.Model.Server

/-!
# Model — Allocations

The functions of `Message.cpp`, `Node.cpp`, `CimabueServer.cpp` and `CimabueClient.cpp` that make
messages by `new` or a buffer by `malloc`, with the objects they make, use, delete and leave behind
(`Allocations`).  What they do besides is done as in the models of the message, the server and the
client: a message is where its pointer says, and the messages on the stack are no objects.

`Recv` returns without its `free` when the peer stops first; nothing deletes the message
`executeSendMessage` sends on, nor the replies to updates.
-/

namespace Cimabue

/-- What is allocated. -/
inductive Block where
  | message (m : Message)
  /-- The buffer of `Recv`. -/
  | buffer
deriving DecidableEq

namespace Allocations

/-- The message at `p`. -/
def message (p : Nat) : Alloc Block Fault Message := fun h =>
  match h.get p with
  | some (.message m) => .ok (m, h)
  | _ => .error .gone

/-! ### Messages -/

/-- `Recv`. -/
def recv (this : Nat) (peer : Bytes) : Alloc Block Fault Ret := do
  let recvBuf ← Alloc.new .buffer
  match Message.received peer with
  | none => pure .error
  | some text => do
      Alloc.delete recvBuf
      let m ← Alloc.lift (Message.deserialize text)
      Alloc.write this (.message m)
      pure .success

/-- `Send`: where the reply is. -/
def send : Message.Transport → Alloc Block Fault Nat
  | .noSocket => Alloc.new (.message (Message.errorMessage (lit "Error creating socket")))
  | .noConnection => Alloc.new (.message (Message.errorMessage (lit "Error connecting")))
  | .shortSend => Alloc.new (.message (Message.errorMessage (lit "Error sending message")))
  | .exchanged peer => do
      let reply ← Alloc.new (.message
        { type := .none, clientSrc := [], clientDest := [], serverSrc := [], serverDest := [],
          data := [] })
      let ret ← recv reply peer
      if ret = .success then pure reply
      else do
        Alloc.delete reply
        Alloc.new (.message (Message.errorMessage (lit "Error receiving reply")))

/-- `HandleTCPRequest`: where the message it queues is. -/
def handleTCPRequest (peer : Bytes) : Alloc Block Fault Nat := do
  let msg ← Alloc.new (.message {})
  let _ ← recv msg peer
  pure msg

/-! ### The server -/

/-- `executeAddClient`: the server, and where the answer is. -/
def executeAddClient (env : Env) (s : Server) (msg : Message) : Alloc Block Fault (Server × Nat) := do
  let (s, reply) ← Alloc.lift (s.executeAddClient env msg)
  let answer ← Alloc.new (.message reply)
  pure (s, answer)

/-- `executeSendMessage`: where the answer is, and what was sent on. -/
def executeSendMessage (env : Env) (s : Server) (msg : Message) :
    Alloc Block Fault (Nat × List Effect) := do
  match ← Alloc.lift (s.forward msg) with
  | none => do
      let answer ← Alloc.new (.message { type := .error, data := lit "DESTINATION NOT FOUND" })
      pure (answer, [])
  | some p => do
      let forwardMsg ← Alloc.new (.message {})
      -- `copyTo`, and the two server fields
      Alloc.write forwardMsg (.message p.msg)
      let reply ← send (env.exchange p)
      pure (reply, [.send p])

/-- The loop of `updateClientListAdd` and `updateClientListRem`. -/
def sendUpdates (env : Env) (update : Bytes → Except Fault (Option Message)) :
    List ((_ : Bytes) × Bytes) → Alloc Block Fault (List Packet)
  | [] => pure []
  | ⟨client, address⟩ :: rest => do
      match ← Alloc.lift (update client) with
      | none => sendUpdates env update rest
      | some msg => do
          match ← Alloc.lift (parseAddress address) with
          | none => sendUpdates env update rest
          | some (ip, port) => do
              let _ ← send (env.exchange { ip, port, msg })
              let sent ← sendUpdates env update rest
              pure ({ ip, port, msg } :: sent)

/-- `updateClientListAdd`. -/
def updateClientListAdd (env : Env) (s : Server) (msg : Message) : Alloc Block Fault (List Packet) :=
  sendUpdates env (s.updateAdd msg) s.clientNameToIPMap.entries

/-- `updateClientListRem`. -/
def updateClientListRem (env : Env) (s : Server) (nodeName : Bytes) :
    Alloc Block Fault (List Packet) :=
  sendUpdates env (s.updateRem nodeName) s.clientNameToIPMap.entries

/-- The answer is sent and deleted: what it is, and the return value. -/
def replied (env : Env) (answer : Nat) : Alloc Block Fault (Message × Ret) := do
  let a ← message answer
  Alloc.delete answer
  pure (a, env.replyRet a)

/-- `processDownMessage` of a server, for the message at `msg`. -/
def Server.processDownMessage (env : Env) (s : Server) (msg : Nat) :
    Alloc Block Fault (Server × List Effect × Ret) := do
  let m ← message msg
  match s.request m with
  | .add => do
      let (s, answer) ← executeAddClient env s m
      let (a, ret) ← replied env answer
      let sent ← updateClientListAdd env s m
      pure (s, [.reply a, .close] ++ sent.map .send, ret)
  | .wrongDestination => do
      let answer ← Alloc.new (.message { type := .error })
      -- `setErrorMessage`
      Alloc.write answer (.message { type := .error, data := lit "Wrong destination" })
      let (a, ret) ← replied env answer
      pure (s, [.reply a, .close], ret)
  | .send => do
      let (answer, effects) ← executeSendMessage env s m
      let (a, ret) ← replied env answer
      pure (s, effects ++ [.reply a, .close], ret)
  | .unknown => pure (s, [.close], .error)

/-- `processUpMessage` of a server. -/
def Server.processUpMessage (s : Server) (msg : Nat) :
    Alloc Block Fault (Server × List Effect × Ret) := do
  let m ← message msg
  pure (s.processUpMessage m)

/-- One turn of the ping loop of `do_pingClient`. -/
def pingClient (env : Env) (s : Server) (client address : Bytes) : Alloc Block Fault Server := do
  let p ← Alloc.lift (s.ping client address)
  let pong ← send (env.exchange p)
  let m ← message pong
  let s ← Alloc.lift (if m.isErrorMessage then pure s else s.recordPong client env.now)
  Alloc.delete pong
  pure s

/-- The body of the sweep of `do_pingClient`. -/
def sweepClient (env : Env) (s : Server) (client : Bytes) : Alloc Block Fault Server :=
  if s.timedOut client env.now then do
    let _ ← updateClientListRem env s client
    pure (s.removeClient client)
  else pure s

/-! ### The client -/

/-- A handler of a client, which makes no objects, for the message at `msg`. -/
def Client.processDownMessage (c : Client) (msg : Nat) :
    Alloc Block Fault (Client × List Effect × Ret) := do
  let m ← message msg
  Alloc.lift (c.processDownMessage m)

/-- `processUpMessage` of a client. -/
def Client.processUpMessage (c : Client) (msg : Nat) :
    Alloc Block Fault (Client × List Effect × Ret) := do
  let m ← message msg
  pure (c.processUpMessage m)

/-- `sendMessage`. -/
def sendMessage (env : Env) (c : Client) (dest content : Bytes) :
    Alloc Block Fault (Ret × List Effect) := do
  match c.chatPacket dest content with
  | none => pure (.error, [])
  | some p => do
      let reply ← send (env.exchange p)
      let m ← message reply
      -- the log takes the return value for the error message
      if m.isErrorMessage then Alloc.lift (.error .badPointer)
      else do
        Alloc.delete reply
        pure (.success, [.send p])

/-- A turn of the loop of `connectToServer`. -/
def connectTurn (c : Client) (t : Message.Transport) : Alloc Block Fault Client := do
  let ret ← send t
  let m ← message ret
  let c : Client :=
    if m.isErrorMessage then c
    else { c with server := m.serverSrc, connectedToServer := true }
  Alloc.delete ret
  pure c

end Allocations

end Cimabue
