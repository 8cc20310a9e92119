import Cimabue.Support.StdMap
import Cimabue.Model.Node

/-!
# Model — Server

`cimabue-server/src/CimabueServer.cpp`: the three maps of the registry, the handlers of the two
ports, the update messages, and the parts of the ping thread.

`executeAddClient` and `removeClient` are each three sections, one for each map and its mutex
(`addName`, `addPing`, `addNickname`; `eraseName`, `erasePing`, `eraseNickname`).  The server's
role, its list of servers and the mutexes are not data a handler here reads; the mutexes are in the
models of the threads.
-/

namespace Cimabue

/-- `CimabueServer`: the name, and the maps from a client's name to its address, to the time of its
last answer to a ping, and (under the name `clientNicknameToName`) to its nickname. -/
structure Server where
  name : Bytes
  clientNameToIPMap : StdMap Bytes Bytes := .empty
  clientPingList : StdMap Bytes Int := .empty
  clientNicknameToName : StdMap Bytes Bytes := .empty
deriving DecidableEq

namespace Server

/-! ### Registration -/

/-- `executeAddClient`, under `clientNameList_mutex`. -/
def addName (s : Server) (msg : Message) : Server :=
  { s with clientNameToIPMap := s.clientNameToIPMap.insert msg.clientSrc msg.data }

/-- `executeAddClient`, under `clientPingList_mutex`. -/
def addPing (s : Server) (msg : Message) (now : Int) : Server :=
  { s with clientPingList := s.clientPingList.insert msg.clientSrc now }

/-- `executeAddClient`, under `clientNicknameList_mutex`. -/
def addNickname (s : Server) (msg : Message) : Except Fault Server := do
  let nickname ← parseNickname msg.data
  pure { s with clientNicknameToName := s.clientNicknameToName.insert msg.clientSrc nickname }

/-- The reply of `executeAddClient`. -/
def addReply (s : Server) (msg : Message) : Message :=
  { type := .addClient, clientDest := msg.clientSrc, serverSrc := s.name, data := msg.data }

/-- `executeAddClient`. -/
def executeAddClient (env : Env) (s : Server) (msg : Message) : Except Fault (Server × Message) := do
  let s ← ((s.addName msg).addPing msg env.now).addNickname msg
  pure (s, s.addReply msg)

/-! ### Removal -/

/-- `removeClient`, under `clientNameList_mutex`. -/
def eraseName (s : Server) (clientName : Bytes) : Server :=
  { s with clientNameToIPMap := s.clientNameToIPMap.erase clientName }

/-- `removeClient`, under `clientPingList_mutex`. -/
def erasePing (s : Server) (clientName : Bytes) : Server :=
  { s with clientPingList := s.clientPingList.erase clientName }

/-- `removeClient`, under `clientNicknameList_mutex`. -/
def eraseNickname (s : Server) (clientName : Bytes) : Server :=
  { s with clientNicknameToName := s.clientNicknameToName.erase clientName }

/-- `removeClient`. -/
def removeClient (s : Server) (clientName : Bytes) : Server :=
  ((s.eraseName clientName).erasePing clientName).eraseNickname clientName

/-! ### Forwarding -/

/-- `haveClient`. -/
def haveClient (s : Server) (clientName : Bytes) : Bool :=
  (s.clientNameToIPMap.find clientName).isSome

/-- `getClientAddress`, which dereferences what `find` returns. -/
def getClientAddress (s : Server) (clientName : Bytes) : Except Fault Bytes :=
  match s.clientNameToIPMap.find clientName with
  | none => .error .endIterator
  | some address => .ok address

/-- `msg` as `executeSendMessage` sends it on: a copy with the two server fields set. -/
def forwarded (s : Server) (msg : Message) : Message :=
  { msg with serverSrc := s.name, serverDest := msgVoid }

/-- The packet `executeSendMessage` sends, none when the destination is not registered. -/
def forward (s : Server) (msg : Message) : Except Fault (Option Packet) := do
  if s.haveClient msg.clientDest then
    let address ← s.getClientAddress msg.clientDest
    -- what the parser returns is not looked at
    match ← parseNicknameAndAddress address with
    | none => .error .unsetVariable
    | some (_, ip, port) => pure (some { ip, port, msg := s.forwarded msg })
  else pure none

/-- `executeSendMessage`: the answer to the sender, and what was sent on. -/
def executeSendMessage (env : Env) (s : Server) (msg : Message) :
    Except Fault (Message × List Effect) := do
  match ← s.forward msg with
  | none => pure ({ type := .error, data := lit "DESTINATION NOT FOUND" }, [])
  | some p => do
      let reply ← Message.send (env.exchange p)
      pure (reply, [.send p])

/-! ### Updates -/

/-- The loop of `updateClientListAdd` and `updateClientListRem` over the registered clients, where
`update c` is the message for the client `c`: what is sent. -/
def sendUpdates (env : Env) (update : Bytes → Except Fault (Option Message)) :
    List ((_ : Bytes) × Bytes) → Except Fault (List Packet)
  | [] => pure []
  | ⟨client, address⟩ :: rest => do
      match ← update client with
      | none => sendUpdates env update rest
      | some msg => do
          -- a client whose address does not parse gets no update
          match ← parseAddress address with
          | none => sendUpdates env update rest
          | some (ip, port) => do
              let _ ← Message.send (env.exchange { ip, port, msg })
              let sent ← sendUpdates env update rest
              pure ({ ip, port, msg } :: sent)

/-- An `MSG_UPDATE_ADD_CLIENTS` or `MSG_UPDATE_REM_CLIENTS` message. -/
def updateMessage (s : Server) (type : MessageType) (client entry : Bytes) : Message :=
  { type, clientDest := client, serverSrc := s.name, data := entry }

/-- The entry that announces one client: `1:nickname:name`. -/
def newcomerEntry (nickname clientName : Bytes) : Bytes :=
  lit "1:" ++ nickname ++ lit ":" ++ clientName

/-- The entry that lists the clients `nicks`: their number, cast to `int`, then each nickname and
name. -/
def listEntry (nicks : StdMap Bytes Bytes) : Bytes :=
  decimalInt (toInt32 nicks.size) ++
    nicks.entries.flatMap fun e => lit ":" ++ e.2 ++ lit ":" ++ e.1

/-- The message of `updateClientListAdd` for `client`, after the registration `msg`. -/
def updateAdd (s : Server) (msg : Message) (client : Bytes) : Except Fault (Option Message) := do
  if client ≠ msg.clientSrc then
    let nickname ← parseNickname msg.data
    pure (some (s.updateMessage .updateAddClients client (newcomerEntry nickname msg.clientSrc)))
  else
    pure (some (s.updateMessage .updateAddClients msg.clientSrc (listEntry s.clientNicknameToName)))

/-- `updateClientListAdd`. -/
def updateClientListAdd (env : Env) (s : Server) (msg : Message) : Except Fault (List Packet) :=
  sendUpdates env (s.updateAdd msg) s.clientNameToIPMap.entries

/-- The message of `updateClientListRem` for `client`. -/
def updateRem (s : Server) (nodeName client : Bytes) : Except Fault (Option Message) :=
  if client ≠ nodeName then
    pure (some (s.updateMessage .updateRemClients client nodeName))
  else pure none

/-- `updateClientListRem`. -/
def updateClientListRem (env : Env) (s : Server) (nodeName : Bytes) : Except Fault (List Packet) :=
  sendUpdates env (s.updateRem nodeName) s.clientNameToIPMap.entries

/-! ### The handlers -/

/-- What `processDownMessage` does with a message. -/
inductive Request where
  | add
  | wrongDestination
  | send
  | unknown
deriving DecidableEq, Repr

/-- The branches of `processDownMessage`: a new client does not know the server's name. -/
def request (s : Server) (msg : Message) : Request :=
  if msg.type = .addClient then .add
  else if msg.serverDest ≠ s.name then .wrongDestination
  else match msg.type with
    | .sendMessage => .send
    | _ => .unknown

/-- `processDownMessage`: the server afterwards, what it did, and the return value. -/
def processDownMessage (env : Env) (s : Server) (msg : Message) :
    Except Fault (Server × List Effect × Ret) :=
  match s.request msg with
  | .add => do
      -- the newcomer is answered before the updates go out
      let (s, answer) ← s.executeAddClient env msg
      let sent ← s.updateClientListAdd env msg
      pure (s, [.reply answer, .close] ++ sent.map .send, env.replyRet answer)
  | .wrongDestination =>
      let answer : Message := { type := .error, data := lit "Wrong destination" }
      pure (s, [.reply answer, .close], env.replyRet answer)
  | .send => do
      let (answer, effects) ← s.executeSendMessage env msg
      pure (s, effects ++ [.reply answer, .close], env.replyRet answer)
  | .unknown => pure (s, [.close], .error)

/-- `processUpMessage`. -/
def processUpMessage (s : Server) (_ : Message) : Server × List Effect × Ret :=
  (s, [.close], .success)

/-! ### The ping thread -/

/-- The ping `do_pingClient` sends to a client, whose address it parses without looking at what
`parseAddress` returns. -/
def ping (s : Server) (client address : Bytes) : Except Fault Packet := do
  match ← parseAddress address with
  | none => .error .unsetVariable
  | some (ip, port) =>
      pure { ip, port, msg := { type := .pingClient, clientDest := client, serverSrc := s.name } }

/-- `do_pingClient`, under `clientPingList_mutex`, after an answer: a client that is not in the list
is logged, and the iterator is written through all the same. -/
def recordPong (s : Server) (client : Bytes) (now : Int) : Except Fault Server :=
  match s.clientPingList.find client with
  | none => .error .endIterator
  | some _ => .ok { s with clientPingList := s.clientPingList.assign client now }

/-- One turn of the ping loop of `do_pingClient`, at an entry of the address map. -/
def pingClient (env : Env) (s : Server) (client address : Bytes) : Except Fault Server := do
  let p ← s.ping client address
  let pong ← Message.send (env.exchange p)
  if pong.isErrorMessage then pure s
  else s.recordPong client env.now

/-- The test of the sweep, five seconds in nanoseconds. -/
def timedOut (s : Server) (client : Bytes) (now : Int) : Bool :=
  match s.clientPingList.find client with
  | none => false
  | some last => 5 * 10 ^ 9 < now - last

/-- The ping loop of `do_pingClient` over the entries of the address map, one exchange after the
other: `took c` is how long the one with `c` takes, up to the reading of the clock.  The server
afterwards, and the time. -/
def pingLoop (exchange : Packet → Message.Transport) (took : Bytes → Nat) :
    Int → List ((_ : Bytes) × Bytes) → Server → Except Fault (Server × Int)
  | now, [], s => pure (s, now)
  | now, ⟨client, address⟩ :: rest, s => do
      let now := now + took client
      let s ← s.pingClient { now, exchange } client address
      pingLoop exchange took now rest s

/-- The body of the sweep of `do_pingClient`, at an entry of the ping list: a client that has timed
out is announced and removed. -/
def sweepClient (env : Env) (s : Server) (client : Bytes) : Except Fault Server :=
  if s.timedOut client env.now then do
    let _ ← s.updateClientListRem env client
    pure (s.removeClient client)
  else pure s

/-- What goes wrong in the sweep. -/
inductive SweepFault where
  | of (f : Fault)
  /-- An iterator is dereferenced or advanced whose entry has been erased. -/
  | erasedIterator
deriving DecidableEq

/-- The loop of the sweep, with its iterator: `clock n` is the world at the visit number `n`.  The
server afterwards and the entries visited. -/
def sweepLoop (clock : Nat → Env) :
    Nat → Nat → Option Bytes → Server → Except SweepFault (Server × List Bytes)
  | _, _, none, s => .ok (s, [])
  | 0, _, some _, _ => .error (.of .loopBound)
  | fuel + 1, n, some client, s =>
      match s.clientPingList.find client with
      | none => .error .erasedIterator
      | some _ =>
          match s.sweepClient (clock n) client with
          | .error f => .error (.of f)
          | .ok s =>
              match s.clientPingList.next client with
              | none => .error .erasedIterator
              | some iter =>
                  (sweepLoop clock fuel (n + 1) iter s).map fun r => (r.1, client :: r.2)

/-- The sweep of `do_pingClient`. -/
def sweep (clock : Nat → Env) (s : Server) : Except SweepFault (Server × List Bytes) :=
  s.sweepLoop clock s.clientPingList.size 0 s.clientPingList.begin

end Server

end Cimabue
