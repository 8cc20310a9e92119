import Cimabue.Support.StdMap
import Cimabue.Model.Node

/-!
# Model — Client

`cimabue-client/src/CimabueClient.cpp`: the client's directory, what it sends, and the handlers of
its two ports.

The events a handler builds are kept with the texts they are built from; the arrays they copy them
into are in `View`.
-/

namespace Cimabue

/-- `CimabueClient`: the names, the server, and the directory from nicknames to client names. -/
structure Client where
  name : Bytes
  nickname : Bytes
  server : Bytes := []
  serverIp : Bytes := []
  serverPort : Nat := 0
  connectedToServer : Bool := false
  clientNickToNameMap : StdMap Bytes Bytes := .empty
deriving DecidableEq

/-- `DATA_SEPARATOR`. -/
def chatSeparator : Byte := ch '@'

/-- `extractNicknameAndData`. -/
def extractNicknameAndData (s : Bytes) : Except Fault (Bytes × Bytes) := do
  let tokens ← tokenize chatSeparator s
  let (nick, tokens) ← popFront tokens
  let (data, _) ← popFront tokens
  pure (nick, data)

/-- `extractNewClient`: the pair, and what is left of `data`. -/
def extractNewClient (data : Bytes) : Except Fault ((Bytes × Bytes) × Bytes) := do
  let first := findFirstOf data dataSeparator (some 0)
  let nick ← substr data (some 0) first
  match findFirstOf data dataSeparator (posSucc first) with
  | some second => do
      let name ← substr data (posSucc first) (posSub (posSub (some second) first) (some 1))
      let rest ← substr data (posSucc (some second)) none
      pure ((nick, name), rest)
  | none => do
      -- the last entry
      let name ← substr data (posSucc first) none
      pure ((nick, name), msgVoid)

/-- `count` calls of `extractNewClient`. -/
def extractClients : Nat → Bytes → Except Fault (List (Bytes × Bytes))
  | 0, _ => pure []
  | count + 1, data => do
      let (client, data) ← extractNewClient data
      let rest ← extractClients count data
      pure (client :: rest)

/-- The pairs of an `MSG_UPDATE_ADD_CLIENTS` message: a number, then that many entries. -/
def decodeUpdate (data : Bytes) : Except Fault (List (Bytes × Bytes)) := do
  -- without a separator, the number and the entries are both the whole text
  let first := findFirstOf data dataSeparator (some 0)
  let number ← substr data (some 0) first
  let entries ← substr data (posSucc first) none
  extractClients (toUInt32 (atoi number)) entries

namespace Client

/-- The text `nickname:ip:port` of `connectToServer`, none where it does not fit the array
`nickname_ip_port` of 128 bytes. -/
def nicknameIpPort (c : Client) (ip : Bytes) (downPort : Nat) : Option Bytes :=
  let text := cstr c.nickname ++ lit ":" ++ cstr ip ++ lit ":" ++ decimal downPort
  if text.length < 128 then some text else none

/-- The message of `connectToServer`, for the text `nickname:ip:port`. -/
def connectMessage (c : Client) (nicknameIpPort : Bytes) : Message :=
  { type := .addClient, clientSrc := c.name, data := nicknameIpPort }

/-- The message of `sendMessage` to the client named `dest`. -/
def chatMessage (c : Client) (dest content : Bytes) : Message :=
  { type := .sendMessage, clientSrc := c.name, clientDest := dest, serverDest := c.server,
    data := c.nickname ++ [chatSeparator] ++ content }

/-- The packet of `sendMessage`, none when the nickname is not in the directory. -/
def chatPacket (c : Client) (dest content : Bytes) : Option Packet :=
  (c.clientNickToNameMap.find dest).map fun name =>
    { ip := c.serverIp, port := c.serverPort, msg := c.chatMessage name content }

/-- `sendMessage`: the return value, and what was sent.  An error reply is logged through the return
value taken for a message. -/
def sendMessage (env : Env) (c : Client) (dest content : Bytes) :
    Except Fault (Ret × List Effect) := do
  match c.chatPacket dest content with
  | none => pure (.error, [])
  | some p => do
      let reply ← Message.send (env.exchange p)
      -- the log takes the return value for the error message
      if reply.isErrorMessage then .error .badPointer
      else pure (.success, [.send p])

/-- The directory after `MSG_UPDATE_REM_CLIENTS`: the first entry with the value `clientName`, in
the order of the nicknames, and the directory without it. -/
def removeByName (c : Client) (clientName : Bytes) : Option (Bytes × Client) :=
  (c.clientNickToNameMap.entries.find? (·.2 = clientName)).map fun e =>
    (e.1, { c with clientNickToNameMap := c.clientNickToNameMap.erase e.1 })

/-- `processDownMessage`: the client afterwards, what it did, and the return value. -/
def processDownMessage (c : Client) (msg : Message) :
    Except Fault (Client × List Effect × Ret) :=
  if msg.clientDest ≠ c.name then pure (c, [.close], .destinationIsNotMe)
  else match msg.type with
    | .pingClient => pure (c, [.reply {}, .close], .success)
    | .sendMessage => do
        let (nick, content) ← extractNicknameAndData msg.data
        pure (c, [.reply {}, .notify (.message nick content), .close], .success)
    | .updateAddClients => do
        let clients ← decodeUpdate msg.data
        pure ({ c with clientNickToNameMap := c.clientNickToNameMap.insertAll clients },
          clients.map (fun p => .notify (.updateAdd p.1)) ++ [.reply {}, .close], .success)
    | .updateRemClients =>
        -- this one is not acknowledged
        match c.removeByName msg.data with
        | none => pure (c, [.close], .success)
        | some (nick, c) => pure (c, [.notify (.updateRem nick), .close], .success)
    | _ => pure (c, [.close], .success)

/-- `processUpMessage`. -/
def processUpMessage (c : Client) (msg : Message) : Client × List Effect × Ret :=
  if msg.clientDest ≠ c.name then (c, [.close], .destinationIsNotMe)
  else match msg.type with
    | .addClient =>
        ({ c with server := msg.serverSrc, connectedToServer := true }, [.close], .success)
    | _ => (c, [.close], .success)

end Client

end Cimabue
