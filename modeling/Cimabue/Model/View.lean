import Cimabue.Support.CharArray
import Cimabue.Model.Node

/-!
# Model — View

`cimabue-client/src/Event.cpp`: the events a client's handlers build, with the arrays they copy
their texts into.  `cimabue-client/src/view/ConsoleView.cpp`: the view's own list of clients, which
it keeps by the events (`ConsoleView.update`), and `StateManager::updateViews` with one view
attached (`ConsoleView.updateViews`).

What the view prints is left out, but a text it prints is read.  The events of a connection, which
no handler builds, are left out too.
-/

namespace Cimabue

/-- `event_t`: the arrays of each type of event. -/
inductive EventData where
  /-- `EVT_NEW_MESSAGE` -/
  | newMessage (nickname : CharArray 128) (message : CharArray 1024)
  /-- `EVT_UPDATE_CLIENT_LIST_ADD` -/
  | updateClientListAdd (nickname : CharArray 128)
  /-- `EVT_UPDATE_CLIENT_LIST_REM` -/
  | updateClientListRem (nickname : CharArray 128)
deriving DecidableEq

/-- The array of a nickname or a message: cleared, and then `strncpy` with the length of the text. -/
def copyText (n : Nat) (s : Bytes) : Option (CharArray n) :=
  (CharArray.zeroed n).strncpy s s.length

/-- The constructors `EventMessage`, `EventUpdateAdd` and `EventUpdateRem`: none where they write
past an array. -/
def Event.build : Event → Option EventData
  | .message senderNick msgContent => do
      let nickname ← copyText 128 senderNick
      let message ← copyText 1024 msgContent
      pure (.newMessage nickname message)
  | .updateAdd nickname => do
      let nickname ← copyText 128 nickname
      pure (.updateClientListAdd nickname)
  | .updateRem nickname => do
      let nickname ← copyText 128 nickname
      pure (.updateClientListRem nickname)

namespace EventData

/-- `getNickname`, read as a text. -/
def getNickname : EventData → Option Bytes
  | .newMessage nickname _ | .updateClientListAdd nickname | .updateClientListRem nickname =>
      nickname.text

/-- `getMessage`, read as a text; only `EventMessage` has one. -/
def getMessage : EventData → Option Bytes
  | .newMessage _ message => message.text
  | .updateClientListAdd _ | .updateClientListRem _ => none

end EventData

/-- `ConsoleView`: the clients it lists. -/
structure ConsoleView where
  clients : List Bytes := []
deriving DecidableEq

namespace ConsoleView

/-- `update`: none where a text it reads has no end. -/
def update (v : ConsoleView) (event : EventData) : Option ConsoleView := do
  let nickname ← event.getNickname
  match event with
  | .newMessage _ _ => do
      let _ ← event.getMessage
      pure v
  | .updateClientListAdd _ => pure { v with clients := v.clients ++ [nickname] }
  -- the first one that is equal
  | .updateClientListRem _ => pure { v with clients := v.clients.erase nickname }

/-- `updateViews`, for one event after the other. -/
def updateViews : ConsoleView → List Event → Option ConsoleView
  | v, [] => some v
  | v, e :: events => do
      let event ← e.build
      let v ← v.update event
      v.updateViews events

end ConsoleView

end Cimabue
