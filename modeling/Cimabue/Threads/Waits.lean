import Cimabue.Support.Calls
import Cimabue.Threads.Locking

/-!
# Threads — Waits

Who waits for whom in the whole chat: the process thread and the ping thread of the server, and of any
number of clients the process thread and the thread of the console, with the mutexes of `Locking` and
the calls of `Send`, which come back with an answer, at a timeout, or because nobody is there.

The listen threads are not modelled: a message that is sent is taken to reach the queue of the process
thread at once, and any others may reach it from elsewhere.  The handlers of a client lock and send nothing.  The server sends to the
addresses that are registered, and nothing keeps its own from being one of them.

* `waits_end_iff`: nobody ever waits for itself, and whoever waits does so for somebody who can go on,
  exactly when the server's own address is none of those it sends to.
-/

namespace Cimabue

/-- The nodes whose process threads answer. -/
inductive NodeKind where
  | server
  | client
deriving DecidableEq

/-- The threads of the chat; `κ` are the clients. -/
inductive ChatThread (κ : Type) where
  | serverProcess
  | serverPing
  | clientProcess (k : κ)
  | clientConsole (k : κ)
deriving DecidableEq

/-- The threads that answer. -/
def ChatThread.kind {κ : Type} : ChatThread κ → Option NodeKind
  | .serverProcess => some .server
  | .clientProcess _ => some .client
  | .serverPing | .clientConsole _ => none

namespace Waits

open CallProg

/-- `Send` to an address that is registered; with `own` it may be the server's. -/
def send (own : Bool) : CallProg Mutex NodeKind :=
  if own then .either (.call .client) (.call .server) else .call .client

/-- `executeAddClient`. -/
def executeAddClient : CallProg Mutex NodeKind :=
  block [critical .clientNameList .skip, critical .clientPingList .skip,
    critical .clientNicknameList .skip]

/-- `updateClientListAdd`. -/
def updateClientListAdd (own : Bool) : CallProg Mutex NodeKind :=
  critical .clientNameList (.loop (.either (.either (send own) .skip) (.either (send own) .skip)))

/-- `updateClientListRem`. -/
def updateClientListRem (own : Bool) : CallProg Mutex NodeKind :=
  critical .clientNameList (.loop (.either (.either (send own) .skip) .skip))

/-- `removeClient`. -/
def removeClient : CallProg Mutex NodeKind :=
  block [critical .clientNameList .skip, critical .clientPingList .skip,
    critical .clientNicknameList .skip]

/-- `executeSendMessage`. -/
def executeSendMessage (own : Bool) : CallProg Mutex NodeKind := .either (send own) .skip

/-- `processDownMessage`: a registration is confirmed before it is made known, and a message is passed
on before it is acknowledged.  `processUpMessage` answers as the last of the branches does. -/
def processDownMessage (own : Bool) : CallProg Mutex NodeKind :=
  .either (block [executeAddClient, .answer, updateClientListAdd own])
    (block [.either (executeSendMessage own) .skip, .answer])

/-- The loop of `do_pingClient` over the addresses. -/
def pings (own : Bool) : CallProg Mutex NodeKind :=
  critical .clientNameList
    (.loop (block [send own, .either (critical .clientPingList .skip) .skip]))

/-- The loop of `do_pingClient` over the ping list. -/
def sweep (own : Bool) : CallProg Mutex NodeKind :=
  critical .clientPingList
    (.loop (.either
      (block [.unlock .clientPingList, updateClientListRem own, removeClient,
        .lock .clientPingList])
      .skip))

/-- What a thread does: the process threads take up one request after the other, the console connects
and then sends. -/
def prog {κ : Type} (own : Bool) : ChatThread κ → CallProg Mutex NodeKind
  | .serverProcess => .forever (block [.take, processDownMessage own])
  | .serverPing => .loop (block [pings own, sweep own])
  | .clientProcess _ => .forever (block [.take, .answer])
  | .clientConsole _ => block [.loop (.call .server), .loop (.either (.call .server) .skip)]

/-- The mutexes are between the answers of the server and those of the clients. -/
def ranks : Ranks Mutex NodeKind where
  mutex m := m.rank + 1
  kind
    | .server => 0
    | .client => 4

/-- The programs keep to the ranks, where the server does not send to itself. -/
theorem effect_prog {κ : Type} (i : ChatThread κ) :
    (prog false i).effect ranks (Calls.floor ranks ChatThread.kind i) {} = some {} := by
  cases i <;> rfl

theorem sound_init (κ : Type) :
    Calls.Sound ranks ChatThread.kind (Calls.init (prog (κ := κ) false)) := by
  refine Calls.sound_init effect_prog fun j hj => ?_
  cases j with
  | serverProcess | clientProcess => exact ⟨_, rfl⟩
  | serverPing | clientConsole => cases hj

/-- What a program does to the mutexes. -/
def locksOf : CallProg Mutex NodeKind → LockProg Mutex
  | .skip | .call _ | .take | .answer => .skip
  | .lock m => .lock m
  | .unlock m => .unlock m
  | .seq p q => .seq (locksOf p) (locksOf q)
  | .either p q => .either (locksOf p) (locksOf q)
  | .loop p | .forever p => .loop (locksOf p)

/-- The functions do to the mutexes what they do in `Locking`. -/
theorem locksOf_eq :
    locksOf executeAddClient = Locking.executeAddClient ∧
      locksOf (updateClientListAdd false) = Locking.updateClientListAdd ∧
      locksOf (executeSendMessage false) = Locking.executeSendMessage ∧
      locksOf (prog (κ := Empty) false .serverPing) = Locking.prog .ping :=
  ⟨rfl, rfl, rfl, rfl⟩

/-- A message from elsewhere is passed on to the server's own address. -/
def toItself {κ : Type} : List (CallStep (ChatThread κ)) :=
  [.arrive .serverProcess] ++
    [false, false, false, false, false, false, true, true, false].map (.go .serverProcess) ++
    [.call .serverProcess .serverProcess]

/-- The process thread then waits for itself. -/
theorem awaiting_toItself (κ : Type) [DecidableEq κ] :
    ((calls ChatThread.kind).run (Calls.init (prog (κ := κ) true)) toItself).map
      (·.awaiting .serverProcess) = some (some .serverProcess) := rfl

end Waits

/-- **Nobody waits in vain.**  In every interleaving of the threads of the server and of any clients, with
requests from elsewhere, with calls that fail and waits that are given up: no thread waits, directly or
through others, for itself, and one that waits does so for one that can go on.  That is so exactly
when the server does not send to its own address. -/
theorem waits_end_iff (κ : Type) [DecidableEq κ] (own : Bool) :
    (∀ as, (calls ChatThread.kind).Always
      (fun s => (∀ i, ¬ Relation.TransGen s.WaitsFor i i) ∧
        ∀ i j, s.WaitsFor i j → ∃ l, Relation.TransGen s.WaitsFor i l ∧ s.CanGo ChatThread.kind l)
      (Calls.init (Waits.prog (κ := κ) own)) as) ↔ own = false := by
  constructor
  · intro h
    by_contra hown
    obtain rfl : own = true := by simpa using hown
    obtain ⟨t, hrun, ht⟩ := Option.map_eq_some_iff.mp (Waits.awaiting_toItself κ)
    exact ((h Waits.toItself).last hrun).1 .serverProcess (.single (.inr ht))
  · rintro rfl as
    have hsound := Machine.always_of_kept (P := Calls.Sound Waits.ranks ChatThread.kind)
      (fun _ _ _ h hstep => Calls.sound_step h hstep) (Waits.sound_init κ) as
    refine hsound.imp fun s hs => ⟨hs.acyclic, fun i j hij => ?_⟩
    refine hs.exists_canGo (N := 4) (fun m => ?_) (fun c => ?_) hij
    · cases m <;> decide
    · cases c <;> decide

end Cimabue
