import Cimabue.Support.Locks

/-!
# Threads — Locking

The mutexes of the server's three maps, and what its process thread and its ping thread do to them,
function by function (`CimabueServer.cpp`).  A call of `Send` is taken to return; which entries the
loops visit and which branches are taken is open.

The functions lock the mutexes in one order, that of the maps in `removeClient`; the ping loop
nests the second in the first, and the sweep gives the second back before it calls functions that
lock the first.

* `server_locks`: in every interleaving, no thread requests a mutex it holds or unlocks one it does
  not hold, the two never wait for each other, and between rounds and requests they hold nothing.
-/

namespace Cimabue

/-- The mutexes of the server's maps. -/
inductive Mutex where
  | clientNameList
  | clientPingList
  | clientNicknameList
deriving DecidableEq

/-- The order in which the mutexes are locked. -/
def Mutex.rank : Mutex → Nat
  | .clientNameList => 0
  | .clientPingList => 1
  | .clientNicknameList => 2

/-- The threads of the server that lock. -/
inductive ServerThread where
  | process
  | ping
deriving DecidableEq

namespace Locking

open LockProg

/-- `Send`, and what else does not touch a mutex. -/
def send : LockProg Mutex := .skip

/-- `executeAddClient`. -/
def executeAddClient : LockProg Mutex :=
  block [critical .clientNameList .skip, critical .clientPingList .skip,
    critical .clientNicknameList .skip]

/-- `updateClientListAdd`: one of two messages to each client whose address parses. -/
def updateClientListAdd : LockProg Mutex :=
  critical .clientNameList (.loop (.either (.either send .skip) (.either send .skip)))

/-- `updateClientListRem`. -/
def updateClientListRem : LockProg Mutex :=
  critical .clientNameList (.loop (.either (.either send .skip) .skip))

/-- `removeClient`. -/
def removeClient : LockProg Mutex :=
  block [critical .clientNameList .skip, critical .clientPingList .skip,
    critical .clientNicknameList .skip]

/-- `executeSendMessage`: `haveClient` and `getClientAddress` lock nothing. -/
def executeSendMessage : LockProg Mutex := .either send .skip

/-- `processDownMessage`: a registration and its broadcast, a message to forward, or neither. -/
def processDownMessage : LockProg Mutex :=
  .either (block [executeAddClient, updateClientListAdd]) (.either executeSendMessage .skip)

/-- The loop of `do_pingClient` over the addresses, with the answers it records. -/
def pings : LockProg Mutex :=
  critical .clientNameList
    (.loop (block [send, .either (critical .clientPingList .skip) .skip]))

/-- The loop of `do_pingClient` over the ping list. -/
def sweep : LockProg Mutex :=
  critical .clientPingList
    (.loop (.either
      (block [.unlock .clientPingList, updateClientListRem, removeClient, .lock .clientPingList])
      .skip))

/-- What a thread does: any number of requests, or of rounds. -/
def prog : ServerThread → LockProg Mutex
  | .process => .loop processDownMessage
  | .ping => .loop (block [pings, sweep])

/-- The programs keep to the order of the mutexes and lead from none held to none held. -/
theorem effect_prog (i : ServerThread) : (prog i).effect Mutex.rank [] = some [] := by
  cases i <;> decide

end Locking

/-- **The lock discipline.**  Along any interleaving of the process thread and the ping thread, over
any number of requests and rounds: a mutex that is requested is not held by the thread that requests
it, one that is unlocked is held by the thread that unlocks it, the two threads do not wait for each
other, and a thread that is before its next request or round holds nothing. -/
theorem server_locks (as : List (ServerThread × Bool)) :
    (locks ServerThread Mutex).Always
      (fun s =>
        (∀ i m, LockProg.requests (s.rest i) = some m → s.owner m ≠ some i) ∧
        (∀ i m, LockProg.releases (s.rest i) = some m → s.owner m = some i) ∧
        ¬ (s.WaitsFor .process .ping ∧ s.WaitsFor .ping .process) ∧
        ∀ i, s.rest i = [Locking.prog i] → ∀ m, s.owner m ≠ some i)
      (Locks.init Locking.prog) as := by
  have hinv := Machine.always_of_kept (P := Locks.Inv Mutex.rank)
    (fun _ _ _ hinv hstep => Locks.inv_step hinv hstep) (Locks.inv_init Locking.effect_prog) as
  refine hinv.imp fun s hs => ⟨fun i m h => hs.not_owned_of_requests h,
    fun i m h => hs.owned_of_releases h, fun h => ?_, fun i hi m => ?_⟩
  · exact hs.acyclic .process (.tail (.single h.1) h.2)
  · cases i <;> exact hs.not_owned_of_loop hi

end Cimabue
