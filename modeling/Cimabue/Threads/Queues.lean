import Cimabue.Support.Machine
import Cimabue.Model.Node

/-!
# Threads — Queues

The two threads of a node and its destructor (`node`).  The listen thread queues what it receives
and posts the semaphore once for each message; the process thread takes one unit of the semaphore,
then at most one message of each queue; the destructor sets `die` and joins the two.

One wake-up may take two messages or none, so the semaphore counts neither queue.  What is kept is
a bound (`Covered`): the messages are at most the posts, those under way and the one just taken
included, and between the two pops the down queue alone is at most the posts to come.

* `node_processes_in_order`: what a handler is given is at all times the beginning of what its
  queue was pushed, and a process thread blocked with no post under way has two empty queues.
* `shutdown_ends`: the destructor never waits for a blocked process thread, provided the listen
  thread does not leave its loop while the process thread is blocked.
* `not_shutdown_ends`: a node that receives nothing is never destroyed.
-/

namespace Cimabue

/-- `UP_PORT` and `DOWN_PORT`. -/
inductive Port where
  | up
  | down
deriving DecidableEq

/-- `message_entry_t`. -/
structure MessageEntry where
  socket : Int
  msg : Message
deriving DecidableEq

/-- `MessageQueue`. -/
structure MessageQueue where
  msgQueue : List MessageEntry := []
deriving DecidableEq

namespace MessageQueue

/-- `push`. -/
def push (q : MessageQueue) (entry : MessageEntry) : MessageQueue :=
  { q with msgQueue := q.msgQueue ++ [entry] }

/-- `pop`: the entry and what is left, none when the queue is empty. -/
def pop (q : MessageQueue) : Option (MessageEntry × MessageQueue) :=
  match q.msgQueue with
  | [] => none
  | entry :: rest => some (entry, { q with msgQueue := rest })

/-- `size`. -/
def size (q : MessageQueue) : Nat := q.msgQueue.length

@[simp] theorem size_push (q : MessageQueue) (entry : MessageEntry) :
    (q.push entry).size = q.size + 1 := by
  simp [size, push]

theorem pop_eq_none {q : MessageQueue} : q.pop = none ↔ q.size = 0 := by
  obtain ⟨_ | ⟨e, rest⟩⟩ := q <;> simp [pop, size]

theorem pop_eq_some {q q' : MessageQueue} {entry : MessageEntry} :
    q.pop = some (entry, q') ↔ q.msgQueue = entry :: q'.msgQueue := by
  obtain ⟨_ | ⟨e, rest⟩⟩ := q
  · simp [pop]
  · obtain ⟨l⟩ := q'
    simp [pop]

theorem size_of_pop {q q' : MessageQueue} {entry : MessageEntry} (h : q.pop = some (entry, q')) :
    q.size = q'.size + 1 := by
  rw [size, pop_eq_some.mp h]
  rfl

end MessageQueue

/-- What went through a queue: the entries pushed to it, and those its handler was called on. -/
structure History where
  pushed : List MessageEntry := []
  processed : List MessageEntry := []

/-- Where the listen thread stands: before the rest of the ports that `select()` reported, at `[]`
before the test of its loop; before `select()`; between the push and the post; after its loop. -/
inductive ListenAt where
  | serving (ports : List Port)
  | selecting
  | posting (ports : List Port)
  | exited
deriving DecidableEq

/-- Where the process thread stands: before the test of its loop, at `sem_wait`, before each of the
two pops, after its loop. -/
inductive ProcessAt where
  | looping
  | waiting
  | popDown
  | popUp
  | exited
deriving DecidableEq

/-- Where the destructor stands. -/
inductive DestroyAt where
  | alive
  | joiningListen
  | joiningProcess
  | destroyed
deriving DecidableEq

/-- A node's threads and what they share. -/
structure NodeThreads where
  upMessageQueue : MessageQueue := {}
  downMessageQueue : MessageQueue := {}
  ipcSem : Nat := 0
  die : Bool := false
  listenThread : ListenAt := .serving []
  processThread : ProcessAt := .looping
  destructor : DestroyAt := .alive
  up : History := {}
  down : History := {}

/-- The steps of the three threads. -/
inductive NodeStep where
  /-- `while (!me->die)` of `do_listen_thread` -/
  | listenTest
  /-- `select`, and the ports it reports -/
  | select (up down : Bool)
  /-- `HandleTCPRequest` on the next port, up to the push -/
  | request (socket : Int) (peer : Bytes)
  /-- `sem_post` -/
  | post
  /-- `while (!me->die)` of `do_process_thread` -/
  | processTest
  /-- `sem_wait` -/
  | wait
  | popDown
  | popUp
  /-- `~Node`, up to the first join -/
  | destroy
  | joinListen
  /-- The second join, after which the queues are emptied. -/
  | joinProcess
deriving DecidableEq

namespace NodeThreads

/-- The ports with `FD_ISSET`, in the order of the loop. -/
def selected (up down : Bool) : List Port :=
  (if up then [.up] else []) ++ (if down then [.down] else [])

/-- The queue `HandleTCPRequest` chooses for a port. -/
def enqueue (portList : Port → Nat) (s : NodeThreads) (port : Port) (entry : MessageEntry) :
    NodeThreads :=
  if portList port = portList .up then
    { s with
      upMessageQueue := s.upMessageQueue.push entry
      up := { s.up with pushed := s.up.pushed ++ [entry] } }
  else
    { s with
      downMessageQueue := s.downMessageQueue.push entry
      down := { s.down with pushed := s.down.pushed ++ [entry] } }

/-- The first pop of the process loop, and `processDownMessage`. -/
def takeDown (s : NodeThreads) : NodeThreads :=
  match s.downMessageQueue.pop with
  | none => s
  | some (entry, rest) =>
      { s with
        downMessageQueue := rest
        down := { s.down with processed := s.down.processed ++ [entry] } }

/-- The second pop of the process loop, and `processUpMessage`. -/
def takeUp (s : NodeThreads) : NodeThreads :=
  match s.upMessageQueue.pop with
  | none => s
  | some (entry, rest) =>
      { s with
        upMessageQueue := rest
        up := { s.up with processed := s.up.processed ++ [entry] } }

def step (portList : Port → Nat) (s : NodeThreads) : NodeStep → Option NodeThreads
  | .listenTest =>
      match s.listenThread with
      | .serving [] => some { s with listenThread := if s.die then .exited else .selecting }
      | _ => none
  | .select up down =>
      match s.listenThread with
      | .selecting => some { s with listenThread := .serving (selected up down) }
      | _ => none
  | .request socket peer =>
      match s.listenThread with
      | .serving (port :: ports) => (receive peer).toOption.map fun msg =>
          { s.enqueue portList port { socket, msg } with listenThread := .posting ports }
      | _ => none
  | .post =>
      match s.listenThread with
      | .posting ports => some { s with ipcSem := s.ipcSem + 1, listenThread := .serving ports }
      | _ => none
  | .processTest =>
      match s.processThread with
      | .looping => some { s with processThread := if s.die then .exited else .waiting }
      | _ => none
  | .wait =>
      match s.processThread, s.ipcSem with
      | .waiting, n + 1 => some { s with ipcSem := n, processThread := .popDown }
      | _, _ => none
  | .popDown =>
      match s.processThread with
      | .popDown => some { s.takeDown with processThread := .popUp }
      | _ => none
  | .popUp =>
      match s.processThread with
      | .popUp => some { s.takeUp with processThread := .looping }
      | _ => none
  | .destroy =>
      match s.destructor with
      | .alive => some { s with die := true, destructor := .joiningListen }
      | _ => none
  | .joinListen =>
      match s.destructor, s.listenThread with
      | .joiningListen, .exited => some { s with destructor := .joiningProcess }
      | _, _ => none
  | .joinProcess =>
      match s.destructor, s.processThread with
      | .joiningProcess, .exited =>
          some { s with upMessageQueue := {}, downMessageQueue := {}, destructor := .destroyed }
      | _, _ => none

end NodeThreads

/-- The threads of a node that listens on the ports `portList`. -/
def node (portList : Port → Nat) : Machine NodeThreads NodeStep where
  step := NodeThreads.step portList

namespace NodeThreads

/-- The process thread is at `sem_wait` with nothing to take. -/
def Blocked (s : NodeThreads) : Prop := s.processThread = .waiting ∧ s.ipcSem = 0

/-- The destructor waits for a process thread that nobody is left to wake. -/
def Deadlocked (s : NodeThreads) : Prop :=
  s.destructor = .joiningProcess ∧ s.listenThread = .exited ∧ s.Blocked

/-- The listen thread leaves its loop only while the process thread is not blocked. -/
def LeavesAwake (s : NodeThreads) (a : NodeStep) : Prop :=
  a = .listenTest → s.die = true → ¬ s.Blocked

instance (s : NodeThreads) : Decidable s.Blocked := inferInstanceAs (Decidable (_ ∧ _))

instance (s : NodeThreads) : Decidable s.Deadlocked := inferInstanceAs (Decidable (_ ∧ _ ∧ _))

instance (s : NodeThreads) (a : NodeStep) : Decidable (s.LeavesAwake a) :=
  inferInstanceAs (Decidable (_ → _ → _))

/-- No call of `HandleTCPRequest` is between its push and its post. -/
def NothingUnderWay (s : NodeThreads) : Prop := ∀ ports, s.listenThread ≠ .posting ports

/-! ### What a step does -/

variable {portList : Port → Nat} {s t : NodeThreads}

theorem step_listenTest (h : (node portList).step s .listenTest = some t) :
    s.listenThread = .serving [] ∧
      t = { s with listenThread := if s.die then .exited else .selecting } := by
  simp only [node, step] at h
  split at h
  · next hl => exact ⟨hl, (Option.some.inj h).symm⟩
  · cases h

theorem step_select {up down : Bool} (h : (node portList).step s (.select up down) = some t) :
    s.listenThread = .selecting ∧ t = { s with listenThread := .serving (selected up down) } := by
  simp only [node, step] at h
  split at h
  · next hl => exact ⟨hl, (Option.some.inj h).symm⟩
  · cases h

theorem step_request {socket : Int} {peer : Bytes}
    (h : (node portList).step s (.request socket peer) = some t) :
    ∃ port ports msg, s.listenThread = .serving (port :: ports) ∧
      t = { s.enqueue portList port { socket, msg } with listenThread := .posting ports } := by
  simp only [node, step] at h
  split at h
  · next port ports hl =>
      obtain ⟨msg, -, hmsg⟩ := Option.map_eq_some_iff.mp h
      exact ⟨port, ports, msg, hl, hmsg.symm⟩
  · cases h

theorem step_post (h : (node portList).step s .post = some t) :
    ∃ ports, s.listenThread = .posting ports ∧
      t = { s with ipcSem := s.ipcSem + 1, listenThread := .serving ports } := by
  simp only [node, step] at h
  split at h
  · next ports hl => exact ⟨ports, hl, (Option.some.inj h).symm⟩
  · cases h

theorem step_processTest (h : (node portList).step s .processTest = some t) :
    s.processThread = .looping ∧
      t = { s with processThread := if s.die then .exited else .waiting } := by
  simp only [node, step] at h
  split at h
  · next hp => exact ⟨hp, (Option.some.inj h).symm⟩
  · cases h

theorem step_wait (h : (node portList).step s .wait = some t) :
    ∃ n, s.processThread = .waiting ∧ s.ipcSem = n + 1 ∧
      t = { s with ipcSem := n, processThread := .popDown } := by
  simp only [node, step] at h
  split at h
  · next n hp hn => exact ⟨n, hp, hn, (Option.some.inj h).symm⟩
  · cases h

theorem step_popDown (h : (node portList).step s .popDown = some t) :
    s.processThread = .popDown ∧ t = { s.takeDown with processThread := .popUp } := by
  simp only [node, step] at h
  split at h
  · next hp => exact ⟨hp, (Option.some.inj h).symm⟩
  · cases h

theorem step_popUp (h : (node portList).step s .popUp = some t) :
    s.processThread = .popUp ∧ t = { s.takeUp with processThread := .looping } := by
  simp only [node, step] at h
  split at h
  · next hp => exact ⟨hp, (Option.some.inj h).symm⟩
  · cases h

theorem step_destroy (h : (node portList).step s .destroy = some t) :
    s.destructor = .alive ∧ t = { s with die := true, destructor := .joiningListen } := by
  simp only [node, step] at h
  split at h
  · next hd => exact ⟨hd, (Option.some.inj h).symm⟩
  · cases h

theorem step_joinListen (h : (node portList).step s .joinListen = some t) :
    s.destructor = .joiningListen ∧ s.listenThread = .exited ∧
      t = { s with destructor := .joiningProcess } := by
  simp only [node, step] at h
  split at h
  · next hd hl => exact ⟨hd, hl, (Option.some.inj h).symm⟩
  · cases h

theorem step_joinProcess (h : (node portList).step s .joinProcess = some t) :
    s.destructor = .joiningProcess ∧ s.processThread = .exited ∧
      t = { s with upMessageQueue := {}, downMessageQueue := {}, destructor := .destroyed } := by
  simp only [node, step] at h
  split at h
  · next hd hp => exact ⟨hd, hp, (Option.some.inj h).symm⟩
  · cases h

/-! ### The histories -/

/-- What a handler was given is the beginning of what its queue was pushed; until the queues are
emptied, the rest is the queue. -/
def Accounted (d : DestroyAt) (q : MessageQueue) (h : History) : Prop :=
  ∃ rest, h.pushed = h.processed ++ rest ∧ (d ≠ .destroyed → rest = q.msgQueue)

section Histories

variable {d d' : DestroyAt} {q q' : MessageQueue} {hist : History} {entry : MessageEntry}

theorem Accounted.push (h : Accounted d q hist) (hd : d ≠ .destroyed) :
    Accounted d (q.push entry) { hist with pushed := hist.pushed ++ [entry] } := by
  obtain ⟨rest, hrest, hq⟩ := h
  refine ⟨rest ++ [entry], ?_, fun _ => ?_⟩
  · simp only [hrest, List.append_assoc]
  · rw [hq hd]
    rfl

theorem Accounted.pop (h : Accounted d q hist) (hd : d ≠ .destroyed)
    (hpop : q.pop = some (entry, q')) :
    Accounted d q' { hist with processed := hist.processed ++ [entry] } := by
  obtain ⟨rest, hrest, hq⟩ := h
  refine ⟨q'.msgQueue, ?_, fun _ => rfl⟩
  rw [MessageQueue.pop_eq_some] at hpop
  simp only [hrest, hq hd, hpop, List.append_assoc, List.singleton_append]

theorem Accounted.of_ne (h : Accounted d q hist) (hd : d' ≠ .destroyed → d ≠ .destroyed) :
    Accounted d' q hist := by
  obtain ⟨rest, hrest, hq⟩ := h
  exact ⟨rest, hrest, fun hd' => hq (hd hd')⟩

theorem Accounted.destroyed (h : Accounted d q hist) : Accounted .destroyed q' hist := by
  obtain ⟨rest, hrest, -⟩ := h
  exact ⟨rest, hrest, fun hd => absurd rfl hd⟩

theorem Accounted.inOrder (h : Accounted d q hist) : hist.processed <+: hist.pushed := by
  obtain ⟨rest, hrest, -⟩ := h
  exact ⟨rest, hrest.symm⟩

end Histories

/-! ### The semaphore -/

/-- The posts that are under way. -/
def underWay : ListenAt → Nat
  | .posting _ => 1
  | _ => 0

/-- **What the posts cover.**  Every queued message has a post of its own, taken, under way or to
be taken; the one a wake-up took is spent when both pops are made. -/
def Covers : ProcessAt → (posts up down : Nat) → Prop
  | .popDown, posts, up, down => up + down ≤ posts + 1
  | .popUp, posts, up, down => up + down ≤ posts + 1 ∧ down ≤ posts
  | _, posts, up, down => up + down ≤ posts

/-- The posts of a state cover its queues. -/
def Covered (s : NodeThreads) : Prop :=
  Covers s.processThread (s.ipcSem + underWay s.listenThread) s.upMessageQueue.size
    s.downMessageQueue.size

section Posts

variable {p : ProcessAt} {n up down : Nat}

theorem covers_push_up (h : Covers p n up down) : Covers p (n + 1) (up + 1) down := by
  cases p <;> simp only [Covers] at h ⊢ <;> omega

theorem covers_push_down (h : Covers p n up down) : Covers p (n + 1) up (down + 1) := by
  cases p <;> simp only [Covers] at h ⊢ <;> omega

end Posts

/-- What holds in every state: the joined threads have ended, the histories are accounted for, and
the posts cover the queues. -/
structure Inv (s : NodeThreads) : Prop where
  listenJoined :
    s.destructor = .joiningProcess ∨ s.destructor = .destroyed → s.listenThread = .exited
  processJoined : s.destructor = .destroyed → s.processThread = .exited
  up : Accounted s.destructor s.upMessageQueue s.up
  down : Accounted s.destructor s.downMessageQueue s.down
  covered : s.Covered

theorem Inv.not_joined (hinv : s.Inv) {l : ListenAt} (hl : s.listenThread = l)
    (hne : l ≠ .exited) : ¬ (s.destructor = .joiningProcess ∨ s.destructor = .destroyed) :=
  fun hd => hne (hl.symm.trans (hinv.listenJoined hd))

theorem Inv.not_destroyed (hinv : s.Inv) {p : ProcessAt} (hp : s.processThread = p)
    (hne : p ≠ .exited) : s.destructor ≠ .destroyed :=
  fun hd => hne (hp.symm.trans (hinv.processJoined hd))

/-! ### The steps that touch a queue -/

theorem takeDown_cases (s : NodeThreads) :
    (s.downMessageQueue.size = 0 ∧ s.takeDown = s) ∨
      ∃ entry rest, s.downMessageQueue.pop = some (entry, rest) ∧
        s.takeDown = { s with
          downMessageQueue := rest
          down := { s.down with processed := s.down.processed ++ [entry] } } := by
  rw [takeDown]
  cases hpop : s.downMessageQueue.pop with
  | none => exact .inl ⟨MessageQueue.pop_eq_none.mp hpop, rfl⟩
  | some r => exact .inr ⟨r.1, r.2, rfl, rfl⟩

theorem takeUp_cases (s : NodeThreads) :
    (s.upMessageQueue.size = 0 ∧ s.takeUp = s) ∨
      ∃ entry rest, s.upMessageQueue.pop = some (entry, rest) ∧
        s.takeUp = { s with
          upMessageQueue := rest
          up := { s.up with processed := s.up.processed ++ [entry] } } := by
  rw [takeUp]
  cases hpop : s.upMessageQueue.pop with
  | none => exact .inl ⟨MessageQueue.pop_eq_none.mp hpop, rfl⟩
  | some r => exact .inr ⟨r.1, r.2, rfl, rfl⟩

theorem inv_request {socket : Int} {peer : Bytes} (hinv : s.Inv)
    (h : (node portList).step s (.request socket peer) = some t) : t.Inv := by
  obtain ⟨port, ports, msg, hl, rfl⟩ := step_request h
  have hjoin := hinv.not_joined hl (by simp)
  have hd : s.destructor ≠ .destroyed := fun hd => hjoin (.inr hd)
  have hcov := hinv.covered
  rw [Covered, hl] at hcov
  rw [enqueue]
  split
  · refine ⟨fun hj => absurd hj hjoin, hinv.processJoined, hinv.up.push hd, hinv.down, ?_⟩
    rw [Covered]
    simpa only [MessageQueue.size_push, underWay] using covers_push_up hcov
  · refine ⟨fun hj => absurd hj hjoin, hinv.processJoined, hinv.up, hinv.down.push hd, ?_⟩
    rw [Covered]
    simpa only [MessageQueue.size_push, underWay] using covers_push_down hcov

theorem inv_popDown (hinv : s.Inv) (h : (node portList).step s .popDown = some t) : t.Inv := by
  obtain ⟨hp, rfl⟩ := step_popDown h
  have hd := hinv.not_destroyed hp (by simp)
  have hcov := hinv.covered
  simp only [Covered, hp, Covers] at hcov
  rcases takeDown_cases s with ⟨hempty, htake⟩ | ⟨entry, rest, hpop, htake⟩ <;> rw [htake]
  · refine ⟨hinv.listenJoined, fun hd' => absurd hd' hd, hinv.up, hinv.down, ?_⟩
    simp only [Covered, Covers]
    omega
  · refine ⟨hinv.listenJoined, fun hd' => absurd hd' hd, hinv.up, hinv.down.pop hd hpop, ?_⟩
    have hsize := MessageQueue.size_of_pop hpop
    simp only [Covered, Covers]
    omega

theorem inv_popUp (hinv : s.Inv) (h : (node portList).step s .popUp = some t) : t.Inv := by
  obtain ⟨hp, rfl⟩ := step_popUp h
  have hd := hinv.not_destroyed hp (by simp)
  have hcov := hinv.covered
  simp only [Covered, hp, Covers] at hcov
  rcases takeUp_cases s with ⟨hempty, htake⟩ | ⟨entry, rest, hpop, htake⟩ <;> rw [htake]
  · refine ⟨hinv.listenJoined, fun hd' => absurd hd' hd, hinv.up, hinv.down, ?_⟩
    simp only [Covered, Covers]
    omega
  · refine ⟨hinv.listenJoined, fun hd' => absurd hd' hd, hinv.up.pop hd hpop, hinv.down, ?_⟩
    have hsize := MessageQueue.size_of_pop hpop
    simp only [Covered, Covers]
    omega

/-! ### The other steps -/

theorem inv_listenTest (hinv : s.Inv) (h : (node portList).step s .listenTest = some t) :
    t.Inv := by
  obtain ⟨hl, rfl⟩ := step_listenTest h
  have hcov := hinv.covered
  rw [Covered, hl] at hcov
  refine ⟨fun hj => absurd hj (hinv.not_joined hl (by simp)), hinv.processJoined, hinv.up,
    hinv.down, ?_⟩
  rw [Covered]
  cases s.die <;> exact hcov

theorem inv_step {a : NodeStep} (hinv : s.Inv) (h : (node portList).step s a = some t) :
    t.Inv := by
  cases a with
  | listenTest => exact inv_listenTest hinv h
  | select up down =>
      obtain ⟨hl, rfl⟩ := step_select h
      have hcov := hinv.covered
      rw [Covered, hl] at hcov
      exact ⟨fun hj => absurd hj (hinv.not_joined hl (by simp)), hinv.processJoined, hinv.up,
        hinv.down, hcov⟩
  | request socket peer => exact inv_request hinv h
  | post =>
      obtain ⟨ports, hl, rfl⟩ := step_post h
      have hcov := hinv.covered
      rw [Covered, hl] at hcov
      exact ⟨fun hj => absurd hj (hinv.not_joined hl (by simp)), hinv.processJoined, hinv.up,
        hinv.down, hcov⟩
  | processTest =>
      obtain ⟨hp, rfl⟩ := step_processTest h
      have hcov := hinv.covered
      rw [Covered, hp] at hcov
      refine ⟨hinv.listenJoined, fun hd => absurd hd (hinv.not_destroyed hp (by simp)), hinv.up,
        hinv.down, ?_⟩
      rw [Covered]
      cases s.die <;> exact hcov
  | wait =>
      obtain ⟨n, hp, hn, rfl⟩ := step_wait h
      have hcov := hinv.covered
      simp only [Covered, hp, hn, Covers] at hcov
      refine ⟨hinv.listenJoined, fun hd => absurd hd (hinv.not_destroyed hp (by simp)), hinv.up,
        hinv.down, ?_⟩
      simp only [Covered, Covers]
      omega
  | popDown => exact inv_popDown hinv h
  | popUp => exact inv_popUp hinv h
  | destroy =>
      obtain ⟨hd, rfl⟩ := step_destroy h
      have hne : s.destructor ≠ .destroyed := by rw [hd]; simp
      exact ⟨by simp, by simp, hinv.up.of_ne fun _ => hne, hinv.down.of_ne fun _ => hne,
        hinv.covered⟩
  | joinListen =>
      obtain ⟨hd, hl, rfl⟩ := step_joinListen h
      have hne : s.destructor ≠ .destroyed := by rw [hd]; simp
      exact ⟨fun _ => hl, by simp, hinv.up.of_ne fun _ => hne, hinv.down.of_ne fun _ => hne,
        hinv.covered⟩
  | joinProcess =>
      obtain ⟨hd, hp, rfl⟩ := step_joinProcess h
      refine ⟨fun _ => hinv.listenJoined (.inl hd), fun _ => hp, hinv.up.destroyed,
        hinv.down.destroyed, ?_⟩
      simp only [Covered, hp, Covers, MessageQueue.size, List.length_nil]
      omega

theorem inv_init : Inv {} where
  listenJoined h := by rcases h with h | h <;> cases h
  processJoined h := by cases h
  up := ⟨[], rfl, fun _ => rfl⟩
  down := ⟨[], rfl, fun _ => rfl⟩
  covered := Nat.le_refl 0

/-- A blocked process thread, with no post under way, has two empty queues. -/
theorem Inv.queues_empty (hinv : s.Inv) (hb : s.Blocked) (hl : s.NothingUnderWay) :
    s.upMessageQueue.size = 0 ∧ s.downMessageQueue.size = 0 := by
  have hcov := hinv.covered
  have hzero : underWay s.listenThread = 0 := by
    cases hat : s.listenThread with
    | posting ports => exact absurd hat (hl ports)
    | serving ports | selecting | exited => rfl
  simp only [Covered, hb.1, hb.2, hzero, Covers] at hcov
  omega

/-- With an empty queue, everything that was queued has been processed. -/
theorem Accounted.processed_of_empty {d : DestroyAt} {q : MessageQueue} {hist : History}
    (h : Accounted d q hist) (hd : d ≠ .destroyed) (hq : q.size = 0) :
    hist.processed = hist.pushed := by
  obtain ⟨rest, hrest, hrestq⟩ := h
  rw [hrest, hrestq hd, List.length_eq_zero_iff.mp hq, List.append_nil]

/-- A blocked process thread, with no post under way, has processed everything. -/
theorem Inv.all_processed (hinv : s.Inv) (hb : s.Blocked) (hl : s.NothingUnderWay) :
    s.up.processed = s.up.pushed ∧ s.down.processed = s.down.pushed := by
  have hd : s.destructor ≠ .destroyed := hinv.not_destroyed hb.1 (by simp)
  obtain ⟨hup, hdown⟩ := hinv.queues_empty hb hl
  exact ⟨hinv.up.processed_of_empty hd hup, hinv.down.processed_of_empty hd hdown⟩

/-! ### Shutdown -/

/-- Once the listen thread has left its loop the process thread is not blocked, and `die` is set. -/
def Awake (s : NodeThreads) : Prop := s.listenThread = .exited → s.die = true ∧ ¬ s.Blocked

theorem awake_step {a : NodeStep} (haw : s.Awake) (hC : s.LeavesAwake a)
    (h : (node portList).step s a = some t) : t.Awake := by
  cases a with
  | listenTest =>
      obtain ⟨hl, rfl⟩ := step_listenTest h
      intro hexit
      cases hdie : s.die with
      | false => simp [hdie] at hexit
      | true => exact ⟨rfl, hC rfl hdie⟩
  | select up down => obtain ⟨-, rfl⟩ := step_select h; intro hexit; cases hexit
  | request socket peer => obtain ⟨_, _, _, -, rfl⟩ := step_request h; intro hexit; cases hexit
  | post => obtain ⟨_, -, rfl⟩ := step_post h; intro hexit; cases hexit
  | processTest =>
      obtain ⟨hp, rfl⟩ := step_processTest h
      intro hexit
      obtain ⟨hdie, -⟩ := haw hexit
      exact ⟨hdie, by simp [Blocked, hdie]⟩
  | wait =>
      obtain ⟨n, -, -, rfl⟩ := step_wait h
      exact fun hexit => ⟨(haw hexit).1, by simp [Blocked]⟩
  | popDown =>
      obtain ⟨-, rfl⟩ := step_popDown h
      rcases takeDown_cases s with ⟨-, htake⟩ | ⟨_, _, -, htake⟩ <;> rw [htake] <;>
        exact fun hexit => ⟨(haw hexit).1, by simp [Blocked]⟩
  | popUp =>
      obtain ⟨-, rfl⟩ := step_popUp h
      rcases takeUp_cases s with ⟨-, htake⟩ | ⟨_, _, -, htake⟩ <;> rw [htake] <;>
        exact fun hexit => ⟨(haw hexit).1, by simp [Blocked]⟩
  | destroy =>
      obtain ⟨-, rfl⟩ := step_destroy h
      exact fun hexit => ⟨rfl, (haw hexit).2⟩
  | joinListen => obtain ⟨-, -, rfl⟩ := step_joinListen h; exact haw
  | joinProcess => obtain ⟨-, -, rfl⟩ := step_joinProcess h; exact haw

end NodeThreads

/-- **In order, at most once, and none left waiting.**  Along any interleaving, what
`processUpMessage` and `processDownMessage` were called on is the beginning of what their queues
were pushed, and whenever the process thread is blocked with no post under way both queues are
empty, and all that was pushed has been processed. -/
theorem node_processes_in_order (portList : Port → Nat) (as : List NodeStep) :
    (node portList).Always
      (fun s => s.up.processed <+: s.up.pushed ∧ s.down.processed <+: s.down.pushed ∧
        (s.Blocked → s.NothingUnderWay →
          (s.upMessageQueue.msgQueue = [] ∧ s.downMessageQueue.msgQueue = []) ∧
            s.up.processed = s.up.pushed ∧ s.down.processed = s.down.pushed)) {} as := by
  have hinv := Machine.always_of_kept (M := node portList)
    (fun _ _ _ hinv hstep => NodeThreads.inv_step hinv hstep) NodeThreads.inv_init as
  refine hinv.imp fun s hs => ⟨hs.up.inOrder, hs.down.inOrder, fun hb hl => ?_⟩
  obtain ⟨hup, hdown⟩ := hs.queues_empty hb hl
  exact ⟨⟨List.length_eq_zero_iff.mp hup, List.length_eq_zero_iff.mp hdown⟩, hs.all_processed hb hl⟩

/-- **Shutdown.**  In a run where the listen thread leaves its loop only while the process thread
is not blocked, the destructor never waits for a thread that nobody is left to wake. -/
theorem shutdown_ends (portList : Port → Nat) (as : List NodeStep)
    (h : (node portList).Meets NodeThreads.LeavesAwake {} as) :
    (node portList).Always (fun s => ¬ s.Deadlocked) {} as := by
  have hstart : NodeThreads.Awake {} := fun hexit => by cases hexit
  have haw := Machine.always_of_step (M := node portList)
    (fun _ _ _ haw hC hstep => NodeThreads.awake_step haw hC hstep) hstart h
  exact haw.imp fun s hs hdead => (hs hdead.2.1).2 hdead.2.2

/-- A node that is destroyed while its process thread handles a message. -/
theorem shutdown_ends_busy :
    (node fun | .up => 30000 | .down => 30001).Always (fun s => ¬ s.Deadlocked) {}
      [.processTest, .listenTest, .select false true,
        .request 5 (Message.serialize { clientSrc := lit "1" }), .post, .wait, .popDown, .destroy,
        .listenTest, .joinListen, .popUp, .processTest, .joinProcess] :=
  shutdown_ends (fun | .up => 30000 | .down => 30001) _ (by decide +kernel)

/-- The process thread waits for a message that does not come. -/
theorem not_shutdown_ends :
    ¬ ∀ (portList : Port → Nat) (as : List NodeStep),
      (node portList).Always (fun s => ¬ s.Deadlocked) {} as := by
  intro h
  have hrun := h (fun | .up => 30000 | .down => 30001)
    [.processTest, .listenTest, .destroy, .select false false, .listenTest, .joinListen]
  have hlast : ∃ s, (node fun | .up => 30000 | .down => 30001).run {}
      [.processTest, .listenTest, .destroy, .select false false, .listenTest, .joinListen] = some s ∧
        s.Deadlocked := ⟨_, rfl, by decide⟩
  obtain ⟨s, hs, hdead⟩ := hlast
  exact hrun.last hs hdead

end Cimabue
