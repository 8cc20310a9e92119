import Cimabue.System.Memory
import Cimabue.Threads.Service

/-!
# Threads — Memory

The objects of a node under every schedule of its threads.  Of the steps of the listen thread, the
process thread and the destructor, those that touch an object are the reception of a message and the
two pops; seen so, a run of the threads is one of the queues of `Memory` (`turns`).

* `server_threads_memory`: whatever the schedule, up to the second join of the destructor, a server
  never uses an object that is not there; its queues hold the messages that are queued, each once, and
  what the destructor leaves is what was lost.
-/

namespace Cimabue

namespace Service

variable {ε σ ω : Type} {handler : Handler ε σ} {portList : Port → Nat} {s t : Service σ}
  {u : Queued σ Port Message}

/-- What a step of the threads does to the queues. -/
def turns (ω : Type) (portList : Port → Nat) (s : Service σ) (a : NodeStep × ε) :
    List (QueueStep Bytes Port ε ω) :=
  match a.1, s.threads.listenThread with
  | .request _ peer, .serving (port :: _) =>
      [.put (if portList port = portList .up then .up else .down) peer]
  | .popDown, _ => [.take .down a.2]
  | .popUp, _ => [.take .up a.2]
  | _, _ => []

/-- The node, and the messages in its queues. -/
structure Queues (s : Service σ) (u : Queued σ Port Message) : Prop where
  node : u.node = s.served.node
  up : u.queue .up = s.threads.upMessageQueue.msgQueue.map (·.msg)
  down : u.queue .down = s.threads.downMessageQueue.msgQueue.map (·.msg)

/-- `v` does what a node with the handlers `handler` does. -/
structure Serves (v : Serving (Except Fault) σ Bytes Port ε ω Message) (handler : Handler ε σ) :
    Prop where
  make : v.make = receive
  handle : ∀ port env s msg, v.handle port env s msg = (handler env s msg port).map (·.1)
  release : v.release = fun _ => pure ()

theorem Queues.put (hq : Queues s u) (port : Port) (entry : MessageEntry) (l : ListenAt) :
    Queues { s with threads := { s.threads.enqueue portList port entry with listenThread := l } }
      (u.put (if portList port = portList .up then .up else .down) entry.msg) := by
  simp only [NodeThreads.enqueue]
  split_ifs with hport
  · exact ⟨hq.node, by simp [Queued.put, MessageQueue.push, hq.up], by simp [Queued.put, hq.down]⟩
  · exact ⟨hq.node, by simp [Queued.put, hq.up], by simp [Queued.put, MessageQueue.push, hq.down]⟩

theorem Serves.put {v : Serving (Except Fault) σ Bytes Port ε ω Message} (hv : Serves v handler)
    {port : Port} {peer : Bytes} {msg : Message} (hrecv : receive peer = .ok msg) :
    v.values.run u [.put port peer] = some (u.put port msg) := by
  simp [Machine.run, Serving.values, Serving.step, hv.make, hrecv, bind, Except.bind, pure,
    Except.pure, Except.toOption]

theorem Serves.take {v : Serving (Except Fault) σ Bytes Port ε ω Message} (hv : Serves v handler)
    {port : Port} {env : ε} {msg : Message} {rest : List Message} {node : σ} {effects : List Effect}
    {ret : Ret} (hqueue : u.queue port = msg :: rest)
    (hcall : handler env u.node msg port = .ok (node, effects, ret)) :
    v.values.run u [.take port env] =
      some { node, queue := Function.update u.queue port rest } := by
  simp [Machine.run, Serving.values, Serving.step, hqueue, hv.handle, hv.release, hcall, bind,
    Except.bind, pure, Except.pure, Except.map, Except.toOption]

theorem Serves.take_nil {v : Serving (Except Fault) σ Bytes Port ε ω Message} {port : Port} {env : ε}
    (hqueue : u.queue port = []) : v.values.run u [.take port env] = some u := by
  simp [Machine.run, Serving.values, Serving.step, hqueue, pure, Except.pure, Except.toOption]

/-- **One step.**  Until the queues are emptied, the threads do to them what `v` does. -/
theorem simulates_values {v : Serving (Except Fault) σ Bytes Port ε ω Message}
    (hv : Serves v handler) (portList : Port → Nat) :
    (service handler portList).Simulates v.values Queues (fun _ a => a.1 ≠ .joinProcess)
      (turns ω portList) where
  step s a t u hq ha h := by
    obtain ⟨step, env⟩ := a
    obtain ⟨threads, served⟩ := t
    have hnode : (node portList).step s.threads step = some threads := (step_cases h).1
    -- the steps that leave the queues and the node
    have hidle : s.threads.taken step = none → threads.upMessageQueue = s.threads.upMessageQueue →
        threads.downMessageQueue = s.threads.downMessageQueue →
        Queues ⟨threads, served⟩ u := by
      intro htaken hup hdown
      obtain rfl : served = s.served := served_of_not_taken h htaken
      exact ⟨hq.node, hup ▸ hq.up, hdown ▸ hq.down⟩
    cases step with
    | joinProcess => exact absurd rfl ha
    | listenTest =>
        obtain ⟨-, rfl⟩ := NodeThreads.step_listenTest hnode
        exact ⟨u, rfl, hidle rfl rfl rfl⟩
    | select up down =>
        obtain ⟨-, rfl⟩ := NodeThreads.step_select hnode
        exact ⟨u, rfl, hidle rfl rfl rfl⟩
    | post =>
        obtain ⟨_, -, rfl⟩ := NodeThreads.step_post hnode
        exact ⟨u, rfl, hidle rfl rfl rfl⟩
    | processTest =>
        obtain ⟨-, rfl⟩ := NodeThreads.step_processTest hnode
        exact ⟨u, rfl, hidle rfl rfl rfl⟩
    | wait =>
        obtain ⟨_, -, -, rfl⟩ := NodeThreads.step_wait hnode
        exact ⟨u, rfl, hidle rfl rfl rfl⟩
    | destroy =>
        obtain ⟨-, rfl⟩ := NodeThreads.step_destroy hnode
        exact ⟨u, rfl, hidle rfl rfl rfl⟩
    | joinListen =>
        obtain ⟨-, -, rfl⟩ := NodeThreads.step_joinListen hnode
        exact ⟨u, rfl, hidle rfl rfl rfl⟩
    | request socket peer =>
        obtain rfl : served = s.served := served_of_not_taken h rfl
        simp only [node, NodeThreads.step] at hnode
        split at hnode
        · next port ports hl =>
            obtain ⟨msg, hrecv, rfl⟩ := Option.map_eq_some_iff.mp hnode
            simp only [turns, hl]
            exact ⟨_, hv.put (toOption_eq_some.mp hrecv), hq.put port ⟨socket, msg⟩ (.posting ports)⟩
        · cases hnode
    | popDown =>
        obtain ⟨-, rfl⟩ := NodeThreads.step_popDown hnode
        have hdown := hq.down
        cases hmsgs : s.threads.downMessageQueue.msgQueue with
        | nil =>
            have hpop : s.threads.downMessageQueue.pop = none := by simp [MessageQueue.pop, hmsgs]
            rw [hmsgs] at hdown
            refine ⟨u, Serves.take_nil hdown, hidle ?_ ?_ ?_⟩ <;>
              simp [NodeThreads.taken, NodeThreads.takeDown, hpop]
        | cons entry rest =>
            have hpop : s.threads.downMessageQueue.pop = some (entry, ⟨rest⟩) := by
              simp [MessageQueue.pop, hmsgs]
            obtain ⟨node, effects, ret, hcall, rfl⟩ :=
              served_of_taken h (show s.threads.taken .popDown = some (.down, entry) by
                simp [NodeThreads.taken, hpop])
            rw [hmsgs, List.map_cons] at hdown
            refine ⟨_, hv.take hdown (hq.node ▸ hcall), rfl, ?_, ?_⟩
            · simpa [NodeThreads.takeDown, hpop] using hq.up
            · simp [NodeThreads.takeDown, hpop]
    | popUp =>
        obtain ⟨-, rfl⟩ := NodeThreads.step_popUp hnode
        have hup := hq.up
        cases hmsgs : s.threads.upMessageQueue.msgQueue with
        | nil =>
            have hpop : s.threads.upMessageQueue.pop = none := by simp [MessageQueue.pop, hmsgs]
            rw [hmsgs] at hup
            refine ⟨u, Serves.take_nil hup, hidle ?_ ?_ ?_⟩ <;>
              simp [NodeThreads.taken, NodeThreads.takeUp, hpop]
        | cons entry rest =>
            have hpop : s.threads.upMessageQueue.pop = some (entry, ⟨rest⟩) := by
              simp [MessageQueue.pop, hmsgs]
            obtain ⟨node, effects, ret, hcall, rfl⟩ :=
              served_of_taken h (show s.threads.taken .popUp = some (.up, entry) by
                simp [NodeThreads.taken, hpop])
            rw [hmsgs, List.map_cons] at hup
            refine ⟨_, hv.take hup (hq.node ▸ hcall), rfl, ?_, ?_⟩
            · simp [NodeThreads.takeUp, hpop]
            · simpa [NodeThreads.takeUp, hpop] using hq.down

/-- The objects of a node under every schedule. -/
theorem memory {c : Serving (Alloc Block Fault) σ Bytes Port ε ω Nat}
    {v : Serving (Except Fault) σ Bytes Port ε ω Message}
    {lost : Losses Block σ Bytes Port ε ω Message} (hi : Implements c v .message lost)
    (hv : Serves v handler) {node : σ} {as : List (NodeStep × ε)}
    (hrun : (service handler portList).run { served := { node } } as = some t)
    (hlast : ∀ a ∈ as, a.1 ≠ .joinProcess) {turnsOf : List (QueueStep Bytes Port ε ω)}
    (hturns : turnsOf = (service handler portList).labels (turns ω portList) { served := { node } } as) :
    ∃ o h u, c.pointers.run ({ node }, {}) turnsOf = some (o, h) ∧ Queues t u ∧
      Ledger [.up, .down] .message o h u (v.values.labels lost.step { node } turnsOf) ∧
      (t.threads.Blocked → t.threads.NothingUnderWay →
        h.objects.Perm (v.values.labels lost.step { node } turnsOf)) ∧
      ∃ h', o.destroy h = .ok ((), h') ∧
        h'.objects.Perm (v.values.labels lost.step { node } turnsOf) := by
  subst hturns
  obtain ⟨u, hu, hq⟩ := (simulates_values hv portList).run (u := { node }) ⟨rfl, rfl, rfl⟩
    (Machine.meets_of_forall _ as fun a ha _ => hlast a ha) hrun
  obtain ⟨hiff, hmemory⟩ := hi.memory node
    ((service handler portList).labels (turns ω portList) { served := { node } } as)
  obtain ⟨⟨o, h⟩, ho⟩ := Option.isSome_iff_exists.mp (hiff.mpr (by rw [hu]; rfl))
  obtain ⟨-, u', hu', hl, hdestroy⟩ := hmemory o h ho
  obtain rfl := Option.some.inj (hu.symm.trans hu')
  refine ⟨o, h, u, ho, hq, hl, fun hb hn => ?_, hdestroy⟩
  -- with nothing queued, what is there is what was lost
  obtain ⟨hup, hdown⟩ := (inv_run hrun).queues_empty hb hn
  have hempty : [Port.up, Port.down].flatMap u.queue = [] := by
    simp [hq.up, hq.down, List.length_eq_zero_iff.mp hup, List.length_eq_zero_iff.mp hdown]
  simpa [hempty] using hl.objects

end Service

/-- What a server's threads do to its queues along a run. -/
def serverTurns (name : Bytes) (portList : Port → Nat) (as : List (NodeStep × Env)) :
    List (QueueStep Bytes Port Env PingTurn) :=
  (service Server.process portList).labels (Service.turns PingTurn portList)
    { served := { node := { name } } } as

/-- What a server loses along a run of its queues. -/
def serverLost (name : Bytes) (turns : List (QueueStep Bytes Port Env PingTurn)) : List Block :=
  serverValues.values.labels serverLosses.step { node := { name } } turns

theorem serves_server : Service.Serves serverValues Server.process where
  make := rfl
  handle port env s msg := by cases h : s.process env msg port <;> simp [serverValues, h, Except.map]
  release := rfl

/-- **The objects of a server, whatever the schedule.**  Up to the second join of the destructor, a
server with its objects goes through every step that its threads take; its queues point to the messages
that are queued, each once; besides these there is what was lost, and nothing else once the process
thread waits; and that is what the destructor leaves. -/
theorem server_threads_memory (name : Bytes) (portList : Port → Nat) (as : List (NodeStep × Env))
    (t : Service Server)
    (hrun : (service Server.process portList).run { served := { node := { name } } } as = some t)
    (hlast : ∀ a ∈ as, a.1 ≠ .joinProcess) :
    ∃ o h u, serverObjects.pointers.run ({ node := { name } }, {}) (serverTurns name portList as) =
        some (o, h) ∧ Service.Queues t u ∧
      Ledger [.up, .down] .message o h u (serverLost name (serverTurns name portList as)) ∧
      (t.threads.Blocked → t.threads.NothingUnderWay →
        h.objects.Perm (serverLost name (serverTurns name portList as))) ∧
      ∃ h', o.destroy h = .ok ((), h') ∧
        h'.objects.Perm (serverLost name (serverTurns name portList as)) :=
  Service.memory server_implements serves_server hrun hlast rfl

/-- The ports of a server. -/
def serverPorts : Port → Nat
  | .up => 8001
  | .down => 8000

/-- A registration, and a text that breaks off, arrive at a server. -/
def broken : List (NodeStep × Env) :=
  [.listenTest, .select true true, .request 5 (lit "MSG_ADD"), .post,
    .request 6 (lit "MSG_ADD_CLIENT-1- - - -ann:host:80-MSG_PRIORITY_NORMAL|"), .post,
    .processTest, .wait, .popDown, .popUp, .processTest, .wait, .popDown, .popUp, .processTest].map
    (·, {})

theorem server_threads_memory_broken :
    ∃ t, (service Server.process serverPorts).run
        { served := { node := { name := lit "7" } } } broken = some t ∧
      ∃ o h u, serverObjects.pointers.run ({ node := { name := lit "7" } }, {})
          (serverTurns (lit "7") serverPorts broken) = some (o, h) ∧ Service.Queues t u ∧
        Ledger [.up, .down] .message o h u
          (serverLost (lit "7") (serverTurns (lit "7") serverPorts broken)) ∧
        (t.threads.Blocked → t.threads.NothingUnderWay →
          h.objects.Perm (serverLost (lit "7") (serverTurns (lit "7") serverPorts broken))) ∧
        ∃ h', o.destroy h = .ok ((), h') ∧
          h'.objects.Perm (serverLost (lit "7") (serverTurns (lit "7") serverPorts broken)) := by
  have hrun : ((service Server.process serverPorts).run
      { served := { node := { name := lit "7" } } } broken).isSome = true := by
    decide +kernel
  have hlast : ∀ a ∈ broken, a.1 ≠ .joinProcess := by decide
  obtain ⟨t, ht⟩ := Option.isSome_iff_exists.mp hrun
  exact ⟨t, ht, server_threads_memory (lit "7") serverPorts broken t ht hlast⟩

end Cimabue
