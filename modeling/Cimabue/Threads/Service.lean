import Cimabue.Support.Simulation
import Cimabue.Threads.Reception

/-!
# Threads — Service

A node with its threads and its handlers (`service`): each of the two pops of the process thread
calls a handler on the entry it takes.  A node that has no threads is called on one entry after the
other (`sequential`).

* `service_refines`: a run of the threads is one of the handlers alone, on the entries of each queue
  in the order of their arrival, and on all of them when the process thread waits.
* `server_of_down`: what these threads make of a server is made by what arrives on its down port.
* `client_schedule`: what they make of a client is made by what arrives on its two ports, in whatever
  order the process thread takes from the one and the other.
* `connections_closed`: every connection a handler is called on is answered by it once at most, and then
  closed by it once.

The ping thread of a server, the loop a client connects with, and what `Send` does with sockets of its
own, are not part of these runs.
-/

namespace Cimabue

variable {ε σ : Type*}

/-- The handlers of a node; `ε` is what the world answers them. -/
abbrev Handler (ε σ : Type*) := ε → σ → Message → Port → Except Fault (σ × List Effect × Ret)

/-- The handlers of a client, which ask the world nothing. -/
def Client.handler : Handler Unit Client := fun _ => Client.process

/-- A call of a handler. -/
structure Call (ε : Type*) where
  port : Port
  entry : MessageEntry
  env : ε

/-- A node, and what its handlers did, each effect with the socket of the entry. -/
structure Served (σ : Type*) where
  node : σ
  done : List (Int × Effect) := []

/-- The handlers, one call after the other. -/
def sequential (handler : Handler ε σ) : Machine (Served σ) (Call ε) where
  step s c := (handler c.env s.node c.entry.msg c.port).toOption.map fun r =>
    { node := r.1, done := s.done ++ r.2.1.map (c.entry.socket, ·) }

/-! ### The threads and the handlers -/

/-- A node with its threads. -/
structure Service (σ : Type*) where
  threads : NodeThreads := {}
  served : Served σ

/-- The entry that a step takes from its queue, and the queue's port. -/
def NodeThreads.taken (s : NodeThreads) : NodeStep → Option (Port × MessageEntry)
  | .popDown => s.downMessageQueue.pop.map fun r => (.down, r.1)
  | .popUp => s.upMessageQueue.pop.map fun r => (.up, r.1)
  | _ => none

/-- What went through the queue of a port. -/
def NodeThreads.history (s : NodeThreads) : Port → History
  | .up => s.up
  | .down => s.down

namespace Service

def step (handler : Handler ε σ) (portList : Port → Nat) (s : Service σ) (a : NodeStep × ε) :
    Option (Service σ) :=
  (s.threads.step portList a.1).bind fun threads =>
    match s.threads.taken a.1 with
    | none => some { s with threads }
    | some (port, entry) =>
        match handler a.2 s.served.node entry.msg port with
        | .error _ => none
        | .ok (node, effects, _) =>
            some { threads
                   served := { node, done := s.served.done ++ effects.map (entry.socket, ·) } }

/-- The call of a step. -/
def calls (s : Service σ) (a : NodeStep × ε) : List (Call ε) :=
  (s.threads.taken a.1).toList.map fun r => { port := r.1, entry := r.2, env := a.2 }

end Service

/-- The threads of a node that listens on the ports `portList`, with its handlers. -/
def service (handler : Handler ε σ) (portList : Port → Nat) :
    Machine (Service σ) (NodeStep × ε) where
  step := Service.step handler portList

namespace Service

variable {handler : Handler ε σ} {portList : Port → Nat} {s t : Service σ} {a : NodeStep × ε}

/-- A step of the threads takes no entry, or calls the handler on the one it takes. -/
theorem step_cases (h : (service handler portList).step s a = some t) :
    s.threads.step portList a.1 = some t.threads ∧
      ((s.threads.taken a.1 = none ∧ t.served = s.served) ∨
        ∃ port entry node effects ret, s.threads.taken a.1 = some (port, entry) ∧
          handler a.2 s.served.node entry.msg port = .ok (node, effects, ret) ∧
          t.served = { node, done := s.served.done ++ effects.map (entry.socket, ·) }) := by
  obtain ⟨threads, hthreads, h⟩ := Option.bind_eq_some_iff.mp h
  cases htaken : s.threads.taken a.1 with
  | none =>
      rw [htaken] at h
      cases h
      exact ⟨hthreads, .inl ⟨rfl, rfl⟩⟩
  | some r =>
      obtain ⟨port, entry⟩ := r
      simp only [htaken] at h
      cases hcall : handler a.2 s.served.node entry.msg port with
      | error f => rw [hcall] at h; cases h
      | ok r =>
          obtain ⟨node, effects, ret⟩ := r
          rw [hcall] at h
          cases h
          exact ⟨hthreads, .inr ⟨port, entry, node, effects, ret, rfl, hcall, rfl⟩⟩

/-- A step that takes no entry calls no handler. -/
theorem served_of_not_taken (h : (service handler portList).step s a = some t)
    (htaken : s.threads.taken a.1 = none) : t.served = s.served := by
  rcases (step_cases h).2 with ⟨-, hserved⟩ | ⟨port, entry, node, effects, ret, hsome, -⟩
  · exact hserved
  · rw [htaken] at hsome
    cases hsome

/-- A step that takes an entry calls the handler of its port on it. -/
theorem served_of_taken {port : Port} {entry : MessageEntry}
    (h : (service handler portList).step s a = some t)
    (htaken : s.threads.taken a.1 = some (port, entry)) :
    ∃ node effects ret, handler a.2 s.served.node entry.msg port = .ok (node, effects, ret) ∧
      t.served = { node, done := s.served.done ++ effects.map (entry.socket, ·) } := by
  rcases (step_cases h).2 with ⟨hnone, -⟩ | ⟨port', entry', node, effects, ret, hsome, hcall, hserved⟩
  · rw [htaken] at hnone
    cases hnone
  · rw [htaken] at hsome
    cases hsome
    exact ⟨node, effects, ret, hcall, hserved⟩

/-- **One step.**  The threads do nothing to a node but call its handlers. -/
theorem simulates (handler : Handler ε σ) (portList : Port → Nat) :
    (service handler portList).Simulates (sequential handler) (fun s u => s.served = u)
      (fun _ _ => True) calls where
  step s a t u hu _ h := by
    subst hu
    obtain ⟨-, ⟨htaken, hserved⟩ | ⟨port, entry, node, effects, ret, htaken, hcall, hserved⟩⟩ :=
      step_cases h
    · exact ⟨s.served, by simp [calls, htaken, Machine.run], hserved⟩
    · refine ⟨t.served, ?_, rfl⟩
      simp [calls, htaken, Machine.run, sequential, hcall, hserved, Except.toOption]

/-- What a step takes is what its queue has had processed. -/
theorem processed_step {threads threads' : NodeThreads} {a : NodeStep}
    (h : threads.step portList a = some threads') (port : Port) :
    (threads'.history port).processed = (threads.history port).processed ++
      ((threads.taken a).toList.filter (·.1 = port)).map (·.2) := by
  have h : (node portList).step threads a = some threads' := h
  cases a with
  | popDown =>
      obtain ⟨-, rfl⟩ := NodeThreads.step_popDown h
      cases hpop : threads.downMessageQueue.pop <;> cases port <;>
        simp [NodeThreads.history, NodeThreads.taken, NodeThreads.takeDown, hpop]
  | popUp =>
      obtain ⟨-, rfl⟩ := NodeThreads.step_popUp h
      cases hpop : threads.upMessageQueue.pop <;> cases port <;>
        simp [NodeThreads.history, NodeThreads.taken, NodeThreads.takeUp, hpop]
  | request socket peer =>
      obtain ⟨q, ports, msg, -, rfl⟩ := NodeThreads.step_request h
      rw [NodeThreads.enqueue]
      cases port <;> split <;> simp [NodeThreads.history, NodeThreads.taken]
  | listenTest =>
      obtain ⟨-, rfl⟩ := NodeThreads.step_listenTest h
      cases port <;> simp [NodeThreads.history, NodeThreads.taken]
  | select up down =>
      obtain ⟨-, rfl⟩ := NodeThreads.step_select h
      cases port <;> simp [NodeThreads.history, NodeThreads.taken]
  | post =>
      obtain ⟨_, -, rfl⟩ := NodeThreads.step_post h
      cases port <;> simp [NodeThreads.history, NodeThreads.taken]
  | processTest =>
      obtain ⟨-, rfl⟩ := NodeThreads.step_processTest h
      cases port <;> simp [NodeThreads.history, NodeThreads.taken]
  | wait =>
      obtain ⟨_, -, -, rfl⟩ := NodeThreads.step_wait h
      cases port <;> simp [NodeThreads.history, NodeThreads.taken]
  | destroy =>
      obtain ⟨-, rfl⟩ := NodeThreads.step_destroy h
      cases port <;> simp [NodeThreads.history, NodeThreads.taken]
  | joinListen =>
      obtain ⟨-, -, rfl⟩ := NodeThreads.step_joinListen h
      cases port <;> simp [NodeThreads.history, NodeThreads.taken]
  | joinProcess =>
      obtain ⟨-, -, rfl⟩ := NodeThreads.step_joinProcess h
      cases port <;> simp [NodeThreads.history, NodeThreads.taken]

/-- The threads of a node with handlers are the threads of a node. -/
theorem simulates_node (handler : Handler ε σ) (portList : Port → Nat) :
    (service handler portList).Simulates (node portList) (fun s u => s.threads = u)
      (fun _ _ => True) (fun _ a => [a.1]) where
  step s a t u hu _ h := by
    subst hu
    exact ⟨t.threads, by simp [Machine.run, node, (step_cases h).1], rfl⟩

/-- The calls of a run, those of each port in the order of its queue. -/
theorem processed_run {as : List (NodeStep × ε)}
    (hrun : (service handler portList).run s as = some t) (port : Port) :
    (t.threads.history port).processed = (s.threads.history port).processed ++
      (((service handler portList).labels calls s as).filter (·.port = port)).map (·.entry) := by
  induction as generalizing s with
  | nil =>
      obtain rfl := Option.some.inj hrun
      simp [Machine.labels]
  | cons a as ih =>
      obtain ⟨u, hu, hrun⟩ := Option.bind_eq_some_iff.mp hrun
      have hcalls : ((calls s a).filter (·.port = port)).map (·.entry) =
          ((s.threads.taken a.1).toList.filter (·.1 = port)).map (·.2) := by
        cases htaken : s.threads.taken a.1 with
        | none => simp [calls, htaken]
        | some r => by_cases hr : r.1 = port <;> simp [calls, htaken, hr]
      rw [ih hrun, processed_step (step_cases hu).1, Machine.labels_cons as hu, List.filter_append,
        List.map_append, hcalls, List.append_assoc]

/-- What is made of a node is what its handlers make of it, on the entries that were taken. -/
theorem calls_run {node : σ} {as : List (NodeStep × ε)}
    (hrun : (service handler portList).run { served := { node } } as = some t) :
    ∃ calls, (sequential handler).run { node } calls = some t.served ∧ ∀ port,
      (calls.filter (·.port = port)).map (·.entry) = (t.threads.history port).processed := by
  obtain ⟨served, hserved, rfl⟩ := (simulates handler portList).run rfl
    (Machine.meets_of_forall _ as fun _ _ _ => trivial) hrun
  refine ⟨_, hserved, fun port => ?_⟩
  rw [processed_run hrun]
  cases port <;> simp [NodeThreads.history]

theorem inv_run {node₀ : σ} {as : List (NodeStep × ε)}
    (hrun : (service handler portList).run { served := { node := node₀ } } as = some t) :
    t.threads.Inv := by
  obtain ⟨u, hu, rfl⟩ := (simulates_node handler portList).run rfl
    (Machine.meets_of_forall _ as fun _ _ _ => trivial) hrun
  exact Machine.run_kept (fun _ _ _ hinv h => NodeThreads.inv_step hinv h) NodeThreads.inv_init hu

end Service

/-- **A node is its handlers.**  What a run of the threads makes of a node, and all that its handlers
do, is what the handlers make of it and do when they are called on one entry after the other: for each
queue on a beginning of what arrived there, in that order, and on all of it whenever the process
thread waits with no post under way. -/
theorem service_refines (handler : Handler ε σ) (portList : Port → Nat) (node : σ)
    (as : List (NodeStep × ε)) (t : Service σ)
    (hrun : (service handler portList).run { served := { node } } as = some t) :
    ∃ calls, (sequential handler).run { node } calls = some t.served ∧ ∀ port,
      (calls.filter (·.port = port)).map (·.entry) = (t.threads.history port).processed ∧
        (t.threads.history port).processed <+: (t.threads.history port).pushed ∧
        (t.threads.Blocked → t.threads.NothingUnderWay →
          (t.threads.history port).processed = (t.threads.history port).pushed) := by
  obtain ⟨calls, hcalls, hport⟩ := Service.calls_run hrun
  have hinv := Service.inv_run hrun
  refine ⟨calls, hcalls, fun port => ⟨hport port, ?_, fun hb hl => ?_⟩⟩
  · cases port
    · exact hinv.up.inOrder
    · exact hinv.down.inOrder
  · obtain ⟨hup, hdown⟩ := hinv.all_processed hb hl
    cases port
    · exact hup
    · exact hdown

/-- The ports of a client. -/
def clientPorts : Port → Nat
  | .up => 6001
  | .down => 6000

/-- A client before anything arrives. -/
def newClient : Service Client := { served := { node := { name := lit "1", nickname := lit "ann" } } }

/-- A ping arrives on socket 5 and is answered. -/
def pinged : List (NodeStep × Unit) :=
  [.listenTest, .select false true,
    .request 5 (lit "MSG_PING_CLIENT- -1-7- - -MSG_PRIORITY_NORMAL|"), .post, .processTest, .wait,
    .popDown, .popUp].map (·, ())

theorem service_refines_pinged :
    ∃ t, (service Client.handler clientPorts).run newClient pinged = some t ∧
      ∃ calls, (sequential Client.handler).run newClient.served calls = some t.served ∧ ∀ port,
        (calls.filter (·.port = port)).map (·.entry) = (t.threads.history port).processed ∧
          (t.threads.history port).processed <+: (t.threads.history port).pushed ∧
          (t.threads.Blocked → t.threads.NothingUnderWay →
            (t.threads.history port).processed = (t.threads.history port).pushed) := by
  have hrun : ((service Client.handler clientPorts).run newClient pinged).isSome = true := by
    decide +kernel
  obtain ⟨t, ht⟩ := Option.isSome_iff_exists.mp hrun
  exact ⟨t, ht, service_refines Client.handler clientPorts newClient.served.node pinged t ht⟩

/-! ### What a node is made of -/

/-- The node alone, one call after the other. -/
def handled (handler : Handler ε σ) : Machine σ (Call ε) where
  step s c := (handler c.env s c.entry.msg c.port).toOption.map (·.1)

theorem handled_of_sequential {handler : Handler ε σ} {s t : Served σ} {calls : List (Call ε)}
    (hrun : (sequential handler).run s calls = some t) :
    (handled handler).run s.node calls = some t.node := by
  have hsim : (sequential handler).Simulates (handled handler) (fun s u => s.node = u)
      (fun _ _ => True) (fun _ c => [c]) := by
    refine ⟨fun s c t u hu _ h => ?_⟩
    subst hu
    obtain ⟨r, hr, rfl⟩ := Option.map_eq_some_iff.mp h
    exact ⟨r.1, by simp [Machine.run, handled, hr], rfl⟩
  obtain ⟨u, hu, rfl⟩ := hsim.run rfl (Machine.meets_of_forall _ calls fun _ _ _ => trivial) hrun
  have hlabels := Machine.labels_singleton (fun c : Call ε => c) hrun
  rw [List.map_id'] at hlabels
  rwa [hlabels] at hu

/-- **A server is what arrives on its down port.**  A run of its listen and process threads and its
destructor leaves the server that the handler of the down port makes, called on the entries that were
taken from its queue. -/
theorem server_of_down (portList : Port → Nat) (s : Server) (as : List (NodeStep × Env))
    (t : Service Server)
    (hrun : (service Server.process portList).run { served := { node := s } } as = some t) :
    ∃ calls, (∀ c ∈ calls, c.port = .down) ∧
      calls.map (·.entry) = t.threads.down.processed ∧
      (handled Server.process).run s calls = some t.served.node := by
  obtain ⟨calls, hcalls, hport⟩ := Service.calls_run hrun
  refine ⟨calls.filter (·.port = .down), fun c hc => by simpa using List.of_mem_filter hc,
    hport .down, ?_⟩
  rw [← Machine.run_filter_of_idle]
  · exact handled_of_sequential hcalls
  · -- the handler of the up port leaves the server as it is
    rintro s ⟨port, entry, env⟩ hc
    cases port with
    | up => rfl
    | down => simp at hc

/-- A registration arrives at a server and is handled. -/
theorem server_of_down_add :
    ∃ t, (service Server.process fun | .up => 8001 | .down => 8000).run
        { served := { node := { name := lit "7" } } }
        ([.listenTest, .select false true,
          .request 5 (lit "MSG_ADD_CLIENT-1- - - -ann:host:80-MSG_PRIORITY_NORMAL|"), .post,
          .processTest, .wait, .popDown, .popUp].map (·, {})) = some t ∧
      ∃ calls, (∀ c ∈ calls, c.port = .down) ∧ calls.map (·.entry) = t.threads.down.processed ∧
        (handled Server.process).run { name := lit "7" } calls = some t.served.node := by
  have hrun : ((service Server.process fun | .up => 8001 | .down => 8000).run
      { served := { node := { name := lit "7" } } }
      ([.listenTest, .select false true,
        .request 5 (lit "MSG_ADD_CLIENT-1- - - -ann:host:80-MSG_PRIORITY_NORMAL|"), .post,
        .processTest, .wait, .popDown, .popUp].map (·, {}))).isSome = true := by
    decide +kernel
  obtain ⟨t, ht⟩ := Option.isSome_iff_exists.mp hrun
  exact ⟨t, ht, server_of_down _ { name := lit "7" } _ t ht⟩

namespace Client

/-- The handler of the down port writes the directory only. -/
theorem processDownMessage_frame {c c' : Client} {msg : Message} {effects : List Effect} {ret : Ret}
    (h : c.processDownMessage msg = .ok (c', effects, ret)) :
    c' = { c with clientNickToNameMap := c'.clientNickToNameMap } := by
  rw [processDownMessage] at h
  split_ifs at h with hdest
  · cases h; rfl
  · split at h
    · cases h; rfl
    · obtain ⟨p, -, h⟩ := bind_eq_ok.mp h
      cases h; rfl
    · obtain ⟨ps, -, h⟩ := bind_eq_ok.mp h
      cases h; rfl
    · rw [removeByName] at h
      cases hfind : c.clientNickToNameMap.entries.find? (·.2 = msg.data) <;> rw [hfind] at h <;>
        cases h <;> rfl
    · cases h; rfl

/-- It reads the name and the directory only. -/
theorem processDownMessage_withServer (c : Client) (server : Bytes) (connected : Bool)
    (msg : Message) :
    ({ c with server, connectedToServer := connected } : Client).processDownMessage msg =
      (c.processDownMessage msg).map fun r =>
        ({ r.1 with server, connectedToServer := connected }, r.2) := by
  simp only [processDownMessage]
  split_ifs with hdest
  · rfl
  · split
    · rfl
    · cases extractNicknameAndData msg.data <;> rfl
    · cases decodeUpdate msg.data <;> rfl
    · simp only [removeByName]
      cases c.clientNickToNameMap.entries.find? (·.2 = msg.data) <;> rfl
    · rfl

/-- The handler of the up port writes the two fields of the connection, or nothing. -/
theorem processUpMessage_fst (c : Client) (msg : Message) :
    (c.processUpMessage msg).1 =
      if msg.clientDest = c.name ∧ msg.type = .addClient then
        { c with server := msg.serverSrc, connectedToServer := true }
      else c := by
  by_cases hdest : msg.clientDest = c.name
  · cases htype : msg.type <;> simp [processUpMessage, hdest, htype]
  · simp [processUpMessage, hdest]

/-- **The handlers of the two ports swap**: neither reads or writes what the other writes. -/
theorem swaps_down_up {a b : Call Unit} (ha : a.port = .down) (hb : b.port = .up) :
    (handled handler).Swaps a b := by
  intro c
  have hup : ∀ c : Client, (handled handler).step c b = some (c.processUpMessage b.entry.msg).1 :=
    fun c => by simp only [handled, handler, hb, process]; rfl
  have hdown : ∀ c : Client, (handled handler).step c a =
      (c.processDownMessage a.entry.msg).toOption.map (·.1) :=
    fun c => by simp only [handled, handler, ha, process]
  simp only [hup, hdown, Option.bind_some, processUpMessage_fst]
  cases hres : c.processDownMessage a.entry.msg with
  | error f =>
      split_ifs
      · rw [processDownMessage_withServer, hres]; rfl
      · rw [hres]; rfl
  | ok r =>
      obtain ⟨c', effects, ret⟩ := r
      have hname : c'.name = c.name := by rw [processDownMessage_frame hres]
      simp only [Except.toOption, Option.map_some, Option.bind_some]
      by_cases hadd : b.entry.msg.clientDest = c.name ∧ b.entry.msg.type = .addClient
      · rw [if_pos hadd, if_pos (by rwa [hname]), processDownMessage_withServer, hres]; rfl
      · rw [if_neg hadd, if_neg (by rwa [hname]), hres]; rfl

/-- The calls of a port are its entries. -/
theorem calls_of_port (calls : List (Call Unit)) (port : Port) :
    calls.filter (·.port = port) =
      ((calls.filter (·.port = port)).map (·.entry)).map fun entry =>
        { port, entry, env := () } := by
  rw [List.map_map]
  refine (List.map_id' _).symm.trans (List.map_congr_left fun call hcall => ?_)
  obtain rfl : call.port = port := by simpa using List.of_mem_filter hcall
  rfl

end Client

/-- **The schedule makes no difference.**  Two runs of a client's listen and process threads that have
taken the same entries from the queue of each port leave the same client, in whatever order the process thread went
from the one queue to the other, and whatever else happened. -/
theorem client_schedule (c : Client) (portList portList' : Port → Nat)
    (as bs : List (NodeStep × Unit)) (t u : Service Client)
    (hrun : (service Client.handler portList).run { served := { node := c } } as = some t)
    (hrun' : (service Client.handler portList').run { served := { node := c } } bs = some u)
    (h : ∀ port, (t.threads.history port).processed = (u.threads.history port).processed) :
    t.served.node = u.served.node := by
  -- sorted by port, the calls are those of the entries
  have hsorted : ∀ {portList : Port → Nat} {as : List (NodeStep × Unit)} {t : Service Client},
      (service Client.handler portList).run { served := { node := c } } as = some t →
      (handled Client.handler).run c
        ((t.threads.history .up).processed.map (fun entry => { port := .up, entry, env := () }) ++
          (t.threads.history .down).processed.map fun entry =>
            { port := .down, entry, env := () }) = some t.served.node := by
    intro portList as t hrun
    obtain ⟨calls, hcalls, hport⟩ := Service.calls_run hrun
    have hdown : calls.filter (fun call => !decide (call.port = .up)) =
        calls.filter (·.port = .down) :=
      List.filter_congr fun call _ => by cases call.port <;> rfl
    rw [← hport .up, ← hport .down, ← Client.calls_of_port, ← Client.calls_of_port, ← hdown,
      ← Machine.run_filter (fun call : Call Unit => decide (call.port = .up))]
    · exact handled_of_sequential hcalls
    · intro a b ha hb
      refine Client.swaps_down_up ?_ (by simpa using hb)
      cases hp : a.port with
      | up => simp [hp] at ha
      | down => rfl
  have ht := hsorted hrun
  rw [h .up, h .down, hsorted hrun'] at ht
  exact (Option.some.inj ht).symm

/-- A confirmation on the up port and a ping on the down port, taken in one wake-up and in two. -/
theorem client_schedule_two :
    ∃ t u,
      (service Client.handler clientPorts).run newClient
        ([.listenTest, .select true true,
          .request 5 (lit "MSG_ADD_CLIENT- -1-7- - -MSG_PRIORITY_NORMAL|"), .post,
          .request 6 (lit "MSG_PING_CLIENT- -1-7- - -MSG_PRIORITY_NORMAL|"), .post, .processTest,
          .wait, .popDown, .popUp].map (·, ())) = some t ∧
      (service Client.handler clientPorts).run newClient
        ([.listenTest, .select true true,
          .request 5 (lit "MSG_ADD_CLIENT- -1-7- - -MSG_PRIORITY_NORMAL|"), .post, .processTest,
          .wait, .popDown, .popUp,
          .request 6 (lit "MSG_PING_CLIENT- -1-7- - -MSG_PRIORITY_NORMAL|"), .post, .processTest,
          .wait, .popDown].map (·, ())) = some u ∧
      t.served.node = u.served.node := by
  have hruns : (((service Client.handler clientPorts).run newClient
      ([.listenTest, .select true true,
        .request 5 (lit "MSG_ADD_CLIENT- -1-7- - -MSG_PRIORITY_NORMAL|"), .post,
        .request 6 (lit "MSG_PING_CLIENT- -1-7- - -MSG_PRIORITY_NORMAL|"), .post, .processTest,
        .wait, .popDown, .popUp].map (·, ()))).any fun t =>
      ((service Client.handler clientPorts).run newClient
        ([.listenTest, .select true true,
          .request 5 (lit "MSG_ADD_CLIENT- -1-7- - -MSG_PRIORITY_NORMAL|"), .post, .processTest,
          .wait, .popDown, .popUp,
          .request 6 (lit "MSG_PING_CLIENT- -1-7- - -MSG_PRIORITY_NORMAL|"), .post, .processTest,
          .wait, .popDown].map (·, ()))).any fun u =>
        t.threads.up.processed = u.threads.up.processed &&
          t.threads.down.processed = u.threads.down.processed) = true := by
    decide +kernel
  obtain ⟨t, ht, hu⟩ := (Option.any_eq_true _ _).mp hruns
  obtain ⟨u, hu, hsame⟩ := (Option.any_eq_true _ _).mp hu
  simp only [Bool.and_eq_true, decide_eq_true_eq] at hsame
  refine ⟨t, u, ht, hu, client_schedule newClient.served.node _ _ _ _ t u ht hu fun port => ?_⟩
  cases port with
  | up => exact hsame.1
  | down => exact hsame.2

/-! ### Connections -/

/-- What a handler does with the socket of its message. -/
def socketEffects (effects : List Effect) : List Effect :=
  effects.filter fun
    | .reply _ | .close => true
    | .send _ | .notify _ => false

/-- One answer at most, and the end of the connection. -/
def EndsWithClose (l : List Effect) : Prop := l = [.close] ∨ ∃ m, l = [.reply m, .close]

theorem socketEffects_append (l l' : List Effect) :
    socketEffects (l ++ l') = socketEffects l ++ socketEffects l' :=
  List.filter_append ..

theorem socketEffects_map_send (ps : List Packet) : socketEffects (ps.map .send) = [] := by
  simp [socketEffects]

theorem socketEffects_map_notify {α : Type*} (f : α → Event) (l : List α) :
    socketEffects (l.map fun a => .notify (f a)) = [] := by
  simp [socketEffects]

/-- A message that is forwarded is all that `executeSendMessage` sends. -/
theorem Server.socketEffects_executeSendMessage {env : Env} {s : Server} {msg answer : Message}
    {effects : List Effect} (h : s.executeSendMessage env msg = .ok (answer, effects)) :
    socketEffects effects = [] := by
  obtain ⟨p?, -, h⟩ := bind_eq_ok.mp h
  cases p? with
  | none => cases h; rfl
  | some p =>
      obtain ⟨reply, -, h⟩ := bind_eq_ok.mp h
      cases h
      rfl

/-- The handlers of a server. -/
theorem Server.process_ends {env : Env} {s s' : Server} {msg : Message} {port : Port}
    {effects : List Effect} {ret : Ret} (h : s.process env msg port = .ok (s', effects, ret)) :
    EndsWithClose (socketEffects effects) := by
  cases port with
  | up => cases h; exact .inl rfl
  | down =>
      rw [process, processDownMessage] at h
      cases hrequest : s.request msg with
      | add =>
          rw [hrequest] at h
          obtain ⟨⟨s₁, answer⟩, -, h⟩ := bind_eq_ok.mp h
          obtain ⟨sent, -, h⟩ := bind_eq_ok.mp h
          cases h
          rw [socketEffects_append, socketEffects_map_send, List.append_nil]
          exact .inr ⟨answer, rfl⟩
      | wrongDestination => rw [hrequest] at h; cases h; exact .inr ⟨_, rfl⟩
      | unknown => rw [hrequest] at h; cases h; exact .inl rfl
      | send =>
          rw [hrequest] at h
          obtain ⟨⟨answer, effects'⟩, hsend, h⟩ := bind_eq_ok.mp h
          cases h
          rw [socketEffects_append, socketEffects_executeSendMessage hsend, List.nil_append]
          exact .inr ⟨answer, rfl⟩

/-- The handlers of a client. -/
theorem Client.process_ends {c c' : Client} {msg : Message} {port : Port} {effects : List Effect}
    {ret : Ret} (h : c.process msg port = .ok (c', effects, ret)) :
    EndsWithClose (socketEffects effects) := by
  cases port with
  | up =>
      have hclose : (c.processUpMessage msg).2.1 = [.close] := by
        rw [processUpMessage]
        split_ifs
        · rfl
        · split <;> rfl
      have heffects : (c.processUpMessage msg).2.1 = effects := by rw [Except.ok.inj h]
      rw [← heffects, hclose]
      exact .inl rfl
  | down =>
      rw [process, processDownMessage] at h
      split_ifs at h
      · cases h; exact .inl rfl
      · split at h
        · cases h; exact .inr ⟨_, rfl⟩
        · obtain ⟨p, -, h⟩ := bind_eq_ok.mp h
          cases h; exact .inr ⟨_, rfl⟩
        · obtain ⟨ps, -, h⟩ := bind_eq_ok.mp h
          cases h
          rw [socketEffects_append, socketEffects_map_notify]
          exact .inr ⟨_, rfl⟩
        · split at h <;> cases h <;> exact .inl rfl
        · cases h; exact .inl rfl

namespace Service

/-- What was done on the socket `k`: for each entry from it that was processed, an answer at most
and the end. -/
def ClosedOnce (t : Service σ) (k : Int) : Prop :=
  ∃ ends : List (List Effect),
    socketEffects ((t.served.done.filter (·.1 = k)).map (·.2)) = ends.flatten ∧
    (∀ l ∈ ends, EndsWithClose l) ∧
    ends.length = t.threads.down.processed.countP (·.socket = k) +
      t.threads.up.processed.countP (·.socket = k)

/-- The calls of a run end the connections of their entries, one by one. -/
theorem ends_of_sequential {handler : Handler ε σ}
    (hends : ∀ env s msg port s' effects ret, handler env s msg port = .ok (s', effects, ret) →
      EndsWithClose (socketEffects effects)) {s t : Served σ} {calls : List (Call ε)}
    (hrun : (sequential handler).run s calls = some t) (k : Int) :
    ∃ ends : List (List Effect),
      socketEffects ((t.done.filter (·.1 = k)).map (·.2)) =
        socketEffects ((s.done.filter (·.1 = k)).map (·.2)) ++ ends.flatten ∧
      (∀ l ∈ ends, EndsWithClose l) ∧ ends.length = calls.countP (·.entry.socket = k) := by
  induction calls generalizing s with
  | nil =>
      obtain rfl := Option.some.inj hrun
      exact ⟨[], by simp, by simp, rfl⟩
  | cons call calls ih =>
      obtain ⟨u, hu, hrun⟩ := Option.bind_eq_some_iff.mp hrun
      obtain ⟨r, hr, rfl⟩ := Option.map_eq_some_iff.mp hu
      obtain ⟨node, effects, ret⟩ := r
      have hcall : handler call.env s.node call.entry.msg call.port = .ok (node, effects, ret) := by
        cases hres : handler call.env s.node call.entry.msg call.port with
        | error f => rw [hres] at hr; cases hr
        | ok r => rw [hres] at hr; exact congrArg _ (Option.some.inj hr)
      obtain ⟨ends, hdone, hall, hlen⟩ := ih hrun
      simp only [List.filter_append, List.map_append, socketEffects_append] at hdone
      by_cases hk : call.entry.socket = k
      · -- one connection more
        have hself : ((effects.map (call.entry.socket, ·)).filter (·.1 = k)).map (·.2) = effects := by
          rw [List.filter_eq_self.mpr (by simp [hk]), List.map_map]
          exact List.map_id' _
        rw [hself] at hdone
        refine ⟨socketEffects effects :: ends, ?_, ?_, ?_⟩
        · rw [hdone, List.flatten_cons, List.append_assoc]
        · rintro l hl
          rcases List.mem_cons.mp hl with rfl | hl
          · exact hends _ _ _ _ _ _ _ hcall
          · exact hall l hl
        · rw [List.length_cons, hlen, List.countP_cons_of_pos (by simpa using hk)]
      · have hother : (effects.map (call.entry.socket, ·)).filter (·.1 = k) = [] :=
          List.filter_eq_nil_iff.mpr (by simp [hk])
        rw [hother] at hdone
        exact ⟨ends, by simpa [socketEffects] using hdone, hall,
          by rw [hlen, List.countP_cons_of_neg (by simpa using hk)]⟩

theorem closedOnce {handler : Handler ε σ} {portList : Port → Nat}
    (hends : ∀ env s msg port s' effects ret, handler env s msg port = .ok (s', effects, ret) →
      EndsWithClose (socketEffects effects)) {node : σ} {as : List (NodeStep × ε)} {t : Service σ}
    (hrun : (service handler portList).run { served := { node } } as = some t) (k : Int) :
    t.ClosedOnce k := by
  obtain ⟨calls, hcalls, hport⟩ := calls_run hrun
  obtain ⟨ends, hdone, hall, hlen⟩ := ends_of_sequential hends hcalls k
  refine ⟨ends, by simpa [socketEffects] using hdone, hall, ?_⟩
  have hcount : ∀ port, (calls.filter (·.port = port)).countP (·.entry.socket = k) =
      (t.threads.history port).processed.countP (·.socket = k) := by
    intro port
    rw [← hport port, List.countP_map]
    rfl
  have hup : calls.filter (fun call => !decide (call.port = .down)) =
      calls.filter (·.port = .up) :=
    List.filter_congr fun call _ => by cases call.port <;> rfl
  rw [hlen, List.countP_eq_countP_filter_add _ _ (fun call => decide (call.port = .down)), hup,
    hcount .down, hcount .up]
  rfl

end Service

/-- **Connections are closed.**  Along any run of the threads of a server or a client, and for every
socket: each entry from it that has been processed was answered once at most by its handler, which then
closed the socket once; no handler wrote anything else to it. -/
theorem connections_closed (portList : Port → Nat) (k : Int) :
    (∀ (s : Server) (as : List (NodeStep × Env)) (t : Service Server),
      (service Server.process portList).run { served := { node := s } } as = some t →
        t.ClosedOnce k) ∧
    ∀ (c : Client) (as : List (NodeStep × Unit)) (t : Service Client),
      (service Client.handler portList).run { served := { node := c } } as = some t →
        t.ClosedOnce k :=
  ⟨fun _ _ _ hrun => Service.closedOnce (fun _ _ _ _ _ _ _ h => Server.process_ends h) hrun k,
    fun _ _ _ hrun => Service.closedOnce (fun _ _ _ _ _ _ _ h => Client.process_ends h) hrun k⟩

theorem connections_closed_pinged :
    ∃ t, (service Client.handler clientPorts).run newClient pinged = some t ∧ t.ClosedOnce 5 := by
  have hrun : ((service Client.handler clientPorts).run newClient pinged).isSome = true := by
    decide +kernel
  obtain ⟨t, ht⟩ := Option.isSome_iff_exists.mp hrun
  exact ⟨t, ht, (connections_closed clientPorts 5).2 newClient.served.node pinged t ht⟩

end Cimabue
