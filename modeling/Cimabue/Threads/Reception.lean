import Cimabue.Model.Server
import Cimabue.System.Delivery
import Cimabue.Threads.Queues

/-!
# Threads — Reception

A reception that fails: `accept` fails, or the peer stops before its message ends.
`HandleTCPRequest` drops what `Recv` returns and queues the message all the same, as the constructor
left it, and the handlers are called on it.

* `connection_fails_iff`: which streams fail.
* `processed_of_run`: along any run, all that was queued has been processed whenever the process
  thread waits with no post under way.
* `failed_reception`: the message of a failed reception is queued and processed, and leaves a server
  and a client as they were, with nothing sent and no view notified.
-/

namespace Cimabue

/-- What `AcceptTCPConnection` comes to. -/
inductive TCPConnection where
  /-- `accept()` fails. -/
  | failed
  /-- A socket, and what its peer sends. -/
  | accepted (socket : Int) (peer : Bytes)
deriving DecidableEq

namespace TCPConnection

/-- The socket that is handed to `HandleTCPRequest`. -/
def socket : TCPConnection → Int
  | failed => -1
  | accepted socket _ => socket

/-- What `recv()` reads from the socket; from -1 it reads nothing. -/
def peer : TCPConnection → Bytes
  | failed => []
  | accepted _ peer => peer

/-- `accept()` failed, or `Recv` returns `RET_ERROR`. -/
def Fails (a : TCPConnection) : Prop := a = failed ∨ ∃ m, Message.recv {} a.peer = .ok (.error, m)

end TCPConnection

/-- **Which receptions fail.** -/
theorem connection_fails_iff (a : TCPConnection) :
    a.Fails ↔ a = .failed ∨ msgEnd ∉ a.peer ∧ a.peer.length < msgBufferSize := by
  simp [TCPConnection.Fails, Message.recv_error_iff]

/-- A reception that fails leaves the message of the constructor. -/
theorem receive_of_fails {a : TCPConnection} (h : a.Fails) : receive a.peer = .ok {} := by
  have hstream : msgEnd ∉ a.peer ∧ a.peer.length < msgBufferSize := by
    rcases (connection_fails_iff a).mp h with rfl | hstream
    · exact ⟨List.not_mem_nil, by decide⟩
    · exact hstream
  exact receive_eq_ok_iff.mpr ⟨.error, Message.recv_error_iff.mpr ⟨hstream, rfl⟩⟩

/-! ### The queues -/

namespace NodeThreads

/-- The history of the queue that `HandleTCPRequest` chooses for a port. -/
def historyOf (portList : Port → Nat) (port : Port) (s : NodeThreads) : History :=
  if portList port = portList .up then s.up else s.down

variable {portList : Port → Nat} {s t : NodeThreads}

theorem pushed_enqueue (portList : Port → Nat) (s : NodeThreads) (port : Port)
    (entry : MessageEntry) :
    ((s.enqueue portList port entry).historyOf portList port).pushed =
      (s.historyOf portList port).pushed ++ [entry] := by
  rw [enqueue, historyOf, historyOf]
  split_ifs <;> rfl

/-- What was queued stays in the histories. -/
theorem pushed_step {a : NodeStep} (h : (node portList).step s a = some t) :
    s.up.pushed <+: t.up.pushed ∧ s.down.pushed <+: t.down.pushed := by
  have hself : s.up.pushed <+: s.up.pushed ∧ s.down.pushed <+: s.down.pushed :=
    ⟨List.prefix_rfl, List.prefix_rfl⟩
  cases a with
  | listenTest => obtain ⟨-, rfl⟩ := step_listenTest h; exact hself
  | select up down => obtain ⟨-, rfl⟩ := step_select h; exact hself
  | request socket peer =>
      obtain ⟨port, ports, msg, -, rfl⟩ := step_request h
      rw [enqueue]
      split
      · exact ⟨List.prefix_append _ _, List.prefix_rfl⟩
      · exact ⟨List.prefix_rfl, List.prefix_append _ _⟩
  | post => obtain ⟨_, -, rfl⟩ := step_post h; exact hself
  | processTest => obtain ⟨-, rfl⟩ := step_processTest h; exact hself
  | wait => obtain ⟨_, -, -, rfl⟩ := step_wait h; exact hself
  | popDown =>
      obtain ⟨-, rfl⟩ := step_popDown h
      rcases takeDown_cases s with ⟨-, htake⟩ | ⟨_, _, -, htake⟩ <;> rw [htake] <;> exact hself
  | popUp =>
      obtain ⟨-, rfl⟩ := step_popUp h
      rcases takeUp_cases s with ⟨-, htake⟩ | ⟨_, _, -, htake⟩ <;> rw [htake] <;> exact hself
  | destroy => obtain ⟨-, rfl⟩ := step_destroy h; exact hself
  | joinListen => obtain ⟨-, -, rfl⟩ := step_joinListen h; exact hself
  | joinProcess => obtain ⟨-, -, rfl⟩ := step_joinProcess h; exact hself

theorem pushed_run {port : Port} {as : List NodeStep} (hrun : (node portList).run s as = some t) :
    (s.historyOf portList port).pushed <+: (t.historyOf portList port).pushed := by
  refine Machine.run_kept
    (P := fun u => (s.historyOf portList port).pushed <+: (u.historyOf portList port).pushed)
    (fun u a v hu hstep => hu.trans ?_) List.prefix_rfl hrun
  rw [historyOf, historyOf]
  split_ifs
  · exact (pushed_step hstep).1
  · exact (pushed_step hstep).2

/-- **Processed.**  Along any run, all that was queued has been processed whenever the process thread
waits with no post under way. -/
theorem processed_of_run {as : List NodeStep} (hs : s.Inv) (hrun : (node portList).run s as = some t)
    (hb : t.Blocked) (hl : t.NothingUnderWay) (port : Port) :
    (t.historyOf portList port).processed = (t.historyOf portList port).pushed := by
  have ht : t.Inv := Machine.run_kept (fun _ _ _ hinv h => inv_step hinv h) hs hrun
  obtain ⟨hup, hdown⟩ := ht.all_processed hb hl
  rw [historyOf]
  split_ifs
  · exact hup
  · exact hdown

end NodeThreads

/-! ### The handlers -/

/-- Nothing is sent and no view is notified. -/
def Quiet (effects : List Effect) : Prop :=
  (∀ p, .send p ∉ effects) ∧ ∀ e, .notify e ∉ effects

/-- The handler that `do_process_thread` calls, for the queue of a port. -/
def Server.process (env : Env) (s : Server) (msg : Message) :
    Port → Except Fault (Server × List Effect × Ret)
  | .up => .ok (s.processUpMessage msg)
  | .down => s.processDownMessage env msg

/-- The handler that `do_process_thread` calls, for the queue of a port. -/
def Client.process (c : Client) (msg : Message) :
    Port → Except Fault (Client × List Effect × Ret)
  | .up => .ok (c.processUpMessage msg)
  | .down => c.processDownMessage msg

/-- A server takes the message of the constructor for one to another server. -/
theorem Server.process_default {s : Server} (env : Env) (hname : s.name ≠ msgVoid) (port : Port) :
    ∃ effects ret, s.process env {} port = .ok (s, effects, ret) ∧ Quiet effects := by
  cases port with
  | up => exact ⟨[.close], .success, rfl, by simp [Quiet]⟩
  | down =>
      have hrequest : s.request {} = .wrongDestination := by
        simp [Server.request, Ne.symm hname]
      simp only [Server.process, Server.processDownMessage, hrequest, pure_eq_ok]
      exact ⟨_, _, rfl, by simp [Quiet]⟩

/-- A client takes it for one to another client. -/
theorem Client.process_default {c : Client} (hname : c.name ≠ msgVoid) (port : Port) :
    ∃ effects ret, c.process {} port = .ok (c, effects, ret) ∧ Quiet effects := by
  have hdest : ({} : Message).clientDest ≠ c.name := Ne.symm hname
  refine ⟨[.close], .destinationIsNotMe, ?_, by simp [Quiet]⟩
  cases port with
  | up => rw [Client.process, Client.processUpMessage, if_pos hdest]
  | down => rw [Client.process, Client.processDownMessage, if_pos hdest]; rfl

/-- **Failed receptions change nothing.**  The message of a reception that fails is queued, and
along any run it has been processed, at its place in the queue and like everything else there, when the
process thread waits again; its handler, on either port
of a server or a client whose name is not a blank, leaves the node as it was, sends nothing and
notifies no view. -/
theorem failed_reception (a : TCPConnection) (ha : a.Fails) :
    ∃ msg, receive a.peer = .ok msg ∧
      (∀ (portList : Port → Nat) (as : List NodeStep) (s : NodeThreads) (port : Port)
          (ports : List Port), (node portList).run {} as = some s →
        s.listenThread = .serving (port :: ports) →
        ∃ t, (node portList).step s (.request a.socket a.peer) = some t ∧
          (t.historyOf portList port).pushed =
            (s.historyOf portList port).pushed ++ [{ socket := a.socket, msg }] ∧
          ∀ bs u, (node portList).run t bs = some u → u.Blocked → u.NothingUnderWay →
            (t.historyOf portList port).pushed <+: (u.historyOf portList port).processed ∧
              (u.historyOf portList port).processed = (u.historyOf portList port).pushed) ∧
      (∀ (env : Env) (s : Server) (port : Port), s.name ≠ msgVoid →
        ∃ effects ret, s.process env msg port = .ok (s, effects, ret) ∧ Quiet effects) ∧
      (∀ (c : Client) (port : Port), c.name ≠ msgVoid →
        ∃ effects ret, c.process msg port = .ok (c, effects, ret) ∧ Quiet effects) := by
  refine ⟨{}, receive_of_fails ha, fun portList as s port ports hrun hl => ?_,
    fun env s port hname => Server.process_default env hname port,
    fun c port hname => Client.process_default hname port⟩
  have hs : s.Inv :=
    Machine.run_kept (fun _ _ _ hinv h => NodeThreads.inv_step hinv h) NodeThreads.inv_init hrun
  have hstep : (node portList).step s (.request a.socket a.peer) =
      some { s.enqueue portList port { socket := a.socket, msg := {} } with
        listenThread := .posting ports } := by
    simp only [node, NodeThreads.step, hl, receive_of_fails ha]
    rfl
  have hpushed := NodeThreads.pushed_enqueue portList s port { socket := a.socket, msg := {} }
  refine ⟨_, hstep, hpushed, fun bs u hrun' hb hnone => ?_⟩
  have hall := NodeThreads.processed_of_run (NodeThreads.inv_step hs hstep) hrun' hb hnone port
  exact ⟨hall ▸ NodeThreads.pushed_run hrun', hall⟩

/-- A registration that breaks off. -/
theorem failed_reception_cut :
    ∃ msg, receive (lit "MSG_ADD_CLIENT-3- -") = .ok msg ∧
      ∃ effects ret, Server.process {} { name := lit "7" } msg .down =
        .ok ({ name := lit "7" }, effects, ret) ∧ Quiet effects := by
  obtain ⟨msg, hreceive, -, hserver, -⟩ :=
    failed_reception (.accepted 5 (lit "MSG_ADD_CLIENT-3- -"))
      ((connection_fails_iff _).mpr (.inr (by decide)))
  exact ⟨msg, hreceive, hserver {} { name := lit "7" } .down (by decide)⟩

end Cimabue
