import Cimabue.Support.Ownership
import Cimabue.Model.Allocations
import Cimabue.Threads.Reception
import Cimabue.System.Connect
import Cimabue.System.Serial

/-!
# System — Memory

The objects a server and a client make, use and delete, over whole runs: the listen thread puts what it
receives into two queues, the process thread takes it out, handles it and deletes it, and the ping
thread, or the user, does the rest.

* `server_memory`, `client_memory`: no object is used that is not there, and none is deleted twice; the
  node goes through exactly where the one without objects does, and comes to the same.  What is there
  is what is in the queues, and what has been lost: a server loses the message it sends on and the
  reply to every update, and both lose the buffer of every text that breaks off.
-/

namespace Cimabue

namespace Allocations

/-! ### What is lost -/

/-- The buffer `Recv` leaves behind. -/
def wasted (peer : Bytes) : List Block := if Message.received peer = none then [.buffer] else []

/-- The buffer `Send` leaves behind. -/
def wastedBy : Message.Transport → List Block
  | .exchanged peer => wasted peer
  | _ => []

/-- What is left behind where a reply is not deleted. -/
def lostReply (t : Message.Transport) : List Block :=
  ((Message.send t).toOption.toList.map .message) ++ wastedBy t

/-- What a message leaves behind that is sent on. -/
def lostForward (env : Env) (effects : List Effect) : List Block :=
  (sentPackets effects).flatMap fun p => .message p.msg :: wastedBy (env.exchange p)

/-- What updates leave behind. -/
def lostUpdates (env : Env) (ps : List Packet) : List Block :=
  ps.flatMap fun p => lostReply (env.exchange p)

/-- What `processDownMessage` of a server leaves behind. -/
def lostBy (env : Env) (s : Server) (m : Message) : List Block :=
  match s.processDownMessage env m with
  | .error _ => []
  | .ok (_, effects, _) =>
      match s.request m with
      | .add => lostUpdates env (sentPackets effects)
      | .send => lostForward env effects
      | _ => []

/-- What a turn of the ping loop leaves behind. -/
def lostPing (env : Env) (s : Server) (client address : Bytes) : List Block :=
  (s.ping client address).toOption.toList.flatMap fun p => wastedBy (env.exchange p)

/-- What a turn of the sweep leaves behind. -/
def lostSweep (env : Env) (s : Server) (client : Bytes) : List Block :=
  if s.timedOut client env.now then
    (s.updateClientListRem env client).toOption.toList.flatMap (lostUpdates env)
  else []

/-! ### Messages -/

section Messages

variable {h₀ h : Heap Block} {this : Nat} {m : Message} {l : List Block}

theorem message_eq (hp : h.get this = some (.message m)) : message this h = .ok (m, h) := by
  simp only [message, hp]

theorem recv_carries (hm : h₀.Made h this (.message m) l) (peer : Bytes) :
    Alloc.Carries (recv this peer) h (Message.recv m peer) fun r ret h' =>
      ret = r.1 ∧ h₀.Made h' this (.message r.2) (l ++ wasted peer) := by
  have hbuf := Heap.made_new h Block.buffer
  refine Alloc.Carries.step (x := Alloc.new Block.buffer) rfl ?_
  rw [Message.recv, wasted]
  cases Message.received peer with
  | none => exact Alloc.carries_pure ⟨rfl, by simpa using hm.trans hbuf.since⟩
  | some text =>
      obtain ⟨h₁, hdel, hrun⟩ := Alloc.exists_delete (ε := Fault) hbuf.get
      refine Alloc.Carries.step hrun ((Alloc.carries_lift _).bind fun m' m'' h' _ hm' => ?_)
      obtain ⟨rfl, rfl⟩ := hm'
      have hm₁ := hm.trans (hbuf.delete hdel)
      obtain ⟨h₂, hput, hrun₂⟩ := Alloc.exists_write (ε := Fault) (.message m'') hm₁.get
      exact Alloc.Carries.step hrun₂ (Alloc.carries_pure ⟨rfl, by simpa using hm₁.put hput⟩)

theorem new_carries (h : Heap Block) (m : Message) :
    Alloc.Carries (Alloc.new (.message m) : Alloc Block Fault Nat) h (.ok m) fun m p h' =>
      h.Made h' p (.message m) [] :=
  ⟨_, _, rfl, Heap.made_new h _⟩

theorem send_carries (t : Message.Transport) (h : Heap Block) :
    Alloc.Carries (send t) h (Message.send t) fun m p h' => h.Made h' p (.message m) (wastedBy t) := by
  cases t with
  | noSocket | noConnection | shortSend => exact new_carries h _
  | exchanged peer =>
      have hm := Heap.made_new h (Block.message
        { type := .none, clientSrc := [], clientDest := [], serverSrc := [], serverDest := [],
          data := [] })
      refine Alloc.Carries.step (x := Alloc.new _) rfl ?_
      refine (recv_carries hm peer).bind fun r ret h₁ _ hr => ?_
      obtain ⟨ret', reply⟩ := r
      obtain ⟨rfl, hr⟩ := hr
      rw [List.nil_append] at hr
      by_cases hret : ret = .success
      · simp only [if_pos hret]
        exact Alloc.carries_pure hr
      · simp only [if_neg hret]
        obtain ⟨h₂, hdel, hrun⟩ := Alloc.exists_delete (ε := Fault) hr.get
        refine Alloc.Carries.step hrun ((new_carries h₂ _).imp fun m p h' _ hm => ?_)
        simpa [wastedBy] using (hr.delete hdel).made hm

theorem handleTCPRequest_carries (peer : Bytes) (h : Heap Block) :
    Alloc.Carries (handleTCPRequest peer) h (receive peer) fun m p h' =>
      h.Made h' p (.message m) (wasted peer) := by
  refine Alloc.Carries.step (x := Alloc.new _) rfl ?_
  refine (recv_carries (Heap.made_new h _) peer).bind fun r ret h₁ _ hr => ?_
  exact Alloc.carries_pure (by simpa using hr.2)

/-- The answer is deleted. -/
theorem replied_eq (env : Env) (hm : h₀.Made h this (.message m) l) :
    ∃ h', replied env this h = .ok ((m, env.replyRet m), h') ∧ h₀.Extends h' l := by
  obtain ⟨h', hdel, hrun⟩ := Alloc.exists_delete (ε := Fault) hm.get
  refine ⟨h', ?_, hm.delete hdel⟩
  simp only [replied, Bind.bind, StateT.bind, message_eq hm.get, Except.bind, hrun]
  rfl

end Messages

/-! ### The server -/

section Server

variable {env : Env} {s : Server} {m : Message} {h : Heap Block}

theorem executeAddClient_carries (env : Env) (s : Server) (m : Message) (h : Heap Block) :
    Alloc.Carries (executeAddClient env s m) h (s.executeAddClient env m) fun r r' h' =>
      r'.1 = r.1 ∧ h.Made h' r'.2 (.message r.2) [] := by
  exact Alloc.Carries.after fun r _ => ⟨_, _, rfl, rfl, Heap.made_new h _⟩

theorem executeSendMessage_carries (env : Env) (s : Server) (m : Message) (h : Heap Block) :
    Alloc.Carries (executeSendMessage env s m) h (s.executeSendMessage env m) fun r r' h' =>
      r'.2 = r.2 ∧ h.Made h' r'.1 (.message r.1) (lostForward env r.2) := by
  refine (Alloc.carries_lift _).bind fun p? p?' h' _ hp => ?_
  obtain ⟨rfl, rfl⟩ := hp
  cases p?' with
  | none => exact ⟨_, _, rfl, rfl, Heap.made_new h' _⟩
  | some p =>
      have hm := Heap.made_new h' (Block.message {})
      obtain ⟨h₁, hput, hrun⟩ := Alloc.exists_write (ε := Fault) (.message p.msg) hm.get
      refine Alloc.Carries.step (x := Alloc.new _) rfl (Alloc.Carries.step hrun ?_)
      refine (send_carries _ _).bind fun reply q h₂ _ hq => Alloc.carries_pure ⟨rfl, ?_⟩
      simpa [lostForward, sentPackets] using (hm.put hput).since.made hq

theorem sendUpdates_carries (env : Env) (update : Bytes → Except Fault (Option Message))
    (es : List ((_ : Bytes) × Bytes)) (h : Heap Block) :
    Alloc.Carries (sendUpdates env update es) h (Server.sendUpdates env update es) fun ps ps' h' =>
      ps' = ps ∧ h.Extends h' (lostUpdates env ps) := by
  induction es generalizing h with
  | nil => exact Alloc.carries_pure ⟨rfl, Heap.Extends.refl h⟩
  | cons e es ih =>
      rw [sendUpdates, Server.sendUpdates]
      refine (Alloc.carries_lift _).bind fun m? m?' h' _ hm => ?_
      obtain ⟨rfl, rfl⟩ := hm
      cases m?' with
      | none => exact ih h'
      | some msg =>
          refine (Alloc.carries_lift _).bind fun a? a?' h' _ ha => ?_
          obtain ⟨rfl, rfl⟩ := ha
          cases a?' with
          | none => exact ih h'
          | some a =>
              refine (send_carries _ _).bind fun reply q h₁ hreply hq => ?_
              refine (ih h₁).bind fun ps ps' h₂ _ hps => ?_
              obtain ⟨rfl, hps⟩ := hps
              refine Alloc.carries_pure ⟨rfl, ?_⟩
              -- the reply stays
              simpa [lostUpdates, lostReply, hreply, Except.toOption] using hq.since.trans hps

theorem sentPackets_append (l l' : List Effect) :
    sentPackets (l ++ l') = sentPackets l ++ sentPackets l' := by
  induction l with
  | nil => rfl
  | cons e l ih => cases e <;> simp [sentPackets, ih]

/-- **The handler of a server.** -/
theorem Server.processDownMessage_carries {msg : Nat} (env : Env) (s : Cimabue.Server)
    (hp : h.get msg = some (.message m)) :
    Alloc.Carries (Server.processDownMessage env s msg) h (s.processDownMessage env m)
      fun r r' h' => r' = r ∧ h.Extends h' (lostBy env s m) := by
  have hall : Alloc.Carries (Server.processDownMessage env s msg) h (s.processDownMessage env m)
      fun r r' h' => r' = r ∧ h.Extends h' (match s.request m with
        | .add => lostUpdates env (sentPackets r.2.1)
        | .send => lostForward env r.2.1
        | _ => []) := by
    refine Alloc.Carries.step (message_eq hp) ?_
    rw [Cimabue.Server.processDownMessage]
    cases s.request m with
    | unknown => exact Alloc.carries_pure ⟨rfl, Heap.Extends.refl h⟩
    | wrongDestination =>
        have hm := Heap.made_new h (Block.message { type := .error })
        obtain ⟨h₁, hput, hrun⟩ := Alloc.exists_write (ε := Fault)
          (.message { type := .error, data := lit "Wrong destination" }) hm.get
        obtain ⟨h₂, hreply, hh⟩ := replied_eq env (hm.put hput)
        refine Alloc.Carries.step (x := Alloc.new _) rfl (Alloc.Carries.step hrun ?_)
        exact Alloc.Carries.step hreply (Alloc.carries_pure ⟨rfl, hh⟩)
    | send =>
        refine (executeSendMessage_carries env s m h).bind fun r r' h₁ _ hr => ?_
        obtain ⟨answer, effects⟩ := r
        obtain ⟨p, effects'⟩ := r'
        obtain ⟨rfl, hm⟩ := hr
        obtain ⟨h₂, hreply, hh⟩ := replied_eq env hm
        refine Alloc.Carries.step hreply (Alloc.carries_pure ⟨rfl, ?_⟩)
        simpa [lostForward, sentPackets_append, sentPackets] using hh
    | add =>
        refine (executeAddClient_carries env s m h).bind fun r r' h₁ _ hr => ?_
        obtain ⟨s', answer⟩ := r
        obtain ⟨s'', p⟩ := r'
        obtain ⟨rfl, hm⟩ := hr
        obtain ⟨h₂, hreply, hh⟩ := replied_eq env hm
        refine Alloc.Carries.step hreply ?_
        refine (sendUpdates_carries env _ _ h₂).bind fun ps ps' h₃ _ hps => ?_
        obtain ⟨rfl, hps⟩ := hps
        refine Alloc.carries_pure ⟨rfl, ?_⟩
        simpa [sentPackets, World.sentPackets_map_send] using hh.trans hps
  refine hall.imp fun r r' h' hv hr => ⟨hr.1, ?_⟩
  rw [lostBy, hv]
  exact hr.2

theorem pingClient_carries (env : Env) (s : Cimabue.Server) (client address : Bytes)
    (h : Heap Block) :
    Alloc.Carries (pingClient env s client address) h (s.pingClient env client address)
      fun t t' h' => t' = t ∧ h.Extends h' (lostPing env s client address) := by
  have hall : Alloc.Carries (pingClient env s client address) h (s.pingClient env client address)
      fun t t' h' => t' = t ∧ ∃ p, s.ping client address = .ok p ∧
        h.Extends h' (wastedBy (env.exchange p)) := by
    refine (Alloc.carries_lift _).bind fun p p' h' hv hp => ?_
    obtain ⟨rfl, rfl⟩ := hp
    refine (send_carries _ _).bind fun pong q h₁ _ hq => ?_
    refine Alloc.Carries.step (message_eq hq.get) ?_
    obtain ⟨h₂, hdel, hrun⟩ := Alloc.exists_delete (ε := Fault) hq.get
    exact Alloc.Carries.after fun t _ =>
      Alloc.Carries.step hrun (Alloc.carries_pure ⟨rfl, p', hv, hq.delete hdel⟩)
  refine hall.imp fun t t' h' _ ht => ⟨ht.1, ?_⟩
  obtain ⟨-, p, hp, hh⟩ := ht
  simpa [lostPing, hp, Except.toOption] using hh

theorem sweepClient_carries (env : Env) (s : Cimabue.Server) (client : Bytes) (h : Heap Block) :
    Alloc.Carries (sweepClient env s client) h (s.sweepClient env client)
      fun t t' h' => t' = t ∧ h.Extends h' (lostSweep env s client) := by
  rw [sweepClient, Cimabue.Server.sweepClient, lostSweep]
  split_ifs with htime
  · have hall := sendUpdates_carries env (s.updateRem client) s.clientNameToIPMap.entries h
    refine hall.bind fun ps ps' h' hv hps => Alloc.carries_pure ⟨rfl, ?_⟩
    have hps' : s.updateClientListRem env client = .ok ps := hv
    simpa [hps', Except.toOption] using hps.2
  · exact Alloc.carries_pure ⟨rfl, Heap.Extends.refl h⟩

end Server

/-! ### The client -/

section Client

variable {c : Client} {m : Message} {h : Heap Block}

theorem sendMessage_carries (env : Env) (c : Client) (dest content : Bytes) (h : Heap Block) :
    Alloc.Carries (sendMessage env c dest content) h (c.sendMessage env dest content)
      fun r r' h' => r' = r ∧
        h.Extends h' ((c.chatPacket dest content).toList.flatMap fun p => wastedBy (env.exchange p)) := by
  rw [sendMessage, Cimabue.Client.sendMessage]
  cases c.chatPacket dest content with
  | none => exact Alloc.carries_pure ⟨rfl, Heap.Extends.refl h⟩
  | some p =>
      refine (send_carries _ _).bind fun reply q h₁ _ hq => ?_
      refine Alloc.Carries.step (message_eq hq.get) ?_
      split_ifs with herror
      · exact rfl
      · obtain ⟨h₂, hdel, hrun⟩ := Alloc.exists_delete (ε := Fault) hq.get
        refine Alloc.Carries.step hrun (Alloc.carries_pure ⟨rfl, ?_⟩)
        simpa using hq.delete hdel

theorem connectTurn_carries (c : Client) (t : Message.Transport) (h : Heap Block) :
    Alloc.Carries (connectTurn c t) h (c.connectTurn t) fun c₁ c₂ h' =>
      c₂ = c₁ ∧ h.Extends h' (wastedBy t) := by
  refine (send_carries _ _).bind fun reply q h₁ _ hq => ?_
  refine Alloc.Carries.step (message_eq hq.get) ?_
  obtain ⟨h₂, hdel, hrun⟩ := Alloc.exists_delete (ε := Fault) hq.get
  exact Alloc.Carries.step hrun (Alloc.carries_pure ⟨rfl, hq.delete hdel⟩)

end Client

/-! ### The threads -/

/-- The handler that the process thread of a server calls. -/
def Server.process (env : Env) (s : Cimabue.Server) (msg : Nat) :
    Port → Alloc Block Fault (Cimabue.Server × List Effect × Ret)
  | .up => Server.processUpMessage s msg
  | .down => Server.processDownMessage env s msg

/-- The handler that the process thread of a client calls. -/
def Client.process (c : Cimabue.Client) (msg : Nat) :
    Port → Alloc Block Fault (Cimabue.Client × List Effect × Ret)
  | .up => Client.processUpMessage c msg
  | .down => Client.processDownMessage c msg

end Allocations

/-- A turn of one of the loops of `do_pingClient`. -/
inductive PingTurn where
  | ping (env : Env) (client : Bytes)
  | sweep (env : Env) (client : Bytes)

/-- What the user of a client does: a message, or a turn of the loop of `connectToServer`. -/
inductive UserTurn where
  | say (env : Env) (dest content : Bytes)
  | connect (t : Message.Transport)

/-- A server's threads. -/
def serverValues : Serving (Except Fault) Server Bytes Port Env PingTurn Message where
  make := receive
  handle port env s msg := do
    let (s, _) ← s.process env msg port
    pure s
  release _ := pure ()
  act
    | .ping env client, s =>
        match s.clientNameToIPMap.find client with
        | none => pure s
        | some address => s.pingClient env client address
    | .sweep env client, s => s.sweepClient env client

/-- A server's threads, with their objects. -/
def serverObjects : Serving (Alloc Block Fault) Server Bytes Port Env PingTurn Nat where
  make := Allocations.handleTCPRequest
  handle port env s msg := do
    let (s, _) ← Allocations.Server.process env s msg port
    pure s
  release := Alloc.delete
  act
    | .ping env client, s =>
        match s.clientNameToIPMap.find client with
        | none => pure s
        | some address => Allocations.pingClient env s client address
    | .sweep env client, s => Allocations.sweepClient env s client

/-- What a server's threads lose. -/
def serverLosses : Losses Block Server Bytes Port Env PingTurn Message where
  make := Allocations.wasted
  handle
    | .up, _, _, _ => []
    | .down, env, s, msg => Allocations.lostBy env s msg
  act
    | .ping env client, s =>
        match s.clientNameToIPMap.find client with
        | none => []
        | some address => Allocations.lostPing env s client address
    | .sweep env client, s => Allocations.lostSweep env s client

/-- A client's threads. -/
def clientValues : Serving (Except Fault) Client Bytes Port Unit UserTurn Message where
  make := receive
  handle port _ c msg := do
    let (c, _) ← c.process msg port
    pure c
  release _ := pure ()
  act
    | .say env dest content, c => do
        let _ ← c.sendMessage env dest content
        pure c
    | .connect t, c => c.connectTurn t

/-- A client's threads, with their objects. -/
def clientObjects : Serving (Alloc Block Fault) Client Bytes Port Unit UserTurn Nat where
  make := Allocations.handleTCPRequest
  handle port _ c msg := do
    let (c, _) ← Allocations.Client.process c msg port
    pure c
  release := Alloc.delete
  act
    | .say env dest content, c => do
        let _ ← Allocations.sendMessage env c dest content
        pure c
    | .connect t, c => Allocations.connectTurn c t

/-- What a client's threads lose. -/
def clientLosses : Losses Block Client Bytes Port Unit UserTurn Message where
  make := Allocations.wasted
  handle _ _ _ _ := []
  act
    | .say env dest content, c =>
        (c.chatPacket dest content).toList.flatMap fun p => Allocations.wastedBy (env.exchange p)
    | .connect t, _ => Allocations.wastedBy t

theorem server_implements : Implements serverObjects serverValues .message serverLosses where
  make := Allocations.handleTCPRequest_carries
  release := rfl
  released := rfl
  handle port env s m p h hp := by
    cases port with
    | up =>
        refine Alloc.Carries.bind (Q := fun r r' h' => r' = r ∧ h' = h)
          (Alloc.Carries.step (Allocations.message_eq hp) (Alloc.carries_pure ⟨rfl, rfl⟩)) ?_
        rintro r r' h' - ⟨rfl, rfl⟩
        exact Alloc.carries_pure ⟨rfl, Heap.Extends.refl h'⟩
    | down =>
        refine (Allocations.Server.processDownMessage_carries env s hp).bind ?_
        rintro r r' h' - ⟨rfl, hh⟩
        exact Alloc.carries_pure ⟨rfl, hh⟩
  act w s h := by
    cases w with
    | ping env client =>
        simp only [serverObjects, serverValues, serverLosses]
        cases s.clientNameToIPMap.find client with
        | none => exact Alloc.carries_pure ⟨rfl, Heap.Extends.refl h⟩
        | some address => exact Allocations.pingClient_carries env s client address h
    | sweep env client => exact Allocations.sweepClient_carries env s client h

theorem client_implements : Implements clientObjects clientValues .message clientLosses where
  make := Allocations.handleTCPRequest_carries
  release := rfl
  released := rfl
  handle port _ c m p h hp := by
    have hall : Alloc.Carries (Allocations.Client.process c p port) h (c.process m port)
        fun r r' h' => r' = r ∧ h' = h := by
      cases port with
      | up => exact Alloc.Carries.step (Allocations.message_eq hp) (Alloc.carries_pure ⟨rfl, rfl⟩)
      | down => exact Alloc.Carries.step (Allocations.message_eq hp) (Alloc.carries_lift _)
    refine hall.bind ?_
    rintro r r' h' - ⟨rfl, rfl⟩
    exact Alloc.carries_pure ⟨rfl, Heap.Extends.refl h'⟩
  act w c h := by
    cases w with
    | say env dest content =>
        refine (Allocations.sendMessage_carries env c dest content h).bind ?_
        rintro r r' h' - ⟨rfl, hh⟩
        exact Alloc.carries_pure ⟨rfl, hh⟩
    | connect t => exact Allocations.connectTurn_carries c t h

/-- What `~Node` deletes. -/
def Queued.destroy {σ : Type} (t : Queued σ Port Nat) : Alloc Block Fault Unit :=
  Alloc.deleteAll (t.queue .up ++ t.queue .down)

theorem nodup_ports : ([.up, .down] : List Port).Nodup := by decide

theorem mem_ports (port : Port) : port ∈ [Port.up, .down] := by cases port <;> decide

/-- The objects of a node whose code carries out `v`. -/
theorem Implements.memory {σ κ ω : Type} {c : Serving (Alloc Block Fault) σ Bytes Port κ ω Nat}
    {v : Serving (Except Fault) σ Bytes Port κ ω Message} {lost : Losses Block σ Bytes Port κ ω Message}
    (hi : Implements c v .message lost) (node : σ) (as : List (QueueStep Bytes Port κ ω)) :
    ((c.pointers.run ({ node }, {}) as).isSome ↔ (v.values.run { node } as).isSome) ∧
      ∀ t h, c.pointers.run ({ node }, {}) as = some (t, h) →
        (∀ a, c.step t a h ≠ .error .gone) ∧
        ∃ u, v.values.run { node } as = some u ∧
          Ledger [.up, .down] .message t h u (v.values.labels lost.step { node } as) ∧
          ∃ h', t.destroy h = .ok ((), h') ∧
            h'.objects.Perm (v.values.labels lost.step { node } as) := by
  obtain ⟨hiff, hrun⟩ := hi.accounts nodup_ports mem_ports node as
  refine ⟨hiff, fun t h ht => ?_⟩
  obtain ⟨hgone, u, hu, hl⟩ := hrun t h ht
  exact ⟨hgone, u, hu, hl, by simpa [Queued.destroy] using hl.clear (ε := Fault)⟩

/-- **The objects of a server.**  A server goes through exactly where the one without objects does; it
never uses an object that is not there; the pointers of its queues are those of the other's messages,
each once; what is there is what is in the queues and what was lost; and when the queues are destroyed,
after the joins of the destructors, there is what was lost. -/
theorem server_memory (name : Bytes) (as : List (QueueStep Bytes Port Env PingTurn)) :
    ((serverObjects.pointers.run ({ node := { name } }, {}) as).isSome ↔
        (serverValues.values.run { node := { name } } as).isSome) ∧
      ∀ t h, serverObjects.pointers.run ({ node := { name } }, {}) as = some (t, h) →
        (∀ a, serverObjects.step t a h ≠ .error .gone) ∧
        ∃ u, serverValues.values.run { node := { name } } as = some u ∧
          Ledger [.up, .down] .message t h u
            (serverValues.values.labels serverLosses.step { node := { name } } as) ∧
          ∃ h', t.destroy h = .ok ((), h') ∧ h'.objects.Perm
            (serverValues.values.labels serverLosses.step { node := { name } } as) :=
  server_implements.memory { name } as

/-- A text that breaks off, and a registration whose update is refused. -/
example : (serverObjects.pointers.run ({ node := { name := lit "7" } }, {})
    [.put .down (lit "MSG"), .put .down (lit "MSG_ADD_CLIENT-1- - - -ann:a:1-MSG_PRIORITY_NORMAL|"),
      .take .down {}, .take .down {}]).map (·.2.objects) =
    some [.buffer, .message (Message.errorMessage (lit "Error connecting"))] := by decide +kernel

/-! ### A client loses buffers only -/

theorem buffer_of_wastedBy {t : Message.Transport} {b : Block} (hb : b ∈ Allocations.wastedBy t) :
    b = .buffer := by
  cases t with
  | noSocket | noConnection | shortSend => cases hb
  | exchanged peer =>
      simp only [Allocations.wastedBy, Allocations.wasted] at hb
      split_ifs at hb
      · exact List.mem_singleton.mp hb
      · cases hb

theorem buffer_of_clientLosses {u : Queued Client Port Message}
    {a : QueueStep Bytes Port Unit UserTurn} {b : Block} (hb : b ∈ clientLosses.step u a) :
    b = .buffer := by
  cases a with
  | put port peer => exact buffer_of_wastedBy (t := .exchanged peer) hb
  | take port k =>
      simp only [Losses.step] at hb
      cases hu : u.queue port with
      | nil => rw [hu] at hb; cases hb
      | cons m ms => rw [hu] at hb; cases hb
  | act w =>
      cases w with
      | say env dest content =>
          obtain ⟨p, -, hb⟩ := List.mem_flatMap.mp hb
          exact buffer_of_wastedBy hb
      | connect t => exact buffer_of_wastedBy hb

/-- **The objects of a client.**  As a server's, and what is lost are buffers: every message is
deleted. -/
theorem client_memory (c : Client) (as : List (QueueStep Bytes Port Unit UserTurn)) :
    ((clientObjects.pointers.run ({ node := c }, {}) as).isSome ↔
        (clientValues.values.run { node := c } as).isSome) ∧
      ∀ t h, clientObjects.pointers.run ({ node := c }, {}) as = some (t, h) →
        (∀ a, clientObjects.step t a h ≠ .error .gone) ∧
        ∃ u, clientValues.values.run { node := c } as = some u ∧
          Ledger [.up, .down] .message t h u
            (clientValues.values.labels clientLosses.step { node := c } as) ∧
          (∀ b ∈ clientValues.values.labels clientLosses.step { node := c } as, b = .buffer) ∧
          ∃ h', t.destroy h = .ok ((), h') ∧ h'.objects.Perm
            (clientValues.values.labels clientLosses.step { node := c } as) := by
  obtain ⟨hiff, hrun⟩ := client_implements.memory c as
  refine ⟨hiff, fun t h ht => ?_⟩
  obtain ⟨hgone, u, hu, hl, hdestroy⟩ := hrun t h ht
  refine ⟨hgone, u, hu, hl, fun b hb => ?_, hdestroy⟩
  obtain ⟨_, _, _, _, -, -, hb⟩ := Machine.mem_labels hb
  exact buffer_of_clientLosses hb

end Cimabue
