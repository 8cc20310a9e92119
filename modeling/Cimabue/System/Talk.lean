import Cimabue.Support.Machine
import Cimabue.System.Relay
import Cimabue.System.Serial
import Cimabue.System.Startup
import Cimabue.System.Views
import Cimabue.Threads.Service

/-!
# System — Talk

The whole chat: clients that register, are evicted, and write to one another (`talk`).  A registration
and a message go to the server's address and through its `processDownMessage`; an update and a message
reach the client they are for, and every event its handler builds is copied into its arrays and read
back by a view.  The acknowledgement goes all the way back.

* `deliverAll_of_announced`: updates with nicknames that fit are handled by all, and nothing is shown.
* `inv_join`, `inv_evict`: a registration and an eviction are those of `World.step`.
* `Inv.say`: a line is shown to the client that the writer's directory has under the nickname.
* `Inv.step`: an action within what the wire and the directories carry and the arrays hold goes through.
-/

namespace Cimabue

/-- The server and the clients, the server's address, and what each client's views have shown: the
senders' nicknames and the contents. -/
structure Talk where
  world : World
  home : Bytes × Nat
  shown : Bytes → List (Bytes × Bytes) := fun _ => []

/-- What happens in a chat. -/
inductive TalkAction where
  /-- The client `c`, which listens at `ip` and `port`, is constructed at the time `now`. -/
  | join (c : Client) (ip : Bytes) (port : Nat) (now : Int)
  /-- The client named `v` is evicted. -/
  | evict (v : Bytes)
  /-- `sendMessage` of the client named `k`. -/
  | say (k dest content : Bytes)

namespace Talk

/-- No client, and nothing said. -/
def init (name : Bytes) (home : Bytes × Nat) : Talk := { world := .init name, home }

/-- The addressee of a packet handles it, and its view reads the events. -/
def deliver (t : Talk) (q : Packet) : Option Talk :=
  match t.world.clients q.msg.clientDest with
  | none => some t
  | some c => do
      let (c, effects, _) ← (c.handle q.msg.serialize).toOption
      let read ← lines (events effects)
      pure { t with
        world := { t.world with clients := t.world.clients.set q.msg.clientDest c }
        shown := fun v => if v = q.msg.clientDest then t.shown v ++ read else t.shown v }

/-- The addressees of `qs` handle them, one after the other. -/
def deliverAll : Talk → List Packet → Option Talk
  | t, [] => some t
  | t, q :: qs => do
      let t ← t.deliver q
      t.deliverAll qs

/-- What the server's exchanges come to: the clients answer. -/
def serverEnv (t : Talk) : Env := { exchange := t.world.clients.exchange }

/-- The same while the client `c` comes up, which listens already. -/
def arrivalEnv (t : Talk) (c : Client) (now : Int) : Env :=
  { now, exchange := (t.world.clients.set c.name c).exchange }

/-- What `Send` of a client gets from the address of a packet: the server is there, or nobody. -/
def transport (t : Talk) (env : Env) (p : Packet) : Message.Transport :=
  if (p.ip, p.port) = t.home then .exchanged (t.world.server.answer env p.msg.serialize)
  else .noConnection

/-- The server handles a packet that is for its address; the server afterwards, and what it sends. -/
def serve (t : Talk) (env : Env) (p : Packet) : Option (Server × List Packet) :=
  if (p.ip, p.port) = t.home then do
    let m ← (receive p.msg.serialize).toOption
    let (server, effects, _) ← (t.world.server.processDownMessage env m).toOption
    pure (server, sentPackets effects)
  else some (t.world.server, [])

/-- The packets of a client, one after the other: what the server sends on is handled by the
addressees. -/
def relayAll : Talk → List Packet → Option Talk
  | t, [] => some t
  | t, p :: ps => do
      let (server, qs) ← t.serve t.serverEnv p
      let t ← { t with world := { t.world with server } }.deliverAll qs
      t.relayAll ps

/-- `sendMessage` of the client `c`: what it returns, and what comes of what it sent. -/
def say (t : Talk) (c : Client) (dest content : Bytes) : Option (Ret × Talk) := do
  let (ret, effects) ← (c.sendMessage { exchange := t.transport t.serverEnv } dest content).toOption
  let t ← t.relayAll (sentPackets effects)
  pure (ret, t)

/-- The server's part of the registration `p` of `c`, which is `c'` when it is connected, and the
updates handled by their addressees. -/
def enlist (t : Talk) (c c' : Client) (p : Packet) (now : Int) : Option Talk := do
  let (server, qs) ← t.serve (t.arrivalEnv c now) p
  { t with world := { server, clients := t.world.clients.set c.name c' } }.deliverAll qs

/-- `connectToServer` of the client `c`, in one turn of its loop: none where that does not connect it. -/
def join (t : Talk) (c : Client) (ip : Bytes) (port : Nat) (now : Int) : Option Talk := do
  let text ← c.nicknameIpPort ip port
  let p : Packet := { ip := c.serverIp, port := c.serverPort, msg := c.connectMessage text }
  let c' ← c.connectLoop p [t.transport (t.arrivalEnv c now)]
  t.enlist c c' p now

/-- `updateClientListRem` and `removeClient`, and the updates handled by their addressees. -/
def evict (t : Talk) (v : Bytes) : Option Talk := do
  let qs ← (t.world.server.updateClientListRem t.serverEnv v).toOption
  { t with world := { t.world with server := t.world.server.removeClient v } }.deliverAll qs

/-- What an action leads to. -/
def step (t : Talk) : TalkAction → Option Talk
  | .join c ip port now => t.join c ip port now
  | .evict v => t.evict v
  | .say k dest content => (t.world.clients k).bind fun c => (t.say c dest content).map (·.2)

end Talk

/-- The chat, one action after the other. -/
def talk : Machine Talk TalkAction where
  step := Talk.step

namespace Talk

/-- Where the directory of `k` has the nickname. -/
def lookup (t : Talk) (k dest : Bytes) : Option Bytes :=
  (t.world.clients k).bind fun c => c.clientNickToNameMap.find dest

/-- The registration of `c`, which is connected by its confirmation. -/
def registering (t : Talk) (c : Client) (ip : Bytes) (port : Nat) (now : Int) : Action :=
  let text := registration c.nickname ip (decimal port)
  .register (c.connected (t.world.server.addReply (c.connectMessage text))) ip (decimal port) now

/-- A text that a chat message keeps: clean, and without `@`. -/
def Plain (x : Bytes) : Prop := Clean x ∧ chatSeparator ∉ x

instance (x : Bytes) : Decidable (Plain x) := inferInstanceAs (Decidable (_ ∧ _))

/-- `Spares`, over the entries of the maps. -/
theorem spares_evict_iff {w : World} {v : Bytes} :
    (∀ e ∈ w.server.clientNameToIPMap.entries, e.1 = v ∨ ∀ c ∈ w.clients e.1,
      ∀ x ∈ c.clientNickToNameMap.entries, x.2 = v →
        ∀ u ∈ w.server.clientNameToIPMap.entries, w.Holds u.1 x.1 → u.1 = v) ↔
      w.Spares (.evict v) := by
  have hmem : ∀ k, w.Registered k → ∃ a, ⟨k, a⟩ ∈ w.server.clientNameToIPMap.entries := by
    intro k hk
    obtain ⟨a, ha⟩ := Option.isSome_iff_exists.mp hk
    exact ⟨a, StdMap.find_eq_some_iff.mp ha⟩
  constructor
  · intro h k c x u hkv hk hc hx hu
    obtain ⟨a, ha⟩ := hmem k hk
    obtain ⟨b, hb⟩ := hmem u hu.1
    exact (h ⟨k, a⟩ ha).resolve_left hkv c hc ⟨x, v⟩ (StdMap.find_eq_some_iff.mp hx) rfl ⟨u, b⟩ hb hu
  · intro h e he
    refine or_iff_not_imp_left.mpr ?_
    rintro hev c hc ⟨x, v'⟩ hx rfl u - hu
    refine h e.1 c x u.1 hev ?_ hc (StdMap.find_eq_some_iff.mpr hx) hu
    rw [World.Registered, StdMap.find_of_mem he]
    rfl

instance decidableSpares : ∀ (w : World) (a : Action), Decidable (w.Spares a)
  | _, .register c _ _ _ => inferInstanceAs (Decidable (Part c.nickname))
  | _, .evict _ => decidable_of_iff _ spares_evict_iff

/-- The actions that keep the room.  A client that joins is new, connects to the server's address, its
texts fit their arrays and are kept by the wire, and its updates arrive; an eviction spares the nicknames
of the others; a registered client says a text that the wire keeps and that fits. -/
def Proper (t : Talk) : TalkAction → Prop
  | .join c ip port now =>
      let text := registration c.nickname ip (decimal port)
      t.world.Arriving (t.registering c ip port now) ∧
        t.world.UpdatesDelivered (t.registering c ip port now) ∧
        Plain c.nickname ∧ dataSeparator ∉ c.nickname ∧ (c.serverIp, c.serverPort) = t.home ∧
        c.connectedToServer = false ∧ text.length < 128 ∧ t.world.server.Keeps c text
  | .evict v => t.world.Spares (.evict v) ∧ t.world.UpdatesDelivered (.evict v)
  | .say k dest content =>
      t.world.Registered k ∧ Plain content ∧ content.length < 1024 ∧ ∀ c ∈ t.world.clients k,
        ∀ d ∈ t.lookup k dest, (c.chatMessage d content).headLength ≤ msgBufferSize - 2

instance decidableProper : ∀ (t : Talk) (a : TalkAction), Decidable (t.Proper a)
  | t, .join c ip port now =>
      inferInstanceAs (Decidable (t.world.Arriving (t.registering c ip port now) ∧
        t.world.UpdatesDelivered (t.registering c ip port now) ∧
        Plain c.nickname ∧ dataSeparator ∉ c.nickname ∧ (c.serverIp, c.serverPort) = t.home ∧
        c.connectedToServer = false ∧ (registration c.nickname ip (decimal port)).length < 128 ∧
        t.world.server.Keeps c (registration c.nickname ip (decimal port))))
  | t, .evict v => inferInstanceAs (Decidable (t.world.Spares (.evict v) ∧ _))
  | t, .say k dest content =>
      inferInstanceAs (Decidable (t.world.Registered k ∧ Plain content ∧ content.length < 1024 ∧
        ∀ c ∈ t.world.clients k, ∀ d ∈ t.lookup k dest,
          (c.chatMessage d content).headLength ≤ msgBufferSize - 2))

/-- `sendMessage` returns `RET_SUCCESS` where somebody has the nickname, and only there. -/
def Truthful (t : Talk) : TalkAction → Prop
  | .join _ _ _ _ | .evict _ => True
  | .say k dest content => ∃ c ret t', t.world.clients k = some c ∧
      t.say c dest content = some (ret, t') ∧ (ret = .success ↔ ∃ v, t.world.Holds v dest)

/-- What holds of a registered client: it knows the server, and its names are kept and fit. -/
structure Settled (t : Talk) (k : Bytes) (c : Client) : Prop where
  name : Clean k
  server : c.server = t.world.server.name
  home : (c.serverIp, c.serverPort) = t.home
  nickname : Plain c.nickname
  fits : c.nickname.length < 128

/-- The nicknames in the clients' directories fit the arrays of their events. -/
def Held (cs : Clients) : Prop := ∀ k c, cs k = some c → Console.Held { client := c }

/-- What holds between the actions. -/
structure Inv (t : Talk) : Prop where
  world : t.world.Inv
  resolves : t.world.Resolves
  server : Clean t.world.server.name
  client : ∀ k c, t.world.Registered k → t.world.clients k = some c → t.Settled k c
  held : Held t.world.clients

/-- The nickname of a registered client. -/
def nicknameOf (t : Talk) (v : Bytes) : Option Bytes :=
  if t.world.Registered v then (t.world.clients v).map (·.nickname) else none

theorem nicknameOf_eq_some {t : Talk} {v x : Bytes} :
    t.nicknameOf v = some x ↔ t.world.Holds v x := by
  rw [nicknameOf, World.Holds]
  split_ifs with h <;> simp [h]

/-! ### Updates -/

/-- An update whose nicknames fit is handled, and nothing is shown. -/
theorem deliver_of_announced {t : Talk} {q : Packet} (hd : Delivered q.msg) (hq : Announcement q.msg)
    (hheld : Held t.world.clients) : ∃ cs, t.world.clients.deliver q.msg = .ok cs ∧ Held cs ∧
      t.deliver q = some { t with world := { t.world with clients := cs } } := by
  cases hc : t.world.clients q.msg.clientDest with
  | none => exact ⟨t.world.clients, by simp only [Clients.deliver, hc, pure_eq_ok], hheld, by
      simp only [deliver, hc]⟩
  | some c =>
      -- a view attached to the client is told of the update
      obtain ⟨console, hstep, hupdate⟩ := Console.exists_update (hheld _ _ hc) hq
      obtain ⟨⟨c', effects, ret⟩, hdown, hview⟩ := Option.bind_eq_some_iff.mp hstep
      obtain ⟨view, htold, he⟩ := Option.bind_eq_some_iff.mp hview
      obtain rfl := Option.some.inj he
      rw [toOption_eq_some] at hdown
      have htype : q.msg.type ≠ .sendMessage := by
        rcases hq.2 with htype | ⟨htype, -⟩ <;> rw [htype] <;> simp
      have hlines := lines_of_updateViews htold (ne_message_of_events htype hdown)
      have hhandle := (handle_of_delivered hd c).trans hdown
      have hheld' := hupdate.held (hheld _ _ hc)
      refine ⟨t.world.clients.set q.msg.clientDest c', Clients.deliver_ok hd hc hdown,
        fun k c₁ hk => ?_, ?_⟩
      · by_cases hkq : k = q.msg.clientDest
        · rw [hkq, Clients.set_self] at hk
          exact Option.some.inj hk ▸ hheld'
        · rw [Clients.set_of_ne _ _ hkq] at hk
          exact hheld k c₁ hk
      · simp only [deliver, hc, hhandle, Except.toOption, hlines, Option.bind_eq_bind,
          Option.bind_some, List.append_nil, ite_self]
        rfl

/-- **Updates are handled by all**, as `World.step` has it, and nothing is shown. -/
theorem deliverAll_of_announced {t : Talk} {qs : List Packet} {cs : Clients}
    (hqs : ∀ q ∈ qs, Delivered q.msg ∧ Announcement q.msg) (hheld : Held t.world.clients)
    (h : t.world.clients.deliverAll (qs.map (·.msg)) = .ok cs) :
    t.deliverAll qs = some { t with world := { t.world with clients := cs } } ∧ Held cs := by
  induction qs generalizing t with
  | nil =>
      obtain rfl := Except.ok.inj h
      exact ⟨rfl, hheld⟩
  | cons q qs ih =>
      obtain ⟨hd, hq⟩ := hqs q (by simp)
      obtain ⟨cs₁, hcs₁, hheld₁, hstep⟩ := deliver_of_announced hd hq hheld
      obtain ⟨cs₂, hcs₂, h⟩ := bind_eq_ok.mp h
      obtain rfl := Except.ok.inj (hcs₁.symm.trans hcs₂)
      obtain ⟨hall, hheld'⟩ := ih (t := { t with world := { t.world with clients := cs₁ } })
        (fun q' hq' => hqs q' (by simp [hq'])) hheld₁ h
      exact ⟨by simp only [deliverAll, hstep, Option.bind_eq_bind, Option.bind_some, hall], hheld'⟩

/-- A nickname that the server has is that of a registered client. -/
theorem Inv.length_nickname {t : Talk} (hinv : t.Inv) {v x : Bytes}
    (hx : t.world.server.clientNicknameToName.find v = some x) : x.length < 128 := by
  have hv := hinv.world.registered v x hx
  obtain ⟨c, hc, -⟩ := hinv.world.client v hv
  obtain rfl := Option.some.inj ((hinv.world.carried v c hv hc).symm.trans hx)
  exact (hinv.client v c hv hc).fits

/-! ### Registrations and evictions -/

/-- That a client is connected does not change what it answers. -/
theorem exchange_connected (cs : Clients) (c : Client) (reply : Message) :
    (cs.set c.name (c.connected reply)).exchange = (cs.set c.name c).exchange := by
  have hanswer : ∀ peer, (c.connected reply).answer peer = c.answer peer := by
    intro peer
    simp only [Client.answer, Client.handle, Client.connected]
    cases receive peer with
    | error f => rfl
    | ok m =>
        simp only [ok_bind, Client.processDownMessage_withServer]
        cases c.processDownMessage m <;> rfl
  funext p
  simp only [Clients.exchange, Clients.set]
  by_cases h : p.msg.clientDest = c.name
  · simp only [h, if_true, hanswer]
  · simp only [h, if_false]

section Join

variable {t : Talk} {c : Client} {ip : Bytes} {port : Nat} {now : Int}

/-- The message a client registers with. -/
def request (c : Client) (ip : Bytes) (port : Nat) : Message :=
  c.connectMessage (registration c.nickname ip (decimal port))

/-- The server's part of a registration. -/
theorem serve_of_register {s : Server} {ps : List Packet}
    (hC : t.Proper (.join c ip port now)) (h : t.world.serve (t.registering c ip port now) = .ok (s, ps)) :
    t.serve (t.arrivalEnv c now)
        { ip := c.serverIp, port := c.serverPort, msg := request c ip port } = some (s, ps) ∧
      t.transport (t.arrivalEnv c now)
          { ip := c.serverIp, port := c.serverPort, msg := request c ip port } =
        .exchanged (t.world.server.addReply (request c ip port)).serialize := by
  obtain ⟨-, -, -, -, hhome, -, -, hkeeps⟩ := hC
  have hrecv : receive (request c ip port).serialize = .ok (request c ip port) := by
    have hwhole : receive ((request c ip port).serialize.take
        (request c ip port).serialize.length) = .ok (request c ip port) := hkeeps.receive le_rfl
    rwa [List.take_length] at hwhole
  obtain ⟨⟨s', effects, ret⟩, hdown, hs⟩ := bind_eq_ok.mp h
  obtain ⟨rfl, rfl⟩ := Prod.mk.inj (Except.ok.inj hs)
  -- the newcomer listens before it is connected
  replace hdown : t.world.server.processDownMessage (t.arrivalEnv c now) (request c ip port) =
      .ok (s', effects, ret) := by
    rw [← hdown, arrivalEnv, ← exchange_connected]
    rfl
  obtain ⟨nick, ps, -, hs', -, heffects⟩ := Server.processDownMessage_addClient rfl hdown
  constructor
  · simp only [serve, if_pos hhome, hrecv, Except.toOption, hdown, Option.bind_eq_bind,
      Option.bind_some]
    rfl
  · simp only [transport, if_pos hhome, Server.answer, hrecv, hdown, ok_bind, heffects,
      List.cons_append, replyText, hs']
    rfl

/-- A registration of the chat is the one of the server and its clients. -/
theorem join_eq {s : Server} {ps : List Packet} (hC : t.Proper (.join c ip port now))
    (h : t.world.serve (t.registering c ip port now) = .ok (s, ps)) :
    t.join c ip port now = deliverAll { t with world := ⟨s, t.world.clients.set c.name
      (c.connected (t.world.server.addReply (request c ip port)))⟩ } ps := by
  obtain ⟨hserve, htransport⟩ := serve_of_register hC h
  obtain ⟨-, -, hplain, -, -, hloop, hlen, hkeeps⟩ := hC
  have hip : (0 : Byte) ∉ ip := fun hmem => hkeeps.data.2.2.2 (by simp [registration, hmem])
  have htext : c.nicknameIpPort ip port = some (registration c.nickname ip (decimal port)) := by
    rw [Client.nicknameIpPort, cstr_eq_self hplain.1.2.2.2, cstr_eq_self hip]
    exact if_pos hlen
  have hturn : c.connectTurn (.exchanged ((t.world.server.addReply (request c ip port)).serialize.take
      (t.world.server.addReply (request c ip port)).serialize.length)) =
        .ok (if (t.world.server.addReply (request c ip port)).serialize.length ≤ _ then _ else c) :=
    Client.connectTurn_of_reply hkeeps _
  rw [if_pos le_rfl, List.take_length] at hturn
  have hconnect : c.connectLoop { ip := c.serverIp, port := c.serverPort, msg := request c ip port }
      [t.transport (t.arrivalEnv c now)] =
        some (c.connected (t.world.server.addReply (request c ip port))) := by
    rw [Client.connectLoop, htransport, hturn]
    simp only [Except.toOption, Option.bind_eq_bind, Option.bind_some,
      Client.connected, if_true]
    rfl
  simp only [join, htext, Option.bind_eq_bind, Option.bind_some]
  change (c.connectLoop { ip := c.serverIp, port := c.serverPort, msg := request c ip port }
    [t.transport (t.arrivalEnv c now)]).bind _ = _
  rw [hconnect, Option.bind_some]
  change (t.serve _ { ip := c.serverIp, port := c.serverPort, msg := request c ip port }).bind _ = _
  rw [hserve, Option.bind_some]

end Join

theorem Proper.length_nickname {t : Talk} {c : Client} {ip : Bytes} {port : Nat} {now : Int}
    (hC : t.Proper (.join c ip port now)) : c.nickname.length < 128 := by
  obtain ⟨-, -, -, -, -, -, hlen, -⟩ := hC
  simp only [registration, List.length_append] at hlen
  omega

/-- The updates of a registration bring nicknames that fit, when all nicknames do. -/
theorem announcement_of_register {w : World} {c : Client} {ip port : Bytes} {now : Int} {s : Server}
    {ps : List Packet} (hinv : w.Inv)
    (hfits : ∀ v x, w.server.clientNicknameToName.find v = some x → x.length < 128)
    (hpart : Part c.nickname) (hshort : c.nickname.length < 128)
    (harr : w.Arriving (.register c ip port now)) (hdel : w.UpdatesDelivered (.register c ip port now))
    (h : w.serve (.register c ip port now) = .ok (s, ps)) {q : Packet} (hq : q ∈ ps) :
    Delivered q.msg ∧ Announcement q.msg := by
  obtain ⟨hfresh, -, hname, hip, hport⟩ := harr
  have hd := hdel s ps h q hq
  obtain ⟨⟨s', effects, ret⟩, hdown, hs⟩ := bind_eq_ok.mp h
  obtain ⟨rfl, rfl⟩ := Prod.mk.inj (Except.ok.inj hs)
  obtain ⟨nick, ps, hnick, hs', hlist, heffects⟩ := Server.processDownMessage_addClient rfl hdown
  obtain rfl : c.nickname = nick :=
    Except.ok.inj ((parse_registration hpart hip hport).1.symm.trans hnick)
  replace hs' : s' = w.enrolled c c.nickname ip port now := hs'
  rw [heffects] at hq
  replace hq : q ∈ sentPackets (ps.map .send) := hq
  rw [World.sentPackets_map_send] at hq
  obtain ⟨k, hupd⟩ := Server.update_of_mem_sendUpdates hlist hq
  rw [Server.updateAdd_eq s' hnick] at hupd
  have hmsg : s'.addUpdate c.nickname c.name k = q.msg := Option.some.inj (Except.ok.inj hupd)
  rw [← hmsg] at hd ⊢
  have hnicks := World.unsplit_enrolled hinv hfresh hpart hname ip port now
  have hdecode := Server.decodeUpdate_addUpdate ⟨hpart.2, hname.2⟩ (hs' ▸ hnicks) hd
  refine ⟨hd, ⟨_, receive_of_delivered hd⟩, .inr ⟨s'.type_addUpdate _ _ k, fun told htold p hp => ?_⟩⟩
  obtain rfl := Except.ok.inj (hdecode.symm.trans htold)
  by_cases hk : k = c.name
  · -- the full list has the nickname of the newcomer and those that were there
    rw [hk, Server.announced_self] at hp
    have hx := mem_nickPairs.mp hp
    rw [hs', World.nickname_enrolled hinv hfresh] at hx
    split_ifs at hx with hv
    · exact Option.some.inj hx ▸ hshort
    · exact hfits _ _ hx
  · rw [Server.announced_of_ne s' _ hk, List.mem_singleton] at hp
    exact hp ▸ hshort

theorem announcement_of_evict {t : Talk} {v : Bytes} {s : Server} {ps : List Packet}
    (hC : t.Proper (.evict v)) (h : t.world.serve (.evict v) = .ok (s, ps)) {q : Packet}
    (hq : q ∈ ps) : Delivered q.msg ∧ Announcement q.msg := by
  have hd := hC.2 s ps h q hq
  refine ⟨hd, ⟨_, receive_of_delivered hd⟩, .inl ?_⟩
  obtain ⟨ps', hlist, hs⟩ := bind_eq_ok.mp h
  obtain ⟨rfl, rfl⟩ := Prod.mk.inj (Except.ok.inj hs)
  obtain ⟨k, hupd⟩ := Server.update_of_mem_sendUpdates hlist hq
  rw [Server.updateRem] at hupd
  split_ifs at hupd
  · rw [← Option.some.inj (Except.ok.inj hupd)]
    rfl
  · cases Except.ok.inj hupd

/-- **A registration of the chat** is that of the server and its clients. -/
theorem join_of_step {t : Talk} {c : Client} {ip : Bytes} {port : Nat} {now : Int} {w : World}
    (hinv : t.Inv) (hC : t.Proper (.join c ip port now))
    (h : t.world.step (t.registering c ip port now) = .ok w) :
    talk.step t (.join c ip port now) = some { t with world := w } ∧ Held w.clients := by
  obtain ⟨⟨s, ps⟩, hserve, h⟩ := bind_eq_ok.mp h
  obtain ⟨cs, hall, h⟩ := bind_eq_ok.mp h
  obtain rfl := Except.ok.inj h
  have hpart : Part c.nickname := ⟨hC.2.2.1.1.1, hC.2.2.2.1⟩
  have hshort := hC.length_nickname
  have hheld : Held (t.world.present (t.registering c ip port now)) := by
    intro k c₁ hc₁
    by_cases hk : k = c.name
    · replace hc₁ : t.world.clients.set c.name _ k = some c₁ := hc₁
      rw [hk, Clients.set_self] at hc₁
      obtain rfl := Option.some.inj hc₁
      intro nick hnick
      -- the newcomer's directory is empty
      have hempty : c.clientNickToNameMap = .empty := hC.1.2.1
      replace hnick : nick ∈ c.clientNickToNameMap.keys := hnick
      rw [hempty] at hnick
      cases hnick
    · exact hinv.held k c₁ ((Clients.set_of_ne t.world.clients _ hk).symm.trans hc₁)
  obtain ⟨hdone, hheld'⟩ := deliverAll_of_announced
    (t := { t with world := ⟨s, t.world.present (t.registering c ip port now)⟩ })
    (fun q hq => announcement_of_register
      (c := c.connected (t.world.server.addReply (request c ip port))) hinv.world
      (fun _ _ hx => hinv.length_nickname hx) hpart hshort hC.1 hC.2.1 hserve hq) hheld hall
  exact ⟨(join_eq hC hserve).trans hdone, hheld'⟩

theorem evict_of_step {t : Talk} {v : Bytes} {w : World} (hinv : t.Inv) (hC : t.Proper (.evict v))
    (h : t.world.step (.evict v) = .ok w) :
    talk.step t (.evict v) = some { t with world := w } ∧ Held w.clients := by
  obtain ⟨⟨s, ps⟩, hserve, h⟩ := bind_eq_ok.mp h
  obtain ⟨cs, hall, h⟩ := bind_eq_ok.mp h
  obtain rfl := Except.ok.inj h
  obtain ⟨hdone, hheld⟩ := deliverAll_of_announced (t := { t with world := ⟨s, t.world.clients⟩ })
    (fun q hq => announcement_of_evict hC hserve hq) hinv.held hall
  obtain ⟨ps', hlist, hs⟩ := bind_eq_ok.mp hserve
  obtain ⟨rfl, rfl⟩ := Prod.mk.inj (Except.ok.inj hs)
  refine ⟨?_, hheld⟩
  simp only [talk, step, evict, serverEnv, hlist, Except.toOption, Option.bind_eq_bind,
    Option.bind_some, hdone]

/-- What holds of a client holds whatever it learns. -/
theorem Settled.of_server {t : Talk} {k : Bytes} {c : Client} (h : t.Settled k c) {w : World}
    (hserver : w.server.name = t.world.server.name) (map : StdMap Bytes Bytes) :
    Settled { t with world := w } k { c with clientNickToNameMap := map } where
  name := h.name
  server := h.server.trans hserver.symm
  home := h.home
  nickname := h.nickname
  fits := h.fits

/-- **A client that registers**: it has its nickname, and nothing else changes for the others. -/
theorem inv_join {t : Talk} {c : Client} {ip : Bytes} {port : Nat} {now : Int} (hinv : t.Inv)
    (hC : t.Proper (.join c ip port now)) :
    ∃ t', talk.step t (.join c ip port now) = some t' ∧
      t.world.step (t.registering c ip port now) = .ok t'.world ∧ t'.Inv ∧ t'.shown = t.shown ∧
      ∀ v, t'.nicknameOf v = if v = c.name then some c.nickname else t.nicknameOf v := by
  have ⟨harr, hdel, hplain, hsep, hhome, _, _, hkeeps⟩ := hC
  have hpart : Part c.nickname := ⟨hplain.1.1, hsep⟩
  have hspares : t.world.Spares (t.registering c ip port now) := hpart
  obtain ⟨w, hstep, hw⟩ := World.step_enroll hinv.world harr hpart hdel
  have hinv' := World.inv_step hinv.world harr hdel hspares hstep
  have hres' := (World.resolves_step_iff hinv.world harr hdel hinv.resolves hstep).mpr hspares
  have hserver : w.server.name = t.world.server.name := by rw [hw.server]; rfl
  obtain ⟨hjoin, hheld⟩ := join_of_step hinv hC hstep
  refine ⟨{ t with world := w }, hjoin, hstep,
    ⟨hinv', hres', hserver ▸ hinv.server, fun k c₁ hk hc₁ => ?client, hheld⟩, rfl, fun v => ?nickname⟩
  case client =>
    by_cases hkc : k = c.name
    · subst hkc
      obtain rfl := Option.some.inj (hw.newcomer.symm.trans hc₁)
      exact ⟨hkeeps.client, hserver.symm, hhome, hplain, hC.length_nickname⟩
    · have hk' := (hw.registered_iff.mp hk).resolve_left hkc
      obtain ⟨c₀, hc₀, -⟩ := hinv.world.client k hk'
      obtain rfl := Option.some.inj ((hw.other hkc hk' hc₀).symm.trans hc₁)
      exact (hinv.client k c₀ hk' hc₀).of_server hserver _
  case nickname =>
    by_cases hv : v = c.name
    · subst hv
      rw [if_pos rfl]
      have hnew := congrArg (Option.map (·.nickname)) hw.newcomer
      exact nicknameOf_eq_some.mpr ⟨hw.registered_iff.mpr (.inl rfl), hnew⟩
    · rw [if_neg hv]
      by_cases hr : t.world.Registered v
      · obtain ⟨c₀, hc₀, -⟩ := hinv.world.client v hr
        have hc₁ := hw.other hv hr hc₀
        have hr' := hw.registered_iff.mpr (.inr hr)
        simp only [nicknameOf, if_pos hr, if_pos hr', hc₀, hc₁, Option.map_some]
        rfl
      · have hr' : ¬ w.Registered v := fun h => (hw.registered_iff.mp h).elim hv hr
        simp only [nicknameOf, if_neg hr, if_neg hr']

/-- **A client that is evicted** loses its nickname. -/
theorem inv_evict {t : Talk} {v : Bytes} (hinv : t.Inv) (hC : t.Proper (.evict v)) :
    ∃ t', talk.step t (.evict v) = some t' ∧ t.world.step (.evict v) = .ok t'.world ∧ t'.Inv ∧
      t'.shown = t.shown ∧ ∀ u, t'.nicknameOf u = if u = v then none else t.nicknameOf u := by
  have ⟨hspares, hdel⟩ := hC
  obtain ⟨w, hstep, hw⟩ := World.step_evict hinv.world.toLive hdel
  have harr : t.world.Arriving (.evict v) := trivial
  have hinv' := World.inv_step hinv.world harr hdel hspares hstep
  have hres' := (World.resolves_step_iff hinv.world harr hdel hinv.resolves hstep).mpr hspares
  have hserver : w.server.name = t.world.server.name := by rw [hw.server]; rfl
  obtain ⟨hevict, hheld⟩ := evict_of_step hinv hC hstep
  refine ⟨{ t with world := w }, hevict, hstep,
    ⟨hinv', hres', hserver ▸ hinv.server, fun k c₁ hk hc₁ => ?client, hheld⟩, rfl, fun u => ?nickname⟩
  case client =>
    have hk' := hw.registered_iff.mp hk
    obtain ⟨c₀, hc₀, -⟩ := hinv.world.client k hk'.1
    obtain rfl := Option.some.inj ((hw.other hk' hc₀).symm.trans hc₁)
    obtain ⟨map, hmap⟩ := c₀.forget_eq v
    rw [hmap]
    exact (hinv.client k c₀ hk'.1 hc₀).of_server hserver map
  case nickname =>
    by_cases hr : t.world.Registered u ∧ u ≠ v
    · obtain ⟨c₀, hc₀, -⟩ := hinv.world.client u hr.1
      have hc₁ := hw.other hr hc₀
      have hr' := hw.registered_iff.mpr hr
      simp only [nicknameOf, if_pos hr.1, if_pos hr', if_neg hr.2, hc₀, hc₁, Option.map_some,
        Client.nickname_forget]
    · have hr' : ¬ w.Registered u := fun h => hr (hw.registered_iff.mp h)
      by_cases hu : u = v
      · simp only [nicknameOf, if_neg hr', if_pos hu]
      · have hnot : ¬ t.world.Registered u := fun h => hr ⟨h, hu⟩
        simp only [nicknameOf, if_neg hr', if_neg hnot, if_neg hu]

/-! ### A line -/

theorem send_ackText : Message.send (.exchanged ackText) = .ok {} := by decide +kernel

section Say

variable {t : Talk} {k dest content d : Bytes} {c : Client}

/-- Whom a directory has under a nickname is registered and has it. -/
theorem Inv.holds (hinv : t.Inv) (hk : t.world.Registered k) (hc : t.world.clients k = some c)
    (hd : c.clientNickToNameMap.find dest = some d) : t.world.Holds d dest :=
  hinv.world.holds_iff.mpr (hinv.world.sound k c hk hc dest d hd)

/-- What crosses the wire of a line. -/
theorem Inv.recv_chatMessage (hinv : t.Inv) (hk : t.world.Registered k)
    (hc : t.world.clients k = some c) (hd : c.clientNickToNameMap.find dest = some d)
    (hplain : Plain content) (hfit : (c.chatMessage d content).headLength ≤ msgBufferSize - 2) :
    Delivered (c.chatMessage d content) ∧
      Delivered (t.world.server.forwarded (c.chatMessage d content)) := by
  obtain ⟨hclean, hto, -, hnick, -⟩ := hinv.client k c hk hc
  obtain ⟨c', hc', hname⟩ := hinv.world.client k hk
  obtain rfl : c = c' := Option.some.inj (hc.symm.trans hc')
  have hheld := hinv.holds hk hc hd
  obtain ⟨dst, hdst, -⟩ := hinv.world.client d hheld.1
  have hcleand := (hinv.client d dst hheld.1 hdst).name
  have hheader : (c.chatMessage d content).CleanHeader := by
    refine ⟨show Clean c.name from hname ▸ hclean, hcleand, clean_msgVoid, ?_, ?_⟩
    · exact show Clean c.server from hto ▸ hinv.server
    · exact clean_append hnick.1 hplain.1 (by decide)
  have hhop : Delivered (c.chatMessage d content) := Message.recv_serialize hheader hfit {}
  exact ⟨hhop, Server.recv_forwarded hinv.server hhop rfl hto⟩

/-- The server passes a line on, and acknowledges it. -/
theorem Inv.processDownMessage_chat (hinv : t.Inv) (hk : t.world.Registered k)
    (hc : t.world.clients k = some c) (hd : c.clientNickToNameMap.find dest = some d)
    (hplain : Plain content) (hfit : (c.chatMessage d content).headLength ≤ msgBufferSize - 2) :
    ∃ q ret, q.msg = t.world.server.forwarded (c.chatMessage d content) ∧
      t.world.server.processDownMessage t.serverEnv (c.chatMessage d content) =
        .ok (t.world.server, [.send q, .reply {}, .close], ret) := by
  obtain ⟨-, hto, -, hnick, -⟩ := hinv.client k c hk hc
  have hheld := hinv.holds hk hc hd
  obtain ⟨dst, hdst, hdname⟩ := hinv.world.client d hheld.1
  obtain ⟨-, hdel⟩ := hinv.recv_chatMessage hk hc hd hplain hfit
  obtain ⟨a, ha⟩ := Option.isSome_iff_exists.mp hheld.1
  obtain ⟨nick, ip, port, hparse⟩ :=
    parseNicknameAndAddress_iff.mpr (reachable_iff.mp (hinv.world.reachable d a ha))
  have hfwd := Server.forward_of_find (m := c.chatMessage d content) ha hparse
  have hreq : t.world.server.request (c.chatMessage d content) = .send :=
    Server.request_eq_send_iff.mpr ⟨rfl, hto⟩
  -- the destination can read the line, so it acknowledges it
  have hextract := extract_of_parts hnick.1.1 hplain.1.1 hnick.2 hplain.2
  have hacks : dst.Acknowledges (t.world.server.forwarded (c.chatMessage d content)) :=
    (acknowledges_iff rfl).mpr ⟨hdname.symm, c.nickname, content, hextract⟩
  have hanswer : dst.answer (t.world.server.forwarded (c.chatMessage d content)).serialize =
      ackText := answer_eq_ack_iff.mpr ⟨_, receive_of_delivered hdel, hacks⟩
  have hexchange : t.serverEnv.exchange
      { ip, port, msg := t.world.server.forwarded (c.chatMessage d content) } =
        .exchanged ackText := by
    simp only [serverEnv, Clients.exchange, Server.forwarded, Client.chatMessage] at hanswer ⊢
    simp only [hdst, hanswer]
  refine ⟨{ ip, port, msg := t.world.server.forwarded (c.chatMessage d content) },
    t.serverEnv.replyRet {}, rfl, ?_⟩
  simp only [Server.processDownMessage, hreq, Server.executeSendMessage, hfwd, hexchange,
    send_ackText, ok_bind, pure_eq_ok]
  rfl

/-- The server's part of a line: it goes to the client that has the nickname, and is acknowledged. -/
theorem Inv.serve_chat (hinv : t.Inv) (hk : t.world.Registered k)
    (hc : t.world.clients k = some c) (hd : c.clientNickToNameMap.find dest = some d)
    (hplain : Plain content) (hfit : (c.chatMessage d content).headLength ≤ msgBufferSize - 2) :
    let p : Packet := { ip := c.serverIp, port := c.serverPort, msg := c.chatMessage d content }
    ∃ q, q.msg = t.world.server.forwarded (c.chatMessage d content) ∧
      t.serve t.serverEnv p = some (t.world.server, [q]) ∧
      t.transport t.serverEnv p = .exchanged ackText := by
  have hhome := (hinv.client k c hk hc).home
  obtain ⟨hhop, -⟩ := hinv.recv_chatMessage hk hc hd hplain hfit
  obtain ⟨q, ret, hq, hdown⟩ := hinv.processDownMessage_chat hk hc hd hplain hfit
  refine ⟨q, hq, ?serve, ?transport⟩
  case serve =>
    simp only [serve, if_pos hhome, receive_of_delivered hhop, hdown, Except.toOption,
      Option.bind_eq_bind, Option.bind_some, sentPackets]
    rfl
  case transport =>
    simp only [transport, if_pos hhome, Server.answer, receive_of_delivered hhop, hdown, ok_bind,
      replyText]
    rfl

/-- The client that has the nickname shows the line. -/
theorem Inv.deliver_chat (hinv : t.Inv) (hk : t.world.Registered k)
    (hc : t.world.clients k = some c) (hd : c.clientNickToNameMap.find dest = some d)
    (hplain : Plain content) (hlen : content.length < 1024)
    (hfit : (c.chatMessage d content).headLength ≤ msgBufferSize - 2) {q : Packet}
    (hq : q.msg = t.world.server.forwarded (c.chatMessage d content)) :
    t.deliver q = some { t with
      shown := fun v => if v = d then t.shown v ++ [(c.nickname, content)] else t.shown v } := by
  obtain ⟨-, -, -, hnick, hshort⟩ := hinv.client k c hk hc
  obtain ⟨dst, hdst, hdname⟩ := hinv.world.client d (hinv.holds hk hc hd).1
  obtain ⟨-, hhop⟩ := hinv.recv_chatMessage hk hc hd hplain hfit
  have hextract := extract_of_parts hnick.1.1 hplain.1.1 hnick.2 hplain.2
  have hhandle : dst.handle q.msg.serialize =
      .ok (dst, [.reply {}, .notify (.message c.nickname content), .close], .success) := by
    have hdata : q.msg.data = c.nickname ++ [chatSeparator] ++ content := by rw [hq]; rfl
    rw [handle_of_delivered (hq ▸ hhop),
      processDownMessage_sendMessage (by rw [hq]; exact hdname.symm) (by rw [hq]; rfl), hdata,
      hextract]
    rfl
  -- the event of the line fits its arrays
  have hline := Event.line_message ⟨hnick.1.2.2.2, hplain.1.2.2.2⟩ ⟨hshort, hlen⟩
  have hlines : lines (events [.reply {}, .notify (.message c.nickname content), .close]) =
      some [(c.nickname, content)] := by
    simp only [events, lines, hline, Option.bind_eq_bind, Option.bind_some]
    rfl
  have hdest : q.msg.clientDest = d := by rw [hq]; rfl
  have hsame : t.world.clients.set d dst = t.world.clients := by
    funext j
    by_cases hj : j = d
    · rw [hj, Clients.set_self, hdst]
    · rw [Clients.set_of_ne _ _ hj]
  simp only [deliver, hdest, hdst, hhandle, Except.toOption, hlines, hsame, Option.bind_eq_bind,
    Option.bind_some]
  rfl

/-- **A line to a nickname that is known** is shown to the client that has it, and to nobody else. -/
theorem Inv.say_of_known (hinv : t.Inv) (hk : t.world.Registered k)
    (hc : t.world.clients k = some c) (hd : c.clientNickToNameMap.find dest = some d)
    (hplain : Plain content) (hlen : content.length < 1024)
    (hfit : (c.chatMessage d content).headLength ≤ msgBufferSize - 2) :
    t.say c dest content = some (.success, { t with
      shown := fun v => if v = d then t.shown v ++ [(c.nickname, content)] else t.shown v }) := by
  obtain ⟨q, hq, hserve, htransport⟩ := hinv.serve_chat hk hc hd hplain hfit
  have hdeliver := hinv.deliver_chat hk hc hd hplain hlen hfit hq
  have hpacket : c.chatPacket dest content =
      some { ip := c.serverIp, port := c.serverPort, msg := c.chatMessage d content } := by
    rw [Client.chatPacket, hd]
    rfl
  have hreply : Message.send (t.transport t.serverEnv
      { ip := c.serverIp, port := c.serverPort, msg := c.chatMessage d content }) = .ok {} := by
    rw [htransport, send_ackText]
  have hsend := Client.sendMessage_of_reply { exchange := t.transport t.serverEnv } hpacket hreply
  have hacked : ({} : Message).isErrorMessage = false := rfl
  rw [hacked, if_neg (by simp)] at hsend
  simp only [say, hsend, Except.toOption, sentPackets, relayAll, hserve, deliverAll, hdeliver,
    Option.bind_eq_bind, Option.bind_some]
  rfl

/-- A line to a nickname that is not known is refused. -/
theorem say_of_unknown (content : Bytes) (hd : c.clientNickToNameMap.find dest = none) :
    t.say c dest content = some (.error, t) := by
  simp only [say, Client.sendMessage, Client.chatPacket, hd, Option.map_none, pure_eq_ok,
    Except.toOption, sentPackets, relayAll, Option.bind_eq_bind, Option.bind_some]
  rfl

end Say

/-- A nickname that a directory does not have is nobody's. -/
theorem Inv.not_holds {t : Talk} {k dest : Bytes} {c : Client} (hinv : t.Inv)
    (hk : t.world.Registered k) (hc : t.world.clients k = some c)
    (hd : c.clientNickToNameMap.find dest = none) (v : Bytes) : ¬ t.world.Holds v dest := by
  intro hv
  obtain ⟨u, hu, -⟩ := hinv.resolves k c hk hc dest ⟨v, hv⟩
  rw [hd] at hu
  cases hu

/-- **A line**, whether its nickname is known or not. -/
theorem Inv.say {t : Talk} {k dest content : Bytes} (hinv : t.Inv)
    (hC : t.Proper (.say k dest content)) :
    ∃ c ret t', t.world.clients k = some c ∧ t.nicknameOf k = some c.nickname ∧
      t.say c dest content = some (ret, t') ∧
      (ret = .success ↔ ∃ v, t.world.Holds v dest) ∧ t'.world = t.world ∧ t'.home = t.home ∧
      ∀ v, t'.shown v = if t.lookup k dest = some v then t.shown v ++ [(c.nickname, content)]
        else t.shown v := by
  obtain ⟨hk, hplain, hlen, hfit⟩ := hC
  obtain ⟨c, hc, -⟩ := hinv.world.client k hk
  have hnick : t.nicknameOf k = some c.nickname := nicknameOf_eq_some.mpr ⟨hk, by rw [hc]; rfl⟩
  have hlook : t.lookup k dest = c.clientNickToNameMap.find dest := by rw [lookup, hc]; rfl
  cases hd : c.clientNickToNameMap.find dest with
  | none =>
      refine ⟨c, .error, t, hc, hnick, say_of_unknown content hd, ?_, rfl, rfl, fun v => ?_⟩
      · exact iff_of_false (by simp) fun ⟨v, hv⟩ => hinv.not_holds hk hc hd v hv
      · rw [hlook, hd, if_neg (by simp)]
  | some d =>
      have hsay := hinv.say_of_known hk hc hd hplain hlen (hfit c hc d (hlook.trans hd))
      refine ⟨c, .success, _, hc, hnick, hsay, ?_, rfl, rfl, fun v => ?_⟩
      · exact iff_of_true rfl ⟨d, hinv.holds hk hc hd⟩
      · simp only [hlook, hd, Option.some.injEq, eq_comm]

/-! ### Any action -/

/-- What is shown does not matter to the invariant. -/
theorem Inv.of_world {t t' : Talk} (hinv : t.Inv) (hworld : t'.world = t.world)
    (hhome : t'.home = t.home) : t'.Inv := by
  obtain ⟨world, home, shown⟩ := t'
  obtain rfl : world = t.world := hworld
  obtain rfl : home = t.home := hhome
  obtain ⟨hw, hres, hserver, hclient, hheld⟩ := hinv
  refine ⟨hw, hres, hserver, fun k c hk hc => ?_, hheld⟩
  obtain ⟨hname, hto, haddr, hnick, hfits⟩ := hclient k c hk hc
  exact ⟨hname, hto, haddr, hnick, hfits⟩

theorem Inv.step {t : Talk} {a : TalkAction} (hinv : t.Inv) (hC : t.Proper a) :
    ∃ t', talk.step t a = some t' ∧ t'.Inv := by
  cases a with
  | join c ip port now =>
      obtain ⟨t', hstep, -, hinv', -⟩ := inv_join hinv hC
      exact ⟨t', hstep, hinv'⟩
  | evict v =>
      obtain ⟨t', hstep, -, hinv', -⟩ := inv_evict hinv hC
      exact ⟨t', hstep, hinv'⟩
  | say k dest content =>
      obtain ⟨c, ret, t', hc, -, hsay, -, hworld, hhome, -⟩ := hinv.say hC
      refine ⟨t', ?_, hinv.of_world hworld hhome⟩
      simp only [talk, Talk.step, hc, Option.bind_some, hsay]
      rfl

theorem inv_init {name : Bytes} (hname : Clean name) (home : Bytes × Nat) : (init name home).Inv where
  world := World.inv_init name
  resolves _ _ hk := absurd hk (World.not_registered_init name _)
  server := hname
  client _ _ hk := absurd hk (World.not_registered_init name _)
  held _ _ hc := by cases hc

end Talk

end Cimabue
