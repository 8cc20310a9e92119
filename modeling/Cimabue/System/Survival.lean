import Cimabue.System.Connect
import Cimabue.Threads.Reception
import Cimabue.Wire.Fields
import Cimabue.Wire.ListCodec

/-!
# System — Survival

What stops a node.  An exception that leaves a thread, the front of an empty list and an iterator at
the end all end the program; no handler catches anything.

* `server_up_iff`: over streams, pings and removals, a server stays up exactly when every stream has its
  fields or breaks off, and every registration has something in it that is no `:` and, for a new name,
  three parts.
* `sections_intact`: so do the sections its threads interleave, where a client that answers is in the
  ping list.
* `client_up_iff`: over streams, turns of connecting and messages of its user, a client stays up exactly
  when every stream has its fields or breaks off, every chat message for it has two parts, and no
  message of its own is answered by an error.

The iterator of the sweep is in `Rounds`, and the arrays of events are in `Views` and `Talk`.
-/

namespace Cimabue

/-! ### The server -/

/-- What the threads of a server go through. -/
inductive ServerStep where
  /-- A stream on a port, received and handled. -/
  | frame (env : Env) (port : Port) (peer : Bytes)
  /-- A turn of the ping loop. -/
  | ping (env : Env) (client : Bytes)
  /-- A turn of the sweep. -/
  | sweep (env : Env) (client : Bytes)

namespace ServerStep

/-- What the world answers while the step lasts. -/
def env : ServerStep → Env
  | .frame env .. | .ping env _ | .sweep env _ => env

/-- Every reply that comes back is one that `Recv` gets through. -/
def Answered (a : ServerStep) : Prop := ∀ p, (a.env.exchange p).Answered

theorem Answered.send {a : ServerStep} (h : a.Answered) (p : Packet) :
    ∃ reply, Message.send (a.env.exchange p) = .ok reply :=
  send_iff.mpr (h p)

end ServerStep

namespace Server

/-- One step of a server's threads. -/
def serve (s : Server) : ServerStep → Except Fault Server
  | .frame env port peer => do
      let m ← receive peer
      let (s, _, _) ← s.process env m port
      pure s
  | .ping env client =>
      -- the loop is over the clients that have an address
      match s.clientNameToIPMap.find client with
      | none => pure s
      | some address => s.pingClient env client address
  | .sweep env client => s.sweepClient env client

end Server

/-- A server that is up. -/
def serving : Machine Server ServerStep where
  step s a := (s.serve a).toOption

namespace Server

/-- What the threads rely on: an address is one a message can be sent to, and a client that has one
is in the ping list. -/
structure Sound (s : Server) : Prop where
  addresses : ∀ k a, s.clientNameToIPMap.find k = some a → Reachable a
  listed : ∀ k, (s.clientNameToIPMap.find k).isSome → (s.clientPingList.find k).isSome

/-- What a server bears: any stream of seven fields or that breaks off, unless it registers a client
under nothing but separators, or a new one under an address it cannot send to. -/
def Bears (s : Server) : ServerStep → Prop
  | .frame _ port peer => Readable peer ∧ ∀ m ∈ (receive peer).toOption, port = .down →
      m.type = .addClient → (∃ x ∈ m.data, x ≠ dataSeparator) ∧
        (s.clientNameToIPMap.find m.clientSrc = none → ThreeParts m.data)
  | .ping .. | .sweep .. => True

instance (data : Bytes) : Decidable (ThreeParts data) :=
  decidable_of_iff _ threeParts_iff.symm

instance (s : Server) (a : ServerStep) : Decidable (s.Bears a) :=
  match a with
  | .frame .. => inferInstanceAs (Decidable (_ ∧ ∀ m ∈ _, _ → _ → _ ∧ (_ → _)))
  | .ping .. | .sweep .. => inferInstanceAs (Decidable True)

variable {s t : Server} {env : Env} {m : Message}

/-- The data of a registration that was received is not empty. -/
theorem data_ne_nil {peer : Bytes} (h : receive peer = .ok m) (htype : m.type = .addClient) :
    m.data ≠ [] := by
  obtain ⟨ret, hrecv⟩ := receive_eq_ok_iff.mp h
  cases ret with
  | success =>
      obtain ⟨-, -, -, -, hdata⟩ := Message.cleanHeader_of_recv hrecv (by rw [htype]; simp)
      exact hdata.1
  | error =>
      obtain ⟨-, rfl⟩ := Message.recv_error_iff.mp hrecv
      cases htype
  | destinationIsNotMe => simpa using recv_ret hrecv

/-- An update goes to every address, so each of them is parsed. -/
theorem parses_of_sendUpdates {update : Bytes → Except Fault (Option Message)}
    {l : List ((_ : Bytes) × Bytes)} {ps : List Packet} {e : (_ : Bytes) × Bytes}
    (h : sendUpdates env update l = .ok ps) (he : e ∈ l)
    (hupd : ∀ u, update e.1 = .ok u → u ≠ none) : ∃ r, parseAddress e.2 = .ok r := by
  induction l generalizing ps with
  | nil => cases he
  | cons e' l ih =>
      rw [sendUpdates] at h
      obtain ⟨update?, hu, h⟩ := bind_eq_ok.mp h
      rcases List.mem_cons.mp he with rfl | he
      · cases update? with
        | none => exact absurd rfl (hupd none hu)
        | some msg =>
            obtain ⟨r, hr, -⟩ := bind_eq_ok.mp h
            exact ⟨r, hr⟩
      · cases update? with
        | none => exact ih h he
        | some msg =>
            obtain ⟨r, -, h⟩ := bind_eq_ok.mp h
            cases r with
            | none => exact ih h he
            | some a =>
                obtain ⟨reply, -, h⟩ := bind_eq_ok.mp h
                obtain ⟨sent, hsent, -⟩ := bind_eq_ok.mp h
                exact ih hsent he

/-- **What a registration needs.** -/
theorem registration_iff (hs : s.Sound) (hex : ∀ p, ∃ reply, Message.send (env.exchange p) = .ok reply)
    (htype : m.type = .addClient) (hdata : m.data ≠ []) :
    (∃ r, s.processDownMessage env m = .ok r) ↔
      (∃ x ∈ m.data, x ≠ dataSeparator) ∧
        (s.clientNameToIPMap.find m.clientSrc = none → ThreeParts m.data) := by
  have hnick : (∃ nick, parseNickname m.data = .ok nick) ↔ ∃ x ∈ m.data, x ≠ dataSeparator := by
    rw [parseNickname_iff, fields_zero_iff]
    simp [hdata]
  constructor
  · rintro ⟨⟨t, effects, ret⟩, h⟩
    obtain ⟨nick, ps, hparse, rfl, hps, -⟩ := processDownMessage_addClient htype h
    refine ⟨hnick.mp ⟨nick, hparse⟩, fun hnew => ?_⟩
    -- the newcomer's own address is among those the list goes to
    have hentry : (s.withEntry m env.now nick).clientNameToIPMap.find m.clientSrc =
        some m.data := by
      rw [address_withEntry, hnew, Option.getD_none]
    have hparses := parses_of_sendUpdates hps (StdMap.find_eq_some_iff.mp hentry) fun u hu => by
      rw [updateAdd, if_neg (by simp)] at hu
      rw [← Except.ok.inj hu]
      exact Option.some_ne_none _
    exact threeParts_iff.mpr ((parseAddress_iff.mp hparses).resolve_left hdata)
  · rintro ⟨hsome, hnew⟩
    obtain ⟨nick, hparse⟩ := hnick.mpr hsome
    obtain ⟨t, ht⟩ := registration_ok htype hex hs.addresses
      (fun hn => reachable_iff.mpr (threeTokens_iff.mpr (hnew hn))) hparse
    obtain ⟨r, hr, -⟩ := Option.map_eq_some_iff.mp ht
    exact ⟨r, toOption_eq_some.mp hr⟩

/-- A chat message goes through, wherever it is for. -/
theorem executeSendMessage_ok (haddr : ∀ k a, s.clientNameToIPMap.find k = some a → Reachable a)
    (hex : ∀ p, ∃ reply, Message.send (env.exchange p) = .ok reply) (m : Message) :
    ∃ r, s.executeSendMessage env m = .ok r := by
  have hforward : ∃ p?, s.forward m = .ok p? := by
    cases hfind : s.clientNameToIPMap.find m.clientDest with
    | none => exact ⟨none, by simp [forward, haveClient, hfind]⟩
    | some address =>
        obtain ⟨nick, ip, port, hparse⟩ :=
          parseNicknameAndAddress_iff.mpr (reachable_iff.mp (haddr _ _ hfind))
        exact ⟨_, forward_of_find hfind hparse⟩
  obtain ⟨p?, hp⟩ := hforward
  rw [executeSendMessage, hp, ok_bind]
  cases p? with
  | none => exact ⟨_, rfl⟩
  | some p =>
      obtain ⟨reply, hreply⟩ := hex p
      exact ⟨(reply, [.send p]), by simp only [hreply, ok_bind, pure_eq_ok]⟩

theorem type_of_request (h : s.request m = .add) : m.type = .addClient := by
  by_contra htype
  rw [request, if_neg htype] at h
  split_ifs at h
  split at h <;> cases h

/-- A message that is no registration goes through. -/
theorem processDownMessage_other
    (haddr : ∀ k a, s.clientNameToIPMap.find k = some a → Reachable a)
    (hex : ∀ p, ∃ reply, Message.send (env.exchange p) = .ok reply) (hreq : s.request m ≠ .add) :
    ∃ r, s.processDownMessage env m = .ok r := by
  rw [processDownMessage]
  cases hrequest : s.request m with
  | add => exact absurd hrequest hreq
  | wrongDestination => exact ⟨_, rfl⟩
  | send =>
      obtain ⟨⟨answer, effects⟩, hsend⟩ := executeSendMessage_ok haddr hex m
      rw [hsend]
      exact ⟨_, rfl⟩
  | unknown => exact ⟨_, rfl⟩

theorem processDownMessage_iff (hs : s.Sound)
    (hex : ∀ p, ∃ reply, Message.send (env.exchange p) = .ok reply)
    (hdata : m.type = .addClient → m.data ≠ []) :
    (∃ r, s.processDownMessage env m = .ok r) ↔ (m.type = .addClient →
      (∃ x ∈ m.data, x ≠ dataSeparator) ∧
        (s.clientNameToIPMap.find m.clientSrc = none → ThreeParts m.data)) := by
  by_cases htype : m.type = .addClient
  · rw [registration_iff hs hex htype (hdata htype)]
    simp [htype]
  · exact iff_of_true (processDownMessage_other hs.addresses hex fun h => htype (type_of_request h))
      fun h => absurd h htype

/-- A client can be pinged, and is in the ping list if it answers. -/
theorem pingClient_ok (hex : ∀ p, ∃ reply, Message.send (env.exchange p) = .ok reply)
    {client address : Bytes} (haddr : Reachable address)
    (hlisted : ∀ p pong, s.ping client address = .ok p → Message.send (env.exchange p) = .ok pong →
      pong.isErrorMessage = false → (s.clientPingList.find client).isSome) :
    ∃ t, s.pingClient env client address = .ok t := by
  obtain ⟨ip, port, hparse⟩ := haddr
  have hping : s.ping client address = .ok
      { ip, port, msg := { type := .pingClient, clientDest := client, serverSrc := s.name } } := by
    rw [ping, hparse]
    rfl
  obtain ⟨pong, hpong⟩ := hex _
  rw [pingClient, hping, ok_bind, hpong, ok_bind]
  split_ifs with herror
  · exact ⟨s, rfl⟩
  · obtain ⟨last, hlast⟩ :=
      Option.isSome_iff_exists.mp (hlisted _ pong hping hpong (by simpa using herror))
    rw [recordPong, hlast]
    exact ⟨_, rfl⟩

theorem updateClientListRem_ok (haddr : ∀ k a, s.clientNameToIPMap.find k = some a → Reachable a)
    (hex : ∀ p, ∃ reply, Message.send (env.exchange p) = .ok reply) (client : Bytes) :
    ∃ ps, s.updateClientListRem env client = .ok ps := by
  have hupd : ∀ k, s.updateRem client k = .ok (s.remUpdate client k) := fun k => by
    rw [updateRem, remUpdate]
    split_ifs <;> rfl
  obtain ⟨ps, hps, -⟩ := sendUpdates_ok (l := s.clientNameToIPMap.entries) hex
    (fun e he => haddr _ _ (StdMap.find_of_mem he)) hupd
  exact ⟨ps, hps⟩

/-- **What a server bears**: exactly this goes through. -/
theorem serve_iff (hs : s.Sound) {a : ServerStep} (ha : a.Answered) :
    (∃ t, s.serve a = .ok t) ↔ s.Bears a := by
  cases a with
  | frame env port peer =>
      rw [Bears, ← readable_iff]
      cases hrecv : receive peer with
      | error f => simp [serve, hrecv, bind, Except.bind]
      | ok m =>
          have hserve : s.serve (.frame env port peer) = (do
              let (s, _, _) ← s.process env m port
              pure s) := by rw [serve, hrecv, ok_bind]
          rw [hserve]
          refine (exists_bind_iff fun (r : Server × List Effect × Ret) => ⟨r.1, rfl⟩).trans ?_
          cases port with
          | up => simp [process, Except.toOption]
          | down =>
              refine (processDownMessage_iff hs ha.send (data_ne_nil hrecv)).trans ?_
              simp [Except.toOption]
  | ping env client =>
      refine iff_of_true ?_ trivial
      rw [serve]
      cases hfind : s.clientNameToIPMap.find client with
      | none => exact ⟨_, rfl⟩
      | some address =>
          exact pingClient_ok ha.send (hs.addresses _ _ hfind)
            fun _ _ _ _ _ => hs.listed client (by rw [hfind]; rfl)
  | sweep env client =>
      refine iff_of_true ?_ trivial
      have hex : ∀ p, ∃ reply, Message.send (env.exchange p) = .ok reply := ha.send
      rw [serve, sweepClient]
      split_ifs
      · obtain ⟨ps, hps⟩ := updateClientListRem_ok hs.addresses hex client
        exact ⟨s.removeClient client, by simp only [hps, ok_bind, pure_eq_ok]⟩
      · exact ⟨s, rfl⟩

/-- A registration that went through was of a client with an address, and put it into the ping
list. -/
theorem Sound.withEntry (hs : s.Sound) {now : Int} {nick : Bytes}
    (hnew : s.clientNameToIPMap.find m.clientSrc = none → ThreeParts m.data) :
    (s.withEntry m now nick).Sound := by
  refine ⟨fun k a h => ?_, fun k h => ?_⟩
  · simp only [Server.withEntry, addName, addPing, StdMap.find_insert] at h
    split_ifs at h with hk
    · cases hold : s.clientNameToIPMap.find m.clientSrc with
      | none =>
          rw [hold] at h
          exact reachable_iff.mpr (threeTokens_iff.mpr (Option.some.inj h ▸ hnew hold))
      | some old => rw [hold] at h; exact Option.some.inj h ▸ hs.addresses _ _ hold
    · exact hs.addresses k a h
  · simp only [Server.withEntry, addName, addPing, StdMap.isSome_find_insert, Bool.or_eq_true,
      decide_eq_true_eq] at h ⊢
    exact h.imp id (hs.listed k)

theorem Sound.removeClient (hs : s.Sound) (client : Bytes) : (s.removeClient client).Sound := by
  refine ⟨fun k a h => ?_, fun k h => ?_⟩
  · simp only [Server.removeClient, eraseName, erasePing, eraseNickname, StdMap.find_erase] at h
    split_ifs at h
    exact hs.addresses k a h
  · simp only [Server.removeClient, eraseName, erasePing, eraseNickname, StdMap.find_erase] at h ⊢
    split_ifs at h ⊢ with hk
    · cases h
    · exact hs.listed k h

/-- What a frame of the down port does to the registry. -/
theorem serve_frame {peer : Bytes} (h : s.serve (.frame env .down peer) = .ok t) :
    ∃ m, receive peer = .ok m ∧ registrations.step s (.message env m) = some t := by
  obtain ⟨m, hrecv, h⟩ := bind_eq_ok.mp h
  obtain ⟨⟨t', effects, ret⟩, hprocess, h⟩ := bind_eq_ok.mp h
  obtain rfl : t' = t := Except.ok.inj h
  exact ⟨m, hrecv, Option.map_eq_some_iff.mpr ⟨_, toOption_eq_some.mpr hprocess, rfl⟩⟩

/-- What the threads rely on, they keep. -/
theorem Sound.serve (hs : s.Sound) {a : ServerStep} (ha : a.Answered) (h : s.serve a = .ok t) :
    t.Sound := by
  have hbears := (serve_iff hs ha).mp ⟨t, h⟩
  cases a with
  | frame env port peer =>
      cases port with
      | up =>
          obtain ⟨m, -, h⟩ := bind_eq_ok.mp h
          cases h
          exact hs
      | down =>
          obtain ⟨m, hrecv, hstep⟩ := serve_frame h
          rcases registrations_message hstep with ⟨-, rfl⟩ | ⟨htype, nick, -, rfl⟩
          · exact hs
          · exact hs.withEntry (hbears.2 m (toOption_eq_some.mpr hrecv) rfl htype).2
  | ping env client =>
      rw [Server.serve] at h
      cases hfind : s.clientNameToIPMap.find client with
      | none => rw [hfind] at h; cases h; exact hs
      | some address =>
          rw [hfind] at h
          rcases Host.pingClient_cases h with rfl | ⟨-, rfl⟩
          · exact hs
          · exact ⟨hs.addresses, fun k hk => by
              rw [StdMap.isSome_find_assign]; exact hs.listed k hk⟩
  | sweep env client =>
      rw [Server.serve, sweepClient] at h
      split_ifs at h
      · obtain ⟨ps, -, h⟩ := bind_eq_ok.mp h
        cases h
        exact hs.removeClient client
      · cases h
        exact hs

end Server

/-- **What stops a server.**  Where the clients' replies can be read, a server stays up, over any streams,
pings and removals, exactly when every stream has its fields or breaks off, and every registration has
something in it that is no `:` and, for a new name, three parts. -/
theorem server_up_iff (name : Bytes) (as : List ServerStep) (has : ∀ a ∈ as, a.Answered) :
    (∃ t, serving.run { name } as = some t) ↔ serving.Meets Server.Bears { name } as := by
  refine Machine.run_iff_meets (P := Server.Sound) (R := fun _ a => a.Answered)
    (fun s a t hs ha h => hs.serve ha (toOption_eq_some.mp h)) (fun s a hs ha => ?_) ?_
    (Machine.meets_of_forall _ as fun a ha _ => has a ha)
  · rw [← Server.serve_iff hs ha]
    simp only [serving, toOption_eq_some]
  · exact ⟨nofun, nofun⟩

/-- A client registers, is pinged and chats to nobody, and another one registers without a port. -/
theorem server_up_iff_two :
    (∃ t, serving.run { name := lit "7" }
        [.frame {} .down (lit "MSG_ADD_CLIENT-1- - - -ann:host:80-MSG_PRIORITY_NORMAL|"),
          .ping {} (lit "1"), .frame {} .down (lit "MSG_SEND_MESSAGE-1-2- -7-ann@hi-x|"),
          .frame {} .up (lit "MSG_ADD")] = some t) ∧
      ¬ ∃ t, serving.run { name := lit "7" }
        [.frame {} .down (lit "MSG_ADD_CLIENT-2- - - -bob:host-MSG_PRIORITY_NORMAL|")] =
          some t := by
  have hanswered : ∀ a : ServerStep, a.env = {} → a.Answered := fun a ha p => by
    rw [ha]
    trivial
  constructor
  · refine (server_up_iff (lit "7") _ fun a ha => hanswered a ?_).mpr (by decide +kernel)
    simp only [List.mem_cons, List.not_mem_nil, or_false] at ha
    rcases ha with rfl | rfl | rfl | rfl <;> rfl
  · intro h
    refine absurd ((server_up_iff (lit "7") _ fun a ha => hanswered a ?_).mp h) (by decide +kernel)
    rw [List.mem_singleton.mp ha]
    rfl

/-! ### The server, section by section -/

/-- The replies that come back while a section lasts can be read. -/
def HostSection.Answered : HostSection → Prop
  | .frame env _ | .announce env | .pingNext env | .notice env _ => ∀ p, (env.exchange p).Answered
  | .addPing _ | .addNickname | .beginPings | .endPings | .eraseName | .erasePing
  | .eraseNickname => True

namespace Host

/-- What a section computes, where that may fail. -/
def attempt (h : Host) : HostSection → Except Fault Unit
  | .frame env peer => do
      let m ← receive peer
      -- a registration is handled by the sections that follow
      if h.calls.server.request m = .add then pure ()
      else do
        let _ ← h.calls.server.processDownMessage env m
        pure ()
  | .addNickname =>
      match h.calls.adding with
      | .nickname msg => do
          let _ ← h.calls.server.addNickname msg
          pure ()
      | .idle | .ping _ => pure ()
  | .announce env =>
      match h.announcing with
      | some msg => do
          let _ ← h.calls.server.updateClientListAdd env msg
          pure ()
      | none => pure ()
  | .pingNext env =>
      match h.pinging with
      | some (e :: _) => do
          let _ ← h.calls.server.pingClient env e.1 e.2
          pure ()
      | some [] | none => pure ()
  | .notice env v => do
      let _ ← h.calls.server.updateClientListRem env v
      pure ()
  | .addPing _ | .beginPings | .endPings | .eraseName | .erasePing | .eraseNickname => pure ()

/-- Nothing the section computes fails. -/
def Intact (h : Host) (a : HostSection) : Prop := ∃ u, h.attempt a = .ok u

instance decidableFound : ∀ (h : Host) (a : HostSection), Decidable (h.Found a)
  | h, .pingNext env =>
      decidable_of_iff (∀ c ∈ (h.answered env).toList, (h.calls.server.clientPingList.find c).isSome)
        (forall_congr' fun _ => imp_congr_left Option.mem_toList)
  | _, .frame _ _ | _, .addPing _ | _, .addNickname | _, .announce _ | _, .beginPings | _, .endPings
  | _, .notice _ _ | _, .eraseName | _, .erasePing | _, .eraseNickname => isTrue trivial

theorem attempt_eq_ok_of_map {α β : Type} {x : Except Fault α} {f : α → β} {b : β}
    (h : x.toOption.map f = some b) :
    ∃ u, (do
      let _ ← x
      pure () : Except Fault Unit) = .ok u := by
  obtain ⟨a, ha, -⟩ := Option.map_eq_some_iff.mp h
  exact ⟨(), by rw [toOption_eq_some.mp ha]; rfl⟩

/-- A section that goes through computed what it attempts. -/
theorem intact_of_step {h t : Host} {a : HostSection} (hs : h.step a = some t) : h.Intact a := by
  cases a with
  | frame env peer =>
      simp only [step] at hs
      split_ifs at hs
      obtain ⟨m, hm, hs⟩ := Option.bind_eq_some_iff.mp hs
      simp only [Intact, attempt, toOption_eq_some.mp hm, ok_bind]
      split_ifs with hreq
      · exact ⟨(), rfl⟩
      · cases hr : h.calls.server.request m with
        | add => exact absurd hr hreq
        | wrongDestination | send | unknown =>
            simp only [handle, hr] at hs
            exact attempt_eq_ok_of_map hs
  | addNickname =>
      obtain ⟨msg, r, hat, hr, -⟩ := step_addNickname hs
      obtain ⟨msg', x, hat', hx, -⟩ := Registry.step_addNickname hr
      obtain rfl : msg = msg' := AddAt.nickname.inj (hat.symm.trans hat')
      simp only [Intact, attempt, hat, Server.addNickname, hx, ok_bind]
      exact ⟨(), rfl⟩
  | announce env =>
      simp only [step] at hs
      split at hs
      · next msg hat _ =>
          simp only [Intact, attempt, hat]
          exact attempt_eq_ok_of_map hs
      · cases hs
  | pingNext env =>
      obtain ⟨e, rest, s, hp, hping, -⟩ := step_pingNext hs
      simp only [Intact, attempt, hp, hping, ok_bind]
      exact ⟨(), rfl⟩
  | notice env v =>
      simp only [step] at hs
      split_ifs at hs
      exact attempt_eq_ok_of_map hs
  | addPing _ | beginPings | endPings | eraseName | erasePing | eraseNickname => exact ⟨(), rfl⟩

/-- A frame that the server bears. -/
def Bears (h : Host) : HostSection → Prop
  | .frame env peer => h.calls.server.Bears (.frame env .down peer)
  | _ => True

instance (h : Host) (a : HostSection) : Decidable (h.Bears a) := by
  unfold Bears; split <;> infer_instance

/-- The registration the process thread is at. -/
def Registers (h : Host) (m : Message) : Prop :=
  h.calls.adding = .ping m ∨ h.calls.adding = .nickname m ∨ h.announcing = some m

/-- What the sections rely on. -/
structure Safe (h : Host) : Prop where
  addresses : h.calls.server.AddressesParse
  visited : ∀ rest, h.pinging = some rest → ∀ e ∈ rest, Reachable e.2
  nickname : ∀ m, h.Registers m → ∃ nick, parseNickname m.data = .ok nick

variable {h t : Host} {a : HostSection}

theorem Safe.reachable (hs : h.Safe) (k a : Bytes)
    (hfind : h.calls.server.clientNameToIPMap.find k = some a) : Reachable a :=
  (hs.addresses k a hfind).1

/-- A frame that is borne is well formed. -/
theorem Bears.wellFormed (hb : h.Bears a) : h.WellFormed a := by
  cases a with
  | frame env peer =>
      intro m hm hreq hnew
      exact (hb.2 m (toOption_eq_some.mpr hm) rfl (Server.type_of_request hreq)).2 hnew
  | _ => trivial

/-- A registration is the one of the frame, or was on its way. -/
theorem registers_step {m : Message} (hs : h.step a = some t) (hm : t.Registers m) :
    h.Registers m ∨ h.beginsWith a = some m := by
  cases a with
  | frame env peer =>
      obtain ⟨msg, hrecv, ⟨hreq, -, -, rfl⟩ | ⟨-, rfl⟩⟩ := step_frame hs
      · have hbegins : h.beginsWith (.frame env peer) = some msg := by
          simp [beginsWith, hrecv, Except.toOption, hreq]
        rcases hm with hat | hat | hat
        · exact .inr (AddAt.ping.inj hat ▸ hbegins)
        · cases hat
        · exact .inl (.inr (.inr hat))
      · exact .inl hm
  | addPing now =>
      obtain ⟨r, hr, rfl⟩ := Option.map_eq_some_iff.mp hs
      obtain ⟨msg, hat', rfl⟩ := Registry.step_addPing hr
      rcases hm with hat | hat | hat
      · cases hat
      · exact .inl (.inl (AddAt.nickname.inj hat ▸ hat'))
      · exact .inl (.inr (.inr hat))
  | addNickname =>
      obtain ⟨msg, r, hat', hr, rfl⟩ := step_addNickname hs
      obtain ⟨msg', x, -, -, rfl⟩ := Registry.step_addNickname hr
      rcases hm with hat | hat | hat
      · cases hat
      · cases hat
      · exact .inl (.inr (.inl (Option.some.inj hat ▸ hat')))
  | announce env =>
      obtain rfl := step_announce hs
      rcases hm with hat | hat | hat
      · exact .inl (.inl hat)
      · exact .inl (.inr (.inl hat))
      · cases hat
  | beginPings =>
      simp only [step] at hs
      split_ifs at hs
      obtain rfl := Option.some.inj hs
      exact .inl hm
  | pingNext env => obtain ⟨_, _, _, -, -, rfl⟩ := step_pingNext hs; exact .inl hm
  | endPings => obtain rfl := step_endPings hs; exact .inl hm
  | notice env v => obtain ⟨-, rfl⟩ := step_notice hs; exact .inl hm
  | eraseName => obtain ⟨_, -, rfl⟩ := step_eraseName hs; exact .inl hm
  | erasePing =>
      obtain ⟨r, hr, rfl⟩ := Option.map_eq_some_iff.mp hs
      obtain ⟨_, -, rfl⟩ := Registry.step_erasePing hr
      exact .inl hm
  | eraseNickname =>
      obtain ⟨r, hr, rfl⟩ := Option.map_eq_some_iff.mp hs
      obtain ⟨_, -, rfl⟩ := Registry.step_eraseNickname hr
      exact .inl hm

/-- An entry before the ping loop was there already, or is one of the address map. -/
theorem pinging_step {rest : List ((_ : Bytes) × Bytes)} {e : (_ : Bytes) × Bytes}
    (hs : h.step a = some t) (hrest : t.pinging = some rest) (he : e ∈ rest) :
    h.calls.server.clientNameToIPMap.find e.1 = some e.2 ∨
      ∃ rest', h.pinging = some rest' ∧ e ∈ rest' := by
  cases a with
  | frame env peer =>
      obtain ⟨msg, -, ⟨-, hping, -, rfl⟩ | ⟨-, rfl⟩⟩ := step_frame hs
      · rw [hping] at hrest; cases hrest
      · exact .inr ⟨rest, hrest, he⟩
  | addPing now =>
      obtain ⟨r, -, rfl⟩ := Option.map_eq_some_iff.mp hs
      exact .inr ⟨rest, hrest, he⟩
  | addNickname => obtain ⟨_, _, -, -, rfl⟩ := step_addNickname hs; exact .inr ⟨rest, hrest, he⟩
  | announce env => obtain rfl := step_announce hs; exact .inr ⟨rest, hrest, he⟩
  | beginPings =>
      simp only [step] at hs
      split_ifs at hs
      obtain rfl := Option.some.inj hs
      exact .inl (StdMap.find_of_mem (Option.some.inj hrest ▸ he))
  | pingNext env =>
      obtain ⟨e', rest', s, hp, -, rfl⟩ := step_pingNext hs
      exact .inr ⟨_, hp, List.mem_cons_of_mem _ (Option.some.inj hrest ▸ he)⟩
  | endPings => obtain rfl := step_endPings hs; cases hrest
  | notice env v => obtain ⟨-, rfl⟩ := step_notice hs; exact .inr ⟨rest, hrest, he⟩
  | eraseName => obtain ⟨_, -, rfl⟩ := step_eraseName hs; exact .inr ⟨rest, hrest, he⟩
  | erasePing | eraseNickname =>
      obtain ⟨r, -, rfl⟩ := Option.map_eq_some_iff.mp hs
      exact .inr ⟨rest, hrest, he⟩

/-- What the sections rely on, they keep. -/
theorem Safe.step (hsafe : h.Safe) (hb : h.Bears a) (hs : h.step a = some t) : t.Safe := by
  refine ⟨(addressesParse_step hsafe.addresses hs).mpr hb.wellFormed, fun rest hrest e he => ?_,
    fun m hm => ?_⟩
  · rcases pinging_step hs hrest he with hfind | ⟨rest', hrest', he'⟩
    · exact hsafe.reachable _ _ hfind
    · exact hsafe.visited rest' hrest' e he'
  · rcases registers_step hs hm with hm | hm
    · exact hsafe.nickname m hm
    · cases a with
      | frame env peer =>
          obtain ⟨hrecv, hreq⟩ := Option.filter_eq_some_iff.mp hm
          obtain ⟨x, hx, hne⟩ := (hb.2 m hrecv rfl (Server.type_of_request (by simpa using hreq))).1
          exact parseNickname_iff.mpr (fields_zero_iff.mpr (.inr ⟨x, hx, hne⟩))
      | _ => cases hm

/-- **One section.**  Nothing it computes fails. -/
theorem Safe.intact (hsafe : h.Safe) (ha : a.Answered) (hb : h.Bears a) (hC : h.Found a) :
    h.Intact a := by
  cases a with
  | frame env peer =>
      have hex : ∀ p, ∃ reply, Message.send (env.exchange p) = .ok reply :=
        fun p => send_iff.mpr (ha p)
      obtain ⟨m, hrecv⟩ := readable_iff.mpr hb.1
      rw [Intact, attempt, hrecv, ok_bind]
      split_ifs with hreq
      · exact ⟨(), rfl⟩
      · obtain ⟨r, hr⟩ := Server.processDownMessage_other hsafe.reachable hex hreq
        rw [hr]
        exact ⟨(), rfl⟩
  | addNickname =>
      rw [Intact, attempt]
      cases hat : h.calls.adding with
      | idle | ping _ => exact ⟨(), rfl⟩
      | nickname msg =>
          obtain ⟨nick, hnick⟩ := hsafe.nickname msg (.inr (.inl hat))
          exact ⟨(), by simp only [Server.addNickname, hnick, ok_bind, pure_eq_ok]⟩
  | announce env =>
      rw [Intact, attempt]
      cases hat : h.announcing with
      | none => exact ⟨(), rfl⟩
      | some msg =>
          obtain ⟨nick, hnick⟩ := hsafe.nickname msg (.inr (.inr hat))
          obtain ⟨ps, hps⟩ := Server.updateClientListAdd_ok (fun p => send_iff.mpr (ha p))
            hsafe.reachable hnick
          exact ⟨(), by simp only [hps, ok_bind, pure_eq_ok]⟩
  | pingNext env =>
      rw [Intact, attempt]
      rcases hat : h.pinging with _ | _ | ⟨e, rest⟩
      · exact ⟨(), rfl⟩
      · exact ⟨(), rfl⟩
      · have hfound : ∀ p pong, h.calls.server.ping e.1 e.2 = .ok p →
            Message.send (env.exchange p) = .ok pong → pong.isErrorMessage = false →
              (h.calls.server.clientPingList.find e.1).isSome := by
          intro p pong hp hpong herror
          refine hC e.1 ?_
          simp [answered, hat, hp, hpong, herror]
        obtain ⟨s, hping⟩ := Server.pingClient_ok (fun p => send_iff.mpr (ha p))
          (hsafe.visited _ hat e (by simp)) hfound
        exact ⟨(), by simp only [hping, ok_bind, pure_eq_ok]⟩
  | notice env v =>
      obtain ⟨ps, hps⟩ := Server.updateClientListRem_ok hsafe.reachable
        (fun p => send_iff.mpr (ha p)) v
      exact ⟨(), by simp only [attempt, hps, ok_bind, pure_eq_ok]⟩
  | addPing _ | beginPings | endPings | eraseName | erasePing | eraseNickname => exact ⟨(), rfl⟩

end Host

/-- What the threads of a client go through. -/
inductive ClientStep where
  /-- A stream on a port, received and handled. -/
  | frame (port : Port) (peer : Bytes)
  /-- `sendMessage` -/
  | say (env : Env) (dest content : Bytes)
  /-- A turn of the loop of `connectToServer`. -/
  | connect (t : Message.Transport)

namespace Client

/-- One step of a client's threads. -/
def live (c : Client) : ClientStep → Except Fault Client
  | .frame port peer => do
      let m ← receive peer
      let (c, _, _) ← c.process m port
      pure c
  | .say env dest content => do
      let _ ← c.sendMessage env dest content
      pure c
  | .connect t => c.connectTurn t

end Client

/-- A client that is up. -/
def living : Machine Client ClientStep where
  step c a := (c.live a).toOption

/-- The reply is a message, and no error. -/
def Message.Transport.Welcomed (t : Message.Transport) : Prop :=
  ∃ reply ∈ (Message.send t).toOption, reply.isErrorMessage = false

instance (t : Message.Transport) : Decidable t.Welcomed :=
  inferInstanceAs (Decidable (∃ reply ∈ (Message.send t).toOption, _))

namespace Client

/-- What a client bears: any stream of seven fields or that breaks off, unless it is a chat message
for the client without two parts; and a message of its own that is answered, by no error. -/
def Bears (c : Client) : ClientStep → Prop
  | .frame port peer => Readable peer ∧ ∀ m ∈ (receive peer).toOption, port = .down →
      m.clientDest = c.name → m.type = .sendMessage → Fields chatSeparator 2 m.data
  | .say env dest content => ∀ p ∈ c.chatPacket dest content, (env.exchange p).Welcomed
  | .connect t => t.Answered

instance (c : Client) (a : ClientStep) : Decidable (c.Bears a) :=
  match a with
  | .frame .. => inferInstanceAs (Decidable (_ ∧ ∀ m ∈ _, _ → _ → _ → _))
  | .say .. => inferInstanceAs (Decidable (∀ p ∈ _, _))
  | .connect t => inferInstanceAs (Decidable t.Answered)

variable {c : Client} {m : Message}

/-- Of the messages for a client only a chat message may stop it; a list of clients is read whatever
it is. -/
theorem processDownMessage_iff : (∃ r, c.processDownMessage m = .ok r) ↔
    (m.clientDest = c.name → m.type = .sendMessage → Fields chatSeparator 2 m.data) := by
  rw [processDownMessage]
  split_ifs with hdest
  · exact iff_of_true ⟨_, rfl⟩ fun h => absurd h hdest
  · cases htype : m.type with
    | sendMessage =>
        rw [← extractNicknameAndData_iff]
        refine (exists_bind_iff fun (p : Bytes × Bytes) => ⟨_, rfl⟩).trans ?_
        simp [not_not.mp hdest]
    | updateAddClients =>
        obtain ⟨ps, hps, -⟩ := decodeUpdate_spec m.data
        refine iff_of_true ?_ fun _ h => by cases h
        simp only [hps, ok_bind]
        exact ⟨_, rfl⟩
    | updateRemClients =>
        refine iff_of_true ?_ fun _ h => by cases h
        dsimp only
        split
        · exact ⟨_, rfl⟩
        · exact ⟨_, rfl⟩
    | none | addClient | remClient | setClientList | pingClient | user | error =>
        exact iff_of_true ⟨_, rfl⟩ fun _ h => by cases h

theorem sendMessage_iff {env : Env} {dest content : Bytes} :
    (∃ r, c.sendMessage env dest content = .ok r) ↔
      ∀ p ∈ c.chatPacket dest content, (env.exchange p).Welcomed := by
  rw [sendMessage]
  cases c.chatPacket dest content with
  | none => simp
  | some p =>
      simp only [Option.mem_def, Option.some.injEq, forall_eq', Message.Transport.Welcomed]
      constructor
      · rintro ⟨r, h⟩
        obtain ⟨reply, hreply, h⟩ := bind_eq_ok.mp h
        split_ifs at h with herror
        exact ⟨reply, toOption_eq_some.mpr hreply, by simpa using herror⟩
      · rintro ⟨reply, hreply, herror⟩
        rw [toOption_eq_some.mp hreply, ok_bind, herror]
        exact ⟨_, rfl⟩

/-- **What a client bears**: exactly this goes through. -/
theorem live_iff {a : ClientStep} : (∃ t, c.live a = .ok t) ↔ c.Bears a := by
  cases a with
  | frame port peer =>
      rw [Bears, ← readable_iff]
      cases hrecv : receive peer with
      | error f => simp [live, hrecv, bind, Except.bind]
      | ok m =>
          have hlive : c.live (.frame port peer) = (do
              let (c, _, _) ← c.process m port
              pure c) := by rw [live, hrecv, ok_bind]
          rw [hlive]
          refine (exists_bind_iff fun (r : Client × List Effect × Ret) => ⟨r.1, rfl⟩).trans ?_
          cases port with
          | up => simp [process, Except.toOption]
          | down => exact processDownMessage_iff.trans (by simp [Except.toOption])
  | say env dest content =>
      exact (exists_bind_iff fun (r : Ret × List Effect) => ⟨c, rfl⟩).trans sendMessage_iff
  | connect t =>
      exact (exists_bind_iff fun (reply : Message) => ⟨_, rfl⟩).trans send_iff

end Client

/-- **What stops a client.**  A client stays up, over any streams, turns of connecting and messages of its
user, exactly when every stream has its fields or breaks off, every chat message for it has two parts,
every reply its connecting gets can be read, and every message it sends is answered by a message that
is no error. -/
theorem client_up_iff (c : Client) (as : List ClientStep) :
    (∃ t, living.run c as = some t) ↔ living.Meets Client.Bears c as := by
  refine Machine.run_iff_meets (P := fun _ => True) (R := fun _ _ => True) (fun _ _ _ _ _ _ => trivial)
    (fun c a _ _ => ?_) trivial (Machine.meets_of_forall c as fun _ _ _ => trivial)
  rw [← Client.live_iff]
  simp only [living, toOption_eq_some]

end Cimabue
