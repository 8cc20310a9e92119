import Cimabue.Threads.Registry
import Cimabue.Wire.Address

/-!
# Threads — Host

The server's process thread and its ping thread, over everything the process thread may receive:
a frame of the down port, handled whole or, when it is a registration, begun; the sections of a
registration and its broadcast; the ping loop, under the mutex of the address map, entry by entry;
and the sections of an eviction.  What the world answers is the section's own (`Env`).

The sweep is any choice of clients that have timed out: which entry its iterator is at after an
erasure is not part of this model.

* `addressesParse_iff`: every stored address parses, all along, exactly when every frame that
  registers a new name carries three parts.
* `pongs_found`: where no answer overtakes the ping section of its client's registration, and no
  removal takes the ping entry of a client that is registered again, the ping loop finds every
  client that answers.
-/

namespace Cimabue

/-- The registry's threads, the broadcasts they have before them, and the ping loop. -/
structure Host where
  calls : Registry
  /-- The registration `updateClientListAdd` has yet to announce. -/
  announcing : Option Message := none
  /-- The client whose eviction is announced and not begun. -/
  evicting : Option Bytes := none
  /-- The entries the ping loop has yet to visit; while there is a loop, it holds the mutex of the
  address map. -/
  pinging : Option (List ((_ : Bytes) × Bytes)) := none

/-- The sections of the two threads. -/
inductive HostSection where
  /-- A frame arrives on the down port. -/
  | frame (env : Env) (peer : Bytes)
  | addPing (now : Int)
  | addNickname
  /-- `updateClientListAdd` -/
  | announce (env : Env)
  | beginPings
  | pingNext (env : Env)
  | endPings
  /-- `updateClientListRem` of a client that has timed out -/
  | notice (env : Env) (v : Bytes)
  | eraseName
  | erasePing
  | eraseNickname

namespace Host

/-- No client, and no call. -/
def init (name : Bytes) : Host := { calls := { server := { name } } }

/-- The process thread takes a message from its queue. -/
def handle (h : Host) (env : Env) (msg : Message) : Option Host :=
  match h.calls.server.request msg with
  | .add =>
      if h.pinging = none then
        (registry.step h.calls (.addName msg)).map fun r => { h with calls := r }
      else none
  | .wrongDestination | .send | .unknown =>
      (h.calls.server.processDownMessage env msg).toOption.map fun r =>
        { h with calls := { h.calls with server := r.1 } }

def step (h : Host) : HostSection → Option Host
  | .frame env peer =>
      -- one frame at a time
      if h.announcing = none ∧ h.calls.adding = .idle then
        (receive peer).toOption.bind (h.handle env)
      else none
  | .addPing now => (registry.step h.calls (.addPing now)).map fun r => { h with calls := r }
  | .addNickname =>
      match h.calls.adding with
      | .nickname msg => (registry.step h.calls .addNickname).map fun r =>
          { h with calls := r, announcing := some msg }
      | _ => none
  | .announce env =>
      -- the loop and the broadcast are under the same mutex
      match h.announcing, h.pinging with
      | some msg, none => (h.calls.server.updateClientListAdd env msg).toOption.map fun _ =>
          { h with announcing := none }
      | _, _ => none
  | .beginPings =>
      if h.pinging = none ∧ h.evicting = none ∧ h.calls.removing = .idle then
        some { h with pinging := some h.calls.server.clientNameToIPMap.entries }
      else none
  | .pingNext env =>
      match h.pinging with
      | some (e :: rest) => (h.calls.server.pingClient env e.1 e.2).toOption.map fun s =>
          { h with calls := { h.calls with server := s }, pinging := some rest }
      | _ => none
  | .endPings =>
      match h.pinging with
      | some [] => some { h with pinging := none }
      | _ => none
  | .notice env v =>
      if h.pinging = none ∧ h.evicting = none ∧ h.calls.removing = .idle ∧
          h.calls.server.timedOut v env.now then
        (h.calls.server.updateClientListRem env v).toOption.map fun _ =>
          { h with evicting := some v }
      else none
  | .eraseName =>
      match h.evicting with
      | none => none
      | some v => (registry.step h.calls (.eraseName v)).map fun r =>
          { h with calls := r, evicting := none }
  | .erasePing => (registry.step h.calls .erasePing).map fun r => { h with calls := r }
  | .eraseNickname => (registry.step h.calls .eraseNickname).map fun r => { h with calls := r }

end Host

/-- The server, section by section. -/
def host : Machine Host HostSection where
  step := Host.step

namespace Host

/-! ### What a section does -/

/-- A request that is no registration leaves the server as it is. -/
theorem processDownMessage_of_ne_add {s : Server} {env : Env} {msg : Message}
    {r : Server × List Effect × Ret} (hreq : s.request msg ≠ .add)
    (h : s.processDownMessage env msg = .ok r) : r.1 = s := by
  rw [Server.processDownMessage] at h
  cases hr : s.request msg with
  | add => exact absurd hr hreq
  | wrongDestination => rw [hr] at h; cases h; rfl
  | send =>
      rw [hr] at h
      obtain ⟨⟨answer, effects⟩, -, h⟩ := bind_eq_ok.mp h
      cases h
      rfl
  | unknown => rw [hr] at h; cases h; rfl

theorem step_frame {h t : Host} {env : Env} {peer : Bytes}
    (hs : h.step (.frame env peer) = some t) :
    ∃ msg, receive peer = .ok msg ∧
      ((h.calls.server.request msg = .add ∧ h.pinging = none ∧ h.calls.adding = .idle ∧
          t = { h with calls := { h.calls with
            server := h.calls.server.addName msg, adding := .ping msg } }) ∨
        (h.calls.server.request msg ≠ .add ∧ t = h)) := by
  simp only [step] at hs
  split_ifs at hs with hidle
  cases hrecv : receive peer with
  | error f => simp [hrecv, Except.toOption] at hs
  | ok msg =>
      simp only [hrecv, Except.toOption, Option.bind_some, handle] at hs
      refine ⟨msg, rfl, ?_⟩
      have hother : ∀ r, h.calls.server.request msg ≠ .add →
          h.calls.server.processDownMessage env msg = .ok r →
          { h with calls := { h.calls with server := r.1 } } = h := fun r hne hr => by
        rw [processDownMessage_of_ne_add hne hr]
      cases hreq : h.calls.server.request msg with
      | add =>
          simp only [hreq] at hs
          split_ifs at hs with hping
          obtain ⟨r, hr, rfl⟩ := Option.map_eq_some_iff.mp hs
          obtain ⟨hadd, rfl⟩ := Registry.step_addName hr
          exact .inl ⟨rfl, hping, hadd, rfl⟩
      | wrongDestination | send | unknown =>
          simp only [hreq] at hs
          obtain ⟨r, hr, rfl⟩ := Option.map_eq_some_iff.mp hs
          cases hdown : h.calls.server.processDownMessage env msg with
          | error f => rw [hdown] at hr; cases hr
          | ok r' =>
              rw [hdown] at hr
              obtain rfl := Option.some.inj hr
              exact .inr ⟨by simp, hother r' (by simp [hreq]) hdown⟩

/-- A turn of the ping loop writes the time of a client that is in the ping list, or nothing. -/
theorem pingClient_cases {s s' : Server} {env : Env} {c address : Bytes}
    (h : s.pingClient env c address = .ok s') :
    s' = s ∨ ((s.clientPingList.find c).isSome ∧
      s' = { s with clientPingList := s.clientPingList.assign c env.now }) := by
  obtain ⟨p, -, h⟩ := bind_eq_ok.mp h
  obtain ⟨pong, -, h⟩ := bind_eq_ok.mp h
  split_ifs at h
  · exact .inl (Except.ok.inj h).symm
  · rw [Server.recordPong] at h
    cases hc : s.clientPingList.find c with
    | none => rw [hc] at h; cases h
    | some last => rw [hc] at h; exact .inr ⟨rfl, (Except.ok.inj h).symm⟩

theorem step_pingNext {h t : Host} {env : Env} (hs : h.step (.pingNext env) = some t) :
    ∃ e rest s, h.pinging = some (e :: rest) ∧ h.calls.server.pingClient env e.1 e.2 = .ok s ∧
      t = { h with calls := { h.calls with server := s }, pinging := some rest } := by
  simp only [step] at hs
  split at hs
  · rename_i e rest hp
    obtain ⟨s, hr, rfl⟩ := Option.map_eq_some_iff.mp hs
    cases hd : h.calls.server.pingClient env e.1 e.2 with
    | error f => rw [hd] at hr; cases hr
    | ok s' => rw [hd] at hr; obtain rfl := Option.some.inj hr; exact ⟨e, rest, s', hp, hd, rfl⟩
  · cases hs

theorem step_addNickname {h t : Host} (hs : h.step .addNickname = some t) :
    ∃ msg r, h.calls.adding = .nickname msg ∧ registry.step h.calls .addNickname = some r ∧
      t = { h with calls := r, announcing := some msg } := by
  cases hat : h.calls.adding with
  | idle | ping _ => simp [step, hat] at hs
  | nickname msg =>
      simp only [step, hat] at hs
      obtain ⟨r, hr, rfl⟩ := Option.map_eq_some_iff.mp hs
      exact ⟨msg, r, rfl, hr, rfl⟩

theorem step_announce {h t : Host} {env : Env} (hs : h.step (.announce env) = some t) :
    t = { h with announcing := none } := by
  simp only [step] at hs
  split at hs
  · obtain ⟨_, -, rfl⟩ := Option.map_eq_some_iff.mp hs
    rfl
  · cases hs

theorem step_endPings {h t : Host} (hs : h.step .endPings = some t) :
    t = { h with pinging := none } := by
  simp only [step] at hs
  split at hs
  · exact (Option.some.inj hs).symm
  · cases hs

theorem step_notice {h t : Host} {env : Env} {v : Bytes} (hs : h.step (.notice env v) = some t) :
    h.pinging = none ∧ t = { h with evicting := some v } := by
  simp only [step] at hs
  split_ifs at hs with hcond
  obtain ⟨_, -, rfl⟩ := Option.map_eq_some_iff.mp hs
  exact ⟨hcond.1, rfl⟩

theorem step_eraseName {h t : Host} (hs : h.step .eraseName = some t) :
    ∃ v, h.evicting = some v ∧ t = { h with
      calls := { h.calls with server := h.calls.server.eraseName v, removing := .ping v }
      evicting := none } := by
  cases hev : h.evicting with
  | none => simp [step, hev] at hs
  | some v =>
      simp only [step, hev] at hs
      obtain ⟨r, hr, rfl⟩ := Option.map_eq_some_iff.mp hs
      obtain ⟨-, rfl⟩ := Registry.step_eraseName hr
      exact ⟨v, rfl, rfl⟩

/-! ### Addresses -/

/-- The registration a section begins. -/
def beginsWith (h : Host) : HostSection → Option Message
  | .frame _ peer => (receive peer).toOption.filter fun msg => h.calls.server.request msg = .add
  | _ => none

/-- **The addresses after a section**: a registration is entered, and else an address that is there was
there before. -/
theorem addresses_step {h t : Host} {a : HostSection} (hs : h.step a = some t) :
    (∃ msg, h.beginsWith a = some msg ∧ t.calls.server.clientNameToIPMap =
        h.calls.server.clientNameToIPMap.insert msg.clientSrc msg.data) ∨
      (h.beginsWith a = none ∧ ∀ k d, t.calls.server.clientNameToIPMap.find k = some d →
        h.calls.server.clientNameToIPMap.find k = some d) := by
  cases a with
  | frame env peer =>
      obtain ⟨msg, hrecv, ⟨hreq, -, -, rfl⟩ | ⟨hreq, rfl⟩⟩ := step_frame hs
      · exact .inl ⟨msg, by simp [beginsWith, hrecv, Except.toOption, hreq], rfl⟩
      · exact .inr ⟨by simp [beginsWith, hrecv, Except.toOption, hreq], fun k d hd => hd⟩
  | addPing now =>
      obtain ⟨r, hr, rfl⟩ := Option.map_eq_some_iff.mp hs
      obtain ⟨msg, -, rfl⟩ := Registry.step_addPing hr
      exact .inr ⟨rfl, fun k d hd => hd⟩
  | addNickname =>
      obtain ⟨msg, r, -, hr, rfl⟩ := step_addNickname hs
      obtain ⟨msg', x, -, -, rfl⟩ := Registry.step_addNickname hr
      exact .inr ⟨rfl, fun k d hd => hd⟩
  | announce env =>
      obtain rfl := step_announce hs
      exact .inr ⟨rfl, fun k d hd => hd⟩
  | beginPings =>
      simp only [step] at hs
      split_ifs at hs
      obtain rfl := Option.some.inj hs
      exact .inr ⟨rfl, fun k d hd => hd⟩
  | pingNext env =>
      obtain ⟨e, rest, s, -, hping, rfl⟩ := step_pingNext hs
      refine .inr ⟨rfl, fun k d hd => ?_⟩
      rcases pingClient_cases hping with rfl | ⟨-, rfl⟩
      · exact hd
      · exact hd
  | endPings =>
      obtain rfl := step_endPings hs
      exact .inr ⟨rfl, fun k d hd => hd⟩
  | notice env v =>
      obtain ⟨-, rfl⟩ := step_notice hs
      exact .inr ⟨rfl, fun k d hd => hd⟩
  | eraseName =>
      obtain ⟨v, -, rfl⟩ := step_eraseName hs
      refine .inr ⟨rfl, fun k d hd => ?_⟩
      simp only [Server.eraseName, StdMap.find_erase] at hd
      split_ifs at hd
      exact hd
  | erasePing =>
      obtain ⟨r, hr, rfl⟩ := Option.map_eq_some_iff.mp hs
      obtain ⟨c, -, rfl⟩ := Registry.step_erasePing hr
      exact .inr ⟨rfl, fun k d hd => hd⟩
  | eraseNickname =>
      obtain ⟨r, hr, rfl⟩ := Option.map_eq_some_iff.mp hs
      obtain ⟨c, -, rfl⟩ := Registry.step_eraseNickname hr
      exact .inr ⟨rfl, fun k d hd => hd⟩

/-- A frame that registers a new name carries three parts. -/
def WellFormed (h : Host) : HostSection → Prop
  | .frame _ peer => ∀ msg, receive peer = .ok msg → h.calls.server.request msg = .add →
      h.calls.server.clientNameToIPMap.find msg.clientSrc = none → ThreeParts msg.data
  | _ => True

theorem wellFormed_iff {h : Host} {a : HostSection} :
    h.WellFormed a ↔ ∀ msg, h.beginsWith a = some msg →
      h.calls.server.clientNameToIPMap.find msg.clientSrc = none → ThreeParts msg.data := by
  cases a with
  | frame env peer =>
      refine forall_congr' fun msg => ?_
      have hbegins : h.beginsWith (.frame env peer) = some msg ↔
          receive peer = .ok msg ∧ h.calls.server.request msg = .add := by
        cases hrecv : receive peer with
        | error f => simp [beginsWith, hrecv, Except.toOption]
        | ok m => simp [beginsWith, hrecv, Except.toOption]
      rw [hbegins, and_imp]
  | _ =>
      refine ⟨fun _ msg hmsg => ?_, fun _ => trivial⟩
      cases hmsg

end Host

/-- Both parsers find an address and a port in every stored text. -/
def Server.AddressesParse (s : Server) : Prop :=
  ∀ k a, s.clientNameToIPMap.find k = some a →
    (∃ ip port, parseAddress a = .ok (some (ip, port))) ∧
      ∃ nickname ip port, parseNicknameAndAddress a = .ok (some (nickname, ip, port))

theorem addressesParse_eq {s : Server} :
    s.AddressesParse ↔ ∀ k a, s.clientNameToIPMap.find k = some a → ThreeParts a := by
  refine forall₃_congr fun k a _ => ?_
  rw [parseNicknameAndAddress_iff, ← threeTokens_iff]
  exact (and_congr_left' reachable_iff).trans (and_self_iff)

/-- **A section keeps the addresses parsing exactly when the frame it takes is well formed.** -/
theorem Host.addressesParse_step {h t : Host} {a : HostSection}
    (hp : h.calls.server.AddressesParse) (hs : h.step a = some t) :
    t.calls.server.AddressesParse ↔ h.WellFormed a := by
  rw [addressesParse_eq] at hp ⊢
  rw [Host.wellFormed_iff]
  rcases addresses_step hs with ⟨msg, hmsg, hnames⟩ | ⟨hnone, hsub⟩
  · rw [hnames]
    refine ⟨fun h' msg' hmsg' hnew => ?_, fun hwf k d hd => ?_⟩
    · obtain rfl := Option.some.inj (hmsg.symm.trans hmsg')
      refine h' msg.clientSrc msg.data ?_
      rw [StdMap.find_insert_self, hnew, Option.getD_none]
    · rw [StdMap.find_insert] at hd
      split_ifs at hd with hk
      · -- a name that is there keeps its text
        cases hold : h.calls.server.clientNameToIPMap.find msg.clientSrc with
        | none => rw [hold] at hd; exact Option.some.inj hd ▸ hwf msg hmsg hold
        | some d' => rw [hold] at hd; exact Option.some.inj hd ▸ hp _ d' hold
      · exact hp k d hd
  · refine ⟨fun _ msg hmsg => ?_, fun _ k d hd => hp k d (hsub k d hd)⟩
    rw [hnone] at hmsg
    cases hmsg

/-- **Where the addresses parse.**  Along a run of the server, over any frames, every stored text
gives an address and a port, all along, exactly when every frame that registers a new name carries
three parts. -/
theorem addressesParse_iff (name : Bytes) (as : List HostSection)
    (hrun : (host.run (Host.init name) as).isSome) :
    host.Always (fun h => h.calls.server.AddressesParse) (Host.init name) as ↔
      host.Meets Host.WellFormed (Host.init name) as := by
  obtain ⟨t, ht⟩ := Option.isSome_iff_exists.mp hrun
  exact Machine.always_iff_meets (I := fun _ => True) (R := fun _ _ => True)
    (fun _ _ _ _ _ _ _ => trivial) (fun h a t _ hp _ hs => Host.addressesParse_step hp hs) trivial
    (fun k a h => by cases h) (Machine.meets_of_forall _ as fun _ _ _ => trivial) ht

/-- A client registers and is pinged. -/
theorem addressesParse_iff_ann :
    host.Always (fun h => h.calls.server.AddressesParse) (Host.init (lit "7"))
        [.frame {} (lit "MSG_ADD_CLIENT-1- - - -ann:host:80-MSG_PRIORITY_NORMAL|"), .addPing 0,
          .addNickname, .announce {}, .beginPings, .pingNext {}, .endPings] ↔
      host.Meets Host.WellFormed (Host.init (lit "7"))
        [.frame {} (lit "MSG_ADD_CLIENT-1- - - -ann:host:80-MSG_PRIORITY_NORMAL|"), .addPing 0,
          .addNickname, .announce {}, .beginPings, .pingNext {}, .endPings] :=
  addressesParse_iff (lit "7") _ (by decide +kernel)

/-- A frame registers a client under a text without `:`. -/
theorem not_addressesParse :
    ¬ ∀ (name : Bytes) (as : List HostSection) (h : Host),
      host.run (Host.init name) as = some h → h.calls.server.AddressesParse := by
  intro h
  have hrun : (host.run (Host.init (lit "7"))
      [.frame {} (lit "MSG_ADD_CLIENT-1- - - -x-MSG_PRIORITY_NORMAL|")]).any
      (fun h => h.calls.server.clientNameToIPMap.find (lit "1") = some (lit "x")) = true := by
    decide +kernel
  obtain ⟨t, ht, hx⟩ := (Option.any_eq_true _ _).mp hrun
  obtain ⟨⟨ip, port, hparse⟩, -⟩ := h _ _ t ht (lit "1") (lit "x") (by simpa using hx)
  have hfault : parseAddress (lit "x") = .error .emptyFront := by decide
  rw [hfault] at hparse
  cases hparse

/-! ### Pongs -/

namespace Host

/-- The client whose answer the next turn of the ping loop is to record. -/
def answered (h : Host) (env : Env) : Option Bytes :=
  match h.pinging with
  | some (e :: _) =>
      match (do
        let p ← h.calls.server.ping e.1 e.2
        Message.send (env.exchange p)) with
      | .ok pong => if pong.isErrorMessage then none else some e.1
      | .error _ => none
  | _ => none

/-- The lookup of a client that answers finds it. -/
def Found (h : Host) : HostSection → Prop
  | .pingNext env => ∀ c ∈ h.answered env, (h.calls.server.clientPingList.find c).isSome
  | _ => True

/-- A registration of `c` stands before the ping list. -/
def Pending (h : Host) (c : Bytes) : Prop :=
  match h.calls.adding with
  | .ping msg => msg.clientSrc = c
  | _ => False

instance (h : Host) (c : Bytes) : Decidable (h.Pending c) := by
  unfold Pending; split <;> infer_instance

/-- An answer is recorded when no registration of its client stands before the ping list, unless
the client is there already; and a ping entry is erased when its client is gone, or such a
registration is on its way. -/
def Settled (h : Host) : HostSection → Prop
  | .pingNext env => ∀ c ∈ h.answered env, h.Pending c →
      (h.calls.server.clientPingList.find c).isSome
  | .erasePing =>
      match h.calls.removing with
      | .ping c => (h.calls.server.clientNameToIPMap.find c).isSome → h.Pending c
      | _ => True
  | _ => True

instance decidableSettled (h : Host) (a : HostSection) : Decidable (h.Settled a) := by
  unfold Settled; split
  · infer_instance
  · split <;> infer_instance
  · infer_instance

/-- What the ping loop relies on: an address is pinged while it is registered, and a registered
client is in the ping list or about to be. -/
structure PingInv (h : Host) : Prop where
  listed : ∀ c, (h.calls.server.clientNameToIPMap.find c).isSome →
    (h.calls.server.clientPingList.find c).isSome ∨ h.Pending c
  visited : ∀ rest, h.pinging = some rest → ∀ e ∈ rest,
    (h.calls.server.clientNameToIPMap.find e.1).isSome
  locked : h.pinging.isSome → h.evicting = none

theorem PingInv.not_pinging {h : Host} (hinv : h.PingInv) {v : Bytes} (hev : h.evicting = some v) :
    h.pinging = none := by
  cases hp : h.pinging with
  | none => rfl
  | some rest =>
      have hlocked := hinv.locked (by rw [hp]; rfl)
      rw [hev] at hlocked
      cases hlocked

section Sections

variable {h t : Host}

/-- A registration lists the name, and is on its way to the ping list. -/
theorem pingInv_frame {env : Env} {peer : Bytes} (hinv : h.PingInv)
    (hs : h.step (.frame env peer) = some t) : t.PingInv := by
  obtain ⟨msg, -, ⟨-, hping, hidle, rfl⟩ | ⟨-, rfl⟩⟩ := step_frame hs
  · refine ⟨fun c hc => ?_, fun rest hrest => ?_, hinv.locked⟩
    · simp only [Server.addName, StdMap.isSome_find_insert, Bool.or_eq_true,
        decide_eq_true_eq] at hc
      rcases hc with rfl | hc
      · exact .inr rfl
      · exact (hinv.listed c hc).imp id fun hp => by simp [Pending, hidle] at hp
    · rw [hping] at hrest; cases hrest
  · exact hinv

/-- It gets there. -/
theorem pingInv_addPing {now : Int} (hinv : h.PingInv) (hs : h.step (.addPing now) = some t) :
    t.PingInv := by
  obtain ⟨r, hr, rfl⟩ := Option.map_eq_some_iff.mp hs
  obtain ⟨msg, hat, rfl⟩ := Registry.step_addPing hr
  refine ⟨fun c hc => .inl ?_, hinv.visited, hinv.locked⟩
  simp only [Server.addPing, StdMap.isSome_find_insert, Bool.or_eq_true, decide_eq_true_eq]
  rcases hinv.listed c hc with hp | hp
  · exact .inr hp
  · simp only [Pending, hat] at hp
    exact .inl hp.symm

/-- A turn of the ping loop erases nothing. -/
theorem pingInv_pingNext {env : Env} (hinv : h.PingInv) (hs : h.step (.pingNext env) = some t) :
    t.PingInv := by
  obtain ⟨e, rest, s, hp, hping, rfl⟩ := step_pingNext hs
  have hvisited : ∀ e' ∈ rest, (h.calls.server.clientNameToIPMap.find e'.1).isSome :=
    fun e' he' => hinv.visited _ hp e' (List.mem_cons_of_mem _ he')
  have hlocked : h.evicting = none := hinv.locked (by rw [hp]; rfl)
  rcases pingClient_cases hping with rfl | ⟨-, rfl⟩
  · exact ⟨hinv.listed, fun rest' hrest' => Option.some.inj hrest' ▸ hvisited, fun _ => hlocked⟩
  · refine ⟨fun c hc => ?_, fun rest' hrest' => Option.some.inj hrest' ▸ hvisited,
      fun _ => hlocked⟩
    simp only [StdMap.isSome_find_assign]
    exact hinv.listed c hc

/-- An address is erased while no loop runs. -/
theorem pingInv_eraseName (hinv : h.PingInv) (hs : h.step .eraseName = some t) : t.PingInv := by
  obtain ⟨v, hev, rfl⟩ := step_eraseName hs
  refine ⟨fun c hc => hinv.listed c ?_, fun rest hrest => ?_, fun _ => rfl⟩
  · by_cases hcv : c = v
    · simp [Server.eraseName, hcv] at hc
    · simpa [Server.eraseName, StdMap.find_erase_of_ne _ hcv] using hc
  · rw [hinv.not_pinging hev] at hrest; cases hrest

/-- A ping entry is erased when its client is gone, or on its way to the list. -/
theorem pingInv_erasePing (hinv : h.PingInv) (hC : h.Settled .erasePing)
    (hs : h.step .erasePing = some t) : t.PingInv := by
  obtain ⟨r, hr, rfl⟩ := Option.map_eq_some_iff.mp hs
  obtain ⟨c', hat, rfl⟩ := Registry.step_erasePing hr
  refine ⟨fun c hc => ?_, hinv.visited, hinv.locked⟩
  by_cases hcc : c = c'
  · subst hcc
    simp only [Settled, hat] at hC
    exact .inr (hC hc)
  · simp only [Server.erasePing, StdMap.find_erase_of_ne _ hcc]
    exact hinv.listed c hc

theorem pingInv_step {a : HostSection} (hinv : h.PingInv) (hC : h.Settled a)
    (hs : h.step a = some t) : t.PingInv := by
  cases a with
  | frame env peer => exact pingInv_frame hinv hs
  | addPing now => exact pingInv_addPing hinv hs
  | addNickname =>
      obtain ⟨msg, r, hat, hr, rfl⟩ := step_addNickname hs
      obtain ⟨msg', x, -, -, rfl⟩ := Registry.step_addNickname hr
      refine ⟨fun c hc => (hinv.listed c hc).imp id fun hp => ?_, hinv.visited, hinv.locked⟩
      simp [Pending, hat] at hp
  | announce env =>
      obtain rfl := step_announce hs
      exact ⟨hinv.listed, hinv.visited, hinv.locked⟩
  | beginPings =>
      simp only [step] at hs
      split_ifs at hs with hcond
      obtain rfl := Option.some.inj hs
      refine ⟨hinv.listed, fun rest hrest e he => ?_, fun _ => hcond.2.1⟩
      obtain rfl := Option.some.inj hrest
      rw [StdMap.find_of_mem he]; rfl
  | pingNext env => exact pingInv_pingNext hinv hs
  | endPings =>
      obtain rfl := step_endPings hs
      refine ⟨hinv.listed, fun rest hrest => ?_, fun hsome => ?_⟩
      · cases hrest
      · cases hsome
  | notice env v =>
      obtain ⟨hping, rfl⟩ := step_notice hs
      refine ⟨hinv.listed, hinv.visited, fun hsome => ?_⟩
      rw [hping] at hsome; cases hsome
  | eraseName => exact pingInv_eraseName hinv hs
  | erasePing => exact pingInv_erasePing hinv hC hs
  | eraseNickname =>
      obtain ⟨r, hr, rfl⟩ := Option.map_eq_some_iff.mp hs
      obtain ⟨c, -, rfl⟩ := Registry.step_eraseNickname hr
      exact ⟨hinv.listed, hinv.visited, hinv.locked⟩

end Sections

theorem PingInv.found {h : Host} (hinv : h.PingInv) {a : HostSection} (hC : h.Settled a) :
    h.Found a := by
  cases a with
  | pingNext env =>
      intro c hc
      have hreg : (h.calls.server.clientNameToIPMap.find c).isSome := by
        rw [answered] at hc
        cases hp : h.pinging with
        | none => rw [hp] at hc; cases hc
        | some rest =>
            cases rest with
            | nil => rw [hp] at hc; cases hc
            | cons e rest =>
                rw [hp] at hc
                simp only at hc
                split at hc
                · split_ifs at hc
                  · cases hc
                  · obtain rfl := Option.some.inj hc
                    exact hinv.visited _ hp e (by simp)
                · cases hc
      exact (hinv.listed c hreg).elim id (hC c hc)
  | _ => trivial

end Host

/-- **Pongs are found.**  In a run whose sections are `Settled`, the ping loop finds in the ping
list every client that answers. -/
theorem pongs_found (name : Bytes) (as : List HostSection)
    (h : host.Meets Host.Settled (Host.init name) as) :
    host.Meets Host.Found (Host.init name) as := by
  have hinit : (Host.init name).PingInv := by
    refine ⟨fun c hc => ?_, fun rest hrest => ?_, fun hsome => ?_⟩
    · cases hc
    · cases hrest
    · cases hsome
  exact Machine.meets_of_step (fun _ _ _ hinv hC hs => Host.pingInv_step hinv hC hs)
    (fun _ _ hinv hC => hinv.found hC) hinit h

/-- A client registers, and answers a ping after its registration has passed the ping list. -/
theorem pongs_found_ann :
    host.Meets Host.Found (Host.init (lit "7"))
      [.frame {} (lit "MSG_ADD_CLIENT-1- - - -ann:host:80-MSG_PRIORITY_NORMAL|"), .beginPings,
        .addPing 0, .pingNext { exchange := fun _ => .exchanged ({} : Message).serialize },
        .endPings] :=
  pongs_found (lit "7") _ (by decide +kernel)

/-- A client is pinged, and answers, between the first two sections of its registration. -/
theorem not_pongs_found :
    ¬ ∀ (name : Bytes) (as : List HostSection), host.Meets Host.Found (Host.init name) as := by
  intro h
  have hmeets := h (lit "7")
    [.frame {} (lit "MSG_ADD_CLIENT-1- - - -ann:host:80-MSG_PRIORITY_NORMAL|"), .beginPings,
      .pingNext { exchange := fun _ => .exchanged ({} : Message).serialize }]
  have hrun : (host.run (Host.init (lit "7"))
      [.frame {} (lit "MSG_ADD_CLIENT-1- - - -ann:host:80-MSG_PRIORITY_NORMAL|"), .beginPings]).any
      (fun h => h.answered { exchange := fun _ => .exchanged ({} : Message).serialize } =
          some (lit "1") && h.calls.server.clientPingList.find (lit "1") = none) = true := by
    decide +kernel
  obtain ⟨t, ht, hcheck⟩ := (Option.any_eq_true _ _).mp hrun
  simp only [Bool.and_eq_true, decide_eq_true_eq] at hcheck
  obtain ⟨u, hu, hrest⟩ := Option.bind_eq_some_iff.mp ht
  obtain ⟨v, hv, hvt⟩ := Option.bind_eq_some_iff.mp hrest
  obtain rfl : v = t := Option.some.inj hvt
  have hfound := ((hmeets.2 u hu).2 v hv).1 (lit "1") hcheck.1
  rw [hcheck.2] at hfound
  cases hfound

end Cimabue
