import Cimabue.Support.Machine
import Cimabue.System.Broadcast

/-!
# System — Serial

The server and its clients when the server's actions follow one another: a registration
(`processDownMessage` of an `MSG_ADD_CLIENT`, as it has been received) or an eviction
(`updateClientListRem`, then `removeClient`), every update on its way to the clients before the next
action.

* `serve_of_delivered`: a registration that is decoded as it was sent is that of its stream.
* `step_register`, `step_evict`: an action goes through, whatever the nickname, and what it leaves
  (`Registers`, `Evicts`).
* `inv_step`: what holds all along (`World.Inv`) as long as nicknames are stored as they are: a
  directory resolves a nickname only to a registered client that has it.
* `resolves_step_iff`: an action keeps every nickname resolved exactly when it `Spares` them.
* `directory_agreement`: with nicknames that differ, the directory of a registered client is the
  list of the registered clients, who are those that have registered and have not been evicted.
* `resolves_iff`: with any nicknames, all of them resolve, all along, exactly when every action
  spares them: a registration brings one that is not empty and has no `:`, and no eviction takes the
  entry of a nickname that another client still has.
-/

namespace Cimabue

/-- The server, and the clients by name. -/
structure World where
  server : Server
  clients : Clients

/-- A complete action of the server. -/
inductive Action where
  /-- The client `c` registers from `ip` and `port`, at the time `now`. -/
  | register (c : Client) (ip port : Bytes) (now : Int)
  /-- The client named `v` is evicted. -/
  | evict (v : Bytes)

/-- The packets among the effects of a handler. -/
def sentPackets : List Effect → List Packet
  | [] => []
  | .send p :: effects => p :: sentPackets effects
  | _ :: effects => sentPackets effects

namespace World

/-- No client, registered or not. -/
def init (name : Bytes) : World := { server := { name }, clients := fun _ => none }

/-- The clients when an action begins. -/
def present (w : World) : Action → Clients
  | .register c _ _ _ => w.clients.set c.name c
  | .evict _ => w.clients

/-- The server's part of an action: the server afterwards, and the updates it sent. -/
def serve (w : World) : Action → Except Fault (Server × List Packet)
  | .register c ip port now => do
      let msg := c.connectMessage (registration c.nickname ip port)
      let env : Env := { now, exchange := (w.clients.set c.name c).exchange }
      let (s, effects, _) ← w.server.processDownMessage env msg
      pure (s, sentPackets effects)
  | .evict v => do
      let ps ← w.server.updateClientListRem { exchange := w.clients.exchange } v
      pure (w.server.removeClient v, ps)

/-- An action: the server's part, and its updates handled by their addressees. -/
def step (w : World) (a : Action) : Except Fault World := do
  let (server, ps) ← w.serve a
  let clients ← (w.present a).deliverAll (ps.map (·.msg))
  pure { server, clients }

/-- Every update of the action is decoded as it was sent. -/
def UpdatesDelivered (w : World) (a : Action) : Prop :=
  ∀ s ps, w.serve a = .ok (s, ps) → ∀ p ∈ ps, Delivered p.msg

/-- The client `v` is registered. -/
def Registered (w : World) (v : Bytes) : Prop := (w.server.clientNameToIPMap.find v).isSome

instance (w : World) (v : Bytes) : Decidable (w.Registered v) :=
  inferInstanceAs (Decidable (_ = true))

/-- The client `v` is registered, and its nickname is `x`. -/
def Holds (w : World) (v x : Bytes) : Prop :=
  w.Registered v ∧ (w.clients v).map (·.nickname) = some x

instance (w : World) (v x : Bytes) : Decidable (w.Holds v x) :=
  inferInstanceAs (Decidable (_ ∧ _))

/-- A registration comes from a client that is not registered and knows nobody, and its name, address
and port are not empty and have no `:`. -/
def Arriving (w : World) : Action → Prop
  | .register c ip port _ => ¬ w.Registered c.name ∧ c.clientNickToNameMap = .empty ∧
      Part c.name ∧ Part ip ∧ Part port
  | .evict _ => True

instance decidableArriving : ∀ (w : World) (a : Action), Decidable (w.Arriving a)
  | w, .register c _ _ _ => inferInstanceAs (Decidable (¬ w.Registered c.name ∧ _ ∧ _))
  | _, .evict _ => isTrue trivial

instance decidableUpdatesDelivered (w : World) (a : Action) : Decidable (w.UpdatesDelivered a) :=
  match h : w.serve a with
  | .error _ => isTrue (by simp [UpdatesDelivered, h])
  | .ok (_, ps) => decidable_of_iff (∀ p ∈ ps, Delivered p.msg) (by simp [UpdatesDelivered, h])

/-! ### What an action does -/

/-- What the server's actions go through on: addresses that parse, and the registered clients there
under their names. -/
structure Live (w : World) : Prop where
  reachable : ∀ k a, w.server.clientNameToIPMap.find k = some a → Reachable a
  client : ∀ k, w.Registered k → ∃ c, w.clients k = some c ∧ c.name = k

/-- The registry after the registration of `c`, with `nick` for its nickname. -/
def enrolled (w : World) (c : Client) (nick ip port : Bytes) (now : Int) : Server :=
  { w.server with
    clientNameToIPMap :=
      w.server.clientNameToIPMap.insert c.name (registration c.nickname ip port)
    clientPingList := w.server.clientPingList.insert c.name now
    clientNicknameToName := w.server.clientNicknameToName.insert c.name nick }

/-- `w'` is `w` after a registration: the three maps have their entry, and every registered client has
learned what its update told it. -/
structure Registers (w : World) (c : Client) (nick ip port : Bytes) (now : Int)
    (told : Bytes → List (Bytes × Bytes)) (w' : World) : Prop where
  server : w'.server = w.enrolled c nick ip port now
  newcomer : w'.clients c.name = some (c.learn (told c.name))
  others : ∀ k, k ≠ c.name → w'.clients k =
    if w.Registered k then (w.clients k).map (·.learn (told k)) else w.clients k

/-- `w'` is `w` after an eviction: the three maps have lost their entry, and the others have dropped
the client. -/
structure Evicts (w : World) (v : Bytes) (w' : World) : Prop where
  server : w'.server = w.server.removeClient v
  clients : ∀ k, w'.clients k =
    if w.Registered k ∧ k ≠ v then (w.clients k).map (·.forget v) else w.clients k

theorem sentPackets_map_send (ps : List Packet) : sentPackets (ps.map .send) = ps := by
  induction ps with
  | nil => rfl
  | cons p ps ih => simp [sentPackets, ih]

theorem executeAddClient_ok {w : World} {c : Client} {nick ip port : Bytes} (env : Env)
    (hnick : parseNickname (registration c.nickname ip port) = .ok nick) :
    ∃ answer, w.server.executeAddClient env
        (c.connectMessage (registration c.nickname ip port)) =
      .ok (w.enrolled c nick ip port env.now, answer) := by
  refine ⟨(w.enrolled c nick ip port env.now).addReply
    (c.connectMessage (registration c.nickname ip port)), ?_⟩
  simp only [Server.executeAddClient, Server.addNickname, Client.connectMessage, hnick, ok_bind,
    pure_eq_ok]
  rfl

theorem registered_enrolled {w : World} {c : Client} {nick ip port k : Bytes} {now : Int} :
    ((w.enrolled c nick ip port now).clientNameToIPMap.find k).isSome ↔
      k = c.name ∨ w.Registered k := by
  simp [enrolled, StdMap.isSome_find_insert, Registered]

/-- A client that is not registered gets its address. -/
theorem address_enrolled {w : World} {c : Client} (hfresh : ¬ w.Registered c.name)
    (nick ip port : Bytes) (now : Int) (k : Bytes) :
    (w.enrolled c nick ip port now).clientNameToIPMap.find k =
      if k = c.name then some (registration c.nickname ip port)
      else w.server.clientNameToIPMap.find k := by
  have hname : w.server.clientNameToIPMap.find c.name = none := by
    simpa [Registered] using hfresh
  simp [enrolled, StdMap.find_insert, hname]

/-- **A registration** goes through, whatever the nickname. -/
theorem step_register {w : World} {c : Client} {nick ip port : Bytes} {now : Int}
    {told : Bytes → List (Bytes × Bytes)} (hlive : w.Live)
    (harr : w.Arriving (.register c ip port now))
    (hdel : w.UpdatesDelivered (.register c ip port now))
    (hnick : parseNickname (registration c.nickname ip port) = .ok nick)
    (htold : ∀ k, Delivered ((w.enrolled c nick ip port now).addUpdate nick c.name k) →
      decodeUpdate ((w.enrolled c nick ip port now).addUpdate nick c.name k).data = .ok (told k)) :
    ∃ w', w.step (.register c ip port now) = .ok w' ∧ w.Registers c nick ip port now told w' := by
  obtain ⟨hfresh, -, -, hip, hport⟩ := harr
  have hne : ∀ {k}, w.Registered k → k ≠ c.name := fun hk e => hfresh (e ▸ hk)
  have haddr : ∀ k a, (w.enrolled c nick ip port now).clientNameToIPMap.find k = some a →
      Reachable a := by
    intro k a ha
    rw [address_enrolled hfresh] at ha
    split_ifs at ha with hk
    · exact Option.some.inj ha ▸ reachable_registration c.nickname hip hport
    · exact hlive.reachable k a ha
  have hcs : ∀ k, ((w.enrolled c nick ip port now).clientNameToIPMap.find k).isSome →
      ∃ c₀, w.clients.set c.name c k = some c₀ ∧ c₀.name = k := by
    intro k hk
    rcases registered_enrolled.mp hk with rfl | hk
    · exact ⟨c, Clients.set_self _ _ _, rfl⟩
    · rw [Clients.set_of_ne _ _ (hne hk)]
      exact hlive.client k hk
  obtain ⟨ps, hps, hdone⟩ := Server.broadcastAdd_ok (w.enrolled c nick ip port now)
    (w.clients.set c.name c) { now, exchange := (w.clients.set c.name c).exchange }
    (c.connectMessage (registration c.nickname ip port)) (fun p => Clients.send_exchange _ p) haddr
    hcs hnick htold
  have hserve : w.serve (.register c ip port now) = .ok (w.enrolled c nick ip port now, ps) := by
    obtain ⟨answer, hadd⟩ := executeAddClient_ok (w := w)
      { now, exchange := (w.clients.set c.name c).exchange } hnick
    have hreq : w.server.request (c.connectMessage (registration c.nickname ip port)) = .add := rfl
    simp only [serve, Server.processDownMessage, hreq, hadd, hps, ok_bind, pure_eq_ok,
      List.cons_append, List.nil_append, sentPackets, sentPackets_map_send]
  obtain ⟨cs', hall, hcs'⟩ := hdone (hdel _ _ hserve)
  refine ⟨{ server := w.enrolled c nick ip port now, clients := cs' }, ?_, rfl, ?_, fun k hk => ?_⟩
  · simp only [step, hserve, ok_bind, present, hall, pure_eq_ok]
  · simp only [hcs', registered_enrolled, true_or, if_true, Clients.set_self, Option.map_some]
  · simp only [hcs', registered_enrolled, hk, false_or, Clients.set_of_ne _ _ hk]

/-- **An eviction** goes through. -/
theorem step_evict {w : World} {v : Bytes} (hlive : w.Live) (hdel : w.UpdatesDelivered (.evict v)) :
    ∃ w', w.step (.evict v) = .ok w' ∧ w.Evicts v w' := by
  obtain ⟨ps, hps, hdone⟩ := Server.broadcastRem_ok w.server w.clients
    { exchange := w.clients.exchange } v (fun p => Clients.send_exchange _ p) hlive.reachable
    hlive.client
  have hserve : w.serve (.evict v) = .ok (w.server.removeClient v, ps) := by
    simp only [serve, hps, ok_bind, pure_eq_ok]
  obtain ⟨cs', hall, hcs'⟩ := hdone (hdel _ _ hserve)
  refine ⟨{ server := w.server.removeClient v, clients := cs' }, ?_, rfl, hcs'⟩
  simp only [step, hserve, ok_bind, present, hall, pure_eq_ok]

theorem find_removeClient (s : Server) (v k : Bytes) :
    (s.removeClient v).clientNameToIPMap.find k =
        (if k = v then none else s.clientNameToIPMap.find k) ∧
      (s.removeClient v).clientNicknameToName.find k =
        if k = v then none else s.clientNicknameToName.find k := by
  simp [Server.removeClient, Server.eraseName, Server.erasePing, Server.eraseNickname,
    StdMap.find_erase]

section Afterwards

variable {w w' : World} {c : Client} {nick ip port v : Bytes} {now : Int}
  {told : Bytes → List (Bytes × Bytes)}

theorem Registers.registered_iff (h : w.Registers c nick ip port now told w') {k : Bytes} :
    w'.Registered k ↔ k = c.name ∨ w.Registered k := by
  rw [Registered, h.server]
  exact registered_enrolled

theorem Registers.other (h : w.Registers c nick ip port now told w') {k : Bytes} {c₀ : Client}
    (hk : k ≠ c.name) (hr : w.Registered k) (hc₀ : w.clients k = some c₀) :
    w'.clients k = some (c₀.learn (told k)) := by
  rw [h.others k hk, if_pos hr, hc₀, Option.map_some]

theorem Registers.live (h : w.Registers c nick ip port now told w') (hlive : w.Live)
    (harr : w.Arriving (.register c ip port now)) : w'.Live := by
  obtain ⟨hfresh, -, -, hip, hport⟩ := harr
  refine ⟨fun k a ha => ?_, fun k hk => ?_⟩
  · rw [h.server, address_enrolled hfresh] at ha
    split_ifs at ha with hk
    · exact Option.some.inj ha ▸ reachable_registration c.nickname hip hport
    · exact hlive.reachable k a ha
  · rcases h.registered_iff.mp hk with rfl | hk
    · exact ⟨_, h.newcomer, rfl⟩
    · obtain ⟨c₀, hc₀, hname⟩ := hlive.client k hk
      exact ⟨_, h.other (fun e => hfresh (e ▸ hk)) hk hc₀, hname⟩

theorem Evicts.registered_iff (h : w.Evicts v w') {k : Bytes} :
    w'.Registered k ↔ w.Registered k ∧ k ≠ v := by
  rw [Registered, h.server, (find_removeClient w.server v k).1]
  by_cases hk : k = v <;> simp [hk, Registered]

theorem Evicts.other (h : w.Evicts v w') {k : Bytes} {c₀ : Client} (hk : w.Registered k ∧ k ≠ v)
    (hc₀ : w.clients k = some c₀) : w'.clients k = some (c₀.forget v) := by
  rw [h.clients, if_pos hk, hc₀, Option.map_some]

theorem Evicts.live (h : w.Evicts v w') (hlive : w.Live) : w'.Live := by
  refine ⟨fun k a ha => ?_, fun k hk => ?_⟩
  · rw [h.server, (find_removeClient w.server v k).1] at ha
    split_ifs at ha
    exact hlive.reachable k a ha
  · have hk' := h.registered_iff.mp hk
    obtain ⟨c₀, hc₀, hname⟩ := hlive.client k hk'.1
    exact ⟨_, h.other hk' hc₀, by rw [Client.name_forget, hname]⟩

end Afterwards

/-- **Every action goes through**, and the next one will. -/
theorem live_step {w : World} {a : Action} (hlive : w.Live) (harr : w.Arriving a)
    (hdel : w.UpdatesDelivered a) : ∃ w', w.step a = .ok w' ∧ w'.Live := by
  cases a with
  | register c ip port now =>
      have ⟨_, _, _, hip, hport⟩ := harr
      obtain ⟨nick, hnick⟩ := parseNickname_registration c.nickname hip hport
      choose told htold _ _ using fun k =>
        decodeUpdate_spec ((w.enrolled c nick ip port now).addUpdate nick c.name k).data
      obtain ⟨w', hstep, hreg⟩ := step_register hlive harr hdel hnick fun k _ => htold k
      exact ⟨w', hstep, hreg.live hlive harr⟩
  | evict v =>
      obtain ⟨w', hstep, hev⟩ := step_evict hlive hdel
      exact ⟨w', hstep, hev.live hlive⟩

/-- A registration that is decoded as it was sent. -/
theorem serve_of_delivered {w : World} {c : Client} {ip port : Bytes} {now : Int}
    (hd : Delivered (c.connectMessage (registration c.nickname ip port))) :
    (do
      let msg ← receive (c.connectMessage (registration c.nickname ip port)).serialize
      let (s, effects, _) ← w.server.processDownMessage
        { now, exchange := (w.clients.set c.name c).exchange } msg
      pure (s, sentPackets effects)) = w.serve (.register c ip port now) := by
  rw [receive_of_delivered hd, ok_bind]
  rfl

/-! ### Plain nicknames -/

/-- What holds between the actions as long as the nicknames are stored as they are: the registry has
the nicknames of the registered clients, and a directory names a registered client that has the
nickname. -/
structure Inv (w : World) : Prop extends Live w where
  carried : ∀ k c, w.Registered k → w.clients k = some c →
    w.server.clientNicknameToName.find k = some c.nickname
  registered : ∀ k x, w.server.clientNicknameToName.find k = some x → w.Registered k
  parts : ∀ k x, w.server.clientNicknameToName.find k = some x → Part x ∧ Part k
  sound : ∀ k c, w.Registered k → w.clients k = some c → ∀ x v,
    c.clientNickToNameMap.find x = some v → w.server.clientNicknameToName.find v = some x

theorem inv_init (name : Bytes) : (init name).Inv where
  reachable _ _ h := by cases h
  client _ h := by cases h
  carried _ _ h := by cases h
  registered _ _ h := by cases h
  parts _ _ h := by cases h
  sound _ _ h := by cases h

/-- The nicknames the server has are those of the registered clients. -/
theorem Inv.holds_iff {w : World} (h : w.Inv) {v x : Bytes} :
    w.Holds v x ↔ w.server.clientNicknameToName.find v = some x := by
  constructor
  · rintro ⟨hv, hx⟩
    obtain ⟨c, hc, -⟩ := h.client v hv
    rw [hc, Option.map_some] at hx
    exact (h.carried v c hv hc).trans hx
  · intro hx
    have hv := h.registered v x hx
    obtain ⟨c, hc, -⟩ := h.client v hv
    exact ⟨hv, by rw [hc, Option.map_some, ← h.carried v c hv hc, hx]⟩

/-- A client that is not registered gets its nickname. -/
theorem nickname_enrolled {w : World} (hinv : w.Inv) {c : Client} (hfresh : ¬ w.Registered c.name)
    (nick ip port : Bytes) (now : Int) (k : Bytes) :
    (w.enrolled c nick ip port now).clientNicknameToName.find k =
      if k = c.name then some nick else w.server.clientNicknameToName.find k := by
  have hnick : w.server.clientNicknameToName.find c.name = none :=
    Option.eq_none_iff_forall_ne_some.mpr fun x hx => hfresh (hinv.registered _ x hx)
  simp [enrolled, StdMap.find_insert, hnick]

/-- The lookup of a nickname in the full list. -/
theorem find_learn_nickPairs {c : Client} {nicks : StdMap Bytes Bytes}
    (hempty : c.clientNickToNameMap = .empty) {x v : Bytes}
    (h : (c.learn (nickPairs nicks)).clientNickToNameMap.find x = some v) :
    nicks.find v = some x := by
  rw [Client.find_learn, hempty, StdMap.find_empty, Option.none_or] at h
  obtain ⟨⟨x', v'⟩, hp, rfl⟩ := Option.map_eq_some_iff.mp h
  obtain rfl : x' = x := by simpa using List.find?_some hp
  exact mem_nickPairs.mp (List.mem_of_find?_eq_some hp)

/-- A directory that learns of one client. -/
theorem find_learn_one {c : Client} {x y v : Bytes} :
    (c.learn [(y, v)]).clientNickToNameMap.find x =
      (c.clientNickToNameMap.find x).or (if y = x then some v else none) := by
  rw [Client.find_learn]
  by_cases h : y = x <;> simp [h]

/-- `w'` is `w` after the registration of `c` under its nickname: the others have learned of `c`, and
`c` of everybody. -/
abbrev Enrolls (w : World) (c : Client) (ip port : Bytes) (now : Int) (w' : World) : Prop :=
  w.Registers c c.nickname ip port now
    ((w.enrolled c c.nickname ip port now).announced c.nickname c.name) w'

/-- The names of the registry stay without `:` when a plain nickname comes. -/
theorem unsplit_enrolled {w : World} {c : Client} (hinv : w.Inv) (hfresh : ¬ w.Registered c.name)
    (hplain : Part c.nickname) (hname : Part c.name) (ip port : Bytes) (now : Int) :
    ∀ p ∈ nickPairs (w.enrolled c c.nickname ip port now).clientNicknameToName, Unsplit p := by
  rintro ⟨x, v⟩ hp
  have hx := mem_nickPairs.mp hp
  rw [nickname_enrolled hinv hfresh] at hx
  split_ifs at hx with hv
  · obtain rfl := Option.some.inj hx
    exact ⟨hplain.2, hv ▸ hname.2⟩
  · exact ⟨(hinv.parts v x hx).1.2, (hinv.parts v x hx).2.2⟩

/-- A registration with a plain nickname. -/
theorem step_enroll {w : World} {c : Client} {ip port : Bytes} {now : Int} (hinv : w.Inv)
    (harr : w.Arriving (.register c ip port now)) (hplain : Part c.nickname)
    (hdel : w.UpdatesDelivered (.register c ip port now)) :
    ∃ w', w.step (.register c ip port now) = .ok w' ∧ w.Enrolls c ip port now w' := by
  have ⟨hfresh, _, hname, hip, hport⟩ := harr
  have hnicks := unsplit_enrolled hinv hfresh hplain hname ip port now
  exact step_register hinv.toLive harr hdel (parse_registration hplain hip hport).1
    fun k hd => Server.decodeUpdate_addUpdate ⟨hplain.2, hname.2⟩ hnicks hd

theorem inv_enroll {w w' : World} {c : Client} {ip port : Bytes} {now : Int} (hinv : w.Inv)
    (harr : w.Arriving (.register c ip port now)) (hplain : Part c.nickname)
    (h : w.Enrolls c ip port now w') : w'.Inv := by
  have hlive := h.live hinv.toLive harr
  obtain ⟨hfresh, hempty, hname, -, -⟩ := harr
  have hnick := nickname_enrolled hinv hfresh c.nickname ip port now
  refine ⟨hlive, fun k c₁ hk hc₁ => ?carried, fun k x hx => ?registered, fun k x hx => ?parts,
    fun k c₁ hk hc₁ x v hx => ?sound⟩
  case carried =>
    rw [h.server, hnick]
    by_cases hkc : k = c.name
    · subst hkc
      obtain rfl := Option.some.inj (h.newcomer.symm.trans hc₁)
      exact if_pos rfl
    · have hk' := (h.registered_iff.mp hk).resolve_left hkc
      obtain ⟨c₀, hc₀, -⟩ := hinv.client k hk'
      obtain rfl := Option.some.inj ((h.other hkc hk' hc₀).symm.trans hc₁)
      rw [if_neg hkc]
      exact hinv.carried k c₀ hk' hc₀
  case registered =>
    rw [h.server, hnick] at hx
    split_ifs at hx with hk
    · exact h.registered_iff.mpr (.inl hk)
    · exact h.registered_iff.mpr (.inr (hinv.registered k x hx))
  case parts =>
    rw [h.server, hnick] at hx
    split_ifs at hx with hk
    · exact ⟨Option.some.inj hx ▸ hplain, hk ▸ hname⟩
    · exact hinv.parts k x hx
  case sound =>
    by_cases hkc : k = c.name
    · subst hkc
      obtain rfl := Option.some.inj (h.newcomer.symm.trans hc₁)
      rw [Server.announced_self] at hx
      rw [h.server]
      exact find_learn_nickPairs hempty hx
    · have hk' := (h.registered_iff.mp hk).resolve_left hkc
      obtain ⟨c₀, hc₀, -⟩ := hinv.client k hk'
      obtain rfl := Option.some.inj ((h.other hkc hk' hc₀).symm.trans hc₁)
      rw [Server.announced_of_ne _ _ hkc, find_learn_one, Option.or_eq_some_iff] at hx
      rw [h.server, hnick]
      rcases hx with hx | ⟨-, hx⟩
      · have hv := hinv.sound k c₀ hk' hc₀ x v hx
        have hvc : v ≠ c.name := fun e => hfresh (e ▸ hinv.registered v x hv)
        rw [if_neg hvc, hv]
      · split_ifs at hx with hy
        obtain rfl := Option.some.inj hx
        rw [if_pos rfl, hy]

theorem inv_evict {w w' : World} {v : Bytes} (hinv : w.Inv) (h : w.Evicts v w') : w'.Inv := by
  have hnick := fun k => (find_removeClient w.server v k).2
  refine ⟨h.live hinv.toLive, fun k c₁ hk hc₁ => ?carried, fun k x hx => ?registered,
    fun k x hx => ?parts, fun k c₁ hk hc₁ x u hx => ?sound⟩
  case carried =>
    have hk' := h.registered_iff.mp hk
    obtain ⟨c, hc, -⟩ := hinv.client k hk'.1
    obtain rfl := Option.some.inj ((h.other hk' hc).symm.trans hc₁)
    rw [h.server, hnick, if_neg hk'.2, Client.nickname_forget]
    exact hinv.carried k c hk'.1 hc
  case registered =>
    rw [h.server, hnick] at hx
    split_ifs at hx with hk
    exact h.registered_iff.mpr ⟨hinv.registered k x hx, hk⟩
  case parts =>
    rw [h.server, hnick] at hx
    split_ifs at hx
    exact hinv.parts k x hx
  case sound =>
    have hk' := h.registered_iff.mp hk
    obtain ⟨c, hc, -⟩ := hinv.client k hk'.1
    obtain rfl := Option.some.inj ((h.other hk' hc).symm.trans hc₁)
    have hu := hinv.sound k c hk'.1 hc x u (Client.find_of_find_forget hx)
    -- all entries of `v` are under its nickname
    have huv : u ≠ v := by
      rintro rfl
      refine Client.find_forget_ne (fun y z hy hz => ?_) x hx
      have hy' := hinv.sound k c hk'.1 hc y u hy
      have hz' := hinv.sound k c hk'.1 hc z u hz
      exact Option.some.inj (hy'.symm.trans hz')
    rw [h.server, hnick, if_neg huv, hu]

/-! ### Resolution -/

/-- Every nickname of a registered client resolves, in the directory of every registered client, to
a registered client that has it. -/
def Resolves (w : World) : Prop :=
  ∀ k c, w.Registered k → w.clients k = some c → ∀ x, (∃ v, w.Holds v x) →
    ∃ v, c.clientNickToNameMap.find x = some v ∧ w.Holds v x

/-- The directory of every registered client is the list of the registered clients. -/
def Agrees (w : World) : Prop :=
  ∀ k c, w.Registered k → w.clients k = some c → ∀ x v,
    c.clientNickToNameMap.find x = some v ↔ w.Holds v x

/-- What keeps the nicknames resolved: a registration brings one that is not empty and has no `:`, and
an eviction spares those of the others: where another registered client resolves a nickname to the
one that is evicted, nobody else has it. -/
def Spares (w : World) : Action → Prop
  | .register c _ _ _ => Part c.nickname
  | .evict v => ∀ k c x u, k ≠ v → w.Registered k → w.clients k = some c →
      c.clientNickToNameMap.find x = some v → w.Holds u x → u = v

/-- A registration brings a nickname that nobody has, not empty and without `:`. -/
def NewNickname (w : World) : Action → Prop
  | .register c _ _ _ => Part c.nickname ∧ ∀ v, ¬ w.Holds v c.nickname
  | .evict _ => True

instance decidableNewNickname : ∀ (w : World) (a : Action), Decidable (w.NewNickname a)
  | w, .register c _ _ _ =>
      decidable_of_iff (Part c.nickname ∧
          ∀ e ∈ w.server.clientNameToIPMap.entries, ¬ w.Holds e.1 c.nickname)
        (and_congr_right' ⟨fun h v hv => by
          obtain ⟨a, ha⟩ := Option.isSome_iff_exists.mp hv.1
          exact h ⟨v, a⟩ (StdMap.find_eq_some_iff.mp ha) hv, fun h e _ => h e.1⟩)
  | _, .evict _ => isTrue trivial

/-- A directory that has all the nicknames resolves them. -/
theorem Inv.resolves {w : World} (hinv : w.Inv)
    (h : ∀ k c, w.Registered k → w.clients k = some c → ∀ v x, w.Holds v x →
      (c.clientNickToNameMap.find x).isSome) : w.Resolves := by
  rintro k c hk hc x ⟨v, hv⟩
  obtain ⟨u, hu⟩ := Option.isSome_iff_exists.mp (h k c hk hc v x hv)
  exact ⟨u, hu, hinv.holds_iff.mpr (hinv.sound k c hk hc x u hu)⟩

theorem isSome_find_learn_nickPairs {c : Client} {nicks : StdMap Bytes Bytes} {x v : Bytes}
    (h : nicks.find v = some x) : ((c.learn (nickPairs nicks)).clientNickToNameMap.find x).isSome := by
  rw [Client.find_learn, Option.isSome_or, Option.isSome_map, List.find?_isSome.mpr]
  · simp
  · exact ⟨(x, v), mem_nickPairs.mpr h, by simp⟩

/-- A registration with a plain nickname keeps every nickname resolved. -/
theorem resolves_enroll {w w' : World} {c : Client} {ip port : Bytes} {now : Int} (hinv : w.Inv)
    (harr : w.Arriving (.register c ip port now)) (hplain : Part c.nickname) (hres : w.Resolves)
    (h : w.Enrolls c ip port now w') : w'.Resolves := by
  have hinv' := inv_enroll hinv harr hplain h
  have hnick := nickname_enrolled hinv harr.1 c.nickname ip port now
  refine hinv'.resolves fun k c₁ hk hc₁ v x hv => ?_
  have hvx := hinv'.holds_iff.mp hv
  by_cases hkc : k = c.name
  · subst hkc
    obtain rfl := Option.some.inj (h.newcomer.symm.trans hc₁)
    rw [h.server] at hvx
    rw [Server.announced_self]
    exact isSome_find_learn_nickPairs hvx
  · have hk' := (h.registered_iff.mp hk).resolve_left hkc
    obtain ⟨c₀, hc₀, -⟩ := hinv.client k hk'
    obtain rfl := Option.some.inj ((h.other hkc hk' hc₀).symm.trans hc₁)
    rw [Server.announced_of_ne _ _ hkc, find_learn_one, Option.isSome_or]
    rw [h.server, hnick] at hvx
    split_ifs at hvx with hvc
    · rw [if_pos (Option.some.inj hvx)]
      simp
    · obtain ⟨u, hu, -⟩ := hres k c₀ hk' hc₀ x ⟨v, hinv.holds_iff.mpr hvx⟩
      simp [hu]

/-- **A nickname that resolves is plain.**  No nickname a directory has contains a `:`; and where the
newcomer's is empty, its list has no empty part, so its own directory does not have it. -/
theorem part_of_resolves {w w' : World} {c : Client} {ip port : Bytes} {now : Int} (hinv : w.Inv)
    (harr : w.Arriving (.register c ip port now))
    (hdel : w.UpdatesDelivered (.register c ip port now))
    (hstep : w.step (.register c ip port now) = .ok w') (hres : w'.Resolves) : Part c.nickname := by
  have ⟨hfresh, hempty, hname, hip, hport⟩ := harr
  obtain ⟨nick, hnick⟩ := parseNickname_registration c.nickname hip hport
  choose told htold hsep hfilled using fun k =>
    decodeUpdate_spec ((w.enrolled c nick ip port now).addUpdate nick c.name k).data
  obtain ⟨w'', hstep', h⟩ := step_register hinv.toLive harr hdel hnick fun k _ => htold k
  obtain rfl : w'' = w' := Except.ok.inj (hstep'.symm.trans hstep)
  have hheld : w''.Holds c.name c.nickname :=
    ⟨h.registered_iff.mpr (.inl rfl), by rw [h.newcomer]; rfl⟩
  obtain ⟨v, hv, -⟩ := hres c.name _ hheld.1 h.newcomer c.nickname ⟨_, hheld⟩
  rw [Client.find_learn, hempty, StdMap.find_empty, Option.none_or] at hv
  obtain ⟨p, hp, -⟩ := Option.map_eq_some_iff.mp hv
  have hmem := List.mem_of_find?_eq_some hp
  have hkey : p.1 = c.nickname := by simpa using List.find?_some hp
  refine ⟨fun hnil => ?_, hkey ▸ hsep c.name p hmem⟩
  -- an empty nickname is stored as `ip:port`
  rw [hnil, parseNickname_of_empty port hip] at hnick
  obtain rfl := Except.ok.inj hnick
  refine hfilled c.name ?_ p hmem (hkey.trans hnil)
  rw [Server.data_addUpdate_self]
  refine filled_listEntry ?_
  rintro ⟨x, u⟩ hx
  have hx := mem_nickPairs.mp hx
  rw [nickname_enrolled hinv hfresh] at hx
  have hpart : ∀ {s : Bytes}, Part s → Filled dataSeparator s := fun hs =>
    filled_of_not_mem hs.2 hs.1
  split_ifs at hx with hu
  · obtain rfl := Option.some.inj hx
    exact ⟨filled_append_cons.mpr ⟨hpart hip, hpart hport⟩, hu ▸ hpart hname⟩
  · exact ⟨hpart (hinv.parts u x hx).1, hpart (hinv.parts u x hx).2⟩

/-- **An eviction keeps every nickname resolved exactly when it spares the others'.** -/
theorem resolves_evict_iff {w w' : World} {v : Bytes} (hinv : w.Inv) (hres : w.Resolves)
    (h : w.Evicts v w') : w'.Resolves ↔ w.Spares (.evict v) := by
  have hinv' := inv_evict hinv h
  have hholds : ∀ u x, w'.Holds u x ↔ w.Holds u x ∧ u ≠ v := by
    intro u x
    rw [hinv'.holds_iff, hinv.holds_iff, h.server, (find_removeClient w.server v u).2]
    by_cases hu : u = v <;> simp [hu]
  constructor
  · intro hres' k c x u hkv hk hc hx hu
    by_contra huv
    -- what the nickname resolves to afterwards it resolved to before, and that is `v`
    obtain ⟨u', hu', hheld⟩ := hres' k _ (h.registered_iff.mpr ⟨hk, hkv⟩) (h.other ⟨hk, hkv⟩ hc) x
      ⟨u, (hholds u x).mpr ⟨hu, huv⟩⟩
    have hu'' := Client.find_of_find_forget hu'
    obtain rfl : v = u' := Option.some.inj (hx.symm.trans hu'')
    exact ((hholds _ _).mp hheld).2 rfl
  · intro hspare
    refine hinv'.resolves fun k c' hk hc' u x hu => ?_
    have hk' := h.registered_iff.mp hk
    obtain ⟨hu', huv⟩ := (hholds u x).mp hu
    obtain ⟨c, hc, -⟩ := hinv.client k hk'.1
    obtain rfl := Option.some.inj ((h.other hk' hc).symm.trans hc')
    obtain ⟨u₀, hu₀, -⟩ := hres k c hk'.1 hc x ⟨u, hu'⟩
    have hne : u₀ ≠ v := by
      rintro rfl
      exact huv (hspare k c x u hk'.2 hk'.1 hc hu₀ hu')
    rw [Client.find_forget_of_ne hne hu₀]
    rfl

/-- An action that spares the nicknames keeps the invariant. -/
theorem inv_step {w w' : World} {a : Action} (hinv : w.Inv) (harr : w.Arriving a)
    (hdel : w.UpdatesDelivered a) (hC : w.Spares a) (hstep : w.step a = .ok w') : w'.Inv := by
  cases a with
  | register c ip port now =>
      obtain ⟨w'', hstep', h⟩ := step_enroll hinv harr hC hdel
      obtain rfl : w'' = w' := Except.ok.inj (hstep'.symm.trans hstep)
      exact inv_enroll hinv harr hC h
  | evict v =>
      obtain ⟨w'', hstep', h⟩ := step_evict hinv.toLive hdel
      obtain rfl : w'' = w' := Except.ok.inj (hstep'.symm.trans hstep)
      exact inv_evict hinv h

/-- Who is registered after an action. -/
theorem registered_step_iff {w w' : World} {a : Action} {k : Bytes} (hinv : w.Inv)
    (harr : w.Arriving a) (hdel : w.UpdatesDelivered a) (hC : w.Spares a) (hstep : w.step a = .ok w') :
    w'.Registered k ↔ (∃ c ip port now, a = .register c ip port now ∧ c.name = k) ∨
      (w.Registered k ∧ a ≠ .evict k) := by
  cases a with
  | register c ip port now =>
      obtain ⟨w'', hstep', h⟩ := step_enroll hinv harr hC hdel
      obtain rfl : w'' = w' := Except.ok.inj (hstep'.symm.trans hstep)
      rw [h.registered_iff]
      constructor
      · rintro (rfl | hk)
        · exact .inl ⟨c, ip, port, now, rfl, rfl⟩
        · exact .inr ⟨hk, by simp⟩
      · rintro (⟨_, _, _, _, ha, rfl⟩ | ⟨hk, -⟩)
        · obtain ⟨rfl, -⟩ := Action.register.inj ha
          exact .inl rfl
        · exact .inr hk
  | evict v =>
      obtain ⟨w'', hstep', h⟩ := step_evict hinv.toLive hdel
      obtain rfl : w'' = w' := Except.ok.inj (hstep'.symm.trans hstep)
      rw [h.registered_iff]
      simp [eq_comm]

/-- **An action keeps every nickname resolved exactly when it spares them.** -/
theorem resolves_step_iff {w w' : World} {a : Action} (hinv : w.Inv) (harr : w.Arriving a)
    (hdel : w.UpdatesDelivered a) (hres : w.Resolves) (hstep : w.step a = .ok w') :
    w'.Resolves ↔ w.Spares a := by
  cases a with
  | register c ip port now =>
      refine ⟨part_of_resolves hinv harr hdel hstep, fun hplain => ?_⟩
      obtain ⟨w'', hstep', h⟩ := step_enroll hinv harr hplain hdel
      obtain rfl : w'' = w' := Except.ok.inj (hstep'.symm.trans hstep)
      exact resolves_enroll hinv harr hplain hres h
  | evict v =>
      obtain ⟨w'', hstep', h⟩ := step_evict hinv.toLive hdel
      obtain rfl : w'' = w' := Except.ok.inj (hstep'.symm.trans hstep)
      exact resolves_evict_iff hinv hres h

/-! ### Nicknames that differ -/

/-- Nicknames are told apart by their holders. -/
def Distinct (w : World) : Prop := ∀ u v x, w.Holds u x → w.Holds v x → u = v

/-- Where nicknames are told apart, an action that brings a new one spares the others. -/
theorem Distinct.spares {w : World} (hd : w.Distinct) (hinv : w.Inv) {a : Action}
    (hnew : w.NewNickname a) : w.Spares a := by
  cases a with
  | register c ip port now => exact hnew.1
  | evict v =>
      intro k c x u _ hk hc hx hu
      exact hd u v x hu (hinv.holds_iff.mpr (hinv.sound k c hk hc x v hx))

theorem Distinct.step {w w' : World} {a : Action} (hd : w.Distinct) (hinv : w.Inv)
    (harr : w.Arriving a) (hdel : w.UpdatesDelivered a) (hnew : w.NewNickname a)
    (hstep : w.step a = .ok w') : w'.Distinct := by
  have hinv' := inv_step hinv harr hdel (hd.spares hinv hnew) hstep
  intro u v x hu hv
  rw [hinv'.holds_iff] at hu hv
  cases a with
  | register c ip port now =>
      obtain ⟨w'', hstep', h⟩ := step_enroll hinv harr hnew.1 hdel
      obtain rfl : w'' = w' := Except.ok.inj (hstep'.symm.trans hstep)
      rw [h.server, nickname_enrolled hinv harr.1] at hu hv
      split_ifs at hu hv with huc hvc hvc
      · exact huc.trans hvc.symm
      · exact absurd (hinv.holds_iff.mpr (Option.some.inj hu ▸ hv)) (hnew.2 v)
      · exact absurd (hinv.holds_iff.mpr (Option.some.inj hv ▸ hu)) (hnew.2 u)
      · exact hd u v x (hinv.holds_iff.mpr hu) (hinv.holds_iff.mpr hv)
  | evict k =>
      obtain ⟨w'', hstep', h⟩ := step_evict hinv.toLive hdel
      obtain rfl : w'' = w' := Except.ok.inj (hstep'.symm.trans hstep)
      rw [h.server, (find_removeClient w.server k _).2] at hu hv
      split_ifs at hu hv
      exact hd u v x (hinv.holds_iff.mpr hu) (hinv.holds_iff.mpr hv)

/-- Where nicknames are told apart and resolve, the directories are exact. -/
theorem Distinct.agrees {w : World} (hd : w.Distinct) (hinv : w.Inv) (hres : w.Resolves) :
    w.Agrees := by
  intro k c hk hc x v
  constructor
  · intro hx
    exact hinv.holds_iff.mpr (hinv.sound k c hk hc x v hx)
  · intro hv
    obtain ⟨u, hu, hux⟩ := hres k c hk hc x ⟨v, hv⟩
    rwa [hd v u x hv hux]

end World

/-! ### Runs -/

/-- The system under serial actions. -/
def serial : Machine World Action where
  step w a := (w.step a).toOption

theorem serial_step {w w' : World} {a : Action} : serial.step w a = some w' ↔ w.step a = .ok w' := by
  simp only [serial]
  cases w.step a <;> simp [Except.toOption]

/-- Before any action nobody is registered. -/
theorem World.not_registered_init (name k : Bytes) : ¬ (init name).Registered k := nofun

/-- The client `k` has registered, and has not been evicted since. -/
def Member (k : Bytes) (as : List Action) : Prop :=
  ∃ pre c ip port now post, as = pre ++ .register c ip port now :: post ∧ c.name = k ∧
    .evict k ∉ post

theorem member_cons {k : Bytes} {a : Action} {as : List Action} :
    Member k (a :: as) ↔ Member k as ∨
      (∃ c ip port now, a = .register c ip port now ∧ c.name = k) ∧ .evict k ∉ as := by
  constructor
  · rintro ⟨pre, c, ip, port, now, post, has, hc, hpost⟩
    cases pre with
    | nil =>
        obtain ⟨rfl, rfl⟩ := List.cons.inj has
        exact .inr ⟨⟨c, ip, port, now, rfl, hc⟩, hpost⟩
    | cons b pre =>
        obtain ⟨-, rfl⟩ := List.cons.inj has
        exact .inl ⟨pre, c, ip, port, now, post, rfl, hc, hpost⟩
  · rintro (⟨pre, c, ip, port, now, post, rfl, hc, hpost⟩ | ⟨⟨c, ip, port, now, rfl, hc⟩, has⟩)
    · exact ⟨a :: pre, c, ip, port, now, post, rfl, hc, hpost⟩
    · exact ⟨[], c, ip, port, now, as, rfl, hc, has⟩

/-- Who is registered after a run. -/
theorem registered_run_iff {w w' : World} {as : List Action} {k : Bytes} {P : World → Prop}
    {C : World → Action → Prop}
    (hP : ∀ w a w', P w → C w a → serial.step w a = some w' → P w' ∧
      (w'.Registered k ↔ (∃ c ip port now, a = .register c ip port now ∧ c.name = k) ∨
        (w.Registered k ∧ a ≠ .evict k)))
    (hw : P w) (hC : serial.Meets C w as) (hrun : serial.run w as = some w') :
    w'.Registered k ↔ Member k as ∨ (w.Registered k ∧ .evict k ∉ as) := by
  induction as generalizing w with
  | nil =>
      obtain rfl := Option.some.inj hrun
      simp [Member]
  | cons a as ih =>
      obtain ⟨u, hu, hrun⟩ := Option.bind_eq_some_iff.mp hrun
      obtain ⟨hPu, hreg⟩ := hP w a u hw hC.1 hu
      rw [ih hPu (hC.2 u hu) hrun, hreg, member_cons, List.mem_cons, not_or, or_and_right, or_assoc,
        and_assoc, ne_comm]

/-- **Directory agreement.**  Along a serial run whose registrations bring new nicknames, whose
updates all arrive, every action goes through, and after each the directory of every registered
client is exactly the list of the registered clients, who are those that have registered and have not
been evicted since. -/
theorem directory_agreement (name : Bytes) (as : List Action)
    (h : serial.Meets (fun w a => w.Arriving a ∧ w.NewNickname a ∧ w.UpdatesDelivered a)
      (World.init name) as) :
    ∀ pre, pre <+: as → ∃ w, serial.run (World.init name) pre = some w ∧ w.Agrees ∧
      ∀ k, w.Registered k ↔ Member k pre := by
  intro pre hpre
  have hempty : (World.init name).Distinct ∧ (World.init name).Resolves :=
    ⟨fun u _ _ hu _ => absurd hu.1 (World.not_registered_init name u),
      fun k _ hk _ => absurd hk (World.not_registered_init name k)⟩
  obtain ⟨w, hrun, hinv, hd, hres⟩ := Machine.run_of_enabled (M := serial)
    (P := fun w : World => w.Inv ∧ w.Distinct ∧ w.Resolves)
    (fun w a ⟨hinv, hd, hres⟩ ⟨harr, hnew, hdel⟩ => by
      obtain ⟨w', hstep, -⟩ := World.live_step hinv.toLive harr hdel
      have hC := hd.spares hinv hnew
      exact ⟨w', serial_step.mpr hstep, World.inv_step hinv harr hdel hC hstep,
        hd.step hinv harr hdel hnew hstep,
        (World.resolves_step_iff hinv harr hdel hres hstep).mpr hC⟩)
    ⟨World.inv_init name, hempty⟩ (h.of_prefix hpre)
  refine ⟨w, hrun, hd.agrees hinv hres, fun k => ?_⟩
  rw [registered_run_iff (P := fun w : World => w.Inv ∧ w.Distinct)
    (fun w a w' ⟨hinv, hd⟩ ⟨harr, hnew, hdel⟩ hstep => by
      have hC := hd.spares hinv hnew
      have hok := serial_step.mp hstep
      exact ⟨⟨World.inv_step hinv harr hdel hC hok, hd.step hinv harr hdel hnew hok⟩,
        World.registered_step_iff hinv harr hdel hC hok⟩)
    ⟨World.inv_init name, hempty.1⟩ (h.of_prefix hpre) hrun]
  exact or_iff_left fun hk => World.not_registered_init name k hk.1

/-- Two clients register, before the first is evicted. -/
theorem directory_agreement_two :
    ∃ w, serial.run (World.init (lit "7"))
        [.register { name := lit "1", nickname := lit "ann" } (lit "host") (lit "80") 0,
          .register { name := lit "2", nickname := lit "bob" } (lit "host") (lit "82") 1] = some w ∧
      w.Agrees ∧ ∀ k, w.Registered k ↔ Member k
        [.register { name := lit "1", nickname := lit "ann" } (lit "host") (lit "80") 0,
          .register { name := lit "2", nickname := lit "bob" } (lit "host") (lit "82") 1] :=
  directory_agreement (lit "7")
    [.register { name := lit "1", nickname := lit "ann" } (lit "host") (lit "80") 0,
      .register { name := lit "2", nickname := lit "bob" } (lit "host") (lit "82") 1,
      .evict (lit "1")] (by decide +kernel) _ ⟨[.evict (lit "1")], rfl⟩

/-- **Resolution of nicknames, shared or not.**  A serial run whose updates all arrive goes through;
every nickname resolves to a holder, in every directory and all along, exactly when every action
spares the nicknames. -/
theorem resolves_iff (name : Bytes) (as : List Action)
    (h : serial.Meets (fun w a => w.Arriving a ∧ w.UpdatesDelivered a) (World.init name) as) :
    (∃ w, serial.run (World.init name) as = some w) ∧
      (serial.Always World.Resolves (World.init name) as ↔
        serial.Meets World.Spares (World.init name) as) := by
  obtain ⟨w, hrun, -⟩ := Machine.run_of_enabled (M := serial) (P := World.Live)
    (fun w a hlive hR => by
      obtain ⟨w', hstep, hlive'⟩ := World.live_step hlive hR.1 hR.2
      exact ⟨w', serial_step.mpr hstep, hlive'⟩) (World.inv_init name).toLive h
  refine ⟨⟨w, hrun⟩, ?_⟩
  refine Machine.always_iff_meets (I := World.Inv)
    (fun w a w' hinv hR hC hstep => World.inv_step hinv hR.1 hR.2 hC (serial_step.mp hstep))
    (fun w a w' hinv hres hR hstep =>
      World.resolves_step_iff hinv hR.1 hR.2 hres (serial_step.mp hstep)) (World.inv_init name) ?_ h
    hrun
  exact fun k _ hk _ => absurd hk (World.not_registered_init name k)

theorem resolves_iff_two :
    (∃ w, serial.run (World.init (lit "7"))
        [.register { name := lit "1", nickname := lit "ann" } (lit "host") (lit "80") 0,
          .register { name := lit "2", nickname := lit "ann" } (lit "host") (lit "82") 1] = some w) ∧
      (serial.Always World.Resolves (World.init (lit "7"))
          [.register { name := lit "1", nickname := lit "ann" } (lit "host") (lit "80") 0,
            .register { name := lit "2", nickname := lit "ann" } (lit "host") (lit "82") 1] ↔
        serial.Meets World.Spares (World.init (lit "7"))
          [.register { name := lit "1", nickname := lit "ann" } (lit "host") (lit "80") 0,
            .register { name := lit "2", nickname := lit "ann" } (lit "host") (lit "82") 1]) :=
  resolves_iff (lit "7") _ (by decide +kernel)

/-- Two clients share a nickname and the first is evicted: the second one's directory had the
nickname under the first, and has it no more. -/
theorem not_resolves_shared :
    ¬ ∀ (name : Bytes) (as : List Action),
      serial.Meets (fun w a => w.Arriving a ∧ w.UpdatesDelivered a) (World.init name) as →
      ∀ w, serial.run (World.init name) as = some w → w.Resolves := by
  intro h
  have hlost : (serial.run (World.init (lit "7"))
      [.register { name := lit "1", nickname := lit "ann" } (lit "host") (lit "80") 0,
        .register { name := lit "2", nickname := lit "ann" } (lit "host") (lit "82") 1,
        .evict (lit "1")]).any (fun w => w.Holds (lit "2") (lit "ann") &&
          (w.clients (lit "2")).map (·.clientNickToNameMap.find (lit "ann")) = some none) = true := by
    decide +kernel
  obtain ⟨w, hrun, hw⟩ := (Option.any_eq_true _ _).mp hlost
  simp only [Bool.and_eq_true, decide_eq_true_eq] at hw
  obtain ⟨c, hc, hnone⟩ := Option.map_eq_some_iff.mp hw.2
  obtain ⟨v, hv, -⟩ := h (lit "7") _ (by decide +kernel) w hrun (lit "2") c hw.1.1 hc (lit "ann")
    ⟨lit "2", hw.1⟩
  rw [hnone] at hv
  cases hv

end Cimabue
