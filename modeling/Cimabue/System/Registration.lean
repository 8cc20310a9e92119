import Cimabue.Support.Machine
import Cimabue.Model.Server

/-!
# System — Registration

The registration of a name, over any history of registrations, other messages and evictions
(`registrations`).  Four places say who a client is: its address and its nickname in the registry,
the data its registration is confirmed with, and the nickname the other clients are told.

`insert` keeps the entry of a name that is there, while the confirmation and the announcement are
made of the new message.

* `registration_agrees_iff`: the four are made of one text exactly when the registry has nothing
  else for the name than what the message brings.
* `not_registration_agrees`: a client that registers again under another nickname and address.
-/

namespace Cimabue

/-- What happens to the registry. -/
inductive RegistryStep where
  /-- `processDownMessage` -/
  | message (env : Env) (msg : Message)
  /-- `removeClient` -/
  | remove (clientName : Bytes)

/-- The registry of a server, from one message or eviction to the next. -/
def registrations : Machine Server RegistryStep where
  step
    | s, .message env msg => (s.processDownMessage env msg).toOption.map (·.1)
    | s, .remove clientName => some (s.removeClient clientName)

namespace Server

/-- What the server stores for `src`, what it confirms and what it announces are made of the
registration `data`. -/
structure MadeOf (s : Server) (effects : List Effect) (src data : Bytes) : Prop where
  address : s.clientNameToIPMap.find src = some data
  nickname : ∃ nick, parseNickname data = .ok nick ∧ s.clientNicknameToName.find src = some nick
  confirmed : ∀ m, .reply m ∈ effects → m.data = data
  announced : ∀ p, .send p ∈ effects → p.msg.clientDest ≠ src →
    ∃ nick, parseNickname data = .ok nick ∧ p.msg.data = newcomerEntry nick src

/-- A registration that is handled is all of one text. -/
def Agreed (s : Server) : RegistryStep → Prop
  | .message env msg => msg.type = .addClient → ∀ t effects ret,
      s.processDownMessage env msg = .ok (t, effects, ret) →
        ∃ data, t.MadeOf effects msg.clientSrc data
  | .remove _ => True

/-- The registry has nothing else for a name that registers than what its message brings. -/
def SameData (s : Server) : RegistryStep → Prop
  | .message _ msg => msg.type = .addClient →
      (∀ address, s.clientNameToIPMap.find msg.clientSrc = some address → address = msg.data) ∧
        ∀ nick, s.clientNicknameToName.find msg.clientSrc = some nick →
          parseNickname msg.data = .ok nick
  | .remove _ => True

instance (s : Server) (a : RegistryStep) : Decidable (s.SameData a) :=
  match a with
  | .message _ msg => inferInstanceAs (Decidable (_ →
      (∀ address ∈ s.clientNameToIPMap.find msg.clientSrc, address = msg.data) ∧
        ∀ nick ∈ s.clientNicknameToName.find msg.clientSrc, parseNickname msg.data = .ok nick))
  | .remove _ => inferInstanceAs (Decidable True)

/-! ### What a registration does -/

/-- The registry after a registration with the nickname `nick`. -/
def withEntry (s : Server) (msg : Message) (now : Int) (nick : Bytes) : Server :=
  { (s.addName msg).addPing msg now with
    clientNicknameToName := s.clientNicknameToName.insert msg.clientSrc nick }

variable {env : Env} {s t : Server} {msg : Message} {effects : List Effect} {ret : Ret}
  {now : Int} {nick : Bytes}

theorem address_withEntry : (s.withEntry msg now nick).clientNameToIPMap.find msg.clientSrc =
    some ((s.clientNameToIPMap.find msg.clientSrc).getD msg.data) :=
  StdMap.find_insert_self ..

theorem nickname_withEntry : (s.withEntry msg now nick).clientNicknameToName.find msg.clientSrc =
    some ((s.clientNicknameToName.find msg.clientSrc).getD nick) :=
  StdMap.find_insert_self ..

/-- What is sent to a client is its update. -/
theorem update_of_mem_sendUpdates {update : Bytes → Except Fault (Option Message)}
    {l : List ((_ : Bytes) × Bytes)} {ps : List Packet} {p : Packet}
    (h : sendUpdates env update l = .ok ps) (hp : p ∈ ps) :
    ∃ client, update client = .ok (some p.msg) := by
  induction l generalizing ps with
  | nil => cases h; cases hp
  | cons e l ih =>
      rw [sendUpdates] at h
      obtain ⟨update?, hupd, h⟩ := bind_eq_ok.mp h
      cases update? with
      | none => exact ih h hp
      | some m =>
          obtain ⟨address?, -, h⟩ := bind_eq_ok.mp h
          cases address? with
          | none => exact ih h hp
          | some a =>
              obtain ⟨reply, -, h⟩ := bind_eq_ok.mp h
              obtain ⟨sent, hsent, h⟩ := bind_eq_ok.mp h
              cases h
              rcases List.mem_cons.mp hp with rfl | hp
              · exact ⟨_, hupd⟩
              · exact ih hsent hp

theorem request_of_addClient (htype : msg.type = .addClient) : s.request msg = .add := by
  rw [request, if_pos htype]

/-- A registration, taken apart: the nickname it brings, the three entries, the confirmation and
the announcements. -/
theorem processDownMessage_addClient (htype : msg.type = .addClient)
    (h : s.processDownMessage env msg = .ok (t, effects, ret)) :
    ∃ nick ps, parseNickname msg.data = .ok nick ∧ t = s.withEntry msg env.now nick ∧
      t.updateClientListAdd env msg = .ok ps ∧
      effects = [.reply (t.addReply msg), .close] ++ ps.map .send := by
  simp only [processDownMessage, request_of_addClient htype] at h
  obtain ⟨⟨t', answer⟩, hadd, h⟩ := bind_eq_ok.mp h
  obtain ⟨s', hnick, hadd⟩ := bind_eq_ok.mp hadd
  obtain ⟨nick, hparse, hnick⟩ := bind_eq_ok.mp hnick
  obtain ⟨ps, hps, h⟩ := bind_eq_ok.mp h
  cases hnick
  cases hadd
  cases h
  exact ⟨nick, ps, hparse, rfl, hps, rfl⟩

/-- A client other than the newcomer is told the nickname of the message. -/
theorem announced_of_mem {ps : List Packet} {p : Packet}
    (h : t.updateClientListAdd env msg = .ok ps) (hp : p ∈ ps)
    (hdest : p.msg.clientDest ≠ msg.clientSrc) :
    ∃ nick, parseNickname msg.data = .ok nick ∧ p.msg.data = newcomerEntry nick msg.clientSrc := by
  obtain ⟨client, hupd⟩ := update_of_mem_sendUpdates h hp
  rw [updateAdd] at hupd
  split_ifs at hupd with hclient
  · obtain ⟨nick, hparse, hupd⟩ := bind_eq_ok.mp hupd
    have hmsg := Option.some.inj (Except.ok.inj hupd)
    exact ⟨nick, hparse, by rw [← hmsg]; rfl⟩
  · -- the newcomer's own message
    have hmsg := Option.some.inj (Except.ok.inj hupd)
    rw [← hmsg] at hdest
    exact absurd rfl hdest

/-- **One registration.**  It is all of one text exactly when the registry has nothing else for the
name. -/
theorem madeOf_iff (htype : msg.type = .addClient)
    (h : s.processDownMessage env msg = .ok (t, effects, ret)) :
    (∃ data, t.MadeOf effects msg.clientSrc data) ↔
      (∀ address, s.clientNameToIPMap.find msg.clientSrc = some address → address = msg.data) ∧
        ∀ nick, s.clientNicknameToName.find msg.clientSrc = some nick →
          parseNickname msg.data = .ok nick := by
  obtain ⟨nick, ps, hparse, rfl, hps, rfl⟩ := processDownMessage_addClient htype h
  constructor
  · rintro ⟨data, hmade⟩
    -- the confirmation is made of the message
    obtain rfl : msg.data = data :=
      hmade.confirmed ((s.withEntry msg env.now nick).addReply msg) (by simp)
    refine ⟨fun address hfind => ?_, fun old hfind => ?_⟩
    · have haddress := hmade.address
      rw [address_withEntry, hfind] at haddress
      exact Option.some.inj haddress
    · obtain ⟨nick', hnick', hstored⟩ := hmade.nickname
      rw [nickname_withEntry, hfind] at hstored
      rw [hnick', ← Option.some.inj hstored]
      rfl
  · rintro ⟨haddress, hnick⟩
    refine ⟨msg.data, ⟨?_, ⟨nick, hparse, ?_⟩, fun m hm => ?_, fun p hp hdest => ?_⟩⟩
    · rw [address_withEntry]
      cases hfind : s.clientNameToIPMap.find msg.clientSrc with
      | none => rfl
      | some address => rw [haddress address hfind]; rfl
    · rw [nickname_withEntry]
      cases hfind : s.clientNicknameToName.find msg.clientSrc with
      | none => rfl
      | some old =>
          have hold := hnick old hfind
          rw [hparse] at hold
          rw [Except.ok.inj hold]
          rfl
    · obtain rfl : m = _ := by simpa using hm
      rfl
    · exact announced_of_mem hps (by simpa using hp) hdest

theorem agreed_iff_sameData {a : RegistryStep} (h : registrations.step s a = some t) :
    s.Agreed a ↔ s.SameData a := by
  cases a with
  | remove clientName => exact Iff.rfl
  | message env msg =>
      refine imp_congr_right fun htype => ?_
      obtain ⟨⟨u, effects, ret⟩, hdown, -⟩ := Option.map_eq_some_iff.mp h
      have hok : s.processDownMessage env msg = .ok (u, effects, ret) := by
        cases hres : s.processDownMessage env msg with
        | error f => rw [hres] at hdown; cases hdown
        | ok r => rw [hres] at hdown; exact congrArg _ (Option.some.inj hdown)
      -- the handler has one outcome
      refine Iff.trans ⟨fun hagreed => hagreed u effects ret hok, fun hone u' effects' ret' h' => ?_⟩
        (madeOf_iff htype hok)
      rw [hok] at h'
      cases h'
      exact hone

end Server

/-- **Exactly the registrations of nothing else.**  Along any history, the stored, the confirmed and
the announced data of every registration are one text exactly when, at every registration, the
registry has nothing else for the name than what the message brings. -/
theorem registration_agrees_iff (s t : Server) (as : List RegistryStep)
    (hrun : registrations.run s as = some t) :
    registrations.Meets Server.Agreed s as ↔ registrations.Meets Server.SameData s as :=
  Machine.meets_iff_meets (fun _ _ _ hstep => Server.agreed_iff_sameData hstep) hrun

/-- The registration of `clientSrc` with the text `data`. -/
def registers (clientSrc data : Bytes) : RegistryStep :=
  .message {} { type := .addClient, clientSrc, data }

/-- Two clients register; one of them registers once more, is evicted, and comes back under
another nickname. -/
theorem registration_agrees_back :
    registrations.Meets Server.Agreed { name := lit "7" }
      [registers (lit "1") (lit "ann:host:80"), registers (lit "2") (lit "bob:host:81"),
        registers (lit "1") (lit "ann:host:80"), .remove (lit "1"),
        registers (lit "1") (lit "carl:host:82")] :=
  (registration_agrees_iff { name := lit "7" } _ _ rfl).mpr (by decide +kernel)

/-- A client that is registered registers under another nickname and address. -/
theorem not_registration_agrees :
    ¬ ∀ (name : Bytes) (as : List RegistryStep) (t : Server),
      registrations.run { name } as = some t → registrations.Meets Server.Agreed { name } as := by
  intro h
  have hrun : ∃ t, registrations.run { name := lit "7" }
      [registers (lit "1") (lit "ann:host:80"), registers (lit "1") (lit "bob:host:81")] =
        some t := ⟨_, rfl⟩
  obtain ⟨t, ht⟩ := hrun
  have hsame := (Machine.meets_iff_meets (fun _ _ _ hstep => Server.agreed_iff_sameData hstep)
    ht).mp (h _ _ t ht)
  exact absurd hsame (by decide +kernel)

end Cimabue
