import Cimabue.Support.Latch
import Cimabue.System.Registration
import Cimabue.Threads.Host

/-!
# System — History

What the registry has for a name, read off the history of the server: its messages and its removals.

`insert` keeps the entry that is there, so a name belongs to whoever registered it first, until it is
removed.

The times that the ping thread writes are not part of this history.

* `registry_step`: what one step does to the entries of a name.
* `registry_history`: the three entries of a name are made of one registration, the first since the
  last removal (`Incumbent`), and are all missing when there is none.
-/

namespace Cimabue

namespace RegistryStep

/-- What a step is to the entries of the name `n`. -/
def event (n : Bytes) : RegistryStep → LatchEvent (Env × Message)
  | .message env msg =>
      if msg.type = .addClient ∧ msg.clientSrc = n then .set (env, msg) else .skip
  | .remove v => if v = n then .clear else .skip

theorem event_eq_set {n : Bytes} {a : RegistryStep} {env : Env} {msg : Message} :
    a.event n = .set (env, msg) ↔
      a = .message env msg ∧ msg.type = .addClient ∧ msg.clientSrc = n := by
  cases a with
  | message env' msg' =>
      rw [event]
      split_ifs with h
      · simp only [LatchEvent.set.injEq, Prod.mk.injEq, RegistryStep.message.injEq]
        constructor
        · rintro ⟨rfl, rfl⟩
          exact ⟨⟨rfl, rfl⟩, h⟩
        · rintro ⟨⟨rfl, rfl⟩, -⟩
          exact ⟨rfl, rfl⟩
      · simp only [RegistryStep.message.injEq, false_iff]
        rintro ⟨⟨rfl, rfl⟩, h'⟩
        exact h h'
  | remove v => simp only [event]; split_ifs <;> simp

theorem event_eq_clear {n : Bytes} {a : RegistryStep} : a.event n = .clear ↔ a = .remove n := by
  cases a with
  | message env msg => simp only [event]; split_ifs <;> simp
  | remove v => simp only [event]; split_ifs with h <;> simp [h]

end RegistryStep

/-- Nobody has the name `n`: every registration of it has been followed by a removal. -/
def Vacant (n : Bytes) (as : List RegistryStep) : Prop :=
  ∀ pre env msg post, as = pre ++ .message env msg :: post → msg.type = .addClient →
    msg.clientSrc = n → .remove n ∈ post

/-- The registration `msg` of the name `n` is the first one since the last removal. -/
def Incumbent (n : Bytes) (as : List RegistryStep) (env : Env) (msg : Message) : Prop :=
  ∃ pre post, as = pre ++ .message env msg :: post ∧ msg.type = .addClient ∧ msg.clientSrc = n ∧
    .remove n ∉ post ∧ Vacant n pre

theorem vacant_iff {n : Bytes} {as : List RegistryStep} :
    Vacant n as ↔ latch (RegistryStep.event n) none as = none := by
  rw [latch_eq_none_iff]
  constructor
  · rintro h pre a post ⟨env, msg⟩ has ha
    obtain ⟨rfl, htype, hsrc⟩ := RegistryStep.event_eq_set.mp ha
    exact ⟨_, h pre env msg post has htype hsrc, RegistryStep.event_eq_clear.mpr rfl⟩
  · intro h pre env msg post has htype hsrc
    obtain ⟨x, hx, hclear⟩ := h pre _ post (env, msg) has
      (RegistryStep.event_eq_set.mpr ⟨rfl, htype, hsrc⟩)
    exact RegistryStep.event_eq_clear.mp hclear ▸ hx

theorem incumbent_iff {n : Bytes} {as : List RegistryStep} {env : Env} {msg : Message} :
    Incumbent n as env msg ↔ latch (RegistryStep.event n) none as = some (env, msg) := by
  rw [latch_eq_some_iff]
  constructor
  · rintro ⟨pre, post, has, htype, hsrc, hpost, hpre⟩
    refine ⟨pre, _, post, has, RegistryStep.event_eq_set.mpr ⟨rfl, htype, hsrc⟩, fun x hx hc => ?_,
      vacant_iff.mp hpre⟩
    exact hpost (RegistryStep.event_eq_clear.mp hc ▸ hx)
  · rintro ⟨pre, a, post, has, ha, hpost, hpre⟩
    obtain ⟨rfl, htype, hsrc⟩ := RegistryStep.event_eq_set.mp ha
    exact ⟨pre, post, has, htype, hsrc, fun h => hpost _ h (RegistryStep.event_eq_clear.mpr rfl),
      vacant_iff.mpr hpre⟩

/-! ### One step -/

/-- What a message does to the registry: nothing, or it is a registration. -/
theorem registrations_message {s t : Server} {env : Env} {msg : Message}
    (h : registrations.step s (.message env msg) = some t) :
    (msg.type ≠ .addClient ∧ t = s) ∨
      (msg.type = .addClient ∧ ∃ nick, parseNickname msg.data = .ok nick ∧
        t = s.withEntry msg env.now nick) := by
  obtain ⟨⟨u, effects, ret⟩, hdown, rfl⟩ := Option.map_eq_some_iff.mp h
  have hok : s.processDownMessage env msg = .ok (u, effects, ret) := by
    cases hres : s.processDownMessage env msg with
    | error f => rw [hres] at hdown; cases hdown
    | ok r => rw [hres] at hdown; exact congrArg _ (Option.some.inj hdown)
  by_cases htype : msg.type = .addClient
  · obtain ⟨nick, ps, hparse, ht, -⟩ := Server.processDownMessage_addClient htype hok
    exact .inr ⟨htype, nick, hparse, ht⟩
  · have hreq : s.request msg ≠ .add := by
      rw [Server.request, if_neg htype]
      split_ifs
      · simp
      · split <;> simp
    exact .inl ⟨htype, Host.processDownMessage_of_ne_add hreq hok⟩

namespace Server

/-- The three entries of the name `n` are made of one registration, or are missing. -/
def EntryOf (s : Server) (n : Bytes) : Option (Env × Message) → Prop
  | none => s.clientNameToIPMap.find n = none ∧ s.clientPingList.find n = none ∧
      s.clientNicknameToName.find n = none
  | some (env, msg) => s.clientNameToIPMap.find n = some msg.data ∧
      s.clientPingList.find n = some env.now ∧
      ∃ nick, parseNickname msg.data = .ok nick ∧ s.clientNicknameToName.find n = some nick

theorem EntryOf.congr {s t : Server} {n : Bytes} {r : Option (Env × Message)} (h : s.EntryOf n r)
    (haddress : t.clientNameToIPMap.find n = s.clientNameToIPMap.find n)
    (hping : t.clientPingList.find n = s.clientPingList.find n)
    (hnick : t.clientNicknameToName.find n = s.clientNicknameToName.find n) : t.EntryOf n r := by
  cases r with
  | none => simpa only [EntryOf, haddress, hping, hnick] using h
  | some r => simpa only [EntryOf, haddress, hping, hnick] using h

/-- A registration keeps the entries of a name that has some. -/
theorem entryOf_withEntry {s : Server} {msg : Message} {env : Env} {nick : Bytes}
    {r : Option (Env × Message)} (h : s.EntryOf msg.clientSrc r)
    (hnick : parseNickname msg.data = .ok nick) :
    (s.withEntry msg env.now nick).EntryOf msg.clientSrc (r.or (some (env, msg))) := by
  cases r with
  | none =>
      obtain ⟨haddress, hping, hnone⟩ := h
      simp [EntryOf, withEntry, addName, addPing, StdMap.find_insert_self, haddress, hping, hnone,
        hnick]
  | some r =>
      obtain ⟨haddress, hping, x, hx, hsome⟩ := h
      refine ⟨?_, ?_, x, hx, ?_⟩ <;>
        simp [withEntry, addName, addPing, StdMap.find_insert_self, haddress, hping, hsome]

end Server

/-- **One step.**  The entries of a name are set, cleared or kept. -/
theorem registry_step {s t : Server} {n : Bytes} {a : RegistryStep} {r : Option (Env × Message)}
    (h : s.EntryOf n r) (hstep : registrations.step s a = some t) :
    t.EntryOf n (latch (RegistryStep.event n) r [a]) := by
  cases a with
  | message env msg =>
      rcases registrations_message hstep with ⟨htype, rfl⟩ | ⟨htype, nick, hnick, rfl⟩
      · simpa [latch, RegistryStep.event, htype] using h
      · by_cases hsrc : msg.clientSrc = n
        · subst hsrc
          simpa [latch, RegistryStep.event, htype] using Server.entryOf_withEntry h hnick
        · have hne : n ≠ msg.clientSrc := Ne.symm hsrc
          have hkeep : (s.withEntry msg env.now nick).EntryOf n r := by
            refine h.congr ?_ ?_ ?_ <;>
              simp [Server.withEntry, Server.addName, Server.addPing, StdMap.find_insert, hne]
          simpa [latch, RegistryStep.event, hsrc] using hkeep
  | remove v =>
      obtain rfl := Option.some.inj hstep
      by_cases hv : v = n
      · subst hv
        simp [latch, RegistryStep.event, Server.EntryOf, Server.removeClient, Server.eraseName,
          Server.erasePing, Server.eraseNickname]
      · have hne : n ≠ v := Ne.symm hv
        have hkeep : (s.removeClient v).EntryOf n r := by
          refine h.congr ?_ ?_ ?_ <;>
            simp [Server.removeClient, Server.eraseName, Server.erasePing, Server.eraseNickname,
              StdMap.find_erase, hne]
        simpa [latch, RegistryStep.event, hv] using hkeep

/-! ### Histories -/

theorem registry_run {s t : Server} {n : Bytes} {as : List RegistryStep}
    {r : Option (Env × Message)} (h : s.EntryOf n r) (hrun : registrations.run s as = some t) :
    t.EntryOf n (latch (RegistryStep.event n) r as) := by
  induction as generalizing s r with
  | nil => exact Option.some.inj hrun ▸ h
  | cons a as ih =>
      obtain ⟨u, hu, hrun⟩ := Option.bind_eq_some_iff.mp hrun
      have hu' := ih (registry_step h hu) hrun
      rwa [← latch_append] at hu'

/-- **A name belongs to whoever came first.**  After any history of messages and removals, each handled
whole and with no answered ping in between, the address, the time and the nickname the registry has for a
name are those of the first registration of the name since its last removal; and when there is none, it
has nothing for the name. -/
theorem registry_history (name : Bytes) (as : List RegistryStep) (t : Server) (n : Bytes)
    (hrun : registrations.run { name } as = some t) :
    (∀ env msg, Incumbent n as env msg → t.EntryOf n (some (env, msg))) ∧
      ((¬ ∃ env msg, Incumbent n as env msg) → t.EntryOf n none) := by
  have hentry := registry_run (n := n) (r := none) ⟨rfl, rfl, rfl⟩ hrun
  constructor
  · intro env msg hinc
    rwa [incumbent_iff.mp hinc] at hentry
  · intro hnone
    cases hl : latch (RegistryStep.event n) none as with
    | none => rwa [hl] at hentry
    | some r => exact absurd ⟨r.1, r.2, incumbent_iff.mpr hl⟩ hnone

/-- A client that is registered registers once more, under another nickname and address. -/
theorem registry_history_twice :
    ∃ t, registrations.run { name := lit "7" }
        [registers (lit "1") (lit "ann:host:80"), registers (lit "1") (lit "bob:host:81")] =
          some t ∧
      t.EntryOf (lit "1")
        (some ({}, { type := .addClient, clientSrc := lit "1", data := lit "ann:host:80" })) := by
  have hrun : (registrations.run { name := lit "7" } [registers (lit "1") (lit "ann:host:80"),
      registers (lit "1") (lit "bob:host:81")]).isSome = true := by decide +kernel
  obtain ⟨t, ht⟩ := Option.isSome_iff_exists.mp hrun
  have hvacant : Vacant (lit "1") [] := fun pre env msg post h => by simp at h
  exact ⟨t, ht, (registry_history (lit "7") _ t (lit "1") ht).1 _ _
    ⟨[], _, rfl, rfl, rfl, by simp [registers], hvacant⟩⟩

end Cimabue
