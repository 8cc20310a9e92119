import Cimabue.Threads.Registry

/-!
# Threads — Forwarding

`executeSendMessage` in the process thread against `removeClient` in the ping thread.  The test of
the destination and the reading of its address are two accesses to the address map, without its
mutex; the sections of a removal, and of the registrations before and after, are those of
`Registry`.

* `forwarding_finds`: where no removal takes the name of a destination that has been tested, every
  address that is read is there.
* `not_forwarding_finds`: a removal between the two accesses.
-/

namespace Cimabue

/-- Where `executeSendMessage` stands: not called, past the test of the destination, with the error
for the sender, with the address; or it has dereferenced `end()`. -/
inductive ForwardAt where
  | idle
  | tested (msg : Message)
  | notFound (msg : Message)
  | found (msg : Message) (address : Bytes)
  | dereferencedEnd
deriving DecidableEq

/-- The registry's threads, with the messages the process thread forwards. -/
structure Forwarder where
  calls : Registry
  place : ForwardAt := .idle

/-- The steps of the two threads. -/
inductive ForwardStep where
  /-- A section of a registration or of a removal. -/
  | sect (a : Section)
  /-- `executeSendMessage`, up to `haveClient` -/
  | haveClient (msg : Message)
  | getClientAddress
  /-- The answer to the sender: the error, or what came back from the destination. -/
  | answer

/-- The sections of the process thread. -/
def Section.isAdd : Section → Bool
  | .addName _ | .addPing _ | .addNickname => true
  | .eraseName _ | .erasePing | .eraseNickname => false

namespace Forwarder

def step (f : Forwarder) : ForwardStep → Option Forwarder
  | .sect a =>
      -- the process thread handles one message at a time
      if a.isAdd ∧ f.place ≠ .idle then none
      else (registry.step f.calls a).map fun r => { f with calls := r }
  | .haveClient msg =>
      if f.place = .idle ∧ f.calls.adding = .idle then
        some { f with
          place := if f.calls.server.haveClient msg.clientDest then .tested msg else .notFound msg }
      else none
  | .getClientAddress =>
      match f.place with
      | .tested msg =>
          match f.calls.server.getClientAddress msg.clientDest with
          | .ok address => some { f with place := .found msg address }
          | .error _ => some { f with place := .dereferencedEnd }
      | _ => none
  | .answer =>
      match f.place with
      | .notFound _ | .found _ _ => some { f with place := .idle }
      | _ => none

end Forwarder

/-- The two threads, step by step. -/
def forwarding : Machine Forwarder ForwardStep where
  step := Forwarder.step

namespace Forwarder

/-- No removal takes the name of a destination that has been tested. -/
def KeepsDestination (f : Forwarder) : ForwardStep → Prop
  | .sect (.eraseName c) =>
      match f.place with
      | .tested msg => msg.clientDest ≠ c
      | _ => True
  | _ => True

instance (f : Forwarder) (a : ForwardStep) : Decidable (f.KeepsDestination a) := by
  unfold KeepsDestination; split
  · split <;> infer_instance
  · infer_instance

/-- A destination that has been tested is registered, and nothing has gone wrong. -/
def Inv (f : Forwarder) : Prop :=
  f.place ≠ .dereferencedEnd ∧
    ∀ msg, f.place = .tested msg → f.calls.server.haveClient msg.clientDest = true

variable {f g : Forwarder}

/-- What a section does to the registered names, while a destination has been tested. -/
theorem haveClient_section {a : Section} {r : Registry} {c : Bytes} (hadd : a.isAdd = false)
    (hne : ∀ d, a = .eraseName d → c ≠ d) (h : registry.step f.calls a = some r) :
    r.server.haveClient c = f.calls.server.haveClient c := by
  cases a with
  | addName | addPing | addNickname => cases hadd
  | eraseName d =>
      obtain ⟨-, rfl⟩ := Registry.step_eraseName h
      rw [Server.haveClient, Server.eraseName, StdMap.find_erase_of_ne _ (hne d rfl)]
      rfl
  | erasePing => obtain ⟨d, -, rfl⟩ := Registry.step_erasePing h; rfl
  | eraseNickname => obtain ⟨d, -, rfl⟩ := Registry.step_eraseNickname h; rfl

theorem inv_section {a : Section} (hinv : f.Inv) (hC : f.KeepsDestination (.sect a))
    (h : forwarding.step f (.sect a) = some g) : g.Inv := by
  simp only [forwarding, step] at h
  split at h
  · cases h
  · next hfree =>
      obtain ⟨r, hr, rfl⟩ := Option.map_eq_some_iff.mp h
      refine ⟨hinv.1, fun msg hat => ?_⟩
      have hadd : a.isAdd = false := by
        by_contra hadd
        exact hfree ⟨by simpa using hadd, by rw [hat]; simp⟩
      rw [haveClient_section hadd (fun d hd => ?_) hr]
      · exact hinv.2 msg hat
      · subst hd
        rw [KeepsDestination, hat] at hC
        exact hC

theorem inv_step {a : ForwardStep} (hinv : f.Inv) (hC : f.KeepsDestination a)
    (h : forwarding.step f a = some g) : g.Inv := by
  cases a with
  | sect a => exact inv_section hinv hC h
  | haveClient msg =>
      simp only [forwarding, step] at h
      split at h
      · cases h
        cases hhave : f.calls.server.haveClient msg.clientDest with
        | false => exact ⟨by simp, by simp⟩
        | true =>
            refine ⟨by simp, fun msg' hat => ?_⟩
            obtain rfl : msg = msg' := by simpa using hat
            exact hhave
      · cases h
  | getClientAddress =>
      simp only [forwarding, step] at h
      split at h
      · next msg hat =>
          -- the destination is still there
          obtain ⟨address, haddress⟩ := Option.isSome_iff_exists.mp (hinv.2 msg hat)
          simp only [Server.getClientAddress, haddress, Option.some.injEq] at h
          subst h
          exact ⟨by simp, by simp⟩
      · cases h
  | answer =>
      simp only [forwarding, step] at h
      split at h
      · cases h; exact ⟨by simp, by simp⟩
      · cases h; exact ⟨by simp, by simp⟩
      · cases h

end Forwarder

/-- **Live destinations.**  In a run where no removal takes the name of a destination that has been
tested and not yet read, no address is read through `end()`. -/
theorem forwarding_finds (s : Server) (as : List ForwardStep)
    (h : forwarding.Meets Forwarder.KeepsDestination { calls := { server := s } } as) :
    forwarding.Always (fun f => f.place ≠ .dereferencedEnd) { calls := { server := s } } as := by
  have hstart : Forwarder.Inv { calls := { server := s } } := ⟨by simp, by simp⟩
  have hinv := Machine.always_of_step
    (fun _ _ _ hinv hC hstep => Forwarder.inv_step hinv hC hstep) hstart h
  exact hinv.imp fun _ hinv => hinv.1

/-- A message to a client, another one's removal on the way. -/
theorem forwarding_finds_other :
    forwarding.Always (fun f => f.place ≠ .dereferencedEnd)
      { calls := { server := { name := lit "7" } } }
      [.sect (.addName { clientSrc := lit "1", data := lit "ann:host:80" }), .sect (.addPing 0),
        .sect .addNickname, .sect (.eraseName (lit "2")), .haveClient { clientDest := lit "1" },
        .sect .erasePing, .getClientAddress, .answer, .sect .eraseNickname,
        .sect (.eraseName (lit "1")), .haveClient { clientDest := lit "1" }, .answer] :=
  forwarding_finds { name := lit "7" } _ (by decide +kernel)

/-- The destination is registered when it is tested, and removed before its address is read. -/
theorem not_forwarding_finds :
    ¬ ∀ (s : Server) (as : List ForwardStep) (f : Forwarder),
      forwarding.run { calls := { server := s } } as = some f → f.place ≠ .dereferencedEnd := by
  intro h
  have hrun : ∃ f, forwarding.run { calls := { server := { name := lit "7" } } }
      [.sect (.addName { clientSrc := lit "1", data := lit "ann:host:80" }), .sect (.addPing 0),
        .sect .addNickname, .haveClient { clientDest := lit "1" }, .sect (.eraseName (lit "1")),
        .getClientAddress] = some f ∧ f.place = .dereferencedEnd := ⟨_, rfl, rfl⟩
  obtain ⟨f, hf, hend⟩ := hrun
  exact h _ _ f hf hend

end Cimabue
