import Cimabue.Support.Machine
import Cimabue.Model.Server

/-!
# Threads — Registry

`executeAddClient` in the process thread against `removeClient` in the ping thread.  Each is three
sections, one for each map and its mutex, and the sections of the two interleave (`registry`).

The calls on one name are consistent with each other when the one that passes the address map last
also passes the other two maps last (`Ordered`).  `Good` says, for each pair of places the two
threads can stand at, what the three maps hold at a name; one lemma for each section keeps it.

* `registry_consistent`: in a run whose sections are in that order, the three maps agree whenever
  no call is in progress.
* `not_registry_consistent`: a removal that overtakes a registration leaves them in disagreement.
-/

namespace Cimabue

/-- Where `executeAddClient` stands: before its first section, before the one on the ping list, or
before the one on the nicknames. -/
inductive AddAt where
  | idle
  | ping (msg : Message)
  | nickname (msg : Message)
deriving DecidableEq

/-- Where `removeClient` stands. -/
inductive RemoveAt where
  | idle
  | ping (c : Bytes)
  | nickname (c : Bytes)
deriving DecidableEq

/-- The maps and the two threads. -/
structure Registry where
  server : Server
  adding : AddAt := .idle
  removing : RemoveAt := .idle

/-- The sections of the two functions; the first of each begins a call. -/
inductive Section where
  | addName (msg : Message)
  | addPing (now : Int)
  | addNickname
  | eraseName (c : Bytes)
  | erasePing
  | eraseNickname

/-- The two threads, section by section. -/
def registry : Machine Registry Section where
  step
    | { server, adding := .idle, removing }, .addName msg =>
        some { server := server.addName msg, adding := .ping msg, removing }
    | { server, adding := .ping msg, removing }, .addPing now =>
        some { server := server.addPing msg now, adding := .nickname msg, removing }
    | { server, adding := .nickname msg, removing }, .addNickname =>
        (server.addNickname msg).toOption.map fun server => { server, adding := .idle, removing }
    | { server, adding, removing := .idle }, .eraseName c =>
        some { server := server.eraseName c, adding, removing := .ping c }
    | { server, adding, removing := .ping c }, .erasePing =>
        some { server := server.erasePing c, adding, removing := .nickname c }
    | { server, adding, removing := .nickname c }, .eraseNickname =>
        some { server := server.eraseNickname c, adding, removing := .idle }
    -- a section whose thread stands elsewhere
    | _, _ => none

/-- `k` is the nickname of the registration text `d`. -/
def NickOf (d : Bytes) (k : Option Bytes) : Prop := ∃ x, k = some x ∧ parseNickname d = .ok x

/-- What three agreeing maps hold at one name: nothing, or an address, a time and the nickname of
the address. -/
def Entered (address : Option Bytes) (pinged : Bool) (nick : Option Bytes) : Prop :=
  (address = none ∧ pinged = false ∧ nick = none) ∨
    ∃ d, address = some d ∧ pinged = true ∧ NickOf d nick

/-- The three maps have the same names, and the nickname of every name is that of its address. -/
def Server.Consistent (s : Server) : Prop :=
  ∀ c, Entered (s.clientNameToIPMap.find c) (s.clientPingList.find c).isSome
    (s.clientNicknameToName.find c)

namespace Registry

/-- No call is in progress. -/
def Quiet (r : Registry) : Prop := r.adding = .idle ∧ r.removing = .idle

/-- The order of the sections on one name.  While both calls are on the way, a registration passes
the next map before the removal only if the registration was the last to pass the addresses, and
the other way round. -/
def Ordered (r : Registry) (a : Section) : Prop :=
  match a, r.adding, r.removing with
  | .addPing _, .ping msg, .ping c | .addNickname, .nickname msg, .ping c
  | .addNickname, .nickname msg, .nickname c =>
      msg.clientSrc = c → r.server.clientNameToIPMap.find c = none
  | .erasePing, .ping msg, .ping c | .eraseNickname, .ping msg, .nickname c
  | .eraseNickname, .nickname msg, .nickname c =>
      msg.clientSrc = c → r.server.clientNameToIPMap.find c ≠ none
  | _, _, _ => True

instance (r : Registry) (a : Section) : Decidable (r.Ordered a) := by
  unfold Ordered; split <;> infer_instance

/-! ### One name -/

/-- Where a registration of one name stands, with its data. -/
inductive Adding where
  | no
  | ping (d : Bytes)
  | nickname (d : Bytes)

/-- Where a removal of one name stands. -/
inductive Removing where
  | no
  | ping
  | nickname

/-- **What the maps hold at a name**, for each pair of places.  With both calls on the way, the
address says which of them passed the address map last. -/
def Good : Adding → Removing → Option Bytes → Bool → Option Bytes → Prop
  | .no, .no, a, p, k => Entered a p k
  | .ping d, .no, a, p, k =>
      ∃ d', a = some d' ∧ (p = true ∧ NickOf d' k ∨ p = false ∧ k = none ∧ d' = d)
  | .nickname d, .no, a, p, k => ∃ d', a = some d' ∧ p = true ∧ (NickOf d' k ∨ k = none ∧ d' = d)
  | .no, .ping, a, _, _ => a = none
  | .no, .nickname, a, p, _ => a = none ∧ p = false
  | .ping d, .ping, a, _, _ => a = none ∨ a = some d
  | .ping d, .nickname, a, p, _ => a = some d ∧ p = false
  | .nickname _, .ping, a, _, _ => a = none
  | .nickname d, .nickname, a, p, _ => (a = none ∧ p = false) ∨ (a = some d ∧ p = true)

section Sections

variable {add : Adding} {rem : Removing} {a k : Option Bytes} {p : Bool} {d x : Bytes}

theorem good_addName (h : Good .no rem a p k) : Good (.ping d) rem (some (a.getD d)) p k := by
  cases rem with
  | no =>
      -- `insert` keeps the address of a client that is there
      rcases h with ⟨rfl, rfl, rfl⟩ | ⟨d', rfl, rfl, hk⟩
      · exact ⟨d, rfl, .inr ⟨rfl, rfl, rfl⟩⟩
      · exact ⟨d', rfl, .inl ⟨rfl, hk⟩⟩
  | ping => subst h; exact .inr rfl
  | nickname => obtain ⟨rfl, rfl⟩ := h; exact ⟨rfl, rfl⟩

theorem good_addPing (h : Good (.ping d) rem a p k) (hC : rem = .ping → a = none) :
    Good (.nickname d) rem a true k := by
  cases rem with
  | no =>
      obtain ⟨d', rfl, ⟨-, hk⟩ | ⟨-, hk, hd⟩⟩ := h
      · exact ⟨d', rfl, rfl, .inl hk⟩
      · exact ⟨d', rfl, rfl, .inr ⟨hk, hd⟩⟩
  | ping => exact hC rfl
  | nickname => exact .inr ⟨h.1, rfl⟩

theorem good_addNickname (h : Good (.nickname d) rem a p k) (hC : rem ≠ .no → a = none)
    (hx : parseNickname d = .ok x) : Good .no rem a p (some (k.getD x)) := by
  cases rem with
  | no =>
      obtain ⟨d', rfl, rfl, ⟨y, rfl, hy⟩ | ⟨rfl, rfl⟩⟩ := h
      · exact .inr ⟨d', rfl, rfl, y, rfl, hy⟩
      · exact .inr ⟨d', rfl, rfl, x, rfl, hx⟩
  | ping => exact h
  | nickname =>
      rcases h with h | ⟨rfl, -⟩
      · exact h
      · exact absurd (hC (by simp)) (by simp)

theorem good_eraseName (h : Good add .no a p k) : Good add .ping none p k := by
  cases add with
  | no => rfl
  | ping d => exact .inl rfl
  | nickname d => rfl

theorem good_erasePing (h : Good add .ping a p k) (hC : ∀ d, add = .ping d → a ≠ none) :
    Good add .nickname a false k := by
  cases add with
  | no => exact ⟨h, rfl⟩
  | ping d => exact ⟨h.resolve_left (hC d rfl), rfl⟩
  | nickname d => exact .inl ⟨h, rfl⟩

theorem good_eraseNickname (h : Good add .nickname a p k) (hC : add ≠ .no → a ≠ none) :
    Good add .no a p none := by
  cases add with
  | no => exact .inl ⟨h.1, h.2, rfl⟩
  | ping d => exact ⟨d, h.1, .inr ⟨h.2, rfl, rfl⟩⟩
  | nickname d =>
      rcases h with ⟨rfl, -⟩ | ⟨ha, hp⟩
      · exact absurd rfl (hC (by simp))
      · exact ⟨d, ha, hp, .inr ⟨rfl, rfl⟩⟩

end Sections

/-! ### The sections -/

theorem step_addName {r t : Registry} {msg : Message}
    (h : registry.step r (.addName msg) = some t) :
    r.adding = .idle ∧ t = { r with server := r.server.addName msg, adding := .ping msg } := by
  obtain ⟨s, add, rem⟩ := r
  cases add <;> simp_all [registry]

theorem step_addPing {r t : Registry} {now : Int} (h : registry.step r (.addPing now) = some t) :
    ∃ msg, r.adding = .ping msg ∧
      t = { r with server := r.server.addPing msg now, adding := .nickname msg } := by
  obtain ⟨s, add, rem⟩ := r
  cases add <;> simp_all [registry]

theorem step_addNickname {r t : Registry} (h : registry.step r .addNickname = some t) :
    ∃ msg x, r.adding = .nickname msg ∧ parseNickname msg.data = .ok x ∧
      t = { r with
        server := { r.server with
          clientNicknameToName := r.server.clientNicknameToName.insert msg.clientSrc x }
        adding := .idle } := by
  obtain ⟨s, add, rem⟩ := r
  cases add with
  | idle | ping msg => simp [registry] at h
  | nickname msg =>
      simp only [registry, Server.addNickname] at h
      cases hx : parseNickname msg.data with
      | error f => simp [hx, Except.toOption] at h
      | ok x =>
          refine ⟨msg, x, rfl, hx, ?_⟩
          simpa [hx, Except.toOption] using h.symm

theorem step_eraseName {r t : Registry} {c : Bytes} (h : registry.step r (.eraseName c) = some t) :
    r.removing = .idle ∧ t = { r with server := r.server.eraseName c, removing := .ping c } := by
  obtain ⟨s, add, rem⟩ := r
  cases rem <;> simp_all [registry]

theorem step_erasePing {r t : Registry} (h : registry.step r .erasePing = some t) :
    ∃ c, r.removing = .ping c ∧
      t = { r with server := r.server.erasePing c, removing := .nickname c } := by
  obtain ⟨s, add, rem⟩ := r
  cases rem <;> simp_all [registry]

theorem step_eraseNickname {r t : Registry} (h : registry.step r .eraseNickname = some t) :
    ∃ c, r.removing = .nickname c ∧
      t = { r with server := r.server.eraseNickname c, removing := .idle } := by
  obtain ⟨s, add, rem⟩ := r
  cases rem <;> simp_all [registry]

/-! ### Every name -/

/-- Where the registration stands, for the name `c`. -/
def addingOf (c : Bytes) : AddAt → Adding
  | .idle => .no
  | .ping msg => if msg.clientSrc = c then .ping msg.data else .no
  | .nickname msg => if msg.clientSrc = c then .nickname msg.data else .no

/-- Where the removal stands, for the name `c`. -/
def removingOf (c : Bytes) : RemoveAt → Removing
  | .idle => .no
  | .ping c' => if c' = c then .ping else .no
  | .nickname c' => if c' = c then .nickname else .no

theorem addingOf_eq_ping {c d : Bytes} {a : AddAt} (h : addingOf c a = .ping d) :
    ∃ msg, a = .ping msg ∧ msg.clientSrc = c := by
  cases a with
  | idle => cases h
  | ping msg => simp only [addingOf] at h; split_ifs at h with hc; exact ⟨msg, rfl, hc⟩
  | nickname msg => simp only [addingOf] at h; split_ifs at h

theorem addingOf_ne_no {c : Bytes} {a : AddAt} (h : addingOf c a ≠ .no) :
    ∃ msg, (a = .ping msg ∨ a = .nickname msg) ∧ msg.clientSrc = c := by
  cases a with
  | idle => exact absurd rfl h
  | ping msg =>
      by_cases hc : msg.clientSrc = c
      · exact ⟨msg, .inl rfl, hc⟩
      · exact absurd (if_neg hc) h
  | nickname msg =>
      by_cases hc : msg.clientSrc = c
      · exact ⟨msg, .inr rfl, hc⟩
      · exact absurd (if_neg hc) h

theorem removingOf_eq_ping {c : Bytes} {a : RemoveAt} (h : removingOf c a = .ping) :
    a = .ping c := by
  cases a with
  | idle => cases h
  | ping c' => simp only [removingOf] at h; split_ifs at h with hc; rw [hc]
  | nickname c' => simp only [removingOf] at h; split_ifs at h

theorem removingOf_ne_no {c : Bytes} {a : RemoveAt} (h : removingOf c a ≠ .no) :
    a = .ping c ∨ a = .nickname c := by
  cases a with
  | idle => exact absurd rfl h
  | ping c' =>
      by_cases hc : c' = c
      · exact .inl (by rw [hc])
      · exact absurd (if_neg hc) h
  | nickname c' =>
      by_cases hc : c' = c
      · exact .inr (by rw [hc])
      · exact absurd (if_neg hc) h

/-- At every name the maps are as the two threads' places say. -/
def Inv (r : Registry) : Prop :=
  ∀ c, Good (addingOf c r.adding) (removingOf c r.removing) (r.server.clientNameToIPMap.find c)
    (r.server.clientPingList.find c).isSome (r.server.clientNicknameToName.find c)

theorem inv_addName {r t : Registry} {msg : Message} (hinv : r.Inv)
    (h : registry.step r (.addName msg) = some t) : t.Inv := by
  obtain ⟨hidle, rfl⟩ := step_addName h
  intro c
  have hc := hinv c
  simp only [hidle, addingOf] at hc
  simp only [addingOf, Server.addName, StdMap.find_insert]
  by_cases hmsg : msg.clientSrc = c
  · subst hmsg
    simp only [if_true]
    exact good_addName hc
  · simpa [hmsg, Ne.symm hmsg] using hc

theorem inv_addPing {r t : Registry} {now : Int} (hinv : r.Inv) (hC : r.Ordered (.addPing now))
    (h : registry.step r (.addPing now) = some t) : t.Inv := by
  obtain ⟨msg, hat, rfl⟩ := step_addPing h
  intro c
  have hc := hinv c
  simp only [hat, addingOf] at hc
  simp only [addingOf, Server.addPing, StdMap.isSome_find_insert]
  by_cases hmsg : msg.clientSrc = c
  · subst hmsg
    simp only [if_true] at hc
    simp only [if_true, decide_true, Bool.true_or]
    refine good_addPing hc fun hrem => ?_
    simp only [Ordered, hat, removingOf_eq_ping hrem] at hC
    exact hC trivial
  · simpa [hmsg, Ne.symm hmsg] using hc

theorem inv_addNickname {r t : Registry} (hinv : r.Inv) (hC : r.Ordered .addNickname)
    (h : registry.step r .addNickname = some t) : t.Inv := by
  obtain ⟨msg, x, hat, hx, rfl⟩ := step_addNickname h
  intro c
  have hc := hinv c
  simp only [hat, addingOf] at hc
  simp only [addingOf, StdMap.find_insert]
  by_cases hmsg : msg.clientSrc = c
  · subst hmsg
    simp only [if_true] at hc ⊢
    refine good_addNickname hc (fun hrem => ?_) hx
    rcases removingOf_ne_no hrem with hr | hr <;> simp only [Ordered, hat, hr] at hC <;> exact hC trivial
  · simpa [hmsg, Ne.symm hmsg] using hc

theorem inv_eraseName {r t : Registry} {c : Bytes} (hinv : r.Inv)
    (h : registry.step r (.eraseName c) = some t) : t.Inv := by
  obtain ⟨hidle, rfl⟩ := step_eraseName h
  intro c'
  have hc := hinv c'
  simp only [hidle, removingOf] at hc
  simp only [removingOf, Server.eraseName, StdMap.find_erase]
  by_cases hcc : c = c'
  · subst hcc
    simp only [if_true]
    exact good_eraseName hc
  · simpa [hcc, Ne.symm hcc] using hc

theorem inv_erasePing {r t : Registry} (hinv : r.Inv) (hC : r.Ordered .erasePing)
    (h : registry.step r .erasePing = some t) : t.Inv := by
  obtain ⟨c, hat, rfl⟩ := step_erasePing h
  intro c'
  have hc := hinv c'
  simp only [hat, removingOf] at hc
  simp only [removingOf, Server.erasePing, StdMap.find_erase]
  by_cases hcc : c = c'
  · subst hcc
    simp only [if_true] at hc
    simp only [if_true, Option.isSome_none]
    refine good_erasePing hc fun d hadd => ?_
    obtain ⟨msg, ha, rfl⟩ := addingOf_eq_ping hadd
    simp only [Ordered, hat, ha] at hC
    exact hC trivial
  · simpa [hcc, Ne.symm hcc] using hc

theorem inv_eraseNickname {r t : Registry} (hinv : r.Inv) (hC : r.Ordered .eraseNickname)
    (h : registry.step r .eraseNickname = some t) : t.Inv := by
  obtain ⟨c, hat, rfl⟩ := step_eraseNickname h
  intro c'
  have hc := hinv c'
  simp only [hat, removingOf] at hc
  simp only [removingOf, Server.eraseNickname, StdMap.find_erase]
  by_cases hcc : c = c'
  · subst hcc
    simp only [if_true] at hc ⊢
    refine good_eraseNickname hc fun hadd => ?_
    obtain ⟨msg, ha | ha, rfl⟩ := addingOf_ne_no hadd <;> simp only [Ordered, hat, ha] at hC <;>
      exact hC trivial
  · simpa [hcc, Ne.symm hcc] using hc

theorem inv_step {r t : Registry} {a : Section} (hinv : r.Inv) (hC : r.Ordered a)
    (h : registry.step r a = some t) : t.Inv := by
  cases a with
  | addName msg => exact inv_addName hinv h
  | addPing now => exact inv_addPing hinv hC h
  | addNickname => exact inv_addNickname hinv hC h
  | eraseName c => exact inv_eraseName hinv h
  | erasePing => exact inv_erasePing hinv hC h
  | eraseNickname => exact inv_eraseNickname hinv hC h

/-- With no call in progress, the maps agree. -/
theorem Inv.consistent {r : Registry} (hinv : r.Inv) (hq : r.Quiet) : r.server.Consistent := by
  intro c
  have hc := hinv c
  rwa [hq.1, hq.2] at hc

end Registry

/-- **Consistent registries.**  From a registry whose maps agree, along any interleaving whose
sections are in order, the maps agree whenever no call is in progress. -/
theorem registry_consistent (s : Server) (hs : s.Consistent) (as : List Section)
    (h : registry.Meets Registry.Ordered { server := s } as) :
    registry.Always (fun r => r.Quiet → r.server.Consistent) { server := s } as := by
  have hstart : Registry.Inv { server := s } := hs
  have hinv := Machine.always_of_step (fun _ _ _ hinv hC hstep => Registry.inv_step hinv hC hstep)
    hstart h
  exact hinv.imp fun _ hinv => hinv.consistent

/-- A removal that goes first at every map, while a registration of the same name is on its way. -/
theorem registry_consistent_behind :
    registry.Always (fun r => r.Quiet → r.server.Consistent) { server := { name := lit "7" } }
      [.eraseName (lit "1"), .addName { clientSrc := lit "1", data := lit "ann:host:80" }, .erasePing,
        .addPing 0, .eraseNickname, .addNickname] :=
  registry_consistent { name := lit "7" } (fun _ => .inl ⟨rfl, rfl, rfl⟩) _ (by decide +kernel)

/-- A client registers and, when it has timed out, registers again; between the sections of its
second registration it is removed. -/
theorem not_registry_consistent :
    ¬ ∀ (s : Server) (as : List Section) (r : Registry), s.Consistent →
      registry.run { server := s } as = some r → r.Quiet → r.server.Consistent := by
  intro h
  have hrun : (registry.run { server := { name := lit "7" } }
      [.addName { clientSrc := lit "1", data := lit "ann:host:80" }, .addPing 0, .addNickname,
        .addName { clientSrc := lit "1", data := lit "ann:host:80" },
        .eraseName (lit "1"), .erasePing, .eraseNickname, .addPing 9, .addNickname]).any
      (fun r => r.adding = .idle && r.removing = .idle &&
        r.server.clientNameToIPMap.find (lit "1") = none &&
        r.server.clientPingList.find (lit "1") = some 9) = true := by decide +kernel
  obtain ⟨r, hr, hcheck⟩ := (Option.any_eq_true _ _).mp hrun
  simp only [Bool.and_eq_true, decide_eq_true_eq] at hcheck
  obtain ⟨⟨⟨hadd, hrem⟩, hname⟩, hping⟩ := hcheck
  rcases h _ _ r (fun _ => .inl ⟨rfl, rfl, rfl⟩) hr ⟨hadd, hrem⟩ (lit "1") with ⟨-, hp, -⟩ | ⟨d, hd, -⟩
  · rw [hping] at hp; cases hp
  · rw [hname] at hd; cases hd

end Cimabue
