import Cimabue.System.Delivery
import Cimabue.Wire.Address
import Cimabue.Wire.ListCodec
import Cimabue.Wire.RoundTrip
import Mathlib.Data.List.Nodup

/-!
# System — Broadcast

The clients of the system (`Clients`), the delivery of a server's messages to them (`deliverAll`),
and the two broadcasts: what `updateClientListAdd` and `updateClientListRem` send, and what the
clients make of it.

* `sendUpdates_ok`: over clients whose addresses parse, a broadcast sends its message to each.
* `deliverAll_ok`: messages to different clients change each of these clients by its own message,
  and no other.
* `processDownMessage_updateAdd`, `processDownMessage_updateRem`: what one update does to one
  directory.
* `broadcastAdd_ok`, `broadcastRem_ok`: the two broadcasts, from the server to the directories.
-/

namespace Cimabue

/-- The clients of the system, by name. -/
abbrev Clients := Bytes → Option Client

namespace Clients

/-- The client `c` under the name `k`. -/
def set (cs : Clients) (k : Bytes) (c : Client) : Clients := fun j => if j = k then some c else cs j

@[simp] theorem set_self (cs : Clients) (k : Bytes) (c : Client) : cs.set k c k = some c := by
  simp [set]

theorem set_of_ne (cs : Clients) {j k : Bytes} (c : Client) (h : j ≠ k) : cs.set k c j = cs j := by
  simp [set, h]

/-- What `Send` gets from the addressee of a packet. -/
def exchange (cs : Clients) (p : Packet) : Message.Transport :=
  match cs p.msg.clientDest with
  | none => .noConnection
  | some c => .exchanged (c.answer p.msg.serialize)

/-- The addressee of `m` handles it. -/
def deliver (cs : Clients) (m : Message) : Except Fault Clients :=
  match cs m.clientDest with
  | none => pure cs
  | some c => do
      let (c, _, _) ← c.handle m.serialize
      pure (cs.set m.clientDest c)

/-- The addressees of `ms` handle them, one after the other. -/
def deliverAll : Clients → List Message → Except Fault Clients
  | cs, [] => pure cs
  | cs, m :: ms => do
      let cs ← cs.deliver m
      cs.deliverAll ms

theorem send_exchange (cs : Clients) (p : Packet) :
    ∃ reply, Message.send (cs.exchange p) = .ok reply := by
  rw [exchange]
  cases cs p.msg.clientDest with
  | none => exact ⟨_, rfl⟩
  | some c => exact send_answer c _

/-! ### Delivery -/

theorem deliver_ok {cs : Clients} {m : Message} {c c' : Client} {effects : List Effect} {ret : Ret}
    (hd : Delivered m) (hc : cs m.clientDest = some c)
    (h : c.processDownMessage m = .ok (c', effects, ret)) :
    cs.deliver m = .ok (cs.set m.clientDest c') := by
  simp [deliver, hc, handle_of_delivered hd, h]

/-- **Delivery to different clients**: each addressee handles its own message, which is to change it
by `change`, and no other client changes. -/
theorem deliverAll_ok {cs : Clients} {ms : List Message} (change : Bytes → Client → Client)
    (hnodup : (ms.map (·.clientDest)).Nodup) (hd : ∀ m ∈ ms, Delivered m)
    (h : ∀ m ∈ ms, ∃ c effects ret, cs m.clientDest = some c ∧
      c.processDownMessage m = .ok (change m.clientDest c, effects, ret)) :
    ∃ cs', cs.deliverAll ms = .ok cs' ∧
      ∀ k, cs' k = if k ∈ ms.map (·.clientDest) then (cs k).map (change k) else cs k := by
  induction ms generalizing cs with
  | nil => exact ⟨cs, rfl, fun k => by simp⟩
  | cons m ms ih =>
      obtain ⟨hm, hnodup⟩ := List.nodup_cons.mp hnodup
      obtain ⟨c, effects, ret, hc, hdown⟩ := h m (by simp)
      have hstep := deliver_ok (hd m (by simp)) hc hdown
      have hne : ∀ m' ∈ ms, m'.clientDest ≠ m.clientDest := fun m' hm' e =>
        hm (List.mem_map.mpr ⟨m', hm', e⟩)
      -- the other addressees are as they were
      have hrest : ∀ m' ∈ ms, ∃ c' effects ret,
          cs.set m.clientDest (change m.clientDest c) m'.clientDest = some c' ∧
            c'.processDownMessage m' = .ok (change m'.clientDest c', effects, ret) := by
        intro m' hm'
        rw [set_of_ne _ _ (hne m' hm')]
        exact h m' (List.mem_cons_of_mem _ hm')
      obtain ⟨cs', hall, hcs'⟩ := ih hnodup (fun m' hm' => hd m' (List.mem_cons_of_mem _ hm')) hrest
      refine ⟨cs', by rw [deliverAll, hstep]; exact hall, fun k => ?_⟩
      rw [hcs' k, List.map_cons]
      by_cases hk : k = m.clientDest
      · subst hk
        rw [if_neg hm, set_self, if_pos (by simp), hc, Option.map_some]
      · rw [set_of_ne _ _ hk]
        simp [hk]

end Clients

/-! ### One update -/

namespace Client

/-- The client without the entry of the client named `v`. -/
def forget (c : Client) (v : Bytes) : Client :=
  match c.removeByName v with
  | none => c
  | some (_, c) => c

/-- The client with more entries, first ones kept. -/
def learn (c : Client) (ps : List (Bytes × Bytes)) : Client :=
  { c with clientNickToNameMap := c.clientNickToNameMap.insertAll ps }

theorem processDownMessage_updateAdd {c : Client} {m : Message} {ps : List (Bytes × Bytes)}
    (hdest : m.clientDest = c.name) (htype : m.type = .updateAddClients)
    (hdata : decodeUpdate m.data = .ok ps) :
    ∃ effects ret, c.processDownMessage m = .ok (c.learn ps, effects, ret) := by
  rw [processDownMessage, if_neg (not_not.mpr hdest), htype]
  simp only [hdata]
  exact ⟨_, _, rfl⟩

theorem processDownMessage_updateRem {c : Client} {m : Message} (hdest : m.clientDest = c.name)
    (htype : m.type = .updateRemClients) :
    ∃ effects ret, c.processDownMessage m = .ok (c.forget m.data, effects, ret) := by
  rw [processDownMessage, if_neg (not_not.mpr hdest), htype]
  simp only [forget]
  cases c.removeByName m.data with
  | none => exact ⟨_, _, rfl⟩
  | some r => obtain ⟨nick, c'⟩ := r; exact ⟨_, _, rfl⟩

/-- A removal changes the directory at most. -/
theorem forget_eq (c : Client) (v : Bytes) :
    ∃ map, c.forget v = { c with clientNickToNameMap := map } := by
  rw [forget, removeByName]
  cases c.clientNickToNameMap.entries.find? (·.2 = v) with
  | none => exact ⟨_, rfl⟩
  | some e => exact ⟨_, rfl⟩

@[simp] theorem name_forget (c : Client) (v : Bytes) : (c.forget v).name = c.name := by
  obtain ⟨map, h⟩ := c.forget_eq v
  rw [h]

@[simp] theorem nickname_forget (c : Client) (v : Bytes) : (c.forget v).nickname = c.nickname := by
  obtain ⟨map, h⟩ := c.forget_eq v
  rw [h]

theorem find_learn (c : Client) (ps : List (Bytes × Bytes)) (x : Bytes) :
    (c.learn ps).clientNickToNameMap.find x =
      (c.clientNickToNameMap.find x).or ((ps.find? (·.1 = x)).map (·.2)) :=
  StdMap.find_insertAll c.clientNickToNameMap ps x

/-- What is left after a removal was there before. -/
theorem find_of_find_forget {c : Client} {v x u : Bytes}
    (h : (c.forget v).clientNickToNameMap.find x = some u) :
    c.clientNickToNameMap.find x = some u := by
  rw [forget, removeByName] at h
  cases he : c.clientNickToNameMap.entries.find? (·.2 = v) with
  | none => simpa [he] using h
  | some e =>
      simp only [he, Option.map_some] at h
      rw [StdMap.find_erase] at h
      split_ifs at h
      exact h

/-- A removal leaves the entries of the other clients. -/
theorem find_forget_of_ne {c : Client} {v x u : Bytes} (hu : u ≠ v)
    (h : c.clientNickToNameMap.find x = some u) :
    (c.forget v).clientNickToNameMap.find x = some u := by
  rw [forget, removeByName]
  cases he : c.clientNickToNameMap.entries.find? (·.2 = v) with
  | none => simpa using h
  | some e =>
      have hev : e.2 = v := by simpa using List.find?_some he
      have hne : x ≠ e.1 := by
        intro hx
        have := StdMap.find_of_mem (List.mem_of_find?_eq_some he)
        rw [← hx, h, hev] at this
        exact hu (Option.some.inj this)
      simpa [StdMap.find_erase_of_ne _ hne] using h

/-- A removal leaves no entry of the client, if it had one at most. -/
theorem find_forget_ne {c : Client} {v : Bytes}
    (huniq : ∀ x y, c.clientNickToNameMap.find x = some v →
      c.clientNickToNameMap.find y = some v → x = y) (x : Bytes) :
    (c.forget v).clientNickToNameMap.find x ≠ some v := by
  intro h
  have hx := find_of_find_forget h
  rw [forget, removeByName] at h
  cases he : c.clientNickToNameMap.entries.find? (·.2 = v) with
  | none =>
      have := List.find?_eq_none.mp he ⟨x, v⟩ (StdMap.find_eq_some_iff.mp hx)
      simp at this
  | some e =>
      have hev : e.2 = v := by simpa using List.find?_some he
      -- the entry that was erased is the one that is left
      have hxe : x = e.1 := huniq x e.1 hx
        (by rw [StdMap.find_of_mem (List.mem_of_find?_eq_some he), hev])
      simp [he, hxe] at h

end Client

/-! ### A broadcast -/

namespace Server

theorem sendUpdates_ok {env : Env} {update : Bytes → Except Fault (Option Message)}
    {upd : Bytes → Option Message} {l : List ((_ : Bytes) × Bytes)}
    (hex : ∀ p, ∃ reply, Message.send (env.exchange p) = .ok reply)
    (haddr : ∀ e ∈ l, Reachable e.2) (hupd : ∀ k, update k = .ok (upd k)) :
    ∃ ps, sendUpdates env update l = .ok ps ∧
      ps.map (·.msg) = l.filterMap fun e => upd e.1 := by
  induction l with
  | nil => exact ⟨[], rfl, rfl⟩
  | cons e l ih =>
      obtain ⟨client, address⟩ := e
      obtain ⟨ps, hps, hmsgs⟩ := ih fun e he => haddr e (List.mem_cons_of_mem _ he)
      obtain ⟨ip, port, hparse⟩ := haddr ⟨client, address⟩ (by simp)
      cases hu : upd client with
      | none =>
          refine ⟨ps, ?_, by simp [hu, hmsgs]⟩
          simp only [sendUpdates, hupd, hu, ok_bind, hps]
      | some m =>
          obtain ⟨reply, hreply⟩ := hex { ip, port, msg := m }
          refine ⟨{ ip, port, msg := m } :: ps, ?_, by simp [hu, hmsgs]⟩
          simp only [sendUpdates, hupd, hu, ok_bind, hparse, hreply, hps, pure_eq_ok]

/-- The messages of a broadcast have different addressees. -/
theorem nodup_clientDest {names : StdMap Bytes Bytes} {upd : Bytes → Option Message}
    (hdest : ∀ k m, upd k = some m → m.clientDest = k) :
    ((names.entries.filterMap fun e => upd e.1).map (·.clientDest)).Nodup := by
  refine List.pairwise_map.mpr (List.pairwise_filterMap.mpr (names.sorted.imp ?_))
  intro e e' hlt m hm m' hm' heq
  rw [hdest _ _ hm, hdest _ _ hm'] at heq
  exact absurd heq (ne_of_lt hlt)

theorem mem_updates {names : StdMap Bytes Bytes} (upd : Bytes → Option Message) {m : Message} :
    m ∈ (names.entries.filterMap fun e => upd e.1) ↔
      ∃ k, (names.find k).isSome ∧ upd k = some m := by
  rw [List.mem_filterMap]
  constructor
  · rintro ⟨e, he, hm⟩
    exact ⟨e.1, by rw [StdMap.find_of_mem he]; rfl, hm⟩
  · rintro ⟨k, hk, hm⟩
    obtain ⟨a, ha⟩ := Option.isSome_iff_exists.mp hk
    exact ⟨⟨k, a⟩, StdMap.find_eq_some_iff.mp ha, hm⟩

/-- **A broadcast, delivered**: every registered client the broadcast has a message for is changed
by its message, and no other client changes. -/
theorem deliver_updates (cs : Clients) (names : StdMap Bytes Bytes) (upd : Bytes → Option Message)
    (change : Bytes → Client → Client) (hdest : ∀ k m, upd k = some m → m.clientDest = k)
    (hd : ∀ k m, (names.find k).isSome → upd k = some m → Delivered m)
    (h : ∀ k m, (names.find k).isSome → upd k = some m → ∃ c effects ret, cs k = some c ∧
      c.processDownMessage m = .ok (change k c, effects, ret)) :
    ∃ cs', cs.deliverAll (names.entries.filterMap fun e => upd e.1) = .ok cs' ∧
      ∀ k, cs' k =
        if (names.find k).isSome ∧ (upd k).isSome then (cs k).map (change k) else cs k := by
  obtain ⟨cs', hall, hcs'⟩ := Clients.deliverAll_ok change (nodup_clientDest hdest)
    (fun m hm => by obtain ⟨k, hk, hm⟩ := (mem_updates upd).mp hm; exact hd k m hk hm)
    (fun m hm => by
      obtain ⟨k, hk, hm⟩ := (mem_updates upd).mp hm
      rw [hdest k m hm]
      exact h k m hk hm)
  refine ⟨cs', hall, fun k => ?_⟩
  have hmem : k ∈ (names.entries.filterMap fun e => upd e.1).map (·.clientDest) ↔
      (names.find k).isSome ∧ (upd k).isSome := by
    rw [List.mem_map]
    constructor
    · rintro ⟨m, hm, rfl⟩
      obtain ⟨k, hk, hm⟩ := (mem_updates upd).mp hm
      rw [hdest k m hm, hm]
      exact ⟨hk, rfl⟩
    · rintro ⟨hk, hm⟩
      obtain ⟨m, hm⟩ := Option.isSome_iff_exists.mp hm
      exact ⟨m, (mem_updates upd).mpr ⟨k, hk, hm⟩, hdest k m hm⟩
  rw [hcs' k]
  by_cases hk : (names.find k).isSome ∧ (upd k).isSome
  · rw [if_pos hk, if_pos (hmem.mpr hk)]
  · rw [if_neg hk, if_neg fun h => hk (hmem.mp h)]

/-! ### The two broadcasts -/

/-- A list that was delivered is one an `int` counts. -/
theorem size_lt_of_delivered {s : Server} {type : MessageType} {client : Bytes}
    {nicks : StdMap Bytes Bytes}
    (h : Delivered (s.updateMessage type client (listEntry nicks))) : nicks.size < 2 ^ 31 := by
  obtain ⟨-, -, hclean⟩ := Message.of_recv_serialize h
  have hfit := Message.headLength_le_of_recv hclean h
  have hlen : nicks.size ≤ (listEntry nicks).length := by
    rw [listEntry_eq_listText, ← length_nickPairs]
    exact length_le_listText _
  simp only [Message.headLength, updateMessage, msgBufferSize] at hfit
  omega

/-- The message `updateClientListAdd` has for the client `k`. -/
def addUpdate (s : Server) (nick src k : Bytes) : Message :=
  if k ≠ src then s.updateMessage .updateAddClients k (newcomerEntry nick src)
  else s.updateMessage .updateAddClients src (listEntry s.clientNicknameToName)

theorem updateAdd_eq (s : Server) {msg : Message} {nick : Bytes}
    (hnick : parseNickname msg.data = .ok nick) (k : Bytes) :
    s.updateAdd msg k = .ok (some (s.addUpdate nick msg.clientSrc k)) := by
  rw [updateAdd, addUpdate]
  split_ifs with h
  · simp [hnick]
  · rfl

theorem type_addUpdate (s : Server) (nick src k : Bytes) :
    (s.addUpdate nick src k).type = .updateAddClients := by
  rw [addUpdate]
  split_ifs <;> rfl

/-- The pairs that message carries. -/
def announced (s : Server) (nick src k : Bytes) : List (Bytes × Bytes) :=
  if k = src then nickPairs s.clientNicknameToName else [(nick, src)]

@[simp] theorem announced_self (s : Server) (nick src : Bytes) :
    s.announced nick src src = nickPairs s.clientNicknameToName := if_pos rfl

theorem announced_of_ne (s : Server) (nick : Bytes) {src k : Bytes} (h : k ≠ src) :
    s.announced nick src k = [(nick, src)] := if_neg h

/-- The message for the newcomer carries the full list. -/
theorem data_addUpdate_self (s : Server) (nick src : Bytes) :
    (s.addUpdate nick src src).data = listEntry s.clientNicknameToName := by
  simp [addUpdate, updateMessage]

theorem clientDest_addUpdate (s : Server) (nick src k : Bytes) :
    (s.addUpdate nick src k).clientDest = k := by
  rw [addUpdate]
  split_ifs with h
  · rfl
  · exact (not_not.mp h).symm

theorem decodeUpdate_addUpdate {s : Server} {nick src k : Bytes} (hnew : Unsplit (nick, src))
    (hnicks : ∀ p ∈ nickPairs s.clientNicknameToName, Unsplit p)
    (hd : Delivered (s.addUpdate nick src k)) :
    decodeUpdate (s.addUpdate nick src k).data = .ok (s.announced nick src k) := by
  by_cases h : k = src
  · subst h
    simp only [addUpdate, ne_eq, not_true_eq_false, if_false] at hd
    rw [data_addUpdate_self, announced_self]
    exact decodeUpdate_listEntry (size_lt_of_delivered hd) hnicks
  · simp only [addUpdate, announced_of_ne s nick h, ne_eq, h, not_false_eq_true, if_true]
    exact decodeUpdate_newcomerEntry hnew

/-- **The broadcast of a registration**: every registered client learns what its message tells. -/
theorem broadcastAdd_ok (s : Server) (cs : Clients) (env : Env) (msg : Message) {nick : Bytes}
    {told : Bytes → List (Bytes × Bytes)}
    (hex : ∀ p, ∃ reply, Message.send (env.exchange p) = .ok reply)
    (haddr : ∀ k a, s.clientNameToIPMap.find k = some a → Reachable a)
    (hcs : ∀ k, (s.clientNameToIPMap.find k).isSome → ∃ c, cs k = some c ∧ c.name = k)
    (hnick : parseNickname msg.data = .ok nick)
    (htold : ∀ k, Delivered (s.addUpdate nick msg.clientSrc k) →
      decodeUpdate (s.addUpdate nick msg.clientSrc k).data = .ok (told k)) :
    ∃ ps, s.updateClientListAdd env msg = .ok ps ∧
      ((∀ p ∈ ps, Delivered p.msg) → ∃ cs', cs.deliverAll (ps.map (·.msg)) = .ok cs' ∧
        ∀ k, cs' k =
          if (s.clientNameToIPMap.find k).isSome then (cs k).map (·.learn (told k)) else cs k) := by
  obtain ⟨ps, hps, hmsgs⟩ := sendUpdates_ok hex
    (fun e he => haddr e.1 e.2 (StdMap.find_of_mem he)) (s.updateAdd_eq hnick)
  refine ⟨ps, hps, fun hd => ?_⟩
  have hd' : ∀ k, (s.clientNameToIPMap.find k).isSome →
      Delivered (s.addUpdate nick msg.clientSrc k) := by
    intro k hk
    have hmem : s.addUpdate nick msg.clientSrc k ∈ ps.map (·.msg) :=
      hmsgs ▸ (mem_updates fun k => some (s.addUpdate nick msg.clientSrc k)).mpr ⟨k, hk, rfl⟩
    obtain ⟨p, hp, he⟩ := List.mem_map.mp hmem
    exact he ▸ hd p hp
  obtain ⟨cs', hall, hcs'⟩ := deliver_updates cs s.clientNameToIPMap
    (fun k => some (s.addUpdate nick msg.clientSrc k)) (fun k c => c.learn (told k))
    (fun k m hm => Option.some.inj hm ▸ s.clientDest_addUpdate nick msg.clientSrc k)
    (fun k m hk hm => Option.some.inj hm ▸ hd' k hk)
    (fun k m hk hm => by
      obtain rfl := Option.some.inj hm
      obtain ⟨c, hc, hname⟩ := hcs k hk
      obtain ⟨effects, ret, hdown⟩ := Client.processDownMessage_updateAdd (c := c)
        ((s.clientDest_addUpdate nick msg.clientSrc k).trans hname.symm)
        (s.type_addUpdate nick msg.clientSrc k) (htold k (hd' k hk))
      exact ⟨c, effects, ret, hc, hdown⟩)
  refine ⟨cs', hmsgs ▸ hall, fun k => ?_⟩
  simpa using hcs' k

/-- The message `updateClientListRem` has for the client `k`. -/
def remUpdate (s : Server) (v k : Bytes) : Option Message :=
  if k ≠ v then some (s.updateMessage .updateRemClients k v) else none

theorem remUpdate_eq_some {s : Server} {v k : Bytes} {m : Message}
    (h : s.remUpdate v k = some m) : m = s.updateMessage .updateRemClients k v := by
  rw [remUpdate] at h
  split_ifs at h
  exact (Option.some.inj h).symm

/-- **The broadcast of an eviction**: every other registered client drops the first entry of the
one that is evicted. -/
theorem broadcastRem_ok (s : Server) (cs : Clients) (env : Env) (v : Bytes)
    (hex : ∀ p, ∃ reply, Message.send (env.exchange p) = .ok reply)
    (haddr : ∀ k a, s.clientNameToIPMap.find k = some a → Reachable a)
    (hcs : ∀ k, (s.clientNameToIPMap.find k).isSome → ∃ c, cs k = some c ∧ c.name = k) :
    ∃ ps, s.updateClientListRem env v = .ok ps ∧
      ((∀ p ∈ ps, Delivered p.msg) → ∃ cs', cs.deliverAll (ps.map (·.msg)) = .ok cs' ∧
        ∀ k, cs' k =
          if (s.clientNameToIPMap.find k).isSome ∧ k ≠ v then (cs k).map (·.forget v)
          else cs k) := by
  have hupd : ∀ k, s.updateRem v k = .ok (s.remUpdate v k) := by
    intro k
    rw [updateRem, remUpdate]
    split_ifs <;> rfl
  obtain ⟨ps, hps, hmsgs⟩ := sendUpdates_ok hex
    (fun e he => haddr e.1 e.2 (StdMap.find_of_mem he)) hupd
  refine ⟨ps, hps, fun hd => ?_⟩
  obtain ⟨cs', hall, hcs'⟩ := deliver_updates cs s.clientNameToIPMap (s.remUpdate v)
    (fun _ c => c.forget v)
    (fun k m hm => by rw [remUpdate_eq_some hm]; rfl)
    (fun k m hk hm => by
      have hmem : m ∈ ps.map (·.msg) := hmsgs ▸ (mem_updates (s.remUpdate v)).mpr ⟨k, hk, hm⟩
      obtain ⟨p, hp, rfl⟩ := List.mem_map.mp hmem
      exact hd p hp)
    (fun k m hk hm => by
      obtain rfl := remUpdate_eq_some hm
      obtain ⟨c, hc, hname⟩ := hcs k hk
      obtain ⟨effects, ret, hdown⟩ := Client.processDownMessage_updateRem (c := c)
        (m := s.updateMessage .updateRemClients k v) hname.symm rfl
      exact ⟨c, effects, ret, hc, hdown⟩)
  refine ⟨cs', hmsgs ▸ hall, fun k => ?_⟩
  rw [hcs' k]
  by_cases hk : k = v <;> simp [remUpdate, hk]

end Server

end Cimabue
