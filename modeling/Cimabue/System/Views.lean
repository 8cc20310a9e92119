import Cimabue.Support.Machine
import Cimabue.Model.View
import Cimabue.Wire.ListCodec
import Cimabue.System.Relay

/-!
# System — Views

What a client shows: the events of its handlers, with the texts they were built from, and the list
of clients a view keeps by them.

Each array of an event is written with the length of the text, so that a text which leaves no byte
for the NUL is not held; and the view appends every nickname that is announced, while the directory
keeps the entry it has.

* `events_hold_iff`: the texts decoded of any stream are held exactly when they are shorter than
  their arrays.
* `not_events_hold`: a sender with a nickname of 128 bytes.
* `view_agrees_iff`: along any list of announcements, the view lists the nicknames of the directory
  exactly when each announcement brings nicknames that are new.
* `not_view_agrees`: an announcement that comes twice.
* `Event.line_message`, `lines_of_updateViews`: the lines that a view reads of events.
-/

namespace Cimabue

/-! ### Events -/

namespace Event

/-- The texts an event is built from. -/
def texts : Event → List Bytes
  | .message nickname content => [nickname, content]
  | .updateAdd nickname | .updateRem nickname => [nickname]

/-- The event is built inside its arrays, and its texts are read back from them. -/
def Intact : Event → Prop
  | .message nickname content => ∃ d, (message nickname content).build = some d ∧
      d.getNickname = some nickname ∧ d.getMessage = some content
  | .updateAdd nickname => ∃ d, (updateAdd nickname).build = some d ∧ d.getNickname = some nickname
  | .updateRem nickname => ∃ d, (updateRem nickname).build = some d ∧ d.getNickname = some nickname

/-- The texts leave a byte of their arrays. -/
def Fits : Event → Prop
  | .message nickname content => nickname.length < 128 ∧ content.length < 1024
  | .updateAdd nickname | .updateRem nickname => nickname.length < 128

end Event

theorem copyText_holds_iff {n : Nat} {s : Bytes} (h : (0 : Byte) ∉ s) :
    (∃ a, copyText n s = some a ∧ a.text = some s) ↔ s.length < n :=
  CharArray.strncpy_holds_iff h

/-- An event of one array. -/
theorem nickname_holds_iff {event : CharArray 128 → EventData} {nickname : Bytes}
    (hevent : ∀ a, (event a).getNickname = a.text) (h : (0 : Byte) ∉ nickname) :
    (∃ d, (do let a ← copyText 128 nickname; pure (event a)) = some d ∧
      d.getNickname = some nickname) ↔ nickname.length < 128 := by
  rw [← copyText_holds_iff h]
  constructor
  · rintro ⟨d, hbuild, hnick⟩
    obtain ⟨a, ha, hbuild⟩ := Option.bind_eq_some_iff.mp hbuild
    cases hbuild
    exact ⟨a, ha, by rw [← hevent, hnick]⟩
  · rintro ⟨a, ha, hnick⟩
    exact ⟨event a, by simp [ha], by rw [hevent, hnick]⟩

/-- **What fits is held.** -/
theorem Event.intact_iff_fits {e : Event} (h : ∀ s ∈ e.texts, (0 : Byte) ∉ s) :
    e.Intact ↔ e.Fits := by
  cases e with
  | message nickname content =>
      rw [Fits, ← copyText_holds_iff (h nickname (by simp [texts])),
        ← copyText_holds_iff (h content (by simp [texts]))]
      constructor
      · rintro ⟨d, hbuild, hnick, hmsg⟩
        obtain ⟨a, ha, hbuild⟩ := Option.bind_eq_some_iff.mp hbuild
        obtain ⟨b, hb, hbuild⟩ := Option.bind_eq_some_iff.mp hbuild
        cases hbuild
        exact ⟨⟨a, ha, hnick⟩, ⟨b, hb, hmsg⟩⟩
      · rintro ⟨⟨a, ha, hnick⟩, ⟨b, hb, hmsg⟩⟩
        exact ⟨.newMessage a b, by simp [build, ha, hb], hnick, hmsg⟩
  | updateAdd nickname => exact nickname_holds_iff (fun _ => rfl) (h nickname (by simp [texts]))
  | updateRem nickname => exact nickname_holds_iff (fun _ => rfl) (h nickname (by simp [texts]))

/-! ### The texts a client decodes -/

theorem zero_not_mem_data_of_success {m₀ m : Message} {peer : Bytes}
    (h : m₀.recv peer = .ok (.success, m)) : (0 : Byte) ∉ m.data := by
  obtain ⟨text, hkept, hdes⟩ := Message.recv_success_iff.mp h
  obtain ⟨t₁, t₂, t₃, t₄, t₅, t₆, t₇, rest, htok, rfl⟩ := Message.deserialize_ok_iff.mp hdes
  obtain ⟨-, hnul, -⟩ := Message.not_mem_of_received hkept
  exact fun hmem => hnul (subset_of_mem_tokens htok (t := t₆) (by simp) hmem)

theorem zero_not_mem_of_extract {s nick content : Bytes} (hs : (0 : Byte) ∉ s)
    (h : extractNicknameAndData s = .ok (nick, content)) :
    (0 : Byte) ∉ nick ∧ (0 : Byte) ∉ content := by
  obtain ⟨tokens, htok, h⟩ := bind_eq_ok.mp h
  match tokens, h with
  | a :: b :: rest, h =>
      obtain ⟨rfl, rfl⟩ : a = nick ∧ b = content := by simpa [popFront] using h
      exact ⟨fun hm => hs (subset_of_mem_tokens htok (by simp) hm),
        fun hm => hs (subset_of_mem_tokens htok (by simp) hm)⟩
  | [_], h | [], h => simp [popFront] at h

theorem zero_not_mem_of_extractNewClient {data nick name rest : Bytes} (hs : (0 : Byte) ∉ data)
    (h : extractNewClient data = .ok ((nick, name), rest)) :
    (0 : Byte) ∉ nick ∧ (0 : Byte) ∉ rest := by
  obtain ⟨nick', hnick, h⟩ := bind_eq_ok.mp h
  cases hsecond : findFirstOf data dataSeparator
      (posSucc (findFirstOf data dataSeparator (some 0))) with
  | some second =>
      rw [hsecond] at h
      obtain ⟨name', -, h⟩ := bind_eq_ok.mp h
      obtain ⟨rest', hrest, h⟩ := bind_eq_ok.mp h
      cases h
      exact ⟨fun hm => hs (subset_of_substr hnick hm), fun hm => hs (subset_of_substr hrest hm)⟩
  | none =>
      rw [hsecond] at h
      obtain ⟨name', -, h⟩ := bind_eq_ok.mp h
      cases h
      exact ⟨fun hm => hs (subset_of_substr hnick hm), by decide⟩

theorem zero_not_mem_of_extractClients {count : Nat} {data : Bytes} {ps : List (Bytes × Bytes)}
    (hs : (0 : Byte) ∉ data) (h : extractClients count data = .ok ps) :
    ∀ p ∈ ps, (0 : Byte) ∉ p.1 := by
  induction count generalizing data ps with
  | zero => cases h; exact nofun
  | succ count ih =>
      obtain ⟨⟨⟨nick, name⟩, data'⟩, hfirst, h⟩ := bind_eq_ok.mp h
      obtain ⟨rest, hrest, h⟩ := bind_eq_ok.mp h
      cases h
      obtain ⟨hnick, hdata⟩ := zero_not_mem_of_extractNewClient hs hfirst
      rintro p hp
      rcases List.mem_cons.mp hp with rfl | hp
      · exact hnick
      · exact ih hdata hrest p hp

theorem zero_not_mem_of_decodeUpdate {data : Bytes} {ps : List (Bytes × Bytes)}
    (hs : (0 : Byte) ∉ data) (h : decodeUpdate data = .ok ps) : ∀ p ∈ ps, (0 : Byte) ∉ p.1 := by
  obtain ⟨number, -, h⟩ := bind_eq_ok.mp h
  obtain ⟨entries, hentries, h⟩ := bind_eq_ok.mp h
  exact zero_not_mem_of_extractClients (fun hm => hs (subset_of_substr hentries hm)) h

/-- **Events hold what was received**, exactly when it fits: of any stream a node's `Recv` accepts,
the texts of a chat message and the nicknames of a list are read back from their events exactly when
they are shorter than the arrays. -/
theorem events_hold_iff (m₀ m : Message) (peer : Bytes)
    (hrecv : m₀.recv peer = .ok (.success, m)) :
    (∀ nick content, extractNicknameAndData m.data = .ok (nick, content) →
      ((Event.message nick content).Intact ↔ nick.length < 128 ∧ content.length < 1024)) ∧
    ∀ ps, decodeUpdate m.data = .ok ps → ∀ p ∈ ps,
      ((Event.updateAdd p.1).Intact ↔ p.1.length < 128) ∧
      ((Event.updateRem p.1).Intact ↔ p.1.length < 128) := by
  have hdata := zero_not_mem_data_of_success hrecv
  refine ⟨fun nick content hextract => ?_, fun ps hdecode p hp => ?_⟩
  · obtain ⟨hnick, hcontent⟩ := zero_not_mem_of_extract hdata hextract
    exact Event.intact_iff_fits (by simp [Event.texts, hnick, hcontent])
  · have hnick := zero_not_mem_of_decodeUpdate hdata hdecode p hp
    exact ⟨Event.intact_iff_fits (by simp [Event.texts, hnick]),
      Event.intact_iff_fits (by simp [Event.texts, hnick])⟩

theorem events_hold_hi : (Event.message (lit "ann") (lit "hi")).Intact :=
  ((events_hold_iff {}
    { type := .sendMessage, clientSrc := lit "1", clientDest := lit "2", serverSrc := lit "7",
      data := lit "ann@hi" }
    (lit "MSG_SEND_MESSAGE-1-2-7- -ann@hi-MSG_PRIORITY_NORMAL|") (by decide)).1
    (lit "ann") (lit "hi") (by decide)).mpr (by decide)

/-- A nickname of 128 bytes fills its array. -/
theorem not_events_hold :
    ¬ ∀ (peer : Bytes) (m : Message), Message.recv {} peer = .ok (.success, m) →
      ∀ nick content, extractNicknameAndData m.data = .ok (nick, content) →
        (Event.message nick content).Intact := by
  intro h
  have hnick : Clean (List.replicate 128 (ch 'a')) := by decide +kernel
  have hclean : Clean (List.replicate 128 (ch 'a') ++ [chatSeparator] ++ lit "hi") :=
    clean_append hnick (by decide) (by decide)
  have hsep : chatSeparator ∉ List.replicate 128 (ch 'a') := by decide +kernel
  have hrecv : Message.recv {} (Message.serialize
      { type := .sendMessage, clientSrc := lit "1", clientDest := lit "2", serverSrc := lit "7",
        data := List.replicate 128 (ch 'a') ++ [chatSeparator] ++ lit "hi" }) = .ok (.success, _) :=
    Message.recv_serialize ⟨by decide, by decide, by decide, by decide, hclean⟩
      (by decide +kernel) {}
  have hintact := h _ _ hrecv _ _ (extract_of_parts hnick.1 (by decide) hsep (by decide))
  have hfits := (Event.intact_iff_fits (by decide +kernel)).mp hintact
  exact absurd hfits.1 (by simp)

/-! ### The view's list -/

/-- A client with a view attached. -/
structure Console where
  client : Client
  view : ConsoleView := {}
deriving DecidableEq

/-- The client and its view, from one message to the next. -/
def consoles : Machine Console Message where
  step c m := do
    let (client, effects, _) ← (c.client.processDownMessage m).toOption
    let view ← c.view.updateViews (events effects)
    pure { client, view }

/-- A received message that announces the removal of a client, or clients with nicknames shorter
than their arrays. -/
def Announcement (m : Message) : Prop :=
  (∃ peer, receive peer = .ok m) ∧ (m.type = .updateRemClients ∨ m.type = .updateAddClients ∧
    ∀ ps, decodeUpdate m.data = .ok ps → ∀ p ∈ ps, p.1.length < 128)

namespace Console

/-- The view lists the nicknames of the directory, each once. -/
def Agrees (c : Console) : Prop := c.view.clients.Perm c.client.clientNickToNameMap.keys

/-- What is announced to the client is new: different nicknames, and none in the directory. -/
def Fresh (c : Console) (m : Message) : Prop :=
  m.clientDest = c.client.name → m.type = .updateAddClients → ∀ ps, decodeUpdate m.data = .ok ps →
    (ps.map (·.1)).Nodup ∧ ∀ nick ∈ ps.map (·.1), nick ∉ c.client.clientNickToNameMap.keys

instance (c : Console) (m : Message) : Decidable (c.Fresh m) :=
  inferInstanceAs (Decidable (_ → _ → ∀ _, _ = _ → _ ∧ ∀ nick ∈ _, nick ∉ _))

/-- The nicknames of the directory are held by their events. -/
def Held (c : Console) : Prop :=
  ∀ nick ∈ c.client.clientNickToNameMap.keys, (0 : Byte) ∉ nick ∧ nick.length < 128

/-- What an announcement does to the directory and to the view's list. -/
inductive Update (c : Console) (m : Message) : Console → Prop where
  /-- It is not for this client, or removes a client that is not there. -/
  | none (h : m.clientDest = c.client.name → m.type ≠ .updateAddClients) : Update c m c
  | add {ps : List (Bytes × Bytes)} (hdest : m.clientDest = c.client.name)
      (htype : m.type = .updateAddClients) (hdecode : decodeUpdate m.data = .ok ps)
      (hheld : ∀ p ∈ ps, (0 : Byte) ∉ p.1 ∧ p.1.length < 128) :
      Update c m
        { client := { c.client with
            clientNickToNameMap := c.client.clientNickToNameMap.insertAll ps }
          view := { clients := c.view.clients ++ ps.map (·.1) } }
  | rem (nick : Bytes) (htype : m.type = .updateRemClients) :
      Update c m
        { client := { c.client with
            clientNickToNameMap := c.client.clientNickToNameMap.erase nick }
          view := { clients := c.view.clients.erase nick } }

end Console

theorem updateViews_updateAdd {nick : Bytes} (h : (0 : Byte) ∉ nick) (hlen : nick.length < 128)
    (v : ConsoleView) (es : List Event) :
    v.updateViews (.updateAdd nick :: es) =
      ({ clients := v.clients ++ [nick] } : ConsoleView).updateViews es := by
  obtain ⟨a, ha, htext⟩ := (copyText_holds_iff h).mpr hlen
  simp [ConsoleView.updateViews, ConsoleView.update, Event.build, EventData.getNickname, ha, htext]

theorem updateViews_updateRem {nick : Bytes} (h : (0 : Byte) ∉ nick) (hlen : nick.length < 128)
    (v : ConsoleView) (es : List Event) :
    v.updateViews (.updateRem nick :: es) =
      ({ clients := v.clients.erase nick } : ConsoleView).updateViews es := by
  obtain ⟨a, ha, htext⟩ := (copyText_holds_iff h).mpr hlen
  simp [ConsoleView.updateViews, ConsoleView.update, Event.build, EventData.getNickname, ha, htext]

/-- A view appends every nickname it is told. -/
theorem updateViews_adds {ps : List (Bytes × Bytes)}
    (h : ∀ p ∈ ps, (0 : Byte) ∉ p.1 ∧ p.1.length < 128) (v : ConsoleView) :
    v.updateViews (ps.map fun p => .updateAdd p.1) =
      some { clients := v.clients ++ ps.map (·.1) } := by
  induction ps generalizing v with
  | nil => simp [ConsoleView.updateViews]
  | cons p ps ih =>
      obtain ⟨hnul, hlen⟩ := h p (by simp)
      rw [List.map_cons, updateViews_updateAdd hnul hlen, ih fun q hq => h q (by simp [hq])]
      simp

theorem events_adds (ps : List (Bytes × Bytes)) :
    events (ps.map (fun p => .notify (.updateAdd p.1)) ++ [.reply {}, .close]) =
      ps.map fun p => .updateAdd p.1 := by
  induction ps with
  | nil => rfl
  | cons p ps ih => exact congrArg (_ :: ·) ih

theorem zero_not_mem_data_of_receive {m : Message} {peer : Bytes} (h : receive peer = .ok m) :
    (0 : Byte) ∉ m.data := by
  obtain ⟨ret, hrecv⟩ := receive_eq_ok_iff.mp h
  rcases recv_ret hrecv with rfl | rfl
  · exact zero_not_mem_data_of_success hrecv
  · obtain ⟨-, rfl⟩ := Message.recv_error_iff.mp hrecv
    decide

namespace Console

variable {c t : Console} {m : Message}

/-- **An announcement is handled**, whatever it brings. -/
theorem exists_update (hc : c.Held) (hm : Announcement m) :
    ∃ t, consoles.step c m = some t ∧ Update c m t := by
  obtain ⟨⟨peer, hpeer⟩, hm⟩ := hm
  by_cases hdest : m.clientDest = c.client.name
  · rcases hm with htype | ⟨htype, hshort⟩
    · cases hfind : c.client.clientNickToNameMap.entries.find? (·.2 = m.data) with
      | none =>
          refine ⟨c, ?_, .none fun _ => by rw [htype]; simp⟩
          simp [consoles, Client.processDownMessage, Client.removeByName, hdest, htype, hfind,
            events, ConsoleView.updateViews, Except.toOption]
      | some e =>
          have hmem : e.1 ∈ c.client.clientNickToNameMap.keys :=
            List.mem_map_of_mem (List.mem_of_find?_eq_some hfind)
          obtain ⟨hnul, hlen⟩ := hc e.1 hmem
          refine ⟨_, ?_, .rem e.1 htype⟩
          simp [consoles, Client.processDownMessage, Client.removeByName, hdest, htype, hfind,
            events, updateViews_updateRem hnul hlen, ConsoleView.updateViews, Except.toOption]
    · obtain ⟨ps, hdecode, -⟩ := decodeUpdate_spec m.data
      have hheld : ∀ p ∈ ps, (0 : Byte) ∉ p.1 ∧ p.1.length < 128 := fun p hp =>
        ⟨zero_not_mem_of_decodeUpdate (zero_not_mem_data_of_receive hpeer) hdecode p hp,
          hshort ps hdecode p hp⟩
      refine ⟨_, ?_, .add hdest htype hdecode hheld⟩
      simp [consoles, Client.processDownMessage, hdest, htype, hdecode, events_adds,
        updateViews_adds hheld, Except.toOption]
  · refine ⟨c, ?_, .none fun h => absurd h hdest⟩
    simp [consoles, Client.processDownMessage, hdest, events, ConsoleView.updateViews,
      Except.toOption]

theorem Update.held (hc : c.Held) (h : Update c m t) : t.Held := by
  cases h with
  | none _ => exact hc
  | add _ _ _ hheld =>
      intro nick hnick
      rcases StdMap.mem_keys_insertAll.mp hnick with hnick | hnick
      · exact hc nick hnick
      · obtain ⟨p, hp, rfl⟩ := List.mem_map.mp hnick
        exact hheld p hp
  | rem gone _ =>
      intro nick hnick
      rw [StdMap.keys_erase] at hnick
      exact hc nick (List.mem_of_mem_erase hnick)

/-- **One announcement.**  The view and the directory still agree exactly when what was announced is
new. -/
theorem Update.agrees_iff (hc : c.Agrees) (h : Update c m t) : t.Agrees ↔ c.Fresh m := by
  cases h with
  | none hnot => exact iff_of_true hc fun hdest htype => absurd htype (hnot hdest)
  | add hdest htype hdecode _ =>
      rw [Agrees, StdMap.perm_keys_insertAll hc]
      refine ⟨fun h _ _ ps' hdecode' => ?_, fun h => h hdest htype _ hdecode⟩
      rw [hdecode] at hdecode'
      exact Except.ok.inj hdecode' ▸ h
  | rem gone htype =>
      refine iff_of_true ?_ fun _ hadd => by rw [htype] at hadd; cases hadd
      rw [Agrees, StdMap.keys_erase]
      exact hc.erase _

end Console

/-- **View and directory agree**, exactly as long as what is announced is new.  Any list of
announcements is handled by a client that starts with an empty directory and a view attached; after
each of them the view lists the nicknames of the directory, each once, exactly when every one
brought different nicknames that were not in the directory. -/
theorem view_agrees_iff (client : Client) (hstart : client.clientNickToNameMap = .empty)
    (ms : List Message) (hms : ∀ m ∈ ms, Announcement m) :
    (∃ t, consoles.run { client } ms = some t) ∧
    (consoles.Always Console.Agrees { client } ms ↔ consoles.Meets Console.Fresh { client } ms) := by
  have hmeets : consoles.Meets (fun _ m => Announcement m) { client } ms :=
    Machine.meets_of_forall _ ms fun m hm _ => hms m hm
  have hheld : Console.Held { client } := by
    intro nick hnick
    rw [hstart] at hnick
    cases hnick
  have hagrees : Console.Agrees { client } := by
    rw [Console.Agrees, hstart]
    exact .refl _
  obtain ⟨t, hrun, -⟩ := Machine.run_of_enabled (M := consoles) (P := Console.Held)
    (fun c m hc hm => by
      obtain ⟨t, hstep, hupdate⟩ := Console.exists_update hc hm
      exact ⟨t, hstep, hupdate.held hc⟩) hheld hmeets
  -- a step is the update it makes
  have hupdate : ∀ (c : Console) (m : Message) (t : Console), c.Held → Announcement m →
      consoles.step c m = some t → Console.Update c m t := by
    intro c m t hc hm hstep
    obtain ⟨t', hstep', h⟩ := Console.exists_update hc hm
    rw [hstep'] at hstep
    exact Option.some.inj hstep ▸ h
  refine ⟨⟨t, hrun⟩, Machine.always_iff_meets (I := Console.Held) (fun c m t hc hm _ hstep => ?_)
    (fun c m t hc hP hm hstep => ?_) hheld hagrees hmeets hrun⟩
  · exact (hupdate c m t hc hm hstep).held hc
  · exact (hupdate c m t hc hm hstep).agrees_iff hP

/-- An update for the client 2. -/
def updates (type : MessageType) (data : Bytes) : Message :=
  { type, clientDest := lit "2", serverSrc := lit "7", data }

/-- A client joins, leaves, and comes back with another one. -/
theorem view_agrees_back :
    consoles.Always Console.Agrees { client := { name := lit "2", nickname := lit "bob" } }
      [updates .updateAddClients (lit "1:ann:1"), updates .updateRemClients (lit "1"),
        updates .updateAddClients (lit "2:carl:3:ann:1")] := by
  refine (view_agrees_iff { name := lit "2", nickname := lit "bob" } rfl _ ?_).2.mpr
    (by decide +kernel)
  simp only [List.forall_mem_cons]
  refine ⟨⟨⟨_, receive_of_delivered ?_⟩, .inr ⟨rfl, ?_⟩⟩, ⟨⟨_, receive_of_delivered ?_⟩, .inl rfl⟩,
    ⟨⟨_, receive_of_delivered ?_⟩, .inr ⟨rfl, ?_⟩⟩, nofun⟩ <;> decide

/-- A client is announced twice. -/
theorem not_view_agrees :
    ¬ ∀ (client : Client) (ms : List Message), client.clientNickToNameMap = .empty →
      (∀ m ∈ ms, Announcement m) → consoles.Always Console.Agrees { client } ms := by
  intro h
  have hann : Announcement (updates .updateAddClients (lit "1:ann:1")) :=
    ⟨⟨_, receive_of_delivered (by decide)⟩, .inr ⟨rfl, by decide⟩⟩
  have hrun : consoles.run { client := { name := lit "2", nickname := lit "bob" } }
      [updates .updateAddClients (lit "1:ann:1"), updates .updateAddClients (lit "1:ann:1")] =
        some
          { client := { name := lit "2", nickname := lit "bob",
                        clientNickToNameMap := StdMap.empty.insert (lit "ann") (lit "1") }
            view := { clients := [lit "ann", lit "ann"] } } := by decide +kernel
  have hagrees := (h _ _ rfl (by simpa using hann)).last hrun
  exact absurd hagrees.length_eq (by decide)

/-! ### What a view reads of events -/

/-- What a view reads of an event as a line, the sender's nickname and the content: none where a text
is copied past its array, or has no end there. -/
def Event.line (e : Event) : Option (List (Bytes × Bytes)) := do
  let d ← e.build
  let nickname ← d.getNickname
  match d with
  | .newMessage _ _ => do
      let content ← d.getMessage
      pure [(nickname, content)]
  | .updateClientListAdd _ | .updateClientListRem _ => pure []

/-- The lines of events, one after the other. -/
def lines : List Event → Option (List (Bytes × Bytes))
  | [] => some []
  | e :: es => do
      let line ← e.line
      let rest ← lines es
      pure (line ++ rest)

/-- A message that fits is read as it was written. -/
theorem Event.line_message {nickname content : Bytes} (hnul : (0 : Byte) ∉ nickname ∧ (0 : Byte) ∉ content)
    (hfits : (Event.message nickname content).Fits) :
    (Event.message nickname content).line = some [(nickname, content)] := by
  obtain ⟨a, ha, htext⟩ := (copyText_holds_iff hnul.1).mpr hfits.1
  obtain ⟨b, hb, hcontent⟩ := (copyText_holds_iff hnul.2).mpr hfits.2
  simp [line, build, EventData.getNickname, EventData.getMessage, ha, hb, htext, hcontent]

/-- A content that leaves no byte for its NUL. -/
example : (Event.message (lit "ann") (List.replicate 1024 (ch 'a'))).line = none := by decide +kernel

/-- An event that a view is told of, and that is no message, shows no line. -/
theorem Event.line_of_update {e : Event} {d : EventData} {v v' : ConsoleView} (hbuild : e.build = some d)
    (hupdate : v.update d = some v') (hchat : ∀ nickname content, e ≠ .message nickname content) :
    e.line = some [] := by
  obtain ⟨nickname, hnick, -⟩ := Option.bind_eq_some_iff.mp hupdate
  cases e with
  | message nickname content => exact absurd rfl (hchat nickname content)
  | updateAdd _ | updateRem _ =>
      obtain ⟨a, -, hd⟩ := Option.bind_eq_some_iff.mp hbuild
      obtain rfl := Option.some.inj hd
      simp only [line, hbuild, hnick, Option.bind_eq_bind, Option.bind_some]
      rfl

theorem lines_of_updateViews {es : List Event} {v v' : ConsoleView} (h : v.updateViews es = some v')
    (hchat : ∀ e ∈ es, ∀ nickname content, e ≠ .message nickname content) : lines es = some [] := by
  induction es generalizing v with
  | nil => rfl
  | cons e es ih =>
      obtain ⟨d, hbuild, h⟩ := Option.bind_eq_some_iff.mp h
      obtain ⟨w, hupdate, h⟩ := Option.bind_eq_some_iff.mp h
      have hline := Event.line_of_update hbuild hupdate (hchat e (by simp))
      have hrest := ih h fun e' he' => hchat e' (by simp [he'])
      simp only [lines, hline, hrest, Option.bind_eq_bind, Option.bind_some]
      rfl

/-- Only a chat message builds an `EventMessage`. -/
theorem ne_message_of_events {c c' : Client} {m : Message} {effects : List Effect} {ret : Ret}
    (htype : m.type ≠ .sendMessage) (h : c.processDownMessage m = .ok (c', effects, ret)) :
    ∀ e ∈ events effects, ∀ nickname content, e ≠ .message nickname content := by
  rw [Client.processDownMessage] at h
  split_ifs at h with hdest
  · cases h
    simp [events]
  · split at h
    · cases h
      simp [events]
    · exact absurd ‹_› htype
    · obtain ⟨ps, -, h⟩ := bind_eq_ok.mp h
      cases h
      rw [events_adds]
      rintro e he nickname content rfl
      obtain ⟨p, -, hp⟩ := List.mem_map.mp he
      cases hp
    · split at h <;> cases h <;> simp [events]
    · cases h
      simp [events]

end Cimabue
