import Cimabue.Model.Server
import Cimabue.System.Delivery
import Cimabue.Wire.RoundTrip

/-!
# System — Relay

A chat message on its two hops: from the sender to the server, and from the server, with the two
server fields rewritten, to its destination.

* `bounded_of_recv`: a chat message a node has received, from whatever stream, has clean fields
  that leave room for the priority.
* `recv_forwarded`: rewritten by the server it still has them, so the second hop loses nothing.
* `relay_lossless`: the same, from the stream that reaches the server to the fields the
  destination decodes.
* `chat_iff`: which nicknames and contents reach the destination as they were written.
-/

namespace Cimabue

/-! ### What a node has received -/

theorem encodeType_eq_sendMessage {t : Bytes} (h : encodeType t = .sendMessage) :
    t = lit "MSG_SEND_MESSAGE" := by
  rw [encodeType] at h
  split_ifs at h
  assumption

/-- **What was received fits.**  The fields of a chat message, decoded of any stream, are clean,
and leave a byte for the priority. -/
theorem bounded_of_recv {m₀ m : Message} {peer : Bytes}
    (h : m₀.recv peer = .ok (.success, m)) (htype : m.type = .sendMessage) :
    m.CleanHeader ∧ m.headLength ≤ msgBufferSize - 2 ∧ m.priority = .normal := by
  refine ⟨Message.cleanHeader_of_recv h (by rw [htype]; simp), ?_⟩
  obtain ⟨text, t₁, t₂, t₃, t₄, t₅, t₆, t₇, rest, hkept, hruns, hclean, rfl⟩ :=
    Message.tokens_of_recv h (by rw [htype]; simp)
  obtain rfl := encodeType_eq_sendMessage htype
  refine ⟨?_, rfl⟩
  -- the seven fields and their separators fit in the 4095 bytes that are kept
  obtain ⟨-, -, hlen⟩ := Message.not_mem_of_received hkept
  have hsum := sum_length_runs_le msgSeparator text
  have hprio : 0 < t₇.length := List.length_pos_iff.mpr (hclean t₇ (by simp)).1
  rw [hruns] at hsum
  simp only [List.map_cons, List.sum_cons] at hsum
  have htype' : encodeType (lit "MSG_SEND_MESSAGE") = .sendMessage := by decide
  simp only [Message.headLength, Message.ofTokens, htype', decodeType, msgBufferSize] at hlen ⊢
  omega

/-! ### Forwarding -/

namespace Server

theorem request_eq_send_iff {s : Server} {m : Message} :
    s.request m = .send ↔ m.type = .sendMessage ∧ m.serverDest = s.name := by
  rw [request]
  by_cases hadd : m.type = .addClient
  · simp [hadd]
  · by_cases hdest : m.serverDest = s.name
    · cases htype : m.type <;> simp_all
    · simp [hadd, hdest]

/-- What `executeSendMessage` sends is the rewritten message. -/
theorem forward_msg {s : Server} {m : Message} {p : Packet} (h : s.forward m = .ok (some p)) :
    p.msg = s.forwarded m := by
  rw [forward] at h
  split_ifs at h
  · obtain ⟨address, -, h⟩ := bind_eq_ok.mp h
    obtain ⟨parsed, -, h⟩ := bind_eq_ok.mp h
    cases parsed with
    | none => cases h
    | some r => cases h; rfl
  · cases h

/-- A destination that is registered under an address is forwarded to. -/
theorem forward_of_find {s : Server} {m : Message} {address nick ip : Bytes} {port : Nat}
    (hfind : s.clientNameToIPMap.find m.clientDest = some address)
    (hparse : parseNicknameAndAddress address = .ok (some (nick, ip, port))) :
    s.forward m = .ok (some { ip, port, msg := s.forwarded m }) := by
  simp [forward, haveClient, getClientAddress, hfind, hparse]

/-- Rewriting the server fields keeps a message that fits within bounds: the new source took the
place of at least one byte, the new destination that of the server's name. -/
theorem forwarded_bounded {s : Server} {m : Message} (hs : Clean s.name) (hm : m.CleanHeader)
    (hfit : m.headLength ≤ msgBufferSize - 2) (hdest : m.serverDest = s.name) :
    (s.forwarded m).CleanHeader ∧ (s.forwarded m).headLength ≤ msgBufferSize - 2 := by
  obtain ⟨hsrc, hcd, hss, -, hdata⟩ := hm
  refine ⟨⟨hsrc, hcd, hs, clean_msgVoid, hdata⟩, ?_⟩
  have hlen : 0 < m.serverSrc.length := List.length_pos_iff.mpr hss.1
  have hvoid : msgVoid.length = 1 := rfl
  simp only [Message.headLength, forwarded, hdest, hvoid] at hfit ⊢
  omega

/-- **The second hop loses nothing.** -/
theorem recv_forwarded {s : Server} {m m₀ m₁ : Message} {peer : Bytes} (hs : Clean s.name)
    (hrecv : m₀.recv peer = .ok (.success, m)) (htype : m.type = .sendMessage)
    (hdest : m.serverDest = s.name) :
    m₁.recv (s.forwarded m).serialize = .ok (.success, s.forwarded m) := by
  obtain ⟨hclean, hfit, hprio⟩ := bounded_of_recv hrecv htype
  obtain ⟨hclean', hfit'⟩ := forwarded_bounded hs hclean hfit hdest
  have hself : (s.forwarded m).afterWire = s.forwarded m := by
    simp only [Message.afterWire, forwarded, htype, ← hprio]
    rfl
  rw [Message.recv_serialize hclean' hfit', hself]

end Server

/-- **Lossless relay.**  What the server forwards of a message it decoded, from any stream, is
decoded at the destination with the same type, clients and data. -/
theorem relay_lossless (s : Server) (hs : Clean s.name) (m₀ m₁ m : Message) (peer : Bytes)
    (p : Packet) (hrecv : m₀.recv peer = .ok (.success, m)) (hreq : s.request m = .send)
    (hfwd : s.forward m = .ok (some p)) :
    ∃ m' : Message, m₁.recv p.msg.serialize = .ok (.success, m') ∧ m'.type = m.type ∧
      m'.clientSrc = m.clientSrc ∧ m'.clientDest = m.clientDest ∧ m'.data = m.data ∧
      m'.serverSrc = s.name ∧ m'.serverDest = msgVoid := by
  obtain ⟨htype, hdest⟩ := Server.request_eq_send_iff.mp hreq
  refine ⟨s.forwarded m, ?_, rfl, rfl, rfl, rfl, rfl, rfl⟩
  rw [Server.forward_msg hfwd]
  exact Server.recv_forwarded hs hrecv htype hdest

/-- A stream with a doubled separator, a short priority and an eighth field. -/
theorem relay_lossless_malformed :
    ∃ m' : Message,
      Message.recv {} (lit "MSG_SEND_MESSAGE-2-3-7- -a@b-MSG_PRIORITY_NORMAL|") =
        .ok (.success, m') ∧ m'.type = .sendMessage ∧ m'.clientSrc = lit "2" ∧
      m'.clientDest = lit "3" ∧ m'.data = lit "a@b" ∧ m'.serverSrc = lit "7" ∧
      m'.serverDest = msgVoid :=
  relay_lossless
    { name := lit "7", clientNameToIPMap := StdMap.empty.insert (lit "3") (lit "bob:host:80") }
    (by decide) {} {}
    { type := .sendMessage, clientSrc := lit "2", clientDest := lit "3", serverSrc := lit "0",
      serverDest := lit "7", data := lit "a@b" }
    (lit "MSG_SEND_MESSAGE--2-3-0-7-a@b-x-y|")
    { ip := lit "host", port := 80,
      msg := { type := .sendMessage, clientSrc := lit "2", clientDest := lit "3",
               serverSrc := lit "7", data := lit "a@b" } }
    (by decide) (by decide) (by decide)

/-! ### A chat message, end to end -/

/-- The events a handler passes to the views. -/
def events : List Effect → List Event
  | [] => []
  | .notify e :: effects => e :: events effects
  | _ :: effects => events effects

/-- The events of a client that handles the packets among `effects`. -/
def Client.shown (c : Client) : List Effect → Except Fault (List Event)
  | [] => pure []
  | .send q :: effects => do
      let (c, done, _) ← c.handle q.msg.serialize
      let rest ← c.shown effects
      pure (events done ++ rest)
  | _ :: effects => c.shown effects

/-- A chat message from `sender` to the nickname `dest`: `sendMessage`, the wire, the server's
`processDownMessage`, the wire, and `processDownMessage` of the client `dst`.  What the views of
`dst` are notified of. -/
def chat (env : Env) (sender : Client) (s : Server) (dst : Client) (dest content : Bytes) :
    Except Fault (List Event) := do
  match sender.chatPacket dest content with
  | none => pure []
  | some p => do
      let m ← receive p.msg.serialize
      let env := { env with exchange := fun q => .exchanged (dst.answer q.msg.serialize) }
      let (_, effects, _) ← s.processDownMessage env m
      dst.shown effects

theorem extract_of_parts {n t : Bytes} (hn : n ≠ []) (ht : t ≠ []) (hn' : chatSeparator ∉ n)
    (ht' : chatSeparator ∉ t) :
    extractNicknameAndData (n ++ [chatSeparator] ++ t) = .ok (n, t) := by
  have hhead : (n ++ [chatSeparator] ++ t).head? ≠ some chatSeparator := by
    obtain ⟨a, l, rfl⟩ := List.exists_cons_of_ne_nil hn
    simpa using fun (e : a = chatSeparator) => hn' (by simp [e])
  have hruns : runs chatSeparator (n ++ [chatSeparator] ++ t) = [n, t] := by
    rw [List.append_assoc, List.singleton_append, runs_field_cons t hn' hn, runs_of_not_mem ht' ht]
  rw [extractNicknameAndData, tokenize_of_head hhead, hruns]
  rfl

/-- The two tokens of `extractNicknameAndData`: the second is a field, and the first is one too or
is the text after the leading separators. -/
theorem of_extract {s n t : Bytes} (h : extractNicknameAndData s = .ok (n, t)) :
    t ∈ runs chatSeparator s ∧ (n ∈ runs chatSeparator s ∨
      n = s.dropWhile (· = chatSeparator) ∧ s.head? = some chatSeparator ∧ n ≠ []) := by
  obtain ⟨tokens, htok, h⟩ := bind_eq_ok.mp h
  match tokens, h with
  | a :: b :: rest, h =>
      obtain ⟨rfl, rfl⟩ : a = n ∧ b = t := by simpa [popFront] using h
      by_cases hs : s.head? = some chatSeparator
      · obtain ⟨rfl, hruns⟩ := List.cons.inj (tokenize_of_sep hs htok)
        refine ⟨hruns ▸ by simp, .inr ⟨rfl, hs, fun e => ?_⟩⟩
        rw [← runs_dropWhile, e] at hruns
        cases hruns
      · rw [tokenize_of_head hs] at htok
        have hruns := Except.ok.inj htok
        exact ⟨hruns ▸ by simp, .inl (hruns ▸ by simp)⟩
  | [_], h | [], h => simp [popFront] at h

theorem Clean.of_mem_runs {s f : Bytes} {c : Byte} (hs : Clean s) (hf : f ∈ runs c s) : Clean f := by
  obtain ⟨-, hsep, hend, hnul⟩ := hs
  obtain ⟨hne, -, hmem⟩ := mem_runs hf
  exact ⟨hne, fun h => hsep (hmem _ h), fun h => hend (hmem _ h), fun h => hnul (hmem _ h)⟩

theorem Clean.of_sublist {s f : Bytes} (hs : Clean s) (hf : f.Sublist s) (hne : f ≠ []) :
    Clean f :=
  ⟨hne, fun h => hs.2.1 (hf.subset h), fun h => hs.2.2.1 (hf.subset h),
    fun h => hs.2.2.2 (hf.subset h)⟩

/-- What is extracted from a clean text is clean, and the content has no `@`. -/
theorem clean_of_extract {s n t : Bytes} (hs : Clean s)
    (h : extractNicknameAndData s = .ok (n, t)) : Clean n ∧ Clean t ∧ chatSeparator ∉ t := by
  obtain ⟨ht, hn⟩ := of_extract h
  refine ⟨?_, hs.of_mem_runs ht, (mem_runs ht).2.1⟩
  rcases hn with hn | ⟨rfl, -, hne⟩
  · exact hs.of_mem_runs hn
  · exact hs.of_sublist (List.dropWhile_sublist _) hne

/-- A nickname read back in front of its own content has no `@`. -/
theorem not_mem_of_extract_parts {n t : Bytes}
    (h : extractNicknameAndData (n ++ [chatSeparator] ++ t) = .ok (n, t)) : chatSeparator ∉ n := by
  obtain ⟨-, hn | ⟨hdrop, hhead, hne⟩⟩ := of_extract h
  · exact (mem_runs hn).2.1
  · -- the text would begin with `@` and so would the nickname, which the leading ones are cut from
    obtain ⟨a, l, rfl⟩ := List.exists_cons_of_ne_nil hne
    have ha : a = chatSeparator := by simpa using hhead
    exact absurd ha (head_dropWhile_ne hdrop.symm)

theorem mem_events {e : Event} {effects : List Effect} (h : e ∈ events effects) :
    .notify e ∈ effects := by
  induction effects with
  | nil => cases h
  | cons d effects ih =>
      cases d with
      | notify e' =>
          rcases List.mem_cons.mp h with rfl | h
          · simp
          · exact List.mem_cons_of_mem _ (ih h)
      | send _ | reply _ | close => exact List.mem_cons_of_mem _ (ih h)

/-- A chat event is made of the data of the message that was handled. -/
theorem extract_of_message_event {c c' : Client} {m : Message} {n t : Bytes}
    {effects : List Effect} {ret : Ret} (h : c.processDownMessage m = .ok (c', effects, ret))
    (he : .message n t ∈ events effects) : extractNicknameAndData m.data = .ok (n, t) := by
  have hmem := mem_events he
  rw [Client.processDownMessage] at h
  split_ifs at h with hdest
  · cases h; simp at hmem
  · split at h
    · cases h; simp at hmem
    · obtain ⟨⟨n', t'⟩, hx, h⟩ := bind_eq_ok.mp h
      cases h
      obtain ⟨rfl, rfl⟩ : n = n' ∧ t = t' := by simpa using hmem
      exact hx
    · obtain ⟨p, -, h⟩ := bind_eq_ok.mp h
      cases h; simp at hmem
    · split at h <;> cases h <;> simp at hmem
    · cases h; simp at hmem

/-- What a client shows was extracted from a clean text. -/
theorem extract_of_shown {c : Client} {effects : List Effect} {evs : List Event} {n t : Bytes}
    (h : c.shown effects = .ok evs) (he : .message n t ∈ evs) :
    ∃ s, Clean s ∧ extractNicknameAndData s = .ok (n, t) := by
  induction effects generalizing c evs with
  | nil => cases h; cases he
  | cons d effects ih =>
      cases d with
      | reply _ | close | notify _ => exact ih h he
      | send q =>
          obtain ⟨⟨c', done, ret⟩, hhandle, h⟩ := bind_eq_ok.mp h
          obtain ⟨rest, hrest, h⟩ := bind_eq_ok.mp h
          cases h
          rcases List.mem_append.mp he with he | he
          · obtain ⟨m, hm, hdown⟩ := bind_eq_ok.mp hhandle
            obtain ⟨-, -, hclean⟩ := Message.of_recv_serialize (receive_serialize_ok.mp hm)
            exact ⟨m.data, hclean.2.2.2.2, extract_of_message_event hdown he⟩
          · exact ih hrest he

theorem processDownMessage_sendMessage {c : Client} {m : Message} (hdest : m.clientDest = c.name)
    (htype : m.type = .sendMessage) :
    c.processDownMessage m = (extractNicknameAndData m.data).map fun p =>
      (c, [.reply {}, .notify (.message p.1 p.2), .close], .success) := by
  rw [Client.processDownMessage, if_neg (not_not.mpr hdest), htype]
  simp only
  cases extractNicknameAndData m.data with
  | error f => rfl
  | ok p => rfl

/-- A chat message that is clean and fits is handled at both hops. -/
theorem chat_of_clean {env : Env} {sender dst : Client} {s : Server} {dest t nick ip address : Bytes}
    {port : Nat} (hv : Clean s.name) (hserver : sender.server = s.name)
    (hdir : sender.clientNickToNameMap.find dest = some dst.name)
    (hreg : s.clientNameToIPMap.find dst.name = some address)
    (haddr : parseNicknameAndAddress address = .ok (some (nick, ip, port)))
    (hclean : (sender.chatMessage dst.name t).CleanHeader)
    (hfit : (sender.chatMessage dst.name t).headLength ≤ msgBufferSize - 2) :
    chat env sender s dst dest t =
      (extractNicknameAndData (sender.nickname ++ [chatSeparator] ++ t)).map
        fun p => [.message p.1 p.2] := by
  have hhop : Message.recv {} (sender.chatMessage dst.name t).serialize =
      .ok (.success, sender.chatMessage dst.name t) := Message.recv_serialize hclean hfit {}
  have hhop' : Message.recv {} (s.forwarded (sender.chatMessage dst.name t)).serialize =
      .ok (.success, s.forwarded (sender.chatMessage dst.name t)) :=
    Server.recv_forwarded hv hhop rfl hserver
  have hrecv := receive_serialize_ok.mpr hhop
  have hrecv' := receive_serialize_ok.mpr hhop'
  have hfwd := Server.forward_of_find (m := sender.chatMessage dst.name t) hreg haddr
  have hreq : s.request (sender.chatMessage dst.name t) = .send :=
    Server.request_eq_send_iff.mpr ⟨rfl, hserver⟩
  obtain ⟨reply, hreply⟩ :=
    send_answer dst (s.forwarded (sender.chatMessage dst.name t)).serialize
  have hdown := processDownMessage_sendMessage (c := dst)
    (m := s.forwarded (sender.chatMessage dst.name t)) rfl rfl
  have hdata : (s.forwarded (sender.chatMessage dst.name t)).data =
      sender.nickname ++ [chatSeparator] ++ t := rfl
  simp only [chat, Client.chatPacket, hdir, Option.map_some, hrecv, ok_bind,
    Server.processDownMessage, hreq, Server.executeSendMessage, hfwd, hreply, pure_eq_ok,
    List.cons_append, List.nil_append, Client.shown, Client.handle, hrecv', hdown, hdata]
  cases extractNicknameAndData (sender.nickname ++ [chatSeparator] ++ t) with
  | error f => rfl
  | ok p => rfl

/-- A nickname and a content that are shown crossed a wire as they are. -/
theorem clean_of_chat {env : Env} {sender dst : Client} {s : Server} {dest t n t' : Bytes}
    {evs : List Event} (h : chat env sender s dst dest t = .ok evs) (he : .message n t' ∈ evs) :
    Clean n ∧ Clean t' ∧ chatSeparator ∉ t' := by
  rw [chat] at h
  cases hp : sender.chatPacket dest t with
  | none => rw [hp] at h; cases h; cases he
  | some p =>
      rw [hp] at h
      obtain ⟨m, -, h⟩ := bind_eq_ok.mp h
      obtain ⟨r, -, h⟩ := bind_eq_ok.mp h
      obtain ⟨text, hclean, hx⟩ := extract_of_shown h he
      exact clean_of_extract hclean hx

/-- The first hop of a chat decoded the message the sender wrote. -/
theorem recv_of_chat {env : Env} {sender dst : Client} {s : Server} {dest t name : Bytes}
    {evs : List Event} (hdir : sender.clientNickToNameMap.find dest = some name)
    (h : chat env sender s dst dest t = .ok evs) :
    ∃ m, Message.recv {} (sender.chatMessage name t).serialize = .ok (.success, m) := by
  simp only [chat, Client.chatPacket, hdir, Option.map_some] at h
  obtain ⟨m, hm, -⟩ := bind_eq_ok.mp h
  exact ⟨m, receive_serialize_ok.mp hm⟩

theorem clean_append {n t : Bytes} {c : Byte} (hn : Clean n) (ht : Clean t)
    (hc : c ≠ msgSeparator ∧ c ≠ msgEnd ∧ c ≠ 0) : Clean (n ++ [c] ++ t) := by
  obtain ⟨hc₁, hc₂, hc₃⟩ := hc
  obtain ⟨-, hn₁, hn₂, hn₃⟩ := hn
  obtain ⟨-, ht₁, ht₂, ht₃⟩ := ht
  refine ⟨by simp, ?_, ?_, ?_⟩ <;> simp only [List.mem_append, List.mem_singleton, not_or]
  exacts [⟨⟨hn₁, Ne.symm hc₁⟩, ht₁⟩, ⟨⟨hn₂, Ne.symm hc₂⟩, ht₂⟩, ⟨⟨hn₃, Ne.symm hc₃⟩, ht₃⟩]

theorem headLength_chatMessage (c : Client) (name t : Bytes) :
    (c.chatMessage name t).headLength =
      16 + c.name.length + name.length + 1 + c.server.length + (c.nickname.length + 1 + t.length)
        + 6 := by
  have htype : (decodeType .sendMessage).length = 16 := by decide
  have hvoid : msgVoid.length = 1 := by decide
  simp only [Message.headLength, Client.chatMessage, htype, hvoid, List.length_append,
    List.length_singleton]

/-- **Chat delivery, exactly.**  A content arrives with its sender's nickname, both as they were,
exactly when both are clean texts without `@` and the message fits. -/
theorem chat_iff (env : Env) (sender dst : Client) (s : Server)
    (dest t address nick ip : Bytes) (port : Nat)
    (ha : Clean sender.name) (hd : Clean dst.name) (hv : Clean s.name)
    (hserver : sender.server = s.name)
    (hdir : sender.clientNickToNameMap.find dest = some dst.name)
    (hreg : s.clientNameToIPMap.find dst.name = some address)
    (haddr : parseNicknameAndAddress address = .ok (some (nick, ip, port))) :
    chat env sender s dst dest t = .ok [.message sender.nickname t] ↔
      Clean sender.nickname ∧ chatSeparator ∉ sender.nickname ∧ Clean t ∧ chatSeparator ∉ t ∧
        16 + sender.name.length + dst.name.length + 1 + s.name.length
          + (sender.nickname.length + 1 + t.length) + 6 ≤ 4094 := by
  have hfits : 16 + sender.name.length + dst.name.length + 1 + s.name.length
      + (sender.nickname.length + 1 + t.length) + 6 ≤ 4094 ↔
      (sender.chatMessage dst.name t).headLength ≤ msgBufferSize - 2 := by
    rw [headLength_chatMessage, hserver]; rfl
  have hclean (hn : Clean sender.nickname) (ht : Clean t) :
      (sender.chatMessage dst.name t).CleanHeader :=
    ⟨ha, hd, clean_msgVoid, show Clean sender.server from hserver ▸ hv,
      clean_append hn ht (by decide)⟩
  rw [hfits]
  constructor
  · intro h
    -- what is shown is clean, so the first hop decoded a clean message, and that fits
    obtain ⟨hn, ht, ht'⟩ := clean_of_chat h (List.mem_singleton_self _)
    obtain ⟨m, hm⟩ := recv_of_chat hdir h
    have hfit := Message.headLength_le_of_recv (hclean hn ht) hm
    rw [chat_of_clean hv hserver hdir hreg haddr (hclean hn ht) hfit] at h
    refine ⟨hn, ?_, ht, ht', hfit⟩
    cases hx : extractNicknameAndData (sender.nickname ++ [chatSeparator] ++ t) with
    | error f => rw [hx] at h; cases h
    | ok p =>
        obtain ⟨n', t'⟩ := p
        rw [hx] at h
        obtain ⟨rfl, rfl⟩ : n' = sender.nickname ∧ t' = t := by simpa [Except.map] using h
        exact not_mem_of_extract_parts hx
  · rintro ⟨hn, hn', ht, ht', hfit⟩
    rw [chat_of_clean hv hserver hdir hreg haddr (hclean hn ht) hfit,
      extract_of_parts hn.1 ht.1 hn' ht']
    rfl

theorem chat_iff_hello :
    chat {}
        { name := lit "1", nickname := lit "ann", server := lit "7",
          clientNickToNameMap := StdMap.empty.insert (lit "bob") (lit "2") }
        { name := lit "7", clientNameToIPMap := StdMap.empty.insert (lit "2") (lit "bob:host:80") }
        { name := lit "2", nickname := lit "bob" } (lit "bob") (lit "hello") =
      .ok [.message (lit "ann") (lit "hello")] :=
  (chat_iff {}
    { name := lit "1", nickname := lit "ann", server := lit "7",
      clientNickToNameMap := StdMap.empty.insert (lit "bob") (lit "2") }
    { name := lit "2", nickname := lit "bob" }
    { name := lit "7", clientNameToIPMap := StdMap.empty.insert (lit "2") (lit "bob:host:80") }
    (lit "bob") (lit "hello") (lit "bob:host:80") (lit "bob") (lit "host") 80
    (by decide) (by decide) (by decide) rfl (by decide) (by decide) (by decide)).mpr (by decide)

end Cimabue
