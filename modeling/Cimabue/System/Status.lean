import Cimabue.System.Relay

/-!
# System — Status

What `sendMessage` tells its caller of a chat message: the exchange with the server, the server's
exchange with the destination, and every way either can fail (`Link`).

An error reply is where `sendMessage` goes wrong: it takes its own return value for the message it
logs.

* `send_of_answer`: `Send` gets the acknowledgement exactly when all of it arrives, and otherwise
  makes up an error message.
* `sendMessage_truthful_iff`: the status is truthful exactly when the nickname is unknown, or the
  message reaches its destination and both acknowledgements arrive.
* `handled_of_success`: a success is never false, for names the wire keeps.
* `not_sendMessage_truthful`: a server that cannot be reached.
-/

namespace Cimabue

/-! ### The two exchanges -/

/-- What becomes of an exchange: one of the errors of `Send`, or the other side receives the first
`arrived` bytes of the text and the first `kept` bytes of its answer come back before the connection
ends. -/
inductive Link where
  | noSocket
  | noConnection
  | shortSend
  | sent (arrived kept : Nat)
deriving DecidableEq

namespace Link

/-- The system calls of `Send`, to a peer that answers by `answer`. -/
def exchange (l : Link) (answer : Bytes → Bytes) (m : Message) : Message.Transport :=
  match l with
  | noSocket => .noSocket
  | noConnection => .noConnection
  | shortSend => .shortSend
  | sent arrived kept => .exchanged ((answer (m.serialize.take arrived)).take kept)

/-- The other side decodes `m'` of the text of `m`. -/
def Arrives (l : Link) (m m' : Message) : Prop :=
  ∃ arrived kept, l = sent arrived kept ∧ receive (m.serialize.take arrived) = .ok m'

/-- An acknowledgement comes back whole. -/
def KeepsAck (l : Link) : Prop := ∃ arrived kept, l = sent arrived kept ∧ ackText.length ≤ kept

end Link

/-- What the server sends back on the connection; nothing when its handler fails. -/
def Server.answer (env : Env) (s : Server) (peer : Bytes) : Bytes :=
  match (do let m ← receive peer; s.processDownMessage env m) with
  | .ok (_, effects, _) => replyText effects
  | .error _ => []

/-- A client that sends, its server, and the clients at the addresses the server may forward to. -/
structure ChatNet where
  sender : Client
  server : Server
  clientAt : Bytes → Nat → Option Client
  toServer : Link
  toClient : Link

namespace ChatNet

/-- The server's exchange with the client at an address. -/
def forwarding (net : ChatNet) (q : Packet) : Message.Transport :=
  match net.clientAt q.ip q.port with
  | none => .noConnection
  | some dst => net.toClient.exchange dst.answer q.msg

/-- What the server sends back to the sender. -/
def serverAnswer (net : ChatNet) (peer : Bytes) : Bytes :=
  net.server.answer { exchange := net.forwarding } peer

/-- The sender's exchange with the server. -/
def env (net : ChatNet) : Env where
  exchange p := net.toServer.exchange net.serverAnswer p.msg

/-- `sendMessage`, in this net. -/
def sendMessage (net : ChatNet) (dest content : Bytes) : Except Fault (Ret × List Effect) :=
  net.sender.sendMessage net.env dest content

/-- The message to the nickname `dest` comes to the client `dst` as `m'`. -/
structure Route (net : ChatNet) (dest content : Bytes) (dst : Client) (m' : Message) : Prop where
  known : net.sender.clientNickToNameMap.find dest = some dst.name
  path : ∃ m q, net.toServer.Arrives (net.sender.chatMessage dst.name content) m ∧
    net.server.request m = .send ∧ net.server.forward m = .ok (some q) ∧
    net.clientAt q.ip q.port = some dst ∧ net.toClient.Arrives q.msg m'
  chat : m'.type = .sendMessage

/-- The destination handled the message up to its acknowledgement. -/
def Handled (net : ChatNet) (dest content : Bytes) : Prop :=
  ∃ dst m', net.Route dest content dst m' ∧ dst.Acknowledges m'

/-- The status of a message is truthful. -/
def Truthful (net : ChatNet) (dest content : Bytes) : Prop :=
  ∃ ret effects, net.sendMessage dest content = .ok (ret, effects) ∧
    (ret = .success → net.Handled dest content) ∧ (ret ≠ .success → ret = .error)

/-- The message reaches a client that it is for and that can read it. -/
def Reaches (net : ChatNet) (dest content : Bytes) : Prop :=
  ∃ dst m', net.Route dest content dst m' ∧ m'.clientDest = dst.name ∧
    ∃ nick text, extractNicknameAndData m'.data = .ok (nick, text)

end ChatNet

/-! ### What comes back -/

/-- An error message of `Send` or of the server: a short text that the wire keeps. -/
def Refusal (e : Message) : Prop :=
  ∃ text, e = Message.errorMessage text ∧ Clean text ∧ text.length ≤ 32

/-- What a node sends back on a connection: nothing, the acknowledgement, or an error message. -/
def Answer (a : Bytes) : Prop := a = [] ∨ a = ackText ∨ ∃ e, Refusal e ∧ a = e.serialize

theorem refusal_of_clean {text : Bytes} (h : Clean text ∧ text.length ≤ 32) :
    Refusal (Message.errorMessage text) := ⟨text, rfl, h⟩

theorem length_serialize (m : Message) : m.serialize.length = m.headLength + 20 := by
  rw [Message.serialize_eq, List.length_append, Message.length_headText]
  rfl

/-- `Send` gets a short clean message as it was, or makes up an error when it breaks off. -/
theorem send_cut {m : Message} (hclean : m.CleanHeader)
    (hlen : m.serialize.length ≤ msgBufferSize) (kept : Nat) :
    Message.send (.exchanged (m.serialize.take kept)) =
      .ok (if m.serialize.length ≤ kept then m.afterWire
        else Message.errorMessage (lit "Error receiving reply")) := by
  rw [Message.send]
  split_ifs with hkept
  · have hfit : m.headLength ≤ msgBufferSize - 2 := by
      rw [length_serialize] at hlen
      omega
    rw [List.take_of_length_le hkept, Message.recv_serialize hclean hfit]
    rfl
  · -- the `|` is the last byte, and is not among those that come back
    have hcut : m.serialize.take kept = (m.headText ++ decodePriority m.priority).take kept := by
      rw [Message.serialize_eq, ← List.append_assoc, List.length_append, List.length_singleton]
        at hkept
      rw [Message.serialize_eq, ← List.append_assoc, List.take_append_of_le_length (by omega)]
    have hend : msgEnd ∉ m.serialize.take kept := by
      rw [hcut]
      intro hmem
      rcases List.mem_append.mp (List.mem_of_mem_take hmem) with hmem | hmem
      · exact hclean.not_mem_headText.1 hmem
      · exact (clean_decodePriority m.priority).2.2.1 hmem
    have hshort : (m.serialize.take kept).length < msgBufferSize := by
      rw [List.length_take]
      omega
    rw [Message.recv_error_iff.mpr ⟨⟨hend, hshort⟩, rfl⟩]
    rfl

/-- What is wrong with an error message: nothing the wire does. -/
theorem Refusal.wire {e : Message} (h : Refusal e) :
    e.CleanHeader ∧ e.serialize.length ≤ msgBufferSize ∧ e.afterWire = e ∧
      e.isErrorMessage = true := by
  obtain ⟨text, rfl, hclean, hlen⟩ := h
  refine ⟨⟨clean_msgVoid, clean_msgVoid, clean_msgVoid, clean_msgVoid, hclean⟩, ?_, ?_, rfl⟩
  · have htype : (decodeType .error).length = 9 := by decide
    have hvoid : msgVoid.length = 1 := by decide
    rw [length_serialize]
    simp only [Message.headLength, Message.errorMessage, htype, hvoid, msgBufferSize]
    omega
  · have htype : encodeType (decodeType .error) = .error := by decide
    simp only [Message.afterWire, Message.errorMessage, htype]

theorem Refusal.serialize_ne_ack {e : Message} (h : Refusal e) : e.serialize ≠ ackText := by
  obtain ⟨text, rfl, -⟩ := h
  intro heq
  -- the fifth byte tells `MSG_ERROR` from `MSG_NONE`
  have herror : (Message.errorMessage text).serialize[4]? = some (ch 'E') := rfl
  have hack : ackText[4]? = some (ch 'N') := rfl
  rw [heq, hack] at herror
  exact absurd herror (by decide)

theorem refusal_receiving : Refusal (Message.errorMessage (lit "Error receiving reply")) :=
  refusal_of_clean (by decide)

/-- **The acknowledgement or an error.**  `Send` gets the acknowledgement exactly when it is the
answer and comes back whole; otherwise it gets an error message. -/
theorem send_of_answer {a : Bytes} (ha : Answer a) (kept : Nat) :
    ((a = ackText ∧ ackText.length ≤ kept) ∧ Message.send (.exchanged (a.take kept)) = .ok {}) ∨
      (¬ (a = ackText ∧ ackText.length ≤ kept) ∧
        ∃ e, Refusal e ∧ Message.send (.exchanged (a.take kept)) = .ok e) := by
  rcases ha with rfl | rfl | ⟨e, he, rfl⟩
  · refine .inr ⟨fun h => absurd h.1 (by decide), _, refusal_receiving, ?_⟩
    rw [List.take_nil]
    rfl
  · have hsend : Message.send (.exchanged (ackText.take kept)) =
        .ok (if ackText.length ≤ kept then {}
          else Message.errorMessage (lit "Error receiving reply")) :=
      send_cut (m := {}) (by decide) (by decide) kept
    by_cases hkept : ackText.length ≤ kept
    · rw [if_pos hkept] at hsend
      exact .inl ⟨⟨rfl, hkept⟩, hsend⟩
    · rw [if_neg hkept] at hsend
      exact .inr ⟨fun h => hkept h.2, _, refusal_receiving, hsend⟩
  · obtain ⟨hclean, hlen, hwire, -⟩ := he.wire
    have hsend := send_cut hclean hlen kept
    refine .inr ⟨fun h => he.serialize_ne_ack h.1, ?_⟩
    split_ifs at hsend
    · exact ⟨e, he, by rw [hsend, hwire]⟩
    · exact ⟨_, refusal_receiving, hsend⟩

/-- The acknowledgement comes back over a link. -/
def Link.Acked (l : Link) (answer : Bytes → Bytes) (m : Message) : Prop :=
  ∃ arrived kept, l = sent arrived kept ∧ answer (m.serialize.take arrived) = ackText ∧
    ackText.length ≤ kept

theorem send_exchange {l : Link} {answer : Bytes → Bytes} {m : Message}
    (h : ∀ k, Answer (answer (m.serialize.take k))) :
    (l.Acked answer m ∧ Message.send (l.exchange answer m) = .ok {}) ∨
      (¬ l.Acked answer m ∧ ∃ e, Refusal e ∧ Message.send (l.exchange answer m) = .ok e) := by
  cases l with
  | noSocket => exact .inr ⟨nofun, _, refusal_of_clean (by decide), rfl⟩
  | noConnection => exact .inr ⟨nofun, _, refusal_of_clean (by decide), rfl⟩
  | shortSend => exact .inr ⟨nofun, _, refusal_of_clean (by decide), rfl⟩
  | sent arrived kept =>
      rcases send_of_answer (h arrived) kept with ⟨⟨hack, hkept⟩, hsend⟩ | ⟨hnot, herror⟩
      · exact .inl ⟨⟨arrived, kept, rfl, hack, hkept⟩, hsend⟩
      · refine .inr ⟨?_, herror⟩
        rintro ⟨arrived', kept', hl, hack, hkept⟩
        cases hl
        exact hnot ⟨hack, hkept⟩

/-- Where a node acknowledges the messages in `P`, the acknowledgement comes back over a link when
such a message arrives and the link keeps it. -/
theorem Link.acked_iff {l : Link} {answer : Bytes → Bytes} {m : Message} {P : Message → Prop}
    (h : ∀ k, answer (m.serialize.take k) = ackText ↔
      ∃ m', receive (m.serialize.take k) = .ok m' ∧ P m') :
    l.Acked answer m ↔ (∃ m', l.Arrives m m' ∧ P m') ∧ l.KeepsAck := by
  constructor
  · rintro ⟨arrived, kept, rfl, hack, hkept⟩
    obtain ⟨m', hm', hP⟩ := (h arrived).mp hack
    exact ⟨⟨m', ⟨arrived, kept, rfl, hm'⟩, hP⟩, arrived, kept, rfl, hkept⟩
  · rintro ⟨⟨m', ⟨arrived, kept, rfl, hm'⟩, hP⟩, arrived', kept', hl, hkept⟩
    cases hl
    exact ⟨arrived, kept, rfl, (h arrived).mpr ⟨m', hm', hP⟩, hkept⟩

/-! ### The destination -/

/-- What a client decodes of a chat message, whole or cut, is a chat message or nothing. -/
theorem chat_of_cut {m m' : Message} {k : Nat} (htype : m.type = .sendMessage)
    (h : receive (m.serialize.take k) = .ok m') : m'.type = .sendMessage ∨ m' = {} := by
  obtain ⟨ret, hrecv⟩ := receive_eq_ok_iff.mp h
  rcases recv_ret hrecv with rfl | rfl
  · exact .inl (htype ▸ Message.type_of_cut (by simp [htype]) (List.take_prefix k _) hrecv)
  · exact .inr (Message.recv_error_iff.mp hrecv).2

/-- A chat message is acknowledged exactly when it is for the client and has two parts. -/
theorem acknowledges_iff {dst : Client} {m : Message} (htype : m.type = .sendMessage) :
    dst.Acknowledges m ↔ m.clientDest = dst.name ∧
      ∃ nick text, extractNicknameAndData m.data = .ok (nick, text) := by
  by_cases hdest : m.clientDest = dst.name
  · rw [Client.Acknowledges, processDownMessage_sendMessage hdest htype]
    cases extractNicknameAndData m.data with
    | error f => simp [Except.map]
    | ok r => obtain ⟨nick, text⟩ := r; simp [Except.map, hdest]
  · simp [Client.Acknowledges, Client.processDownMessage, hdest]

/-- A client does not acknowledge the message of the constructor. -/
theorem not_acknowledges_default {dst : Client} : ¬ dst.Acknowledges {} := by
  rintro ⟨c', effects, ret, h, hack⟩
  rw [Client.processDownMessage] at h
  split_ifs at h <;> cases h <;> simp at hack

namespace ChatNet

/-- The client at the packet's address acknowledges it, and the server hears of it. -/
def ClientAcked (net : ChatNet) (q : Packet) : Prop :=
  ∃ dst, net.clientAt q.ip q.port = some dst ∧ net.toClient.Acked dst.answer q.msg

/-- The server acknowledges `m`: it is the destination that does. -/
def ServerAcks (net : ChatNet) (m : Message) : Prop :=
  net.server.request m = .send ∧ ∃ q, net.server.forward m = .ok (some q) ∧ net.ClientAcked q

theorem send_forwarding (net : ChatNet) (q : Packet) :
    (net.ClientAcked q ∧ Message.send (net.forwarding q) = .ok {}) ∨
      (¬ net.ClientAcked q ∧ ∃ e, Refusal e ∧ Message.send (net.forwarding q) = .ok e) := by
  simp only [ClientAcked, forwarding]
  cases hdst : net.clientAt q.ip q.port with
  | none => exact .inr ⟨nofun, _, refusal_of_clean (by decide), rfl⟩
  | some dst =>
      have hanswer : ∀ k, Answer (dst.answer (q.msg.serialize.take k)) := fun k =>
        (answer_eq dst _).imp id .inl
      simpa using send_exchange (l := net.toClient) hanswer

/-- **The server's answer** to a message it decodes is the acknowledgement exactly when the
destination acknowledged it. -/
theorem serverAnswer_of_receive (net : ChatNet) {peer : Bytes} {m : Message}
    (hpeer : receive peer = .ok m) (htype : m.type ≠ .addClient) :
    (net.ServerAcks m ∧ net.serverAnswer peer = ackText) ∨
      (¬ net.ServerAcks m ∧ (net.serverAnswer peer = [] ∨
        ∃ e, Refusal e ∧ net.serverAnswer peer = e.serialize)) := by
  have hanswer : net.serverAnswer peer =
      match net.server.processDownMessage { exchange := net.forwarding } m with
      | .ok (_, effects, _) => replyText effects
      | .error _ => [] := by
    simp only [serverAnswer, Server.answer, hpeer, ok_bind]
  rw [hanswer]
  cases hrequest : net.server.request m with
  | add =>
      rw [Server.request, if_neg htype] at hrequest
      split_ifs at hrequest
      split at hrequest <;> cases hrequest
  | wrongDestination =>
      refine .inr ⟨fun hacks => by simp [ServerAcks, hrequest] at hacks,
        .inr ⟨Message.errorMessage (lit "Wrong destination"), refusal_of_clean (by decide), ?_⟩⟩
      simp only [Server.processDownMessage, hrequest]
      rfl
  | unknown =>
      refine .inr ⟨fun hacks => by simp [ServerAcks, hrequest] at hacks, .inl ?_⟩
      simp only [Server.processDownMessage, hrequest]
      rfl
  | send =>
      simp only [Server.processDownMessage, hrequest, Server.executeSendMessage]
      cases hforward : net.server.forward m with
      | error f =>
          exact .inr ⟨fun hacks => by simp [ServerAcks, hforward] at hacks, .inl rfl⟩
      | ok q? =>
          cases q? with
          | none =>
              exact .inr ⟨fun hacks => by simp [ServerAcks, hforward] at hacks,
                .inr ⟨Message.errorMessage (lit "DESTINATION NOT FOUND"),
                  refusal_of_clean (by decide), rfl⟩⟩
          | some q =>
              rcases net.send_forwarding q with ⟨hack, hsend⟩ | ⟨hnot, e, he, hsend⟩
              · refine .inl ⟨⟨hrequest, q, hforward, hack⟩, ?_⟩
                simp only [ok_bind, hsend]
                rfl
              · refine .inr ⟨fun hacks => ?_, .inr ⟨e, he, ?_⟩⟩
                · obtain ⟨-, q', hq, hack⟩ := hacks
                  rw [hforward] at hq
                  cases hq
                  exact hnot hack
                · simp only [ok_bind, hsend]
                  rfl

theorem serverAnswer_eq_ack_iff (net : ChatNet) {m : Message} (htype : m.type = .sendMessage)
    (k : Nat) :
    (net.serverAnswer (m.serialize.take k) = ackText ↔
      ∃ m', receive (m.serialize.take k) = .ok m' ∧ net.ServerAcks m') ∧
    Answer (net.serverAnswer (m.serialize.take k)) := by
  cases hpeer : receive (m.serialize.take k) with
  | error f =>
      have hnil : net.serverAnswer (m.serialize.take k) = [] := by
        simp only [serverAnswer, Server.answer, hpeer]
        rfl
      rw [hnil]
      exact ⟨⟨nofun, nofun⟩, .inl rfl⟩
  | ok m' =>
      have hadd : m'.type ≠ .addClient := by
        rcases chat_of_cut htype hpeer with hchat | rfl
        · simp [hchat]
        · decide
      rcases net.serverAnswer_of_receive hpeer hadd with ⟨hacks, hack⟩ | ⟨hnot, hother⟩
      · exact ⟨iff_of_true hack ⟨m', rfl, hacks⟩, .inr (.inl hack)⟩
      · have hne : net.serverAnswer (m.serialize.take k) ≠ ackText := by
          rcases hother with hnil | ⟨e, he, herror⟩
          · rw [hnil]
            exact nofun
          · rw [herror]
            exact he.serialize_ne_ack
        refine ⟨iff_of_false hne ?_, hother.imp id .inr⟩
        rintro ⟨_, hm', hacks⟩
        cases hm'
        exact hnot hacks

/-! ### The sender -/

end ChatNet

/-- `sendMessage` survives every reply but an error message. -/
theorem Client.sendMessage_of_reply (env : Env) {c : Client} {dest content : Bytes} {p : Packet}
    {reply : Message} (hp : c.chatPacket dest content = some p)
    (hreply : Message.send (env.exchange p) = .ok reply) :
    Client.sendMessage env c dest content =
      if reply.isErrorMessage then .error .badPointer else .ok (.success, [.send p]) := by
  simp only [Client.sendMessage, hp, hreply, ok_bind, pure_eq_ok]

namespace ChatNet

/-- The acknowledgement comes all the way back. -/
def Acked (net : ChatNet) (name content : Bytes) : Prop :=
  net.toServer.Acked net.serverAnswer (net.sender.chatMessage name content)

/-- **The two outcomes** for a nickname that is known: the acknowledgement has come back, or an
error message, which `sendMessage` does not survive. -/
theorem sendMessage_of_known {net : ChatNet} {dest name : Bytes} (content : Bytes)
    (hname : net.sender.clientNickToNameMap.find dest = some name) :
    (net.Acked name content ∧ ∃ effects, net.sendMessage dest content = .ok (.success, effects)) ∨
      (¬ net.Acked name content ∧ net.sendMessage dest content = .error .badPointer) := by
  obtain ⟨p, hp, hmsg⟩ : ∃ p, net.sender.chatPacket dest content = some p ∧
      p.msg = net.sender.chatMessage name content := ⟨_, by rw [Client.chatPacket, hname]; rfl, rfl⟩
  have hanswer := fun k => (net.serverAnswer_eq_ack_iff
    (m := net.sender.chatMessage name content) rfl k).2
  rcases send_exchange (l := net.toServer) hanswer with ⟨hack, hsend⟩ | ⟨hnot, e, he, hsend⟩ <;>
    rw [← hmsg] at hsend
  · exact .inl ⟨hack, [.send p], Client.sendMessage_of_reply net.env hp hsend⟩
  · refine .inr ⟨hnot, (Client.sendMessage_of_reply net.env hp hsend).trans ?_⟩
    rw [if_pos he.wire.2.2.2]

theorem sendMessage_of_unknown {net : ChatNet} {dest : Bytes} (content : Bytes)
    (hname : net.sender.clientNickToNameMap.find dest = none) :
    net.sendMessage dest content = .ok (.error, []) := by
  simp [sendMessage, Client.sendMessage, Client.chatPacket, hname]

/-- The acknowledgement has come back exactly when the server acknowledged what it decoded. -/
theorem acked_iff {net : ChatNet} {name content : Bytes} :
    net.Acked name content ↔
      (∃ m, net.toServer.Arrives (net.sender.chatMessage name content) m ∧ net.ServerAcks m) ∧
        net.toServer.KeepsAck :=
  Link.acked_iff fun k => (net.serverAnswer_eq_ack_iff rfl k).1

theorem clientAcked_iff {net : ChatNet} {q : Packet} :
    net.ClientAcked q ↔ (∃ dst, net.clientAt q.ip q.port = some dst ∧
      ∃ m', net.toClient.Arrives q.msg m' ∧ dst.Acknowledges m') ∧ net.toClient.KeepsAck := by
  have hclient : ∀ dst : Client, net.toClient.Acked dst.answer q.msg ↔
      (∃ m', net.toClient.Arrives q.msg m' ∧ dst.Acknowledges m') ∧ net.toClient.KeepsAck :=
    fun dst => Link.acked_iff fun k => answer_eq_ack_iff
  constructor
  · rintro ⟨dst, hdst, hack⟩
    obtain ⟨harrives, hkeeps⟩ := (hclient dst).mp hack
    exact ⟨⟨dst, hdst, harrives⟩, hkeeps⟩
  · rintro ⟨⟨dst, hdst, harrives⟩, hkeeps⟩
    exact ⟨dst, hdst, (hclient dst).mpr ⟨harrives, hkeeps⟩⟩

/-- A message that reaches its destination is handled. -/
theorem handled_iff_reaches {net : ChatNet} {dest content : Bytes} :
    net.Handled dest content ↔ net.Reaches dest content := by
  refine exists_congr fun dst => exists_congr fun m' => and_congr_right fun hroute => ?_
  exact acknowledges_iff hroute.chat

/-- Where the destination acknowledges what comes to it and nothing of the two answers is lost, the
acknowledgement comes all the way back. -/
theorem acked_of_route {net : ChatNet} {dest content : Bytes} {dst : Client} {m' : Message}
    (hroute : net.Route dest content dst m') (hacks : dst.Acknowledges m')
    (hserver : net.toServer.KeepsAck) (hclient : net.toClient.KeepsAck) :
    net.Acked dst.name content := by
  obtain ⟨m, q, hm, hrequest, hforward, hdst, hm'⟩ := hroute.path
  have hback : net.ClientAcked q := clientAcked_iff.mpr ⟨⟨dst, hdst, m', hm', hacks⟩, hclient⟩
  exact acked_iff.mpr ⟨⟨m, hm, hrequest, q, hforward, hback⟩, hserver⟩

end ChatNet

/-- **The status of a message is truthful**, exactly when the nickname is unknown, or the message
reaches the client it is for and both acknowledgements come back whole.  Where it is not truthful,
`sendMessage` has been answered by an error message. -/
theorem sendMessage_truthful_iff (net : ChatNet) (dest content : Bytes) :
    net.Truthful dest content ↔
      net.sender.clientNickToNameMap.find dest = none ∨
        net.Reaches dest content ∧ net.toServer.KeepsAck ∧ net.toClient.KeepsAck := by
  cases hname : net.sender.clientNickToNameMap.find dest with
  | none =>
      have hsend := ChatNet.sendMessage_of_unknown content hname
      exact iff_of_true ⟨.error, [], hsend, nofun, fun _ => rfl⟩ (.inl rfl)
  | some name =>
      simp only [reduceCtorEq, false_or]
      constructor
      · rintro ⟨ret, effects, hsend, hsuccess, -⟩
        rcases ChatNet.sendMessage_of_known content hname with ⟨hack, _, hret⟩ | ⟨-, hfault⟩
        · rw [hret] at hsend
          cases hsend
          obtain ⟨⟨m, -, -, q, -, hclient⟩, hkeeps⟩ := ChatNet.acked_iff.mp hack
          obtain ⟨-, hkeeps'⟩ := ChatNet.clientAcked_iff.mp hclient
          exact ⟨ChatNet.handled_iff_reaches.mp (hsuccess rfl), hkeeps, hkeeps'⟩
        · rw [hfault] at hsend
          cases hsend
      · rintro ⟨hreaches, hserver, hclient⟩
        have hhandled := ChatNet.handled_iff_reaches.mpr hreaches
        obtain ⟨dst, m', hroute, hacks⟩ := hhandled
        obtain rfl : name = dst.name := Option.some.inj (hname.symm.trans hroute.known)
        rcases ChatNet.sendMessage_of_known content hname with ⟨-, effects, hret⟩ | ⟨hnot, -⟩
        · exact ⟨.success, effects, hret, fun _ => ⟨dst, m', hroute, hacks⟩, fun h => absurd rfl h⟩
        · exact absurd (ChatNet.acked_of_route hroute hacks hserver hclient) hnot

/-- A greeting that is acknowledged at both hops. -/
example :
    (ChatNet.sendMessage
      { sender := { name := lit "1", nickname := lit "ann", server := lit "7",
                    clientNickToNameMap := StdMap.empty.insert (lit "bob") (lit "2") }
        server := { name := lit "7",
                    clientNameToIPMap := StdMap.empty.insert (lit "2") (lit "bob:host:80") }
        clientAt := fun _ _ => some { name := lit "2", nickname := lit "bob" }
        toServer := .sent 4096 4096
        toClient := .sent 4096 4096 } (lit "bob") (lit "hi")).map (·.1) = .ok .success := by
  decide +kernel

/-! ### A success is never false -/

/-- What arrives of a chat message, and is one, has its header. -/
theorem sameHeader_of_arrives {l : Link} {m m' : Message} (h : l.Arrives m m')
    (htype : m.type = .sendMessage) (hclean : m.CleanRouting) (htype' : m'.type = .sendMessage) :
    m'.SameHeader m ∧ m'.CleanHeader := by
  obtain ⟨arrived, -, -, hpeer⟩ := h
  obtain ⟨ret, hrecv⟩ := receive_eq_ok_iff.mp hpeer
  rcases recv_ret hrecv with rfl | rfl
  · exact ⟨Message.sameHeader_of_recv (by simp [htype]) hclean (List.take_prefix arrived _) hrecv,
      Message.cleanHeader_of_recv hrecv (by simp [htype'])⟩
  · obtain ⟨-, rfl⟩ := Message.recv_error_iff.mp hrecv
    cases htype'

/-- **A success is never false**: where the wire keeps the names, the destination that was named has
handled the message. -/
theorem handled_of_success {net : ChatNet} {dest content name : Bytes} {effects : List Effect}
    (hsender : (net.sender.chatMessage name content).CleanRouting) (hserver : Clean net.server.name)
    (hname : net.sender.clientNickToNameMap.find dest = some name)
    (h : net.sendMessage dest content = .ok (.success, effects)) : net.Handled dest content := by
  rcases ChatNet.sendMessage_of_known content hname with ⟨hack, -⟩ | ⟨-, hfault⟩
  · obtain ⟨⟨m, hm, hrequest, q, hforward, hclient⟩, -⟩ := ChatNet.acked_iff.mp hack
    obtain ⟨⟨dst, hdst, m', hm', hacks⟩, -⟩ := ChatNet.clientAcked_iff.mp hclient
    obtain ⟨htype, -⟩ := Server.request_eq_send_iff.mp hrequest
    obtain ⟨⟨-, -, hdest, -⟩, hclean⟩ := sameHeader_of_arrives hm rfl hsender htype
    -- the second hop, from the fields the server decoded
    obtain ⟨hsrc, hcd, -, -, -⟩ := hclean
    have hforwarded : q.msg.CleanRouting := by
      rw [Server.forward_msg hforward]
      exact ⟨hsrc, hcd, hserver, clean_msgVoid⟩
    have htypeq : q.msg.type = .sendMessage := by
      rw [Server.forward_msg hforward]
      exact htype
    have htype' : m'.type = .sendMessage := by
      obtain ⟨arrived, -, -, hpeer⟩ := hm'
      rcases chat_of_cut htypeq hpeer with hchat | rfl
      · exact hchat
      · exact absurd hacks not_acknowledges_default
    obtain ⟨⟨-, -, hdest', -⟩, -⟩ := sameHeader_of_arrives hm' htypeq hforwarded htype'
    have hdst' := ((acknowledges_iff htype').mp hacks).1
    rw [hdest', Server.forward_msg hforward] at hdst'
    have hsame : name = dst.name := hdest.symm.trans hdst'
    have hpath : net.Route dest content dst m' :=
      ⟨hsame ▸ hname, ⟨m, q, hsame ▸ hm, hrequest, hforward, hdst, hm'⟩, htype'⟩
    exact ⟨dst, m', hpath, hacks⟩
  · rw [hfault] at h
    cases h

/-- The server cannot be reached. -/
theorem not_sendMessage_truthful :
    ¬ ∀ (net : ChatNet) (dest content : Bytes), net.Truthful dest content := by
  intro h
  obtain ⟨ret, effects, hsend, -⟩ := h
    { sender := { name := lit "1", nickname := lit "ann", server := lit "7",
                  clientNickToNameMap := StdMap.empty.insert (lit "bob") (lit "2") }
      server := { name := lit "7" }
      clientAt := fun _ _ => none
      toServer := .noConnection
      toClient := .noConnection } (lit "bob") (lit "hi")
  have hfault : Client.sendMessage { exchange := fun _ => .noConnection }
      { name := lit "1", nickname := lit "ann", server := lit "7",
        clientNickToNameMap := StdMap.empty.insert (lit "bob") (lit "2") } (lit "bob") (lit "hi") =
        .error .badPointer := rfl
  cases hfault.symm.trans hsend

end Cimabue
