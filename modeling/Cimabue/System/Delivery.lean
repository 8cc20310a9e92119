import Cimabue.Model.Client
import Cimabue.Wire.Frame

/-!
# System — Delivery

A packet on its way to a client: the text `serialize` writes reaches the client's `Recv` whole, the
client handles what it decodes (`Client.handle`), and what the client replies is what `Send`
receives (`Client.answer`).

* `receive_serialize_ok`: what is decoded of a text `serialize` wrote was decoded with success.
* `handle_of_delivered`: a client handles a message that is `Delivered` as it was sent.
* `answer_eq_ack_iff`: the answer is the acknowledgement exactly when the client acknowledges what
  it decodes, and otherwise there is none.
* `send_answer`: `Send` never fails on a client's answer.
-/

namespace Cimabue

/-- The wire hands `m` over as it is. -/
def Delivered (m : Message) : Prop := Message.recv {} m.serialize = .ok (.success, m)

instance (m : Message) : Decidable (Delivered m) := inferInstanceAs (Decidable (_ = _))

/-- The text of the first reply. -/
def replyText : List Effect → Bytes
  | [] => []
  | .reply m :: _ => m.serialize
  | _ :: effects => replyText effects

namespace Client

/-- A connection to the down port: the bytes are decoded, and the message is processed. -/
def handle (c : Client) (peer : Bytes) : Except Fault (Client × List Effect × Ret) := do
  let m ← receive peer
  c.processDownMessage m

/-- What the client sends back on the connection; nothing when its handler fails. -/
def answer (c : Client) (peer : Bytes) : Bytes :=
  match c.handle peer with
  | .ok (_, effects, _) => replyText effects
  | .error _ => []

end Client

/-! ### Decoding what was serialized -/

/-- `Recv` never reports an error on a text `serialize` wrote: the text has its `|`. -/
theorem recv_serialize_ne_error {m m₀ m' : Message} :
    Message.recv m₀ m.serialize ≠ .ok (.error, m') := by
  have hkept : ∃ text, Message.received m.serialize = some text := by
    rw [Message.received_eq, if_pos (.inl (by simp [Message.serialize_eq]))]
    exact ⟨_, rfl⟩
  obtain ⟨text, hkept⟩ := hkept
  simp only [Message.recv, hkept]
  cases Message.deserialize text with
  | error f => simp
  | ok m'' => simp

theorem receive_eq_ok_iff {peer : Bytes} {m : Message} :
    receive peer = .ok m ↔ ∃ ret, Message.recv {} peer = .ok (ret, m) := by
  rw [receive]
  cases Message.recv {} peer with
  | error f => simp
  | ok r => obtain ⟨ret, m'⟩ := r; simp

theorem recv_ret {m₀ m : Message} {peer : Bytes} {ret : Ret}
    (h : Message.recv m₀ peer = .ok (ret, m)) : ret = .success ∨ ret = .error := by
  rw [Message.recv] at h
  cases hk : Message.received peer with
  | none => rw [hk] at h; cases h; exact .inr rfl
  | some text =>
      rw [hk] at h
      obtain ⟨m', -, h⟩ := bind_eq_ok.mp h
      cases h
      exact .inl rfl

/-- What is decoded of a text `serialize` wrote was decoded with success. -/
theorem receive_serialize_ok {m m' : Message} :
    receive m.serialize = .ok m' ↔ Message.recv {} m.serialize = .ok (.success, m') := by
  rw [receive_eq_ok_iff]
  refine ⟨fun ⟨ret, h⟩ => ?_, fun h => ⟨_, h⟩⟩
  rcases recv_ret h with rfl | rfl
  · exact h
  · exact absurd h recv_serialize_ne_error

theorem receive_of_delivered {m : Message} (h : Delivered m) : receive m.serialize = .ok m :=
  receive_serialize_ok.mpr h

theorem handle_of_delivered {m : Message} (h : Delivered m) (c : Client) :
    c.handle m.serialize = c.processDownMessage m := by
  rw [Client.handle, receive_of_delivered h]
  rfl

/-! ### The answer -/

theorem mem_of_replyText_ne_nil {effects : List Effect} (h : replyText effects ≠ []) :
    ∃ m, .reply m ∈ effects ∧ replyText effects = m.serialize := by
  induction effects with
  | nil => exact absurd rfl h
  | cons e effects ih =>
      cases e with
      | reply m => exact ⟨m, by simp, rfl⟩
      | send _ | close | notify _ =>
          obtain ⟨m, hm, he⟩ := ih h
          exact ⟨m, by simp [hm], he⟩

/-- The only reply of a client is the acknowledgement. -/
theorem eq_ack_of_reply {c c' : Client} {msg m : Message} {effects : List Effect} {ret : Ret}
    (h : c.processDownMessage msg = .ok (c', effects, ret)) (hm : .reply m ∈ effects) : m = {} := by
  rw [Client.processDownMessage] at h
  split_ifs at h with hdest
  · cases h; simp at hm
  · split at h
    · cases h; simpa using hm
    · obtain ⟨p, -, h⟩ := bind_eq_ok.mp h
      cases h; simpa using hm
    · obtain ⟨p, -, h⟩ := bind_eq_ok.mp h
      cases h; simpa using hm
    · split at h <;> cases h <;> simp at hm
    · cases h; simp at hm

/-- The text of the acknowledgement. -/
def ackText : Bytes := ({} : Message).serialize

/-- The client handles the message up to its acknowledgement. -/
def Client.Acknowledges (c : Client) (msg : Message) : Prop :=
  ∃ c' effects ret, c.processDownMessage msg = .ok (c', effects, ret) ∧ .reply {} ∈ effects

theorem replyText_of_mem {effects : List Effect} {m : Message} (h : .reply m ∈ effects) :
    ∃ m', .reply m' ∈ effects ∧ replyText effects = m'.serialize := by
  induction effects with
  | nil => cases h
  | cons e effects ih =>
      cases e with
      | reply m' => exact ⟨m', by simp, rfl⟩
      | send _ | close | notify _ =>
          obtain ⟨m', hm', he⟩ := ih (by simpa using h)
          exact ⟨m', by simp [hm'], he⟩

/-- **A client's answer** is the acknowledgement, or nothing. -/
theorem answer_eq (c : Client) (peer : Bytes) : c.answer peer = [] ∨ c.answer peer = ackText := by
  rw [Client.answer]
  cases hc : c.handle peer with
  | error f => exact .inl rfl
  | ok r =>
      obtain ⟨c', effects, ret⟩ := r
      by_cases hnil : replyText effects = []
      · exact .inl hnil
      · obtain ⟨m, hm, he⟩ := mem_of_replyText_ne_nil hnil
        obtain ⟨msg, -, hmsg⟩ := bind_eq_ok.mp hc
        exact .inr (he.trans (by rw [eq_ack_of_reply hmsg hm, ackText]))

/-- It is the acknowledgement exactly when the client acknowledges what it decodes. -/
theorem answer_eq_ack_iff {c : Client} {peer : Bytes} :
    c.answer peer = ackText ↔ ∃ m, receive peer = .ok m ∧ c.Acknowledges m := by
  constructor
  · intro h
    rw [Client.answer] at h
    cases hc : c.handle peer with
    | error f => rw [hc] at h; cases h
    | ok r =>
        obtain ⟨c', effects, ret⟩ := r
        obtain ⟨msg, hpeer, hmsg⟩ := bind_eq_ok.mp hc
        simp only [hc] at h
        obtain ⟨m, hm, -⟩ := mem_of_replyText_ne_nil (by rw [h]; exact List.cons_ne_nil _ _)
        exact ⟨msg, hpeer, c', effects, ret, hmsg, eq_ack_of_reply hmsg hm ▸ hm⟩
  · rintro ⟨m, hpeer, c', effects, ret, hmsg, hack⟩
    obtain ⟨m', hm', htext⟩ := replyText_of_mem hack
    simp only [Client.answer, Client.handle, hpeer, ok_bind, hmsg, htext, eq_ack_of_reply hmsg hm',
      ackText]

/-- `Send` gets a message from whatever a client answers. -/
theorem send_answer (c : Client) (peer : Bytes) :
    ∃ reply, Message.send (.exchanged (c.answer peer)) = .ok reply := by
  rcases answer_eq c peer with h | h <;> rw [h] <;> exact ⟨_, rfl⟩

end Cimabue
