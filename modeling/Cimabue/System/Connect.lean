import Cimabue.System.Broadcast
import Cimabue.System.History
import Cimabue.System.Status

/-!
# System — Connect

`connectToServer`, the loop a client registers with: its message is sent again and again until a reply
comes back, and any of the texts, of the message or of a reply, may break off on the way (`Link`).

* `receive_cut`: a text that breaks off is received as nothing.
* `turn_cases`: what one turn of the loop does to the server and to the client.
* `connect_once`: however often the loop turns, the server has the client as the first turn that reached
  it brought it, and the client is connected exactly when a turn was answered in full; then it knows
  the server's name and is registered.
* `connection_registers_iff`: over a connection that keeps everything, a client comes to be
  registered as what it is exactly when its nickname and its address are not empty and have no `:`,
  no `-` and no `|`.
-/

namespace Cimabue

/-! ### Texts that break off -/

/-- **All or nothing.**  A clean message that fits is received, or when its text breaks off nothing
is. -/
theorem receive_cut {m : Message} (hclean : m.CleanHeader)
    (hlen : m.serialize.length ≤ msgBufferSize) (k : Nat) :
    receive (m.serialize.take k) = .ok (if m.serialize.length ≤ k then m.afterWire else {}) := by
  split_ifs with hk
  · have hfit : m.headLength ≤ msgBufferSize - 2 := by
      rw [length_serialize] at hlen
      omega
    rw [List.take_of_length_le hk]
    exact receive_eq_ok_iff.mpr ⟨.success, Message.recv_serialize hclean hfit {}⟩
  · have hend : msgEnd ∉ m.serialize.take k := by
      obtain ⟨hhead, -⟩ := hclean.not_mem_headText
      -- the `|` is the last byte, and is not among those that arrive
      rw [Message.serialize_eq, ← List.append_assoc, List.length_append, List.length_singleton]
        at hk
      rw [Message.serialize_eq, ← List.append_assoc, List.take_append_of_le_length (by omega)]
      intro hmem
      rcases List.mem_append.mp (List.mem_of_mem_take hmem) with hmem | hmem
      · exact hhead hmem
      · exact (clean_decodePriority m.priority).2.2.1 hmem
    have hshort : (m.serialize.take k).length < msgBufferSize := by
      rw [List.length_take]
      omega
    exact receive_eq_ok_iff.mpr ⟨.error, Message.recv_error_iff.mpr ⟨⟨hend, hshort⟩, rfl⟩⟩

theorem toOption_eq_some {ε α : Type*} {x : Except ε α} {a : α} :
    x.toOption = some a ↔ x = .ok a := by
  cases x <;> simp [Except.toOption]

namespace Link

/-- The first `n` bytes reach the other side. -/
def delivers (n : Nat) : Link → Bool
  | .sent arrived _ => n ≤ arrived
  | _ => false

/-- They do, and the first `k` bytes of the answer come back. -/
def returns (n k : Nat) : Link → Bool
  | .sent arrived kept => n ≤ arrived && k ≤ kept
  | _ => false

end Link

/-! ### The loop -/

namespace Client

/-- What `connectToServer` makes of a reply that is no error message. -/
def connected (c : Client) (reply : Message) : Client :=
  { c with server := reply.serverSrc, connectedToServer := true }

/-- A turn of the loop of `connectToServer`; an error message is logged, and the loop goes on. -/
def connectTurn (c : Client) (t : Message.Transport) : Except Fault Client := do
  let ret ← Message.send t
  pure (if ret.isErrorMessage then c else c.connected ret)

end Client

/-- A server, and a client that registers with it. -/
structure Joining where
  server : Server
  client : Client

/-- What happens while a client registers. -/
inductive JoiningStep where
  /-- A turn of the loop of `connectToServer`, with what becomes of the exchange. -/
  | turn (l : Link) (env : Env)
  /-- Anything else in the registry. -/
  | other (a : RegistryStep)

namespace Joining

/-- The server after what has reached it. -/
def reached (s : Server) (l : Link) (env : Env) (m : Message) : Except Fault Server :=
  match l with
  | .sent arrived _ => do
      let m' ← receive (m.serialize.take arrived)
      let (s, _, _) ← s.processDownMessage env m'
      pure s
  | _ => pure s

/-- A turn of the loop with the text `nickname:ip:port`. -/
def turn (d : Bytes) (j : Joining) (l : Link) (env : Env) : Except Fault Joining := do
  let m := j.client.connectMessage d
  let server ← reached j.server l env m
  let client ← j.client.connectTurn (l.exchange (j.server.answer env) m)
  pure { server, client }

/-- The loop ends when the client is connected. -/
def step (d : Bytes) (j : Joining) : JoiningStep → Option Joining
  | .turn l env => if j.client.connectedToServer then none else (j.turn d l env).toOption
  | .other a => (registrations.step j.server a).map fun server => { j with server }

end Joining

/-- A client that registers under `d`, while other things happen in the registry. -/
def joining (d : Bytes) : Machine Joining JoiningStep where
  step := Joining.step d

/-- The wire keeps the registration of `c` under `d`, and its confirmation. -/
structure Server.Keeps (s : Server) (c : Client) (d : Bytes) : Prop where
  server : Clean s.name
  client : Clean c.name
  data : Clean d
  fits : (s.addReply (c.connectMessage d)).serialize.length ≤ msgBufferSize

instance (s : Server) (c : Client) (d : Bytes) : Decidable (s.Keeps c d) :=
  decidable_of_iff (Clean s.name ∧ Clean c.name ∧ Clean d ∧
      (s.addReply (c.connectMessage d)).serialize.length ≤ msgBufferSize)
    ⟨fun ⟨h₁, h₂, h₃, h₄⟩ => ⟨h₁, h₂, h₃, h₄⟩, fun ⟨h₁, h₂, h₃, h₄⟩ => ⟨h₁, h₂, h₃, h₄⟩⟩

section Turn

variable {s : Server} {c : Client} {d : Bytes}

theorem Server.Keeps.request (h : s.Keeps c d) :
    (c.connectMessage d).CleanHeader ∧ (c.connectMessage d).serialize.length ≤ msgBufferSize := by
  refine ⟨⟨h.client, clean_msgVoid, clean_msgVoid, clean_msgVoid, h.data⟩, ?_⟩
  have hfits := h.fits
  have hname : 0 < s.name.length := List.length_pos_iff.mpr h.server.1
  have hvoid : msgVoid.length = 1 := rfl
  simp only [length_serialize, Message.headLength, Server.addReply, Client.connectMessage, hvoid]
    at hfits ⊢
  omega

theorem Server.Keeps.reply (h : s.Keeps c d) :
    (s.addReply (c.connectMessage d)).CleanHeader :=
  ⟨clean_msgVoid, h.client, h.server, clean_msgVoid, h.data⟩

/-- The message of the constructor is refused, or not answered. -/
theorem Server.processDownMessage_default (s : Server) (env : Env) :
    ∃ effects ret, s.processDownMessage env {} = .ok (s, effects, ret) ∧
      (replyText effects = [] ∨ ∃ e, Refusal e ∧ replyText effects = e.serialize) := by
  have hadd : s.request {} = .wrongDestination ∨ s.request {} = .unknown := by
    simp only [Server.request, reduceCtorEq, if_false]
    split_ifs
    · exact .inl rfl
    · exact .inr rfl
  rcases hadd with hreq | hreq
  · refine ⟨_, _, by simp only [Server.processDownMessage, hreq]; rfl, .inr ?_⟩
    exact ⟨Message.errorMessage (lit "Wrong destination"), refusal_of_clean (by decide), rfl⟩
  · exact ⟨_, _, by simp only [Server.processDownMessage, hreq]; rfl, .inl rfl⟩

/-- An error message leaves the client in its loop. -/
theorem Client.connectTurn_of_refusal {t : Message.Transport} {e : Message} (he : Refusal e)
    (h : Message.send t = .ok e) : c.connectTurn t = .ok c := by
  simp only [Client.connectTurn, h, ok_bind, he.wire.2.2.2, if_true, pure_eq_ok]

/-- The client is connected by a confirmation that comes back whole. -/
theorem Client.connectTurn_of_reply (hkeeps : s.Keeps c d) (kept : Nat) :
    c.connectTurn (.exchanged ((s.addReply (c.connectMessage d)).serialize.take kept)) =
      .ok (if (s.addReply (c.connectMessage d)).serialize.length ≤ kept
        then c.connected (s.addReply (c.connectMessage d)) else c) := by
  have hsend := send_cut hkeeps.reply hkeeps.fits kept
  split_ifs at hsend ⊢ with hkept
  · have htype : encodeType (decodeType .addClient) = .addClient := by decide
    have hself : (s.addReply (c.connectMessage d)).afterWire = s.addReply (c.connectMessage d) := by
      simp only [Message.afterWire, Server.addReply, htype]
    have herror : (s.addReply (c.connectMessage d)).isErrorMessage = false := rfl
    simp only [Client.connectTurn, hsend, hself, herror, ok_bind, Bool.false_eq_true, if_false,
      pure_eq_ok]
  · exact Client.connectTurn_of_refusal refusal_receiving hsend

/-- A turn that the server does not hear of leaves both as they were. -/
theorem turn_of_cut {j : Joining} {arrived kept : Nat} {env : Env}
    (hkeeps : j.server.Keeps j.client d)
    (hcut : ¬ (j.client.connectMessage d).serialize.length ≤ arrived) :
    j.turn d (.sent arrived kept) env = .ok j := by
  obtain ⟨hclean, hlen⟩ := hkeeps.request
  have hrecv := receive_cut hclean hlen arrived
  rw [if_neg hcut] at hrecv
  obtain ⟨effects, ret, hdown, htext⟩ := j.server.processDownMessage_default env
  have hreached : Joining.reached j.server (.sent arrived kept) env (j.client.connectMessage d) =
      .ok j.server := by
    simp only [Joining.reached, hrecv, hdown, ok_bind, pure_eq_ok]
  have hanswer : j.server.answer env ((j.client.connectMessage d).serialize.take arrived) =
      replyText effects := by
    simp only [Server.answer, hrecv, hdown, ok_bind]
  have hne : ¬ (replyText effects = ackText ∧ ackText.length ≤ kept) := by
    rintro ⟨hack, -⟩
    rcases htext with hnil | ⟨e, he, herror⟩
    · exact List.cons_ne_nil _ _ (hack.symm.trans hnil)
    · exact he.serialize_ne_ack (herror.symm.trans hack)
  rcases send_of_answer (htext.imp id .inr) kept with ⟨hack, -⟩ | ⟨-, e, he, hsend⟩
  · exact absurd hack hne
  · have hclient := Client.connectTurn_of_refusal (c := j.client) he hsend
    simp only [Joining.turn, hreached, Link.exchange, hanswer, hclient, ok_bind, pure_eq_ok]

/-- What a turn that reaches the server registers there. -/
theorem registers_of_turn {j j' : Joining} {arrived kept : Nat} {env : Env}
    (h : j.turn d (.sent arrived kept) env = .ok j') :
    ∃ m, receive ((j.client.connectMessage d).serialize.take arrived) = .ok m ∧
      registrations.step j.server (.message env m) = some j'.server := by
  obtain ⟨server, hserver, h⟩ := bind_eq_ok.mp h
  obtain ⟨client, -, h⟩ := bind_eq_ok.mp h
  obtain rfl := Except.ok.inj h
  obtain ⟨m, hm, hserver⟩ := bind_eq_ok.mp hserver
  obtain ⟨⟨s', effects, ret⟩, hdown, hs'⟩ := bind_eq_ok.mp hserver
  obtain rfl : s' = server := Except.ok.inj hs'
  refine ⟨m, hm, ?_⟩
  simp only [registrations, hdown]
  rfl

theorem Server.Keeps.receive (h : s.Keeps c d) {arrived : Nat}
    (harr : (c.connectMessage d).serialize.length ≤ arrived) :
    receive ((c.connectMessage d).serialize.take arrived) = .ok (c.connectMessage d) := by
  obtain ⟨hclean, hlen⟩ := h.request
  have htype : encodeType (decodeType .addClient) = .addClient := by decide
  have hself : (c.connectMessage d).afterWire = c.connectMessage d := by
    simp only [Message.afterWire, Client.connectMessage, htype]
  rw [receive_cut hclean hlen, if_pos harr, hself]

/-- A turn whose message is registered, and confirmed as far as the answer comes back. -/
theorem turn_of_registers {j : Joining} {t : Server} {arrived : Nat} (kept : Nat) {env : Env}
    (hkeeps : j.server.Keeps j.client d)
    (harr : (j.client.connectMessage d).serialize.length ≤ arrived)
    (h : registrations.step j.server (.message env (j.client.connectMessage d)) = some t) :
    j.turn d (.sent arrived kept) env = .ok ⟨t,
      if (j.server.addReply (j.client.connectMessage d)).serialize.length ≤ kept
      then j.client.connected (j.server.addReply (j.client.connectMessage d)) else j.client⟩ := by
  have hrecv := hkeeps.receive harr
  obtain ⟨⟨s', effects, ret⟩, hdown, hs'⟩ := Option.map_eq_some_iff.mp h
  obtain rfl : s' = t := hs'
  rw [toOption_eq_some] at hdown
  obtain ⟨nick, ps, -, hentry, -, heffects⟩ := Server.processDownMessage_addClient rfl hdown
  have hreached : Joining.reached j.server (.sent arrived kept) env (j.client.connectMessage d) =
      .ok s' := by
    simp only [Joining.reached, hrecv, hdown, ok_bind, pure_eq_ok]
  have hanswer : j.server.answer env ((j.client.connectMessage d).serialize.take arrived) =
      (j.server.addReply (j.client.connectMessage d)).serialize := by
    simp only [Server.answer, hrecv, hdown, ok_bind, heffects, List.cons_append, replyText, hentry]
    rfl
  simp only [Joining.turn, hreached, Link.exchange, hanswer, Client.connectTurn_of_reply hkeeps,
    ok_bind, pure_eq_ok]

/-- **A turn of the loop**: the server hears of it or not, and of that the client hears or not. -/
theorem turn_cases {j j' : Joining} {l : Link} {env : Env} (hkeeps : j.server.Keeps j.client d)
    (h : j.turn d l env = .ok j') :
    (l.delivers (j.client.connectMessage d).serialize.length = false ∧ j' = j) ∨
      (l.delivers (j.client.connectMessage d).serialize.length = true ∧
        registrations.step j.server (.message env (j.client.connectMessage d)) = some j'.server ∧
        j'.client =
          if l.returns (j.client.connectMessage d).serialize.length
            (j.server.addReply (j.client.connectMessage d)).serialize.length
          then j.client.connected (j.server.addReply (j.client.connectMessage d))
          else j.client) := by
  cases l with
  | noSocket | noConnection | shortSend => exact .inl ⟨rfl, (Except.ok.inj h).symm⟩
  | sent arrived kept =>
      by_cases harr : (j.client.connectMessage d).serialize.length ≤ arrived
      · obtain ⟨m, hm, hreg⟩ := registers_of_turn h
        rw [hkeeps.receive harr] at hm
        obtain rfl := Except.ok.inj hm
        have hj' := Except.ok.inj ((turn_of_registers kept hkeeps harr hreg).symm.trans h)
        refine .inr ⟨by simpa [Link.delivers] using harr, hreg, ?_⟩
        simpa [Link.returns, harr] using (congrArg Joining.client hj').symm
      · rw [turn_of_cut hkeeps harr] at h
        exact .inl ⟨by simpa [Link.delivers] using harr, (Except.ok.inj h).symm⟩

end Turn

/-! ### The whole loop -/

namespace JoiningStep

/-- The world of a turn that reaches the server, `n` being the length of the message. -/
def reaches (n : Nat) : JoiningStep → Option Env
  | .turn l env => if l.delivers n then some env else none
  | .other _ => none

/-- The turn is confirmed, `n` and `k` being the lengths of the message and of the reply. -/
def confirms (n k : Nat) : JoiningStep → Bool
  | .turn l _ => l.returns n k
  | .other _ => false

end JoiningStep

theorem name_registrations {s t : Server} {a : RegistryStep} (h : registrations.step s a = some t) :
    t.name = s.name := by
  cases a with
  | message env msg =>
      rcases registrations_message h with ⟨-, rfl⟩ | ⟨-, nick, -, rfl⟩
      · rfl
      · rfl
  | remove v => exact Option.some.inj h ▸ rfl

/-- Between two turns: the server has `c` as the turn in the world `first` brought it, and the client
is connected or not. -/
structure Joining.At (s : Server) (c : Client) (d : Bytes) (first : Option Env) (known : Bool)
    (j : Joining) : Prop where
  server : j.server.name = s.name
  client : j.client.name = c.name
  entry : j.server.EntryOf c.name (first.map fun env => (env, c.connectMessage d))
  connected : j.client.connectedToServer = known
  told : known = true → j.client.server = s.name ∧ first.isSome

namespace Joining.At

variable {s : Server} {c : Client} {d : Bytes} {first : Option Env} {known : Bool}
  {j j' : Joining}

theorem message (h : j.At s c d first known) :
    j.client.connectMessage d = c.connectMessage d := by
  simp only [Client.connectMessage, h.client]

theorem reply (h : j.At s c d first known) :
    j.server.addReply (c.connectMessage d) = s.addReply (c.connectMessage d) := by
  simp only [Server.addReply, h.server]

theorem keeps (h : j.At s c d first known) (hkeeps : s.Keeps c d) :
    j.server.Keeps j.client d := by
  obtain ⟨hserver, hclient, hdata, hfits⟩ := hkeeps
  exact ⟨h.server ▸ hserver, h.client ▸ hclient, hdata, by rwa [h.message, h.reply]⟩

theorem step {a : JoiningStep} (h : j.At s c d first known) (hkeeps : s.Keeps c d)
    (hother : ∀ b, a = .other b → b.event c.name = .skip) (hstep : (joining d).step j a = some j') :
    j'.At s c d (first.or (a.reaches (c.connectMessage d).serialize.length))
      (known || a.confirms (c.connectMessage d).serialize.length
        (s.addReply (c.connectMessage d)).serialize.length) := by
  cases a with
  | other b =>
      obtain ⟨t, ht, rfl⟩ := Option.map_eq_some_iff.mp hstep
      have hentry := registry_step h.entry ht
      rw [latch, hother b rfl] at hentry
      simp only [JoiningStep.reaches, JoiningStep.confirms, Option.or_none, Bool.or_false]
      exact ⟨(name_registrations ht).trans h.server, h.client, hentry, h.connected, h.told⟩
  | turn l env =>
      simp only [joining, Joining.step] at hstep
      split_ifs at hstep with hloop
      obtain rfl : known = false := by rw [← h.connected]; simpa using hloop
      have hturn : j.turn d l env = .ok j' := toOption_eq_some.mp hstep
      have hcases := turn_cases (h.keeps hkeeps) hturn
      rw [h.message, h.reply] at hcases
      simp only [JoiningStep.reaches, JoiningStep.confirms, Bool.false_or]
      rcases hcases with ⟨hl, rfl⟩ | ⟨hl, hserver, hclient⟩
      · have hreturns : l.returns (c.connectMessage d).serialize.length
            (s.addReply (c.connectMessage d)).serialize.length = false := by
          cases l with
          | sent arrived kept => simp_all [Link.delivers, Link.returns]
          | noSocket | noConnection | shortSend => rfl
        simp only [hl, hreturns, Bool.false_eq_true, if_false, Option.or_none]
        exact h
      · have hentry := registry_step h.entry hserver
        have hevent : RegistryStep.event c.name (.message env (c.connectMessage d)) =
            .set (env, c.connectMessage d) := RegistryStep.event_eq_set.mpr ⟨rfl, rfl, rfl⟩
        rw [latch, hevent] at hentry
        have hname := (name_registrations hserver).trans h.server
        simp only [hl, if_true]
        refine ⟨hname, ?_, ?_, ?_, fun hret => ⟨?_, by simp⟩⟩
        · rw [hclient]
          split_ifs
          · exact h.client
          · exact h.client
        · cases first with
          | none => exact hentry
          | some env' => exact hentry
        · rw [hclient]
          split_ifs with hret
          · exact hret.symm
          · rw [h.connected]
            simpa using hret
        · rw [hclient, if_pos hret]
          rfl

theorem run {as : List JoiningStep} (h : j.At s c d first known) (hkeeps : s.Keeps c d)
    (hothers : ∀ b, .other b ∈ as → b.event c.name = .skip)
    (hrun : (joining d).run j as = some j') :
    j'.At s c d (first.or (as.findSome? (·.reaches (c.connectMessage d).serialize.length)))
      (known || as.any (·.confirms (c.connectMessage d).serialize.length
        (s.addReply (c.connectMessage d)).serialize.length)) := by
  induction as generalizing j first known with
  | nil => simpa using Option.some.inj hrun ▸ h
  | cons a as ih =>
      obtain ⟨j₁, hj₁, hrun⟩ := Option.bind_eq_some_iff.mp hrun
      have h₁ := h.step hkeeps (fun b hb => hothers b (by simp [hb])) hj₁
      have hlast := ih h₁ (fun b hb => hothers b (List.mem_cons_of_mem a hb)) hrun
      rw [Option.or_assoc, Bool.or_assoc] at hlast
      rw [List.any_cons, List.findSome?_cons]
      cases hr : a.reaches (c.connectMessage d).serialize.length with
      | none => simpa only [hr, Option.none_or] using hlast
      | some env => simpa only [hr, Option.some_or] using hlast

end Joining.At

/-- **Registered once, and connected when it is known.**  A client that is new to the server, and whose
names and text the wire keeps, turns its loop, whatever becomes of each exchange and whatever else the registry goes through that does not
concern its name.  The server has it as the first turn that reached it brought it, and later ones
change nothing; the client is connected exactly when a turn was confirmed, and then it knows the
server's name and is registered. -/
theorem connect_once (s : Server) (c : Client) (d : Bytes) (as : List JoiningStep) (t : Joining)
    (hnew : s.EntryOf c.name none) (hloop : c.connectedToServer = false) (hkeeps : s.Keeps c d)
    (hothers : ∀ b, .other b ∈ as → b.event c.name = .skip)
    (hrun : (joining d).run ⟨s, c⟩ as = some t) :
    t.server.EntryOf c.name
        ((as.findSome? (·.reaches (c.connectMessage d).serialize.length)).map
          fun env => (env, c.connectMessage d)) ∧
      t.client.connectedToServer =
        as.any (·.confirms (c.connectMessage d).serialize.length
          (s.addReply (c.connectMessage d)).serialize.length) ∧
      (t.client.connectedToServer = true → t.client.server = s.name ∧
        t.server.clientNameToIPMap.find c.name = some d) := by
  have hinit : Joining.At s c d none false ⟨s, c⟩ := ⟨rfl, rfl, hnew, hloop, nofun⟩
  have hlast := hinit.run hkeeps hothers hrun
  simp only [Option.none_or, Bool.false_or] at hlast
  refine ⟨hlast.entry, hlast.connected, fun hcon => ?_⟩
  obtain ⟨hserver, hfirst⟩ := hlast.told (hlast.connected.symm.trans hcon)
  obtain ⟨env, henv⟩ := Option.isSome_iff_exists.mp hfirst
  have hentry := hlast.entry
  rw [henv] at hentry
  exact ⟨hserver, hentry.1⟩

/-- The first turn reaches the server and its confirmation is lost, another client registers, and the
second turn is confirmed. -/
theorem connect_once_twice :
    ∃ t, (joining (lit "ann:host:80")).run
        ⟨{ name := lit "7" }, { name := lit "1", nickname := lit "ann" }⟩
        [.turn (.sent 4096 0) { now := 3 }, .other (registers (lit "2") (lit "bob:host:81")),
          .turn (.sent 4096 4096) { now := 5 }] = some t ∧
      t.server.EntryOf (lit "1") (some ({ now := 3 },
        { type := .addClient, clientSrc := lit "1", data := lit "ann:host:80" })) ∧
      t.client.server = lit "7" := by
  have hrun : ((joining (lit "ann:host:80")).run
      ⟨{ name := lit "7" }, { name := lit "1", nickname := lit "ann" }⟩
      [.turn (.sent 4096 0) { now := 3 }, .other (registers (lit "2") (lit "bob:host:81")),
        .turn (.sent 4096 4096) { now := 5 }]).isSome = true := by decide +kernel
  obtain ⟨t, ht⟩ := Option.isSome_iff_exists.mp hrun
  obtain ⟨hentry, hcon, hserver⟩ := connect_once { name := lit "7" }
    { name := lit "1", nickname := lit "ann" } (lit "ann:host:80") _ t ⟨rfl, rfl, rfl⟩ rfl
    (by decide) (fun b hb => by
      obtain rfl : b = registers (lit "2") (lit "bob:host:81") := by simpa using hb
      rfl) ht
  exact ⟨t, ht, hentry, (hserver (hcon.trans rfl)).1⟩

/-! ### Which clients come to be registered as what they are -/

/-- A name that can be registered: not empty, without `:`, `-` and `|`. -/
def Registrable (x : Bytes) : Prop := Part x ∧ msgSeparator ∉ x ∧ msgEnd ∉ x

instance (x : Bytes) : Decidable (Registrable x) := inferInstanceAs (Decidable (_ ∧ _))

/-- The bytes of what the parser returns are bytes of the text. -/
theorem mem_of_parse {data nickname ip : Bytes} {port : Nat}
    (h : parseNicknameAndAddress data = .ok (some (nickname, ip, port))) :
    (∀ x ∈ nickname, x ∈ data) ∧ ∀ x ∈ ip, x ∈ data := by
  obtain ⟨number, rest, htok⟩ := tokenize_of_parse h
  have hmem : ∀ f ∈ nickname :: ip :: number :: rest, ∀ x ∈ f, x ∈ data := by
    by_cases hs : data.head? = some dataSeparator
    · obtain ⟨hfirst, hruns⟩ := List.cons.inj (tokenize_of_sep hs htok)
      intro f hf x hx
      rcases List.mem_cons.mp hf with rfl | hf
      · exact (List.dropWhile_sublist _).subset (hfirst ▸ hx)
      · rw [hruns] at hf
        exact (mem_runs hf).2.2 x hx
    · rw [tokenize_of_head hs] at htok
      intro f hf x hx
      rw [← Except.ok.inj htok] at hf
      exact (mem_runs hf).2.2 x hx
  exact ⟨hmem nickname (by simp), hmem ip (by simp)⟩

/-- A registration is clean when its nickname and its address are. -/
theorem clean_registration {nickname ip : Bytes} {port : Nat}
    (hnick : msgSeparator ∉ nickname ∧ msgEnd ∉ nickname ∧ (0 : Byte) ∉ nickname)
    (hip : msgSeparator ∉ ip ∧ msgEnd ∉ ip ∧ (0 : Byte) ∉ ip) :
    Clean (registration nickname ip (decimal port)) := by
  have hmem : ∀ x, x ∉ nickname → x ∉ ip → isDigit x = false → x ≠ dataSeparator →
      x ∉ registration nickname ip (decimal port) := by
    intro x h₁ h₂ h₃ h₄
    rw [registration_eq]
    simp only [List.mem_append, List.mem_cons, not_or]
    exact ⟨h₁, h₄, h₂, h₄, not_mem_decimal h₃⟩
  refine ⟨by simp [registration_eq], ?_, ?_, ?_⟩
  · exact hmem _ hnick.1 hip.1 (by decide) (by decide)
  · exact hmem _ hnick.2.1 hip.2.1 (by decide) (by decide)
  · exact hmem _ hnick.2.2 hip.2.2 (by decide) (by decide)

/-- The updates of a registration go out where all addresses parse. -/
theorem Server.updateClientListAdd_ok {s : Server} {msg : Message} {env : Env} {nick : Bytes}
    (hex : ∀ p, ∃ reply, Message.send (env.exchange p) = .ok reply)
    (haddr : ∀ k a, s.clientNameToIPMap.find k = some a → Reachable a)
    (hnick : parseNickname msg.data = .ok nick) : ∃ ps, s.updateClientListAdd env msg = .ok ps := by
  have hupd : ∀ k, s.updateAdd msg k = .ok (some (s.addUpdate nick msg.clientSrc k)) := by
    intro k
    rw [updateAdd, addUpdate]
    split_ifs with h
    · simp [hnick]
    · rfl
  obtain ⟨ps, hps, -⟩ :=
    sendUpdates_ok hex (fun e he => haddr e.1 e.2 (StdMap.find_of_mem he)) hupd
  exact ⟨ps, hps⟩

/-- A registration goes through where all addresses parse, its own among them if its name is new. -/
theorem Server.registration_ok {s : Server} {msg : Message} {env : Env} {nick : Bytes}
    (htype : msg.type = .addClient)
    (hex : ∀ p, ∃ reply, Message.send (env.exchange p) = .ok reply)
    (haddr : ∀ k a, s.clientNameToIPMap.find k = some a → Reachable a)
    (hdata : s.clientNameToIPMap.find msg.clientSrc = none → Reachable msg.data)
    (hnick : parseNickname msg.data = .ok nick) :
    ∃ t, registrations.step s (.message env msg) = some t := by
  have hadd : s.executeAddClient env msg =
      .ok (s.withEntry msg env.now nick, (s.withEntry msg env.now nick).addReply msg) := by
    simp only [executeAddClient, addNickname, hnick, ok_bind, pure_eq_ok]
    rfl
  have haddr' : ∀ k a, (s.withEntry msg env.now nick).clientNameToIPMap.find k = some a →
      Reachable a := by
    intro k a hfind
    simp only [withEntry, addName, addPing, StdMap.find_insert] at hfind
    split_ifs at hfind with hk
    · cases hold : s.clientNameToIPMap.find msg.clientSrc with
      | none => rw [hold] at hfind; exact Option.some.inj hfind ▸ hdata hold
      | some a => rw [hold] at hfind; exact Option.some.inj hfind ▸ haddr _ _ hold
    · exact haddr _ _ hfind
  obtain ⟨ps, hps⟩ := updateClientListAdd_ok hex haddr' hnick
  refine ⟨s.withEntry msg env.now nick, ?_⟩
  simp only [registrations, processDownMessage, request_of_addClient htype, hadd, hps, ok_bind,
    pure_eq_ok]
  rfl

/-- The address of a name that was not there is the data of the registration. -/
theorem address_of_message {s t : Server} {n a : Bytes} {env : Env} {m : Message}
    (hnew : s.clientNameToIPMap.find n = none)
    (h : registrations.step s (.message env m) = some t)
    (ha : t.clientNameToIPMap.find n = some a) : m.type = .addClient ∧ m.data = a := by
  rcases registrations_message h with ⟨-, rfl⟩ | ⟨htype, nick, -, rfl⟩
  · rw [hnew] at ha
    cases ha
  · refine ⟨htype, ?_⟩
    simp only [Server.withEntry, Server.addName, Server.addPing, StdMap.find_insert] at ha
    split_ifs at ha with hn
    · rw [← hn, hnew] at ha
      exact Option.some.inj ha
    · rw [hnew] at ha
      cases ha

/-- A turn keeps the client's names. -/
theorem client_of_turn {d : Bytes} {j j' : Joining} {l : Link} {env : Env}
    (h : j.turn d l env = .ok j') :
    j'.client.name = j.client.name ∧ j'.client.nickname = j.client.nickname := by
  obtain ⟨server, -, h⟩ := bind_eq_ok.mp h
  obtain ⟨client, hclient, h⟩ := bind_eq_ok.mp h
  obtain rfl := Except.ok.inj h
  obtain ⟨ret, -, hclient⟩ := bind_eq_ok.mp hclient
  rw [← Except.ok.inj hclient]
  split_ifs
  · exact ⟨rfl, rfl⟩
  · exact ⟨rfl, rfl⟩

/-- The client is registered as what it is, and knows it. -/
structure Joining.Registered (j : Joining) (ip : Bytes) (port : Nat) : Prop where
  nickname : j.server.clientNicknameToName.find j.client.name = some j.client.nickname
  address : ∃ a, j.server.clientNameToIPMap.find j.client.name = some a ∧
    parseNicknameAndAddress a = .ok (some (j.client.nickname, ip, port))
  connected : j.client.connectedToServer = true ∧ j.client.server = j.server.name

/-- **Which clients can register.**  Over a connection that keeps everything, a client comes to be
registered under its nickname, and at its address and port, exactly when its nickname and its address
are not empty and have no `:`, no `-` and no `|`. -/
theorem connection_registers_iff (s : Server) (c : Client) (ip d : Bytes)
    (port arrived kept : Nat) (env : Env)
    (hnick : (0 : Byte) ∉ c.nickname) (hip : (0 : Byte) ∉ ip) (hport : port ≤ 65535)
    (hd : c.nicknameIpPort ip port = some d) (hserver : Clean s.name) (hclient : Clean c.name)
    (hfits : (s.addReply (c.connectMessage d)).serialize.length ≤ msgBufferSize)
    (hnew : s.EntryOf c.name none) (hloop : c.connectedToServer = false)
    (haddr : ∀ k a, s.clientNameToIPMap.find k = some a → Reachable a)
    (hex : ∀ p, ∃ reply, Message.send (env.exchange p) = .ok reply)
    (harr : (c.connectMessage d).serialize.length ≤ arrived)
    (hkept : (s.addReply (c.connectMessage d)).serialize.length ≤ kept) :
    (∃ j, (joining d).step ⟨s, c⟩ (.turn (.sent arrived kept) env) = some j ∧
        j.Registered ip port) ↔
      Registrable c.nickname ∧ Registrable ip := by
  have hparses := registration_parses_iff c ip d port hnick hip hport hd
  have hstep : (joining d).step ⟨s, c⟩ (.turn (.sent arrived kept) env) =
      (Joining.turn d ⟨s, c⟩ (.sent arrived kept) env).toOption := by
    simp only [joining, Joining.step, hloop, Bool.false_eq_true, if_false]
  have hkeep : Clean d → s.Keeps c d := fun hclean => ⟨hserver, hclient, hclean, hfits⟩
  rw [hstep]
  constructor
  · rintro ⟨j, hj, hreg⟩
    rw [toOption_eq_some] at hj
    obtain ⟨hname, hnickname⟩ := client_of_turn hj
    obtain ⟨m, hm, hmsg⟩ := registers_of_turn hj
    rw [List.take_of_length_le harr] at hm
    obtain ⟨a, ha, hparse⟩ := hreg.address
    rw [hname] at ha
    rw [hnickname] at hparse
    obtain ⟨-, rfl⟩ := address_of_message hnew.1 hmsg ha
    -- what is stored has crossed a wire, and the two parts are pieces of it
    obtain ⟨-, -, -, -, -, -, hdata⟩ := Message.of_recv_serialize (receive_serialize_ok.mp hm)
    obtain ⟨hmem, hmem'⟩ := mem_of_parse hparse
    have hn : msgSeparator ∉ c.nickname ∧ msgEnd ∉ c.nickname :=
      ⟨fun h => hdata.2.1 (hmem _ h), fun h => hdata.2.2.1 (hmem _ h)⟩
    have hi : msgSeparator ∉ ip ∧ msgEnd ∉ ip :=
      ⟨fun h => hdata.2.1 (hmem' _ h), fun h => hdata.2.2.1 (hmem' _ h)⟩
    obtain rfl := nicknameIpPort_eq hnick hip hd
    have hkeeps := hkeep (clean_registration ⟨hn.1, hn.2, hnick⟩ ⟨hi.1, hi.2, hip⟩)
    have hself := hkeeps.receive harr
    rw [List.take_of_length_le harr, hm] at hself
    obtain rfl := Except.ok.inj hself
    obtain ⟨hpart, hpart'⟩ := hparses.1.mp hparse
    exact ⟨⟨hpart, hn⟩, hpart', hi⟩
  · rintro ⟨hn, hi⟩
    obtain rfl := nicknameIpPort_eq hnick hip hd
    have hkeeps := hkeep (clean_registration ⟨hn.2.1, hn.2.2, hnick⟩ ⟨hi.2.1, hi.2.2, hip⟩)
    have hparse := hparses.1.mpr ⟨hn.1, hi.1⟩
    obtain ⟨hnickname, -⟩ := hparses.2 hparse
    have hreach : Reachable (registration c.nickname ip (decimal port)) :=
      reachable_iff.mpr (parseNicknameAndAddress_iff.mp ⟨_, _, _, hparse⟩)
    obtain ⟨t, ht⟩ : ∃ t, registrations.step s
        (.message env (c.connectMessage (registration c.nickname ip (decimal port)))) = some t :=
      Server.registration_ok rfl hex haddr (fun _ => hreach) hnickname
    have hturn := turn_of_registers (j := ⟨s, c⟩) kept hkeeps harr ht
    simp only [if_pos hkept] at hturn
    have hentry := registry_step (n := c.name) hnew ht
    have hevent : RegistryStep.event c.name
        (.message env (c.connectMessage (registration c.nickname ip (decimal port)))) =
          .set (env, c.connectMessage (registration c.nickname ip (decimal port))) :=
      RegistryStep.event_eq_set.mpr ⟨rfl, rfl, rfl⟩
    rw [latch, hevent] at hentry
    obtain ⟨haddress, -, x, hx, hstored⟩ := hentry
    obtain rfl : c.nickname = x := Except.ok.inj (hnickname.symm.trans hx)
    exact ⟨_, toOption_eq_some.mpr hturn, ⟨hstored, ⟨_, haddress, hparse⟩, rfl,
      (name_registrations ht).symm⟩⟩

/-- Two nicknames, one of them with a `-` in it. -/
theorem connection_registers_iff_ann :
    (∃ j, (joining (lit "ann:10.0.0.2:6000")).step
        ⟨{ name := lit "7" }, { name := lit "1", nickname := lit "ann" }⟩
        (.turn (.sent 4096 4096) {}) = some j ∧ j.Registered (lit "10.0.0.2") 6000) ∧
      ¬ ∃ j, (joining (lit "a-n:10.0.0.2:6000")).step
        ⟨{ name := lit "7" }, { name := lit "1", nickname := lit "a-n" }⟩
        (.turn (.sent 4096 4096) {}) = some j ∧ j.Registered (lit "10.0.0.2") 6000 := by
  have hnobody : ∀ k a, (StdMap.empty : StdMap Bytes Bytes).find k = some a → Reachable a := nofun
  have hexchange : ∀ p, ∃ reply, Message.send (({} : Env).exchange p) = .ok reply :=
    fun _ => ⟨_, rfl⟩
  constructor
  · exact (connection_registers_iff { name := lit "7" } { name := lit "1", nickname := lit "ann" }
      (lit "10.0.0.2") (lit "ann:10.0.0.2:6000") 6000 4096 4096 {} (by decide) (by decide)
      (by decide) rfl (by decide) (by decide) (by decide) ⟨rfl, rfl, rfl⟩ rfl hnobody hexchange
      (by decide) (by decide)).mpr (by decide)
  · exact fun h => absurd ((connection_registers_iff { name := lit "7" }
      { name := lit "1", nickname := lit "a-n" } (lit "10.0.0.2") (lit "a-n:10.0.0.2:6000") 6000
      4096 4096 {} (by decide) (by decide) (by decide) rfl (by decide) (by decide) (by decide)
      ⟨rfl, rfl, rfl⟩ rfl hnobody hexchange (by decide) (by decide)).mp h) (by decide)

end Cimabue
