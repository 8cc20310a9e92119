import Cimabue.System.Startup
import Cimabue.System.Talk

/-!
# System — Typing

The chat from its consoles (`typing`): every client is constructed with what is typed at its console,
connects to the address that is typed there, and says what the thread of the console reads.

* `lines_read_iff`: the thread reads what was typed line by line exactly when every line is one word.
* `turns_eq`: what it has read after any number of turns, also behind the end of the text.
* `start_eq`: a client whose server address fits its array is constructed as one that joins the chat.
* `shown_of_typed`: what a client has been shown is what was typed for it.
-/

namespace Cimabue

/-! ### What a console reads -/

/-- The elements at even positions. -/
def everyOther {α : Type*} : List α → List α
  | [] => []
  | [a] => [a]
  | a :: _ :: l => a :: everyOther l

theorem everyOther_step {α : Type*} (l : List α) (n : Nat) (d : α) :
    ((everyOther (l.drop 2)).take n).getLastD (l.headD d) =
      ((everyOther l).take (n + 1)).getLastD d := by
  match l with
  | [] => simp [everyOther]
  | [a] => simp [everyOther]
  | a :: b :: l =>
      rw [everyOther, List.take_succ_cons, List.getLastD_cons]
      rfl

namespace Settings

/-- The settings are the first four words. -/
theorem ask_eq (input : IStream Byte) :
    let ws := words isSpace input.rest
    (ask input).1 = ⟨ws.headD [], ws.tail.headD [], ws.tail.tail.headD [], ws.tail.tail.tail.headD []⟩ ∧
      words isSpace (ask input).2.rest = ws.drop 4 := by
  simp only [ask, IStream.extract_eq]
  refine ⟨trivial, ?_⟩
  simp only [← List.drop_one, List.drop_drop]

end Settings

namespace ConsoleThread

/-- The words that have not been read. -/
def unread (c : ConsoleThread) : List Bytes := words isSpace c.input.rest

theorem turn_eq (c : ConsoleThread) :
    c.turn.destination = c.unread.headD c.destination ∧
      c.turn.message = c.unread.tail.headD c.message ∧ c.turn.unread = c.unread.drop 2 := by
  simp only [turn, unread, IStream.extract_eq, true_and]
  simp only [← List.drop_one, List.drop_drop]

/-- **What a console has read.**  After `n` turns the destination is the last of the first `n` words
for it, and so is the message; what is left is behind them. -/
theorem turns_eq (c : ConsoleThread) (n : Nat) :
    (turn^[n] c).destination = ((everyOther c.unread).take n).getLastD c.destination ∧
      (turn^[n] c).message = ((everyOther c.unread.tail).take n).getLastD c.message := by
  induction n generalizing c with
  | zero => exact ⟨by simp, by simp⟩
  | succ n ih =>
      obtain ⟨hdest, hmsg, hleft⟩ := c.turn_eq
      obtain ⟨ihdest, ihmsg⟩ := ih c.turn
      have htail : (c.unread.drop 2).tail = c.unread.tail.drop 2 := by
        simp only [← List.drop_one, List.drop_drop]
      rw [Function.iterate_succ_apply, ihdest, ihmsg, hleft, hdest, hmsg, htail]
      exact ⟨everyOther_step _ n _, everyOther_step _ n _⟩

/-- What is read in `n` turns. -/
def readings : Nat → ConsoleThread → List Bytes
  | 0, _ => []
  | n + 1, c => c.turn.destination :: c.turn.message :: readings n c.turn

/-- Where there are words enough, these are read. -/
theorem readings_of_unread {c : ConsoleThread} {ws rest : List Bytes} {n : Nat} (h : c.unread = ws ++ rest)
    (hlen : ws.length = 2 * n) : readings n c = ws := by
  induction n generalizing c ws with
  | zero => rw [List.length_eq_zero_iff.mp hlen, readings]
  | succ n ih =>
      obtain ⟨a, b, ws, rfl⟩ : ∃ a b ws', ws = a :: b :: ws' := by
        match ws with
        | [] => simp at hlen
        | [a] => simp at hlen; omega
        | a :: b :: ws => exact ⟨a, b, ws, rfl⟩
      obtain ⟨hdest, hmsg, hleft⟩ := c.turn_eq
      rw [h] at hdest hmsg hleft
      rw [readings, hdest, hmsg, ih hleft (by simp at hlen; omega)]
      rfl

/-- What the thread reads of a text: the settings, and `n` turns of its loop. -/
def reads (n : Nat) (text : Bytes) : List Bytes :=
  let asked := Settings.ask { rest := text }
  [asked.1.nickname, asked.1.localPort, asked.1.serverIp, asked.1.serverPort] ++
    readings n { input := asked.2 }

theorem reads_of_words {ws rest : List Bytes} {text : Bytes} {n : Nat}
    (h : words isSpace text = ws ++ rest) (hlen : ws.length = 4 + 2 * n) : reads n text = ws := by
  obtain ⟨a, b, c, d, ws, rfl⟩ : ∃ a b c d ws', ws = a :: b :: c :: d :: ws' := by
    match ws with
    | [] | [_] | [_, _] | [_, _, _] => simp at hlen; omega
    | a :: b :: c :: d :: ws => exact ⟨a, b, c, d, ws, rfl⟩
  obtain ⟨hask, hleft⟩ := Settings.ask_eq { rest := text }
  simp only [h] at hask hleft
  have hunread : unread { input := (Settings.ask { rest := text }).2 } = ws ++ rest := hleft
  rw [reads, hask, readings_of_unread hunread (by simp at hlen; omega)]
  rfl

end ConsoleThread

/-- The text of lines, as they are typed. -/
def typedLines (lines : List Bytes) : Bytes := lines.flatMap (· ++ lit "\n")

theorem words_typedLines (lines : List Bytes) (more : Bytes) :
    words isSpace (typedLines lines ++ more) =
      lines.flatMap (words isSpace) ++ words isSpace more :=
  words_lines (e := ch '\n') (by decide) lines more

/-- **Which lines are read.**  Settings and turns that are typed line by line are what the thread reads,
whatever is typed afterwards, exactly when every line is one word. -/
theorem lines_read_iff (lines : List Bytes) (n : Nat) (hlen : lines.length = 4 + 2 * n) :
    (∀ more, ConsoleThread.reads n (typedLines lines ++ more) = lines) ↔
      ∀ l ∈ lines, IsWord isSpace l := by
  constructor
  · intro h l hl
    -- enough words follow, so that only words are read
    have hmore : words isSpace (typedLines (List.replicate (4 + 2 * n) (lit "x")) ++ []) =
        List.replicate (4 + 2 * n) (lit "x") := by
      have hx : ∀ l ∈ List.replicate (4 + 2 * n) (lit "x"), IsWord isSpace l := fun l hl =>
        List.eq_of_mem_replicate hl ▸ (by decide)
      rw [words_typedLines, flatMap_words hx, words_nil, List.append_nil]
    rw [List.append_nil] at hmore
    have hwords := words_typedLines lines (typedLines (List.replicate (4 + 2 * n) (lit "x")))
    rw [hmore] at hwords
    have hread := h (typedLines (List.replicate (4 + 2 * n) (lit "x")))
    have htake := List.take_append_drop (4 + 2 * n)
      (lines.flatMap (words isSpace) ++ List.replicate (4 + 2 * n) (lit "x"))
    rw [ConsoleThread.reads_of_words (hwords.trans htake.symm) (by simp)] at hread
    rw [← hread] at hl
    refine isWord_of_mem_words (s := typedLines lines ++
      typedLines (List.replicate (4 + 2 * n) (lit "x"))) ?_
    rw [hwords]
    exact List.mem_of_mem_take hl
  · intro h more
    have hwords := words_typedLines lines more
    rw [flatMap_words h] at hwords
    exact ConsoleThread.reads_of_words hwords hlen

/-- A message of two words is read as a message and a destination. -/
theorem lines_read_iff_hello :
    (∀ more, ConsoleThread.reads 1 (typedLines [lit "ann", lit "80", lit "h", lit "90", lit "bob",
        lit "hello"] ++ more) = [lit "ann", lit "80", lit "h", lit "90", lit "bob", lit "hello"]) ∧
      ¬ ∀ more, ConsoleThread.reads 1 (typedLines [lit "ann", lit "80", lit "h", lit "90", lit "bob",
          lit "good day"] ++ more) =
        [lit "ann", lit "80", lit "h", lit "90", lit "bob", lit "good day"] :=
  ⟨(lines_read_iff _ 1 rfl).mpr (by decide), (lines_read_iff _ 1 rfl).not.mpr (by decide)⟩

/-! ### The chat -/

/-- The chat and the consoles of its clients, with what has been typed at each up to its end, and how
often its thread has turned. -/
structure Typing where
  talk : Talk
  console : Bytes → Option ConsoleThread := fun _ => none
  typed : Bytes → Option (Bytes × Nat) := fun _ => none

/-- What happens where clients are used from their consoles. -/
inductive TypingAction where
  /-- A client is started on the address `ip`, and `text` is what is typed at its console. -/
  | start (name text ip : Bytes) (now : Int)
  /-- The client named `v` is evicted. -/
  | evict (v : Bytes)
  /-- A turn of the console of the client named `k`. -/
  | turn (k : Bytes)

/-- The settings that are typed. -/
def settingsOf (text : Bytes) : Settings := (Settings.ask { rest := text }).1.applyDefaults

/-- The console when its client has been started. -/
def consoleOf (text : Bytes) : ConsoleThread := { input := (Settings.ask { rest := text }).2 }

/-- The destination and the message of a turn, after `n` others: of the words behind the settings the
ones for them, or the last ones where these are over. -/
def said (text : Bytes) (n : Nat) : Bytes × Bytes :=
  let ws := (words isSpace text).drop 4
  (((everyOther ws).take (n + 1)).getLastD [], ((everyOther ws.tail).take (n + 1)).getLastD [])

theorem said_eq (text : Bytes) (n : Nat) :
    (ConsoleThread.turn^[n] (consoleOf text)).turn.destination = (said text n).1 ∧
      (ConsoleThread.turn^[n] (consoleOf text)).turn.message = (said text n).2 := by
  have hunread : (consoleOf text).unread = (words isSpace text).drop 4 :=
    (Settings.ask_eq { rest := text }).2
  obtain ⟨hdest, hmsg⟩ := (consoleOf text).turns_eq (n + 1)
  rw [Function.iterate_succ_apply', hunread] at hdest hmsg
  exact ⟨hdest, hmsg⟩

namespace Typing

/-- No client, and nothing typed. -/
def init (name : Bytes) (home : Bytes × Nat) : Typing := { talk := .init name home }

/-- The call of `init`, in the surroundings `w`. -/
def call (text : Bytes) (w : Surroundings) : InitCall := (settingsOf text).call w

/-- The manager when its client is constructed. -/
def manager (text : Bytes) : ClientManager := (call text ⟨[], [], []⟩).settings {}

/-- The client as its constructor begins. -/
def client (name text : Bytes) : Client := (manager text).newClient name

/-- What the client finds: its name, its address, and a turn of connecting that goes to the chat. -/
def surroundings (t : Talk) (name text ip : Bytes) (now : Int) : Surroundings :=
  { name, ip, turns := [t.transport (t.arrivalEnv (client name text) now)] }

/-- The client is constructed, and what it registers with is handled by the server and the others. -/
def start (t : Talk) (name text ip : Bytes) (now : Int) : Option Talk := do
  let a := call text (surroundings t name text ip now)
  let c ← a.client
  let p ← (a.settings {}).connectPacket a.world
  t.enlist (client name text) c p now

/-- The chat's name for it. -/
def joinAction (name text ip : Bytes) (now : Int) : TalkAction :=
  .join (client name text) ip (manager text).clientPort now

/-- A turn of a console passes on what it has read. -/
def sayAction (k : Bytes) (c : ConsoleThread) : TalkAction := .say k c.turn.destination c.turn.message

/-- What an action leads to. -/
def step (t : Typing) : TypingAction → Option Typing
  | .start name text ip now => (start t.talk name text ip now).map fun talk =>
        { talk
          console := Function.update t.console name (some (consoleOf text))
          typed := Function.update t.typed name (some (text, 0)) }
  | .evict v => (Cimabue.talk.step t.talk (.evict v)).map fun talk => { t with talk }
  | .turn k =>
      (t.console k).bind fun c => (Cimabue.talk.step t.talk (sayAction k c)).map fun talk =>
        { talk
          console := Function.update t.console k (some c.turn)
          typed := Function.update t.typed k ((t.typed k).map fun d => (d.1, d.2 + 1)) }

end Typing

/-- The chat from its consoles, one action after the other. -/
def typing : Machine Typing TypingAction where
  step := Typing.step

namespace Typing

/-- The actions that keep the chat: a client that is started has a server address that fits its array,
and the chat bears it. -/
def Proper (t : Typing) : TypingAction → Prop
  | .start name text ip now =>
      ((0 : Byte) ∉ (settingsOf text).serverIp ∧ (settingsOf text).serverIp.length < 16) ∧
        t.talk.Proper (joinAction name text ip now)
  | .evict v => t.talk.Proper (.evict v)
  | .turn k => ∃ c ∈ t.console k, t.talk.Proper (sayAction k c)

instance decidableProper : ∀ (t : Typing) (a : TypingAction), Decidable (t.Proper a)
  | t, .start name text ip now =>
      inferInstanceAs (Decidable (_ ∧ t.talk.Proper (joinAction name text ip now)))
  | t, .evict v => inferInstanceAs (Decidable (t.talk.Proper (.evict v)))
  | t, .turn k => inferInstanceAs (Decidable (∃ c ∈ t.console k, t.talk.Proper (sayAction k c)))

/-- **A client that is started joins the chat**, when its server's address fits the arrays of the two
events of connecting. -/
theorem start_eq {t : Talk} {name text ip : Bytes} {now : Int}
    (hip : (0 : Byte) ∉ (settingsOf text).serverIp) (hlen : (settingsOf text).serverIp.length < 16) :
    start t name text ip now = Cimabue.talk.step t (joinAction name text ip now) := by
  obtain ⟨shown, hshown⟩ := Option.isSome_iff_exists.mp ((connectionText_iff hip).mpr hlen)
  replace hshown : connectionText (manager text).serverIp = some shown := hshown
  change ((manager text).construct (surroundings t name text ip now)).bind _ = t.join _ ip _ now
  simp only [ClientManager.construct, ClientManager.connectPacket, hshown, Talk.join,
    Option.bind_eq_bind, Option.bind_some]
  change (Option.bind (Option.map _ ((client name text).nicknameIpPort ip (manager text).clientPort))
    _).bind (fun c => (Option.map _ ((client name text).nicknameIpPort ip
      (manager text).clientPort)).bind _) = _
  cases (client name text).nicknameIpPort ip (manager text).clientPort with
  | none => rfl
  | some d =>
      simp only [Option.map_some, Option.bind_some, Option.bind_assoc]
      rfl

/-- What an action shows the client `v`, in terms of what was typed. -/
def heard (v : Bytes) (t : Typing) : TypingAction → List (Bytes × Bytes)
  | .start _ _ _ _ | .evict _ => []
  | .turn k => (t.typed k).toList.flatMap fun d =>
      if t.talk.lookup k (said d.1 d.2).1 = some v
      then [((settingsOf d.1).nickname, (said d.1 d.2).2)] else []

/-- What holds between the actions. -/
structure Inv (t : Typing) : Prop where
  talk : t.talk.Inv
  console : ∀ k, t.console k = (t.typed k).map fun d => ConsoleThread.turn^[d.2] (consoleOf d.1)
  nickname : ∀ k y, t.talk.nicknameOf k = some y →
    ∃ text n, t.typed k = some (text, n) ∧ y = (settingsOf text).nickname

theorem inv_init {name : Bytes} (hname : Clean name) (home : Bytes × Nat) : (init name home).Inv where
  talk := Talk.inv_init hname home
  console _ := rfl
  nickname k _ hy :=
    absurd (Talk.nicknameOf_eq_some.mp hy).1 (World.not_registered_init name k)

/-- **One action** keeps what was typed and what was shown in step. -/
theorem Inv.step {t : Typing} {a : TypingAction} (hinv : t.Inv) (hC : t.Proper a) :
    ∃ t', typing.step t a = some t' ∧ t'.Inv ∧
      ∀ v, t'.talk.shown v = t.talk.shown v ++ heard v t a := by
  cases a with
  | start name text ip now =>
      obtain ⟨⟨hip, hlen⟩, hjoin⟩ := hC
      obtain ⟨u, hstep, -, hu, hshown, hnick⟩ := Talk.inv_join hinv.talk hjoin
      replace hstep := (start_eq hip hlen).trans hstep
      refine ⟨_, Option.map_eq_some_iff.mpr ⟨u, hstep, rfl⟩,
        ⟨hu, fun k => ?console, fun k y hy => ?nickname⟩, fun v => ?shown⟩
      case console =>
        simp only [Function.update_apply]
        split_ifs with hk
        · rfl
        · exact hinv.console k
      case nickname =>
        replace hy : (if k = name then some (settingsOf text).nickname else t.talk.nicknameOf k) =
            some y := (hnick k).symm.trans hy
        simp only [Function.update_apply]
        split_ifs at hy ⊢ with hk
        · exact ⟨text, 0, rfl, (Option.some.inj hy).symm⟩
        · exact hinv.nickname k y hy
      case shown => simp [heard, hshown]
  | evict v =>
      obtain ⟨u, hstep, -, hu, hshown, hnick⟩ := Talk.inv_evict hinv.talk hC
      refine ⟨_, Option.map_eq_some_iff.mpr ⟨u, hstep, rfl⟩,
        ⟨hu, hinv.console, fun k y hy => ?nickname⟩, fun v => ?shown⟩
      case nickname =>
        rw [hnick k] at hy
        split_ifs at hy with hk
        exact hinv.nickname k y hy
      case shown => simp [heard, hshown]
  | turn k =>
      obtain ⟨c, hc, hsay⟩ := hC
      obtain ⟨c', ret, u, hc', hnick, hsaid, -, hworld, -, hshown⟩ := hinv.talk.say hsay
      have hstep : Cimabue.talk.step t.talk (sayAction k c) = some u := by
        simp only [Cimabue.talk, Talk.step, sayAction, hc', Option.bind_some, hsaid]
        rfl
      obtain ⟨u', hu', hinv'⟩ := hinv.talk.step hsay
      obtain rfl : u = u' := Option.some.inj (hstep.symm.trans hu')
      obtain ⟨text, n, htyped, hy⟩ := hinv.nickname k _ hnick
      -- the console is where its thread's turns have left it
      have hconsole := hinv.console k
      rw [hc, htyped, Option.map_some] at hconsole
      obtain rfl := Option.some.inj hconsole
      obtain ⟨hdest, hmsg⟩ := said_eq text n
      refine ⟨_, Option.bind_eq_some_iff.mpr ⟨_, hc, Option.map_eq_some_iff.mpr ⟨u, hstep, rfl⟩⟩,
        ⟨hinv', fun j => ?console, fun j y hj => ?nickname⟩, fun v => ?shown⟩
      case console =>
        simp only [Function.update_apply, htyped]
        split_ifs with hjk
        · rw [Option.map_some, Option.map_some, Function.iterate_succ_apply']
        · exact hinv.console j
      case nickname =>
        have hsame : t.talk.nicknameOf j = some y := by
          rw [← hj]
          simp only [Talk.nicknameOf, hworld]
        simp only [Function.update_apply, htyped]
        obtain ⟨text', n', htyped', hy'⟩ := hinv.nickname j y hsame
        split_ifs with hjk
        · subst hjk
          rw [htyped] at htyped'
          obtain ⟨rfl, rfl⟩ := Prod.mk.inj (Option.some.inj htyped')
          exact ⟨text, n + 1, rfl, hy'⟩
        · exact ⟨text', n', htyped', hy'⟩
      case shown =>
        rw [hshown v, hdest, hmsg, heard, htyped, hy]
        simp only [Option.toList_some, List.flatMap_singleton]
        split_ifs with hv
        · rfl
        · exact (List.append_nil _).symm

end Typing

/-- **What is shown was typed.**  Over any history of clients that are started, are evicted, and turn
their consoles, within what the wire and the directories carry and the arrays hold, every action goes through.  Every
client has been shown, in order, what was typed for it: at the turn `n` of a console the pair `n` of the
words behind the settings, or the last words when these are over, under the nickname that was typed
there; and the registered clients are known by the nicknames that were typed at theirs. -/
theorem shown_of_typed (name : Bytes) (home : Bytes × Nat) (hname : Clean name)
    (as : List TypingAction)
    (h : typing.Meets Typing.Proper (Typing.init name home) as) :
    ∃ t, typing.run (Typing.init name home) as = some t ∧
      (∀ v, t.talk.shown v = typing.labels (Typing.heard v) (Typing.init name home) as) ∧
      ∀ k y, t.talk.world.Holds k y →
        ∃ text n, t.typed k = some (text, n) ∧ y = (settingsOf text).nickname := by
  have hinit := Typing.inv_init hname home
  obtain ⟨t, hrun, hinv⟩ := Machine.run_of_enabled (M := typing) (P := Typing.Inv)
    (fun _ _ hinv hC => by
      obtain ⟨t', ht', hinv', -⟩ := hinv.step hC
      exact ⟨t', ht', hinv'⟩) hinit h
  refine ⟨t, hrun, fun v => ?shown, fun k y hy => hinv.nickname k y
    (Talk.nicknameOf_eq_some.mpr hy)⟩
  have hlist := Machine.labels_of_step (M := typing) (P := Typing.Inv) (C := Typing.Proper)
    (g := fun t : Typing => t.talk.shown v)
    (fun s a s' hinv hC hstep => by
      obtain ⟨s₁, hs₁, hinv₁, hshown⟩ := hinv.step hC
      obtain rfl := Option.some.inj (hs₁.symm.trans hstep)
      exact ⟨hinv₁, hshown v⟩) hinit h hrun
  exact hlist

/-- Ann and Bob at their consoles: Bob has typed `hi there` for a message, and Ann's text is over after
her first line. -/
def annAndBobType : List TypingAction :=
  [.start (lit "1") (lit "ann 6000 h 8000\nbob hello") (lit "host") 0,
    .start (lit "2") (lit "bob\n\\\nh\n8000\nann\nhi there\nann\n") (lit "host") 1,
    .turn (lit "1"), .turn (lit "2"), .turn (lit "1"), .turn (lit "2")]

theorem shown_of_typed_two :
    ∃ t, typing.run (Typing.init (lit "7") (lit "h", 8000)) annAndBobType = some t ∧
      (∀ v, t.talk.shown v =
        typing.labels (Typing.heard v) (Typing.init (lit "7") (lit "h", 8000)) annAndBobType) ∧
      ∀ k y, t.talk.world.Holds k y →
        ∃ text n, t.typed k = some (text, n) ∧ y = (settingsOf text).nickname :=
  shown_of_typed (lit "7") (lit "h", 8000) (by decide) annAndBobType (by decide +kernel)

example : (typing.run (Typing.init (lit "7") (lit "h", 8000)) annAndBobType).map
    (fun t => (t.talk.shown (lit "1"), t.talk.shown (lit "2"))) =
      some ([(lit "bob", lit "hi")], [(lit "ann", lit "hello"), (lit "ann", lit "hello")]) := by
  decide +kernel

end Cimabue
