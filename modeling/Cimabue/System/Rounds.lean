import Cimabue.Support.Simulation
import Cimabue.System.Survival
import Cimabue.System.Sweep
import Mathlib.Algebra.Order.BigOperators.Group.List
import Mathlib.Algebra.Order.Group.Nat

/-!
# System — Rounds

`do_pingClient`, round after round, with the five seconds it sleeps after each, and the frames the
process thread takes from the down port in between (`watching`).

* `rounds_iff`: the server stays up exactly when it bears every frame and every round is in time: a
  client that answers is visited within five seconds of its answer, and one that does not within five
  seconds of its last.
* `answers_every_round`: so in a run every client of one round answers the next, if its exchange takes
  any time at all: a client that misses one ping stops the server.
-/

namespace Cimabue

namespace Server

/-! ### The ping loop -/

/-- The client is registered, and its exchange ends with a reply that is no error message. -/
def answering (exchange : Packet → Message.Transport) (s : Server) (c : Bytes) : Bool :=
  (s.clientNameToIPMap.find c).any (s.answers exchange c)

section Pings

variable {exchange : Packet → Message.Transport} {took : Bytes → Nat} {s t : Server}
  {now finish : Int} {l : List ((_ : Bytes) × Bytes)} {c : Bytes}

/-- The loop writes times, and nothing else. -/
theorem pingLoop_frame (h : s.pingLoop exchange took now l = .ok (t, finish)) :
    t.clientPingList.keys = s.clientPingList.keys ∧
      t = { s with clientPingList := t.clientPingList } := by
  induction l generalizing now s with
  | nil => cases h; exact ⟨rfl, rfl⟩
  | cons e l ih =>
      obtain ⟨s₁, hs₁, h⟩ := bind_eq_ok.mp h
      obtain ⟨hkeys, ht⟩ := ih h
      rcases pingClient_cases hs₁ with ⟨-, rfl⟩ | ⟨-, -, rfl⟩
      · exact ⟨hkeys, ht⟩
      · exact ⟨hkeys.trans (StdMap.keys_assign _ _ _), ht⟩

/-- It goes through where every client can be pinged. -/
theorem pingLoop_ok (hex : ∀ p, (exchange p).Answered)
    (hl : ∀ e ∈ l, Reachable e.2 ∧ e.1 ∈ s.clientPingList.keys) :
    ∃ t finish, s.pingLoop exchange took now l = .ok (t, finish) := by
  induction l generalizing now s with
  | nil => exact ⟨s, now, rfl⟩
  | cons e l ih =>
      obtain ⟨haddr, hlisted⟩ := hl e (by simp)
      obtain ⟨s₁, hs₁⟩ : ∃ s₁, s.pingClient { now := now + took e.1, exchange } e.1 e.2 = .ok s₁ :=
        pingClient_ok (fun p => send_iff.mpr (hex p)) haddr fun _ _ _ _ _ => StdMap.mem_keys.mp hlisted
      have hkeys : s₁.clientPingList.keys = s.clientPingList.keys := by
        rcases pingClient_cases hs₁ with ⟨-, rfl⟩ | ⟨-, -, rfl⟩
        · rfl
        · exact StdMap.keys_assign _ _ _
      obtain ⟨t, finish, hrest⟩ := ih (s := s₁) fun e' he' => by
        rw [hkeys]
        exact hl e' (List.mem_cons_of_mem e he')
      exact ⟨t, finish, by rw [pingLoop, hs₁]; exact hrest⟩

/-- A client that does not answer keeps its time. -/
theorem find_pingLoop_of_silent (h : s.pingLoop exchange took now l = .ok (t, finish))
    (hc : ∀ address, ⟨c, address⟩ ∈ l → s.answers exchange c address = false) :
    t.clientPingList.find c = s.clientPingList.find c := by
  induction l generalizing now s with
  | nil => cases h; rfl
  | cons e l ih =>
      obtain ⟨s₁, hs₁, h⟩ := bind_eq_ok.mp h
      have hname := (name_pingClient hs₁).1
      rw [ih h fun address ha => by
        rw [answers_congr hname]
        exact hc address (List.mem_cons_of_mem e ha)]
      rcases pingClient_cases hs₁ with ⟨-, rfl⟩ | ⟨hanswers, -, rfl⟩
      · rfl
      · refine (StdMap.find_assign _ _ _ _).trans (if_neg ?_)
        rintro rfl
        rw [hc e.2 (by simp)] at hanswers
        cases hanswers

/-- **The times after the loop**, at the place of a client among the keys. -/
theorem find_after_pings {i : Nat}
    (h : s.pingLoop exchange took now s.clientNameToIPMap.entries = .ok (t, finish))
    (hi : s.clientNameToIPMap.keys[i]? = some c) :
    t.clientPingList.find c = if s.answering exchange c then
        some (finish - (((s.clientNameToIPMap.keys.drop (i + 1)).map took).sum : Nat))
      else s.clientPingList.find c := by
  have hmem : c ∈ s.clientNameToIPMap.keys := List.mem_of_getElem? hi
  obtain ⟨address, haddress⟩ := Option.isSome_iff_exists.mp (StdMap.mem_keys.mp hmem)
  have hanswering : s.answering exchange c = s.answers exchange c address := by
    rw [answering, haddress, Option.any_some]
  rw [hanswering]
  split_ifs with hanswers
  · -- its entry, and those after it
    have hentry : s.clientNameToIPMap.entries[i]? = some ⟨c, address⟩ :=
      StdMap.getElem?_entries.mpr ⟨hi, haddress⟩
    obtain ⟨hlt, hat⟩ := List.getElem?_eq_some_iff.mp hentry
    have hsplit : s.clientNameToIPMap.entries = s.clientNameToIPMap.entries.take i ++
        ⟨c, address⟩ :: s.clientNameToIPMap.entries.drop (i + 1) := by
      rw [← hat, ← List.drop_eq_getElem_cons hlt, List.take_append_drop]
    have hnodup := s.clientNameToIPMap.nodupKeys
    rw [hsplit] at h hnodup
    have hpost := (List.nodupKeys_cons.mp (hnodup.sublist (List.sublist_append_right _ _))).1
    rw [find_pingLoop h hanswers hpost, StdMap.keys, List.keys, ← List.map_drop, List.map_map]
    rfl
  · refine find_pingLoop_of_silent h fun a ha => ?_
    obtain rfl : a = address :=
      Option.some.inj ((StdMap.find_eq_some_iff.mpr ha).symm.trans haddress)
    simpa using hanswers

end Pings

/-- **Which sweeps end**: those that meet nobody who is too old. -/
theorem sweep_eq_ok_iff {clock : Nat → Env} {s : Server} {v : Server × List Bytes} :
    s.sweep clock = .ok v ↔ v = (s, s.clientPingList.keys) ∧
      ∀ i c last, s.clientPingList.keys[i]? = some c → s.clientPingList.find c = some last →
        (clock i).now - last ≤ 5 * 10 ^ 9 := by
  have hyoung : (∀ i c last, s.clientPingList.keys[i]? = some c →
      s.clientPingList.find c = some last → (clock i).now - last ≤ 5 * 10 ^ 9) ↔
      ∀ i e, s.clientPingList.entries[i]? = some e → (clock i).now - e.2 ≤ 5 * 10 ^ 9 :=
    ⟨fun h i e he => h i e.1 e.2 (StdMap.getElem?_entries.mp he).1 (StdMap.getElem?_entries.mp he).2,
      fun h i c last hi hlast => h i ⟨c, last⟩ (StdMap.getElem?_entries.mpr ⟨hi, hlast⟩)⟩
  rw [hyoung]
  constructor
  · intro h
    have hold := young_of_sweepLoop [] (List.nil_append _).symm h
    simp only [List.length_nil, Nat.zero_add] at hold
    have hself := sweepLoop_of_young (s := s) [] (List.nil_append _).symm
      (by simpa only [List.length_nil, Nat.zero_add] using hold)
    exact ⟨Except.ok.inj (h.symm.trans hself), hold⟩
  · rintro ⟨rfl, hold⟩
    exact sweepLoop_of_young [] (List.nil_append _).symm
      (by simpa only [List.length_nil, Nat.zero_add] using hold)

end Server

/-! ### Rounds -/

/-- What a round of the ping thread meets. -/
structure Round where
  /-- The exchanges of the pings. -/
  exchange : Packet → Message.Transport
  /-- How long the exchange with a client takes. -/
  took : Bytes → Nat
  /-- The time before a visit of the sweep, since the one before it. -/
  pause : Nat → Nat
  /-- The exchanges of the announcements of a removal. -/
  announced : Nat → Packet → Message.Transport

namespace Round

/-- The time of the first `n` visits. -/
def elapsed (r : Round) (n : Nat) : Nat := ((List.range n).map r.pause).sum

/-- The world at the visits of a sweep that begins at `finish`. -/
def clock (r : Round) (finish : Int) (i : Nat) : Env :=
  { now := finish + r.elapsed (i + 1), exchange := r.announced i }

end Round

/-- A server, the time, and when its ping thread has slept. -/
structure Watch where
  server : Server
  now : Int := 0
  wakes : Int := 0

/-- What happens to a server. -/
inductive WatchStep where
  /-- A round of the ping thread. -/
  | round (r : Round)
  /-- Time passes. -/
  | wait (n : Nat)
  /-- A frame of the down port, handled between two rounds. -/
  | frame (env : Env) (peer : Bytes)

namespace Watch

/-- The body of the loop of `do_pingClient`, up to its `sleep(5)`. -/
def round (w : Watch) (r : Round) : Except Server.SweepFault Watch :=
  match w.server.pingLoop r.exchange r.took w.now w.server.clientNameToIPMap.entries with
  | .error f => .error (.of f)
  | .ok (s, finish) =>
      (s.sweep (r.clock finish)).map fun v =>
        { server := v.1
          now := finish + r.elapsed v.2.length
          wakes := finish + r.elapsed v.2.length + 5 * 10 ^ 9 }

/-- The frame of a step, at its time. -/
def frameStep (w : Watch) (env : Env) (peer : Bytes) : ServerStep :=
  .frame { env with now := w.now } .down peer

def step (w : Watch) : WatchStep → Option Watch
  | .round r => if w.wakes ≤ w.now then (w.round r).toOption else none
  | .wait n => some { w with now := w.now + n }
  | .frame env peer => (w.server.serve (w.frameStep env peer)).toOption.map fun server =>
      { w with server }

end Watch

/-- A server and its ping thread. -/
def watching : Machine Watch WatchStep where
  step := Watch.step

/-- Every reply that comes back is one that `Recv` gets through. -/
def WatchStep.Answered : WatchStep → Prop
  | .round r => ∀ p, (r.exchange p).Answered
  | .wait _ => True
  | .frame env _ => ∀ p, (env.exchange p).Answered

namespace Watch

/-- What the rounds rely on: the ping list is that of the registered clients, and no time in it is of
the future. -/
structure Sound (w : Watch) : Prop where
  server : w.server.Sound
  keys : w.server.clientPingList.keys = w.server.clientNameToIPMap.keys
  times : ∀ c last, w.server.clientPingList.find c = some last → last ≤ w.now

/-- At its visit, a client that has answered did so five seconds ago at most, and one that has not
has a time that is no older. -/
def InTime (w : Watch) (r : Round) : Prop :=
  ∀ i c, w.server.clientNameToIPMap.keys[i]? = some c →
    if w.server.answering r.exchange c then
      ((w.server.clientNameToIPMap.keys.drop (i + 1)).map r.took).sum + r.elapsed (i + 1) ≤
        5 * 10 ^ 9
    else ∀ last ∈ w.server.clientPingList.find c,
      w.now + ((w.server.clientNameToIPMap.keys.map r.took).sum : Nat) + r.elapsed (i + 1) - last ≤
        5 * 10 ^ 9

instance (w : Watch) (r : Round) : Decidable (w.InTime r) :=
  decidable_of_iff (∀ i < w.server.clientNameToIPMap.keys.length,
      ∀ c ∈ w.server.clientNameToIPMap.keys[i]?,
        if w.server.answering r.exchange c then
          ((w.server.clientNameToIPMap.keys.drop (i + 1)).map r.took).sum + r.elapsed (i + 1) ≤
            5 * 10 ^ 9
        else ∀ last ∈ w.server.clientPingList.find c,
          w.now + ((w.server.clientNameToIPMap.keys.map r.took).sum : Nat) + r.elapsed (i + 1) -
            last ≤ 5 * 10 ^ 9)
    ⟨fun h i c hc => h i (List.getElem?_eq_some_iff.mp hc).1 c hc, fun h i _ c hc => h i c hc⟩

/-- What a server with a ping thread bears. -/
def Bears (w : Watch) : WatchStep → Prop
  | .round r => w.wakes ≤ w.now ∧ w.InTime r
  | .wait _ => True
  | .frame env peer => w.server.Bears (w.frameStep env peer)

instance (w : Watch) (a : WatchStep) : Decidable (w.Bears a) :=
  match a with
  | .round r => inferInstanceAs (Decidable (w.wakes ≤ w.now ∧ w.InTime r))
  | .wait _ => inferInstanceAs (Decidable True)
  | .frame env peer => inferInstanceAs (Decidable (w.server.Bears (w.frameStep env peer)))

variable {w w' : Watch} {r : Round}

theorem Sound.pingLoop_ok (hw : w.Sound) (hr : ∀ p, (r.exchange p).Answered) : ∃ s finish,
    w.server.pingLoop r.exchange r.took w.now w.server.clientNameToIPMap.entries =
      .ok (s, finish) :=
  Server.pingLoop_ok hr fun e he => ⟨hw.server.addresses _ _ (StdMap.find_of_mem he), by
    rw [hw.keys]
    exact StdMap.mem_keys.mpr (by rw [StdMap.find_of_mem he]; rfl)⟩

/-- **One round.**  It ends exactly when it is in time, and then it has written the times of the
clients that answered, and removed nobody. -/
theorem round_eq_ok_iff (hw : w.Sound) (hr : ∀ p, (r.exchange p).Answered) :
    w.round r = .ok w' ↔ w.InTime r ∧ ∃ s finish,
      w.server.pingLoop r.exchange r.took w.now w.server.clientNameToIPMap.entries =
        .ok (s, finish) ∧
      w' = { server := s
             now := finish + r.elapsed w.server.clientNameToIPMap.keys.length
             wakes := finish + r.elapsed w.server.clientNameToIPMap.keys.length + 5 * 10 ^ 9 } := by
  obtain ⟨s, finish, hpings⟩ := hw.pingLoop_ok hr
  have hkeys : s.clientPingList.keys = w.server.clientNameToIPMap.keys :=
    (Server.pingLoop_frame hpings).1.trans hw.keys
  have hfinish : finish = w.now + ((w.server.clientNameToIPMap.keys.map r.took).sum : Nat) := by
    rw [(Server.pingLoop_end hpings).2, StdMap.keys, List.keys, List.map_map]
    rfl
  have hyoung : (∀ i c last, s.clientPingList.keys[i]? = some c →
      s.clientPingList.find c = some last → (r.clock finish i).now - last ≤ 5 * 10 ^ 9) ↔
      w.InTime r := by
    rw [InTime, hkeys]
    refine forall₂_congr fun i c => ?_
    rw [forall_comm]
    refine forall_congr' fun hi => ?_
    rw [Server.find_after_pings hpings hi]
    split_ifs with hanswers
    · simp only [Option.some.injEq, forall_eq', Round.clock]
      omega
    · simp only [hfinish, Round.clock, Option.mem_def]
  rw [round, hpings]
  dsimp only
  constructor
  · intro h
    cases hsweep : s.sweep (r.clock finish) with
    | error f => rw [hsweep] at h; cases h
    | ok v =>
        obtain ⟨rfl, hold⟩ := Server.sweep_eq_ok_iff.mp hsweep
        rw [hsweep] at h
        refine ⟨hyoung.mp hold, s, finish, rfl, ?_⟩
        rw [← hkeys]
        exact (Except.ok.inj h).symm
  · rintro ⟨hin, s', finish', hpings', rfl⟩
    obtain ⟨rfl, rfl⟩ := Prod.mk.inj (Except.ok.inj hpings')
    have hsweep := Server.sweep_eq_ok_iff.mpr ⟨rfl, hyoung.mpr hin⟩
    simp only [hsweep, hkeys, Except.map]

/-- What the rounds rely on, they keep. -/
theorem Sound.round (hw : w.Sound) (hr : ∀ p, (r.exchange p).Answered) (h : w.round r = .ok w') :
    w'.Sound ∧ w'.wakes = w'.now + 5 * 10 ^ 9 := by
  obtain ⟨-, s, finish, hpings, rfl⟩ := (round_eq_ok_iff hw hr).mp h
  obtain ⟨hkeys, hs⟩ := Server.pingLoop_frame hpings
  obtain ⟨hnames, hfinish⟩ := Server.pingLoop_end hpings
  have hlisted : s.clientPingList.keys = s.clientNameToIPMap.keys := by rw [hkeys, hw.keys, hnames]
  refine ⟨⟨⟨?_, fun k hk => ?_⟩, hlisted, fun c last hlast => ?_⟩, rfl⟩
  · rw [hnames]
    exact hw.server.addresses
  · rw [← StdMap.mem_keys] at hk ⊢
    rwa [hlisted]
  · have hc : c ∈ w.server.clientNameToIPMap.keys := by
      rw [← hw.keys, ← hkeys]
      exact StdMap.mem_keys.mpr (by rw [hlast]; rfl)
    obtain ⟨i, hi⟩ := List.mem_iff_getElem?.mp hc
    dsimp only at hlast ⊢
    rw [Server.find_after_pings hpings hi] at hlast
    split_ifs at hlast
    · obtain rfl := Option.some.inj hlast
      omega
    · have := hw.times c last hlast
      omega

/-- A frame puts a new client into the ping list, at the present time. -/
theorem Sound.frame (hw : w.Sound) {env : Env} {peer : Bytes} {t : Server}
    (ha : (w.frameStep env peer).Answered) (h : w.server.serve (w.frameStep env peer) = .ok t) :
    ({ w with server := t } : Watch).Sound := by
  have hserver := hw.server.serve ha h
  obtain ⟨m, -, hstep⟩ := Server.serve_frame h
  rcases registrations_message hstep with ⟨-, rfl⟩ | ⟨-, nick, -, rfl⟩
  · exact ⟨hserver, hw.keys, hw.times⟩
  refine ⟨hserver, StdMap.keys_eq fun k => ?_, fun c last hlast => ?_⟩
  · have hk : (w.server.clientPingList.find k).isSome =
        (w.server.clientNameToIPMap.find k).isSome := by
      rw [Bool.eq_iff_iff, ← StdMap.mem_keys, ← StdMap.mem_keys, hw.keys]
    simp only [Server.withEntry, Server.addName, Server.addPing, StdMap.isSome_find_insert, hk]
  · simp only [Server.withEntry, Server.addName, Server.addPing, StdMap.find_insert] at hlast
    split_ifs at hlast with hc
    · cases hold : w.server.clientPingList.find m.clientSrc with
      | none =>
          rw [hold] at hlast
          exact le_of_eq (Option.some.inj hlast).symm
      | some last' =>
          rw [hold] at hlast
          exact hw.times _ _ (hold.trans hlast)
    · exact hw.times c last hlast

theorem Sound.step (hw : w.Sound) {a : WatchStep} (ha : a.Answered) (h : w.step a = some w') :
    w'.Sound := by
  cases a with
  | round r =>
      simp only [Watch.step] at h
      split_ifs at h
      exact (hw.round ha (toOption_eq_some.mp h)).1
  | wait n =>
      obtain rfl := Option.some.inj h
      refine ⟨hw.server, hw.keys, fun c last hlast => ?_⟩
      have := hw.times c last hlast
      dsimp only
      omega
  | frame env peer =>
      obtain ⟨t, ht, rfl⟩ := Option.map_eq_some_iff.mp h
      exact hw.frame ha (toOption_eq_some.mp ht)

theorem Sound.run {as : List WatchStep} (hw : w.Sound) (has : ∀ a ∈ as, a.Answered)
    (h : watching.run w as = some w') : w'.Sound :=
  (Machine.always_of_step (C := fun _ a => a.Answered) (fun _ _ _ hs ha h => hs.step ha h) hw
    (Machine.meets_of_forall w as fun a ha _ => has a ha)).last h

theorem step_iff (hw : w.Sound) {a : WatchStep} (ha : a.Answered) :
    (∃ t, w.step a = some t) ↔ w.Bears a := by
  cases a with
  | round r =>
      simp only [Watch.step, Bears]
      by_cases hwakes : w.wakes ≤ w.now
      · obtain ⟨s, finish, hpings⟩ := hw.pingLoop_ok ha
        simp only [hwakes, if_true, true_and, toOption_eq_some, round_eq_ok_iff hw ha]
        exact ⟨fun ⟨_, hin, _⟩ => hin, fun hin => ⟨_, hin, s, finish, hpings, rfl⟩⟩
      · simp [hwakes]
  | wait n => exact ⟨fun _ => trivial, fun _ => ⟨_, rfl⟩⟩
  | frame env peer =>
      rw [Bears, ← Server.serve_iff hw.server (a := w.frameStep env peer) ha]
      simp only [Watch.step, Option.map_eq_some_iff, toOption_eq_some]
      exact ⟨fun ⟨_, s, hs, _⟩ => ⟨s, hs⟩, fun ⟨s, hs⟩ => ⟨_, s, hs, rfl⟩⟩

theorem sound_init (name : Bytes) : Watch.Sound { server := { name } } :=
  ⟨⟨nofun, nofun⟩, rfl, nofun⟩

end Watch

/-- **What stops a server with a ping thread.**  Where the clients' replies can be read, it stays up
exactly when it bears every frame of its down port, and at every round each client that answers is visited within five
seconds of its answer, and each that does not within five seconds of its last. -/
theorem rounds_iff (name : Bytes) (as : List WatchStep) (has : ∀ a ∈ as, a.Answered) :
    (∃ w, watching.run { server := { name } } as = some w) ↔
      watching.Meets Watch.Bears { server := { name } } as :=
  Machine.run_iff_meets (P := Watch.Sound) (R := fun _ a => a.Answered)
    (fun _ _ _ hw ha h => hw.step ha h) (fun _ _ hw ha => Watch.step_iff hw ha)
    (Watch.sound_init name) (Machine.meets_of_forall _ as fun a ha _ => has a ha)

/-- A round in which every client answers, or none. -/
def quickRound (answers : Bool) : Round where
  exchange _ := if answers then .exchanged ({} : Message).serialize else .noConnection
  took _ := 10 ^ 6
  pause _ := 0
  announced _ _ := .noConnection

theorem answered_quickRound (answers : Bool) : (WatchStep.round (quickRound answers)).Answered := by
  intro p
  cases answers with
  | true => exact (by decide +kernel : Readable ({} : Message).serialize)
  | false => trivial

/-- A client registers and is pinged twice; it answers both pings, or the first one only. -/
theorem rounds_iff_ann :
    (∃ w, watching.run { server := { name := lit "7" } }
        [.frame {} (lit "MSG_ADD_CLIENT-1- - - -ann:host:80-MSG_PRIORITY_NORMAL|"),
          .round (quickRound true), .wait (5 * 10 ^ 9), .round (quickRound true)] = some w) ∧
      ¬ ∃ w, watching.run { server := { name := lit "7" } }
        [.frame {} (lit "MSG_ADD_CLIENT-1- - - -ann:host:80-MSG_PRIORITY_NORMAL|"),
          .round (quickRound true), .wait (5 * 10 ^ 9), .round (quickRound false)] = some w := by
  have hanswered : ∀ answers, ∀ a ∈ [WatchStep.frame {}
      (lit "MSG_ADD_CLIENT-1- - - -ann:host:80-MSG_PRIORITY_NORMAL|"), .round (quickRound true),
      .wait (5 * 10 ^ 9), .round (quickRound answers)], a.Answered := by
    intro answers a ha
    simp only [List.mem_cons, List.not_mem_nil, or_false] at ha
    rcases ha with rfl | rfl | rfl | rfl
    · exact fun _ => trivial
    · exact answered_quickRound true
    · trivial
    · exact answered_quickRound answers
  exact ⟨(rounds_iff (lit "7") _ (hanswered true)).mpr (by decide +kernel),
    fun h => absurd ((rounds_iff (lit "7") _ (hanswered false)).mp h) (by decide +kernel)⟩

/-! ### One ping -/

namespace Watch

variable {w w' : Watch} {c : Bytes} {last : Int}

/-- Between two rounds a client keeps its place and its time. -/
theorem kept_step {a : WatchStep} (ha : ∀ r, a ≠ .round r)
    (hc : (w.server.clientNameToIPMap.find c).isSome)
    (hlast : w.server.clientPingList.find c = some last) (h : w.step a = some w') :
    (w'.server.clientNameToIPMap.find c).isSome ∧
      w'.server.clientPingList.find c = some last ∧ w'.wakes = w.wakes := by
  cases a with
  | round r => exact absurd rfl (ha r)
  | wait n =>
      obtain rfl := Option.some.inj h
      exact ⟨hc, hlast, rfl⟩
  | frame env peer =>
      obtain ⟨t, ht, rfl⟩ := Option.map_eq_some_iff.mp h
      obtain ⟨m, -, hstep⟩ := Server.serve_frame (toOption_eq_some.mp ht)
      rcases registrations_message hstep with ⟨-, rfl⟩ | ⟨-, nick, -, rfl⟩
      · exact ⟨hc, hlast, rfl⟩
      · refine ⟨?_, ?_, rfl⟩
        · simp [Server.withEntry, Server.addName, Server.addPing, StdMap.isSome_find_insert, hc]
        · simp only [Server.withEntry, Server.addName, Server.addPing, StdMap.find_insert]
          split_ifs with hk
          · rw [← hk, hlast]
            rfl
          · exact hlast

theorem kept_run {bs : List WatchStep} (hbs : ∀ r, .round r ∉ bs)
    (hc : (w.server.clientNameToIPMap.find c).isSome)
    (hlast : w.server.clientPingList.find c = some last) (h : watching.run w bs = some w') :
    (w'.server.clientNameToIPMap.find c).isSome ∧
      w'.server.clientPingList.find c = some last ∧ w'.wakes = w.wakes := by
  induction bs generalizing w with
  | nil => exact Option.some.inj h ▸ ⟨hc, hlast, rfl⟩
  | cons b bs ih =>
      obtain ⟨u, hu, h⟩ := Option.bind_eq_some_iff.mp h
      obtain ⟨hcu, hlastu, hwakes⟩ :=
        kept_step (fun r hr => hbs r (by simp [hr])) hc hlast hu
      obtain ⟨hc', hlast', hwakes'⟩ := ih (fun r hr => hbs r (List.mem_cons_of_mem b hr)) hcu hlastu h
      exact ⟨hc', hlast', hwakes'.trans hwakes⟩

end Watch

/-- **Every client answers every round.**  In a run where the clients' replies can be read, a client that
is registered at the end of a round answers the next one, if its exchange takes any time: the thread has
slept for five seconds, and a client that did not answer would be too old and its removal the end of the
sweep. -/
theorem answers_every_round (name : Bytes) (as bs : List WatchStep) (r r' : Round) (u w t : Watch)
    (c : Bytes) (has : ∀ a ∈ as ++ [.round r] ++ bs ++ [.round r'], a.Answered)
    (hbs : ∀ r, .round r ∉ bs) (htook : 0 < r'.took c)
    (hu : watching.run { server := { name } } (as ++ [.round r]) = some u)
    (hc : (u.server.clientNameToIPMap.find c).isSome) (hw : watching.run u bs = some w)
    (ht : watching.step w (.round r') = some t) : w.server.answering r'.exchange c = true := by
  -- the round that ended, and the clients it left
  rw [Machine.run_append] at hu
  obtain ⟨v, hv, hu⟩ := Option.bind_eq_some_iff.mp hu
  have hvs := (Watch.sound_init name).run (fun a ha => has a (by simp [ha])) hv
  obtain ⟨u', hstep, hu'⟩ := Option.bind_eq_some_iff.mp hu
  obtain rfl : u' = u := Option.some.inj hu'
  simp only [watching, Watch.step] at hstep ht
  split_ifs at hstep ht with hwakes hwakes'
  obtain ⟨hus, hslept⟩ := hvs.round (has (.round r) (by simp)) (toOption_eq_some.mp hstep)
  obtain ⟨last, hlast⟩ := Option.isSome_iff_exists.mp (hus.server.listed c hc)
  have hold := hus.times c last hlast
  obtain ⟨hcw, hlastw, hwakesw⟩ := Watch.kept_run hbs hc hlast hw
  -- the next round
  have hws := hus.run (fun a ha => has a (by simp [ha])) hw
  obtain ⟨hin, -⟩ := (Watch.round_eq_ok_iff hws (has (.round r') (by simp))).mp (toOption_eq_some.mp ht)
  obtain ⟨i, hi⟩ := List.mem_iff_getElem?.mp (StdMap.mem_keys.mpr hcw)
  have hvisit := hin i c hi
  by_contra hsilent
  rw [if_neg hsilent] at hvisit
  have hage := hvisit last hlastw
  have hmem : r'.took c ∈ w.server.clientNameToIPMap.keys.map r'.took :=
    List.mem_map_of_mem (List.mem_of_getElem? hi)
  have hsum := List.single_le_sum (fun _ _ => Nat.zero_le _) _ hmem
  omega

/-- A client registers and is pinged twice. -/
theorem answers_every_round_ann :
    ∃ w, watching.run { server := { name := lit "7" } }
        [.frame {} (lit "MSG_ADD_CLIENT-1- - - -ann:host:80-MSG_PRIORITY_NORMAL|"),
          .round (quickRound true), .wait (5 * 10 ^ 9)] = some w ∧
      w.server.answering (quickRound true).exchange (lit "1") = true := by
  have hfirst : (watching.run { server := { name := lit "7" } }
      [.frame {} (lit "MSG_ADD_CLIENT-1- - - -ann:host:80-MSG_PRIORITY_NORMAL|"),
        .round (quickRound true)]).any (fun u =>
          (u.server.clientNameToIPMap.find (lit "1")).isSome &&
            ((watching.run u [.wait (5 * 10 ^ 9)]).bind
              (watching.step · (.round (quickRound true)))).isSome) = true := by
    decide +kernel
  obtain ⟨u, hu, hcheck⟩ := (Option.any_eq_true _ _).mp hfirst
  obtain ⟨hc, hnext⟩ := Bool.and_eq_true_iff.mp hcheck
  obtain ⟨t, hnext⟩ := Option.isSome_iff_exists.mp hnext
  obtain ⟨w, hw, ht⟩ := Option.bind_eq_some_iff.mp hnext
  refine ⟨w, ?_, answers_every_round (lit "7") [_] _ _ (quickRound true) u w t (lit "1")
    (fun a ha => ?_) (fun r hr => ?_) (by decide) hu hc hw ht⟩
  · exact (Machine.run_append watching _ [_, _] [_]).trans (by rw [hu]; exact hw)
  · simp only [List.cons_append, List.nil_append, List.mem_cons, List.not_mem_nil, or_false] at ha
    rcases ha with rfl | rfl | rfl | rfl
    · exact fun _ => trivial
    · exact answered_quickRound true
    · trivial
    · exact answered_quickRound true
  · rw [List.mem_singleton] at hr
    cases hr

end Cimabue
