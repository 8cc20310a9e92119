import Cimabue.Support.Room
import Cimabue.System.Talk

/-!
# System — Chatroom

What the chat is for: it is a room.

* `talk_refines_room`: over any history of the chat, the nicknames are those of the registered clients,
  and every client has been shown what was said to it, in the order it was said.
* `said_of_shown`: what a client has been shown was said to its nickname, by a registered client with
  the nickname it was shown with.
-/

namespace Cimabue

namespace Talk

/-- What an action is in the room. -/
def label (t : Talk) : TalkAction → List (RoomAction Bytes Bytes Bytes)
  | .join c _ _ _ => [.enter c.name c.nickname]
  | .evict v => [.leave v]
  | .say k dest content => [.say k dest content (t.lookup k dest)]

/-- The room that a chat is. -/
structure Shows (t : Talk) (r : Room Bytes Bytes Bytes) : Prop where
  nickname : ∀ v, r.nickname v = t.nicknameOf v
  inbox : ∀ v, r.inbox v = t.shown v

/-- The nickname of a member resolves in the room. -/
theorem Inv.addressed {t : Talk} {r : Room Bytes Bytes Bytes} {k dest : Bytes} (hinv : t.Inv)
    (hshows : t.Shows r) (hk : t.world.Registered k) : r.For dest (t.lookup k dest) := by
  obtain ⟨c, hc, -⟩ := hinv.world.client k hk
  have hlook : t.lookup k dest = c.clientNickToNameMap.find dest := by rw [lookup, hc]; rfl
  rw [hlook]
  cases hd : c.clientNickToNameMap.find dest with
  | none =>
      intro v hv
      rw [hshows.nickname v, nicknameOf_eq_some] at hv
      exact hinv.not_holds hk hc hd v hv
  | some d =>
      rw [Room.For, hshows.nickname d, nicknameOf_eq_some]
      exact hinv.holds hk hc hd

/-- **The chat is a room**, one action after the other. -/
theorem simulates : talk.Simulates (room Bytes Bytes Bytes) (fun t r => t.Inv ∧ t.Shows r) Proper
    label where
  step t a t' r hR hC hstep := by
    obtain ⟨hinv, hshows⟩ := hR
    cases a with
    | join c ip port now =>
        obtain ⟨t₁, hstep₁, -, hinv', hshown, hnick⟩ := inv_join hinv hC
        obtain rfl := Option.some.inj (hstep₁.symm.trans hstep)
        have hfresh : ¬ t.world.Registered c.name := hC.1.1
        have hnone : r.nickname c.name = none := by
          rw [hshows.nickname, nicknameOf, if_neg hfresh]
        refine ⟨{ r with nickname := Function.update r.nickname c.name (some c.nickname) },
          by simp only [label, Machine.run, Room.step_enter hnone, Option.bind_some], hinv',
          fun v => ?_, fun v => ?_⟩
        · simp only [hnick v, Function.update_apply, hshows.nickname v]
        · rw [hshown, ← hshows.inbox v]
    | evict v =>
        obtain ⟨t₁, hstep₁, -, hinv', hshown, hnick⟩ := inv_evict hinv hC
        obtain rfl := Option.some.inj (hstep₁.symm.trans hstep)
        refine ⟨{ r with nickname := Function.update r.nickname v none }, rfl, hinv', fun u => ?_,
          fun u => ?_⟩
        · simp only [hnick u, Function.update_apply, hshows.nickname u]
        · rw [hshown, ← hshows.inbox u]
    | say k dest content =>
        obtain ⟨t₁, hstep₁, hinv'⟩ := hinv.step hC
        obtain rfl := Option.some.inj (hstep₁.symm.trans hstep)
        obtain ⟨c, ret, t₂, hc, hnick, hsay, -, hworld, -, hshown⟩ := hinv.say hC
        have ht : talk.step t (.say k dest content) = some t₂ := by
          simp only [talk, Talk.step, hc, Option.bind_some, hsay]
          rfl
        obtain rfl := Option.some.inj (ht.symm.trans hstep)
        have hy : r.nickname k = some c.nickname := (hshows.nickname k).trans hnick
        have hfor : r.For dest (t.lookup k dest) := hinv.addressed hshows hC.1
        obtain ⟨r', hr', hnames, hto, hothers⟩ := Room.step_say (t := content) hy hfor
        refine ⟨r', by simp only [label, Machine.run, hr', Option.bind_some], hinv', fun v => ?_,
          fun v => ?_⟩
        · rw [hnames, hshows.nickname v]
          simp only [nicknameOf, hworld]
        · rw [hshown v]
          split_ifs with hv
          · rw [hto v hv, hshows.inbox v]
          · rw [hothers v hv, hshows.inbox v]

theorem shows_init (name : Bytes) (home : Bytes × Nat) : (init name home).Shows Room.silent where
  nickname v := (if_neg (World.not_registered_init name v)).symm
  inbox _ := rfl

end Talk

/-- **The chat is a room.**  Over any history of registrations, evictions and lines that keeps to what
the wire and the directories carry and the arrays hold, every action goes through, the nicknames are
those of the registered clients, and every client has been shown what was said to it, in the order it
was said and nothing else. -/
theorem talk_refines_room (name : Bytes) (home : Bytes × Nat) (hname : Clean name) (as : List TalkAction)
    (h : talk.Meets Talk.Proper (Talk.init name home) as) :
    ∃ t r, talk.run (Talk.init name home) as = some t ∧
      (room Bytes Bytes Bytes).run Room.silent (talk.labels Talk.label (Talk.init name home) as) =
        some r ∧
      (∀ v x, r.nickname v = some x ↔ t.world.Holds v x) ∧
      (∀ v, t.shown v = (room Bytes Bytes Bytes).labels (Room.heard v) Room.silent
        (talk.labels Talk.label (Talk.init name home) as)) ∧
      talk.Meets Talk.Truthful (Talk.init name home) as := by
  have hinit := Talk.inv_init hname home
  obtain ⟨t, hrun, -⟩ := Machine.run_of_enabled (fun _ _ hinv hC => hinv.step hC) hinit h
  obtain ⟨r, hr, -, hshows⟩ := Talk.simulates.run ⟨hinit, Talk.shows_init name home⟩ h hrun
  refine ⟨t, r, hrun, hr, fun v x => ?nickname, fun v => ?inbox, ?status⟩
  case nickname => rw [hshows.nickname v, Talk.nicknameOf_eq_some]
  case inbox =>
    rw [← hshows.inbox v, Room.inbox_run v hr]
    rfl
  case status =>
    refine Machine.meets_of_step (fun _ _ _ hinv hC hstep => ?_) (fun t a hinv hC => ?_) hinit h
    · obtain ⟨t', ht', hinv'⟩ := hinv.step hC
      exact Option.some.inj (ht'.symm.trans hstep) ▸ hinv'
    · cases a with
      | join c ip port now => trivial
      | evict v => trivial
      | say k dest content =>
          obtain ⟨c, ret, t', hc, -, hsay, hret, -, -, -⟩ := hinv.say hC
          exact ⟨c, ret, t', hc, hsay, hret⟩

/-- Ann and Bob write to each other, and Bob is evicted. -/
def annAndBob : List TalkAction :=
  [.join { name := lit "1", nickname := lit "ann", serverIp := lit "h", serverPort := 8000 }
      (lit "host") 80 0,
    .join { name := lit "2", nickname := lit "bob", serverIp := lit "h", serverPort := 8000 }
      (lit "host") 82 1,
    .say (lit "1") (lit "bob") (lit "hello"), .say (lit "2") (lit "carl") (lit "are you there?"),
    .say (lit "2") (lit "ann") (lit "hi"), .evict (lit "2"),
    .say (lit "1") (lit "bob") (lit "bye")]

theorem talk_refines_room_two :
    ∃ t r, talk.run (Talk.init (lit "7") (lit "h", 8000)) annAndBob = some t ∧
      (room Bytes Bytes Bytes).run Room.silent
        (talk.labels Talk.label (Talk.init (lit "7") (lit "h", 8000)) annAndBob) = some r ∧
      (∀ v x, r.nickname v = some x ↔ t.world.Holds v x) ∧
      (∀ v, t.shown v = (room Bytes Bytes Bytes).labels (Room.heard v) Room.silent
        (talk.labels Talk.label (Talk.init (lit "7") (lit "h", 8000)) annAndBob)) ∧
      talk.Meets Talk.Truthful (Talk.init (lit "7") (lit "h", 8000)) annAndBob :=
  talk_refines_room (lit "7") (lit "h", 8000) (by decide) annAndBob (by decide +kernel)

/-! ### Where a line came from -/

namespace Talk

/-- What a line shows the client `v`. -/
def heard (v : Bytes) (t : Talk) : TalkAction → List (Bytes × Bytes)
  | .join _ _ _ _ | .evict _ => []
  | .say k dest content =>
      if t.lookup k dest = some v then (t.nicknameOf k).toList.map fun y => (y, content) else []

theorem shown_step {t t' : Talk} {a : TalkAction} (v : Bytes) (hinv : t.Inv) (hC : t.Proper a)
    (hstep : talk.step t a = some t') : t'.shown v = t.shown v ++ heard v t a := by
  cases a with
  | join c ip port now =>
      obtain ⟨t₁, hstep₁, -, -, hshown, -⟩ := inv_join hinv hC
      obtain rfl := Option.some.inj (hstep₁.symm.trans hstep)
      rw [hshown, heard, List.append_nil]
  | evict u =>
      obtain ⟨t₁, hstep₁, -, -, hshown, -⟩ := inv_evict hinv hC
      obtain rfl := Option.some.inj (hstep₁.symm.trans hstep)
      rw [hshown, heard, List.append_nil]
  | say k dest content =>
      obtain ⟨c, ret, t₁, hc, hnick, hsay, -, -, -, hshown⟩ := hinv.say hC
      simp only [talk, Talk.step, hc, Option.bind_some, hsay] at hstep
      obtain rfl : t₁ = t' := Option.some.inj hstep
      rw [hshown v, heard, hnick]
      split_ifs with hv
      · rfl
      · exact (List.append_nil _).symm

/-- A client joins under a nickname that nobody has. -/
def New (t : Talk) : TalkAction → Prop
  | .join c ip port now => t.world.NewNickname (t.registering c ip port now)
  | .evict _ | .say _ _ _ => True

theorem distinct_step {t t' : Talk} {a : TalkAction} (hd : t.world.Distinct) (hinv : t.Inv)
    (hC : t.Proper a) (hnew : t.New a) (hstep : talk.step t a = some t') : t'.world.Distinct := by
  cases a with
  | join c ip port now =>
      obtain ⟨t₁, hstep₁, hw, -⟩ := inv_join hinv hC
      obtain rfl := Option.some.inj (hstep₁.symm.trans hstep)
      exact hd.step hinv.world hC.1 hC.2.1 hnew hw
  | evict v =>
      obtain ⟨t₁, hstep₁, hw, -⟩ := inv_evict hinv hC
      obtain rfl := Option.some.inj (hstep₁.symm.trans hstep)
      exact hd.step hinv.world (a := .evict v) trivial hC.2 trivial hw
  | say k dest content =>
      obtain ⟨c, ret, t₁, hc, -, hsay, -, hworld, -, -⟩ := hinv.say hC
      simp only [talk, Talk.step, hc, Option.bind_some, hsay] at hstep
      obtain rfl : t₁ = t' := Option.some.inj hstep
      rwa [hworld]

instance decidableNew : ∀ (t : Talk) (a : TalkAction), Decidable (t.New a)
  | t, .join c ip port now =>
      inferInstanceAs (Decidable (t.world.NewNickname (t.registering c ip port now)))
  | _, .evict _ | _, .say _ _ _ => isTrue trivial

end Talk

/-- **Every line that is shown was said**, by the client whose nickname it is shown with, to the
nickname of the client it is shown to; and where clients join under new nicknames, each of the two is
the only one with its nickname. -/
theorem said_of_shown (name : Bytes) (home : Bytes × Nat) (hname : Clean name) (as : List TalkAction)
    (t : Talk) (h : talk.Meets Talk.Proper (Talk.init name home) as)
    (hrun : talk.run (Talk.init name home) as = some t) (v y content : Bytes)
    (hshown : (y, content) ∈ t.shown v) :
    ∃ pre k dest post w, as = pre ++ .say k dest content :: post ∧
      talk.run (Talk.init name home) pre = some w ∧ w.world.Holds k y ∧ w.world.Holds v dest ∧
      (talk.Meets Talk.New (Talk.init name home) as →
        ∀ u, (w.world.Holds u y → u = k) ∧ (w.world.Holds u dest → u = v)) := by
  have hinit := Talk.inv_init hname home
  have hstep : ∀ {s s' : Talk} {a : TalkAction}, s.Inv → s.Proper a → talk.step s a = some s' →
      s'.Inv := fun hinv hC hstep => by
    obtain ⟨s₁, hs₁, hinv₁⟩ := hinv.step hC
    exact Option.some.inj (hs₁.symm.trans hstep) ▸ hinv₁
  have hlist : t.shown v = talk.labels (Talk.heard v) (Talk.init name home) as :=
    Machine.labels_of_step (P := Talk.Inv) (C := Talk.Proper) (g := fun t : Talk => t.shown v)
      (fun s a s' hinv hC hs => ⟨hstep hinv hC hs, Talk.shown_step v hinv hC hs⟩) hinit h hrun
  rw [hlist] at hshown
  obtain ⟨pre, a, post, w, rfl, hw, hheard⟩ := Machine.mem_labels hshown
  have hpre := List.prefix_append pre (a :: post)
  have hinv : w.Inv := (Machine.always_of_step (M := talk) (P := Talk.Inv) (C := Talk.Proper)
    (fun s a s' hinv hC hs => hstep hinv hC hs) hinit (h.of_prefix hpre)).last hw
  cases a with
  | join c ip port now => cases hheard
  | evict u => cases hheard
  | say k dest text =>
      rw [Talk.heard] at hheard
      split_ifs at hheard with hv
      case neg => cases hheard
      obtain ⟨y', hy', he⟩ := List.mem_map.mp hheard
      obtain ⟨rfl, rfl⟩ := Prod.mk.inj he
      have hk : w.world.Holds k y' := Talk.nicknameOf_eq_some.mp (Option.mem_toList.mp hy')
      obtain ⟨c, hc, hd⟩ := Option.bind_eq_some_iff.mp hv
      have hto := hinv.holds hk.1 hc hd
      refine ⟨pre, k, dest, post, w, rfl, hw, hk, hto, fun hnew u => ?_⟩
      -- under new nicknames, no two clients have had the same one up to here
      obtain ⟨-, hdistinct⟩ := (Machine.always_of_step (M := talk)
        (P := fun t : Talk => t.Inv ∧ t.world.Distinct) (C := fun t a => t.Proper a ∧ t.New a)
        (fun s a s' ⟨hinv, hd⟩ ⟨hC, hnew⟩ hs =>
          ⟨hstep hinv hC hs, Talk.distinct_step hd hinv hC hnew hs⟩)
        ⟨hinit, fun u _ _ hu _ => absurd hu.1 (World.not_registered_init name u)⟩
        (Machine.Meets.of_prefix (h.and hnew) hpre)).last hw
      exact ⟨fun hu => hdistinct u k y' hu hk, fun hu => hdistinct u v dest hu hto⟩

theorem said_of_shown_two :
    ∃ pre k dest post w, annAndBob = pre ++ .say k dest (lit "hi") :: post ∧
      talk.run (Talk.init (lit "7") (lit "h", 8000)) pre = some w ∧ w.world.Holds k (lit "bob") ∧
      w.world.Holds (lit "1") dest ∧
      (talk.Meets Talk.New (Talk.init (lit "7") (lit "h", 8000)) annAndBob →
        ∀ u, (w.world.Holds u (lit "bob") → u = k) ∧ (w.world.Holds u dest → u = lit "1")) := by
  have hrun : (talk.run (Talk.init (lit "7") (lit "h", 8000)) annAndBob).any
      (fun t => (lit "bob", lit "hi") ∈ t.shown (lit "1")) = true := by decide +kernel
  obtain ⟨t, ht, hmem⟩ := (Option.any_eq_true _ _).mp hrun
  exact said_of_shown (lit "7") (lit "h", 8000) (by decide) annAndBob t (by decide +kernel) ht
    (lit "1") (lit "bob") (lit "hi") (of_decide_eq_true hmem)

end Cimabue
