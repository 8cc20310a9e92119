import Cimabue.Model.Server

/-!
# System — Sweep

One round of `do_pingClient`, with no other thread acting: the exchanges with the clients one after
the other, and the sweep that removes those whose last answer is too old.

* `sweep_exact_iff`: the sweep visits every entry once, and keeps exactly the clients that are not
  too old, exactly when it removes nobody: a removal erases the entry its iterator is at.
* `answering_kept_iff`: a client that answered its ping is kept exactly when the exchanges after
  its own, and the sweep up to each visit of it, took no more than five seconds.
* `Server.sweepVisits_of_sweep`: the visits of a round are those of the sweep, where it ends.
* `not_sweep_exact`, `not_answering_kept`: one client that has timed out; two clients behind one
  that answers that cannot be reached.
-/

namespace Cimabue

namespace Server

/-! ### The sweep -/

/-- The age of a client at its visit, where the visits are those of the entries in order, is at
most five seconds. -/
def Stays (clock : Nat → Env) (s : Server) (client : Bytes) : Prop :=
  ∀ i last, s.clientPingList.entries[i]? = some ⟨client, last⟩ → (clock i).now - last ≤ 5 * 10 ^ 9

/-- The sweep ends without a fault, visits each entry of the ping list once, and keeps in the three
maps the clients that stay, with their values. -/
def SweptExactly (clock : Nat → Env) (s : Server) : Prop :=
  ∃ t, s.sweep clock = .ok (t, s.clientPingList.entries.map (·.1)) ∧
    ∀ client,
      (∀ address, t.clientNameToIPMap.find client = some address ↔
        s.clientNameToIPMap.find client = some address ∧ s.Stays clock client) ∧
      (∀ last, t.clientPingList.find client = some last ↔
        s.clientPingList.find client = some last ∧ s.Stays clock client) ∧
      (∀ nickname, t.clientNicknameToName.find client = some nickname ↔
        s.clientNicknameToName.find client = some nickname ∧ s.Stays clock client)

theorem timedOut_iff {s : Server} {client : Bytes} {last now : Int}
    (h : s.clientPingList.find client = some last) :
    s.timedOut client now = true ↔ ¬ (now - last ≤ 5 * 10 ^ 9) := by
  simp only [timedOut, h, decide_eq_true_eq, not_le]

/-- What the body of the sweep does. -/
theorem sweepClient_cases {env : Env} {s t : Server} {client : Bytes}
    (h : s.sweepClient env client = .ok t) :
    (s.timedOut client env.now = false ∧ t = s) ∨
      (s.timedOut client env.now = true ∧ t = s.removeClient client) := by
  rw [sweepClient] at h
  cases hout : s.timedOut client env.now with
  | false =>
      rw [hout] at h
      cases h
      exact .inl ⟨rfl, rfl⟩
  | true =>
      rw [hout, if_pos rfl] at h
      obtain ⟨sent, -, h⟩ := bind_eq_ok.mp h
      cases h
      exact .inr ⟨rfl, rfl⟩

section Loop

variable {clock : Nat → Env} {s : Server} (pre : List ((_ : Bytes) × Int))
  {l : List ((_ : Bytes) × Int)}

/-- From an entry on, with nobody left who is too old, the loop visits the rest and changes
nothing. -/
theorem sweepLoop_of_young (h : s.clientPingList.entries = pre ++ l)
    (hyoung : ∀ j e, l[j]? = some e → (clock (pre.length + j)).now - e.2 ≤ 5 * 10 ^ 9) :
    s.sweepLoop clock l.length pre.length (l.head?.map (·.1)) = .ok (s, l.map (·.1)) := by
  induction l generalizing pre with
  | nil => rfl
  | cons e l ih =>
      have hfind : s.clientPingList.find e.1 = some e.2 := StdMap.find_of_mem (by simp [h])
      have hin : ¬ s.timedOut e.1 (clock pre.length).now = true := by
        rw [timedOut_iff hfind, not_not]
        exact hyoung 0 e rfl
      have hrest := ih (pre ++ [e]) (by rw [h, List.append_assoc]; rfl) fun j d hd => by
        have := hyoung (j + 1) d hd
        rwa [List.length_append, List.length_singleton, Nat.add_assoc, Nat.add_comm 1 j]
      rw [List.length_append, List.length_singleton] at hrest
      simp only [List.length_cons, List.head?_cons, Option.map_some, sweepLoop, hfind, sweepClient,
        if_neg hin, pure_eq_ok, StdMap.next_of_entries h, hrest]
      rfl

theorem sweepLoop_none {fuel n : Nat} : s.sweepLoop clock fuel n none = .ok (s, []) := by
  cases fuel <;> rfl

/-- One turn of a loop that ends. -/
theorem sweepLoop_succ {fuel n : Nat} {client : Bytes} {r : Server × List Bytes}
    (hrun : s.sweepLoop clock (fuel + 1) n (some client) = .ok r) :
    ∃ t iter r', s.sweepClient (clock n) client = .ok t ∧
      t.clientPingList.next client = some iter ∧
      t.sweepLoop clock fuel (n + 1) iter = .ok r' ∧ r = (r'.1, client :: r'.2) := by
  rw [sweepLoop] at hrun
  split at hrun
  · cases hrun
  · split at hrun
    · cases hrun
    · next t hsweep =>
        split at hrun
        · cases hrun
        · next iter hnext =>
            cases hrest : t.sweepLoop clock fuel (n + 1) iter with
            | error f => rw [hrest] at hrun; cases hrun
            | ok r' =>
                rw [hrest] at hrun
                exact ⟨t, iter, r', hsweep, hnext, hrest, (Except.ok.inj hrun).symm⟩

/-- A turn of a loop that ends removes nobody. -/
theorem sweepClient_of_next {env : Env} {t : Server} {client : Bytes} {iter : Option Bytes}
    (hsweep : s.sweepClient env client = .ok t) (hnext : t.clientPingList.next client = some iter) :
    s.timedOut client env.now = false ∧ t = s := by
  rcases sweepClient_cases hsweep with hin | ⟨-, rfl⟩
  · exact hin
  · -- the iterator is at an entry that is gone
    rw [removeClient, eraseNickname, erasePing, StdMap.next_erase_self] at hnext
    cases hnext

/-- From an entry on, a loop that ends has met nobody who is too old. -/
theorem young_of_sweepLoop (h : s.clientPingList.entries = pre ++ l) {r : Server × List Bytes}
    (hrun : s.sweepLoop clock l.length pre.length (l.head?.map (·.1)) = .ok r) :
    ∀ j e, l[j]? = some e → (clock (pre.length + j)).now - e.2 ≤ 5 * 10 ^ 9 := by
  induction l generalizing pre r with
  | nil => intro j e he; cases he
  | cons e l ih =>
      have hfind : s.clientPingList.find e.1 = some e.2 := StdMap.find_of_mem (by simp [h])
      obtain ⟨t, iter, r', hsweep, hnext, hrest, -⟩ := sweepLoop_succ hrun
      obtain ⟨hin, rfl⟩ := sweepClient_of_next hsweep hnext
      rw [StdMap.next_of_entries h] at hnext
      obtain rfl := Option.some.inj hnext
      have hyoung := ih (pre ++ [e]) (by rw [h, List.append_assoc]; rfl) (r := r')
        (by rw [List.length_append]; exact hrest)
      intro j d hd
      cases j with
      | zero =>
          obtain rfl := Option.some.inj hd
          by_contra hold
          rw [Nat.add_zero, ← timedOut_iff hfind, hin] at hold
          cases hold
      | succ j =>
          have := hyoung j d hd
          rwa [List.length_append, List.length_singleton, Nat.add_assoc, Nat.add_comm 1 j] at this

end Loop

end Server

/-- **Exactly the sweeps that remove nobody.**  The sweep visits every entry once, without standing
on an erased one, and keeps exactly the clients that are not too old, exactly when no client is too
old at its visit. -/
theorem sweep_exact_iff (clock : Nat → Env) (s : Server) :
    s.SweptExactly clock ↔ ∀ i e, s.clientPingList.entries[i]? = some e →
      (clock i).now - e.2 ≤ 5 * 10 ^ 9 := by
  refine ⟨fun h => ?_, fun hyoung => ?_⟩
  · obtain ⟨t, hrun, -⟩ := h
    have hyoung := Server.young_of_sweepLoop [] (List.nil_append _).symm hrun
    simpa only [List.length_nil, Nat.zero_add] using hyoung
  · have hrun := Server.sweepLoop_of_young (s := s) []
      (List.nil_append _).symm (by simpa only [List.length_nil, Nat.zero_add] using hyoung)
    have hstays : ∀ client, s.Stays clock client := fun client i last hi => hyoung i _ hi
    exact ⟨s, hrun, fun client => ⟨fun _ => (and_iff_left (hstays client)).symm,
      fun _ => (and_iff_left (hstays client)).symm, fun _ => (and_iff_left (hstays client)).symm⟩⟩

/-- A server with one client, who registered at the beginning of time. -/
def oneClient : Server where
  name := lit "7"
  clientNameToIPMap := StdMap.empty.insert (lit "1") (lit "ann:host:80")
  clientPingList := StdMap.empty.insert (lit "1") 0
  clientNicknameToName := StdMap.empty.insert (lit "1") (lit "ann")

/-- A client is registered, does not answer, and is removed at the entry the iterator is at. -/
theorem not_sweep_exact :
    ¬ ∀ (clock : Nat → Env) (s : Server),
      (∀ c, (s.clientNameToIPMap.find c).isSome = (s.clientPingList.find c).isSome ∧
        (s.clientNicknameToName.find c).isSome = (s.clientPingList.find c).isSome) →
      (∀ i, (clock i).now ≤ (clock (i + 1)).now) → s.SweptExactly clock := by
  intro h
  obtain ⟨t, hrun, -⟩ := h (fun _ => { now := 6 * 10 ^ 9 }) oneClient
    (fun c => by simp [oneClient, StdMap.isSome_find_insert]) fun i => Int.le_refl _
  have herror : oneClient.sweep (fun _ => { now := 6 * 10 ^ 9 }) = .error .erasedIterator := rfl
  rw [herror] at hrun
  cases hrun

namespace Server

/-! ### A round -/

/-- The exchange with a client ends with a reply that is no error message. -/
def answers (exchange : Packet → Message.Transport) (s : Server) (client address : Bytes) : Bool :=
  match s.ping client address with
  | .error _ => false
  | .ok p =>
      match Message.send (exchange p) with
      | .error _ => false
      | .ok pong => !pong.isErrorMessage

/-- A visit of the sweep: the entry its iterator is at, the time since the visit before it, or since
the end of the ping loop, and what the announcements of a removal come to. -/
structure Visit where
  client : Bytes
  pause : Nat := 0
  exchange : Packet → Message.Transport := fun _ => .noConnection

/-- The visits of a sweep.  Up to the first removal they are those of the entries in order; where
the iterator leads after it, the code does not say, and any visits are taken. -/
def sweepVisits : Int → List Visit → Server → Except Fault Server
  | _, [], s => pure s
  | now, v :: vs, s => do
      let now := now + v.pause
      let s ← s.sweepClient { now, exchange := v.exchange } v.client
      sweepVisits now vs s

/-- A round of `do_pingClient`. -/
def pingRound (exchange : Packet → Message.Transport) (took : Bytes → Nat) (start : Int)
    (visits : List Visit) (s : Server) : Except Fault Server := do
  let (s, now) ← s.pingLoop exchange took start s.clientNameToIPMap.entries
  s.sweepVisits now visits

section Pings

variable {exchange : Packet → Message.Transport} {took : Bytes → Nat} {s t : Server}
  {now finish : Int} {pre post l : List ((_ : Bytes) × Bytes)} {c client address : Bytes}

/-- What a turn of the ping loop does. -/
theorem pingClient_cases (h : s.pingClient { now, exchange } client address = .ok t) :
    (s.answers exchange client address = false ∧ t = s) ∨
      (s.answers exchange client address = true ∧
        (s.clientPingList.find client).isSome ∧
        t = { s with clientPingList := s.clientPingList.assign client now }) := by
  obtain ⟨p, hp, h⟩ := bind_eq_ok.mp h
  obtain ⟨pong, hpong, h⟩ := bind_eq_ok.mp h
  have hanswers : s.answers exchange client address = !pong.isErrorMessage := by
    simp only [answers, hp, hpong]
  cases herror : pong.isErrorMessage with
  | true =>
      rw [herror] at h hanswers
      cases h
      exact .inl ⟨hanswers, rfl⟩
  | false =>
      rw [herror] at h hanswers
      rw [if_neg Bool.false_ne_true, recordPong] at h
      split at h
      · cases h
      · next last hfind =>
          cases h
          exact .inr ⟨hanswers, by rw [hfind]; rfl, rfl⟩

/-- A ping is about the server's name and the client's address only. -/
theorem answers_congr (h : t.name = s.name) :
    t.answers exchange client address = s.answers exchange client address := by
  simp only [answers, ping, h]

theorem name_pingClient (h : s.pingClient { now, exchange } client address = .ok t) :
    t.name = s.name ∧ t.clientNameToIPMap = s.clientNameToIPMap := by
  rcases pingClient_cases h with ⟨-, rfl⟩ | ⟨-, -, rfl⟩ <;> exact ⟨rfl, rfl⟩

/-- The loop writes no address, and its end is the time of all its exchanges. -/
theorem pingLoop_end (h : s.pingLoop exchange took now l = .ok (t, finish)) :
    t.clientNameToIPMap = s.clientNameToIPMap ∧
      finish = now + ((l.map fun e => took e.1).sum : Nat) := by
  induction l generalizing now s with
  | nil =>
      cases h
      exact ⟨rfl, by simp⟩
  | cons e l ih =>
      obtain ⟨s₁, hs₁, h⟩ := bind_eq_ok.mp h
      obtain ⟨hnames, hend⟩ := ih h
      refine ⟨hnames.trans (name_pingClient hs₁).2, ?_⟩
      rw [hend, List.map_cons, List.sum_cons]
      omega

/-- The exchange with one client leaves the times of the others. -/
theorem find_pingLoop_of_notMem (h : s.pingLoop exchange took now l = .ok (t, finish))
    (hc : c ∉ l.map (·.1)) : t.clientPingList.find c = s.clientPingList.find c := by
  induction l generalizing now s with
  | nil => cases h; rfl
  | cons e l ih =>
      obtain ⟨s₁, hs₁, h⟩ := bind_eq_ok.mp h
      rw [List.map_cons, List.mem_cons, not_or] at hc
      rw [ih h hc.2]
      rcases pingClient_cases hs₁ with ⟨-, rfl⟩ | ⟨-, -, rfl⟩
      · rfl
      · rw [StdMap.find_assign, if_neg hc.1]

/-- **The time of an answer.**  A client that answers has at the end of the loop the time its own
exchange ended at: that of the exchanges after it earlier. -/
theorem find_pingLoop (h : s.pingLoop exchange took now (pre ++ ⟨client, address⟩ :: post) =
      .ok (t, finish)) (hanswers : s.answers exchange client address = true)
    (hpost : client ∉ post.map (·.1)) :
    t.clientPingList.find client = some (finish - ((post.map fun e => took e.1).sum : Nat)) := by
  induction pre generalizing now s with
  | nil =>
      obtain ⟨s₁, hs₁, h⟩ := bind_eq_ok.mp h
      rw [find_pingLoop_of_notMem h hpost, (pingLoop_end h).2]
      rcases pingClient_cases hs₁ with ⟨hno, -⟩ | ⟨-, hfind, rfl⟩
      · rw [hanswers] at hno
        cases hno
      · obtain ⟨last, hlast⟩ := Option.isSome_iff_exists.mp hfind
        rw [StdMap.find_assign, if_pos rfl, hlast, Option.map_some, add_sub_cancel_right]
  | cons e pre ih =>
      obtain ⟨s₁, hs₁, h⟩ := bind_eq_ok.mp h
      exact ih h (by rwa [answers_congr (name_pingClient hs₁).1])

end Pings

section Visits

variable {s t : Server} {now : Int} {vs : List Visit} {c address : Bytes} {last : Int}

/-- Nobody who was removed comes back in a sweep. -/
theorem gone_sweepVisits (h : s.sweepVisits now vs = .ok t)
    (hc : s.clientNameToIPMap.find c = none) : t.clientNameToIPMap.find c = none := by
  induction vs generalizing now s with
  | nil => cases h; exact hc
  | cons v vs ih =>
      obtain ⟨s₁, hs₁, h⟩ := bind_eq_ok.mp h
      refine ih h ?_
      rcases sweepClient_cases hs₁ with ⟨-, rfl⟩ | ⟨-, rfl⟩
      · exact hc
      · simp only [removeClient, eraseName, erasePing, eraseNickname, StdMap.find_erase, hc,
          ite_self]

/-- The time of a visit, from the beginning of the sweep. -/
def elapsed (vs : List Visit) : Nat := (vs.map Visit.pause).sum

theorem elapsed_cons {v : Visit} : elapsed (v :: vs) = v.pause + elapsed vs := by
  rw [elapsed, List.map_cons, List.sum_cons, elapsed]

/-- From an iterator on, a loop that ends makes the visits of what it visited. -/
theorem sweepVisits_of_sweepLoop {clock : Nat → Env} {fuel n : Nat} {iter : Option Bytes}
    (hclock : ∀ i v, vs[i]? = some v →
      clock (n + i) = { now := now + elapsed (vs.take (i + 1)), exchange := v.exchange })
    (hrun : s.sweepLoop clock fuel n iter = .ok (t, vs.map Visit.client)) :
    s.sweepVisits now vs = .ok t := by
  induction vs generalizing s now fuel n iter with
  | nil =>
      cases iter with
      | none =>
          rw [sweepLoop_none] at hrun
          cases hrun
          rfl
      | some client =>
          cases fuel with
          | zero => cases hrun
          | succ fuel =>
              obtain ⟨_, _, r', -, -, -, hr⟩ := sweepLoop_succ hrun
              cases hr
  | cons v vs ih =>
      cases iter with
      | none => rw [sweepLoop_none] at hrun; cases hrun
      | some client =>
          cases fuel with
          | zero => cases hrun
          | succ fuel =>
              obtain ⟨s₁, iter, r', hs₁, -, hrest, hr⟩ := sweepLoop_succ hrun
              obtain ⟨rfl, hvisited⟩ := Prod.mk.inj hr
              obtain ⟨rfl, hclients⟩ := List.cons.inj hvisited
              have hfirst : clock n = { now := now + v.pause, exchange := v.exchange } := by
                simpa [elapsed] using hclock 0 v rfl
              rw [hfirst] at hs₁
              have hlater : s₁.sweepVisits (now + v.pause) vs = .ok r'.1 := by
                refine ih (fun i w hw => ?_) (hrest.trans (by rw [hclients]))
                have hnext := hclock (i + 1) w hw
                rw [List.take_succ_cons, elapsed_cons] at hnext
                rw [Nat.add_assoc, Nat.add_comm 1 i, hnext, Int.natCast_add, ← Int.add_assoc]
              rw [sweepVisits, hs₁]
              exact hlater

/-- **The sweep and its visits.**  A sweep that ends is the visits of the entries it went through,
at the times of its clock. -/
theorem sweepVisits_of_sweep {clock : Nat → Env}
    (hclock : ∀ i v, vs[i]? = some v →
      clock i = { now := now + elapsed (vs.take (i + 1)), exchange := v.exchange })
    (hrun : s.sweep clock = .ok (t, vs.map Visit.client)) : s.sweepVisits now vs = .ok t :=
  sweepVisits_of_sweepLoop (by simpa only [Nat.zero_add] using hclock) hrun

/-- The prefixes of a list with a first element. -/
theorem forall_prefix_cons {P : List Visit → Visit → Prop} {v : Visit} :
    (∀ ws w, ws ++ [w] <+: v :: vs → P ws w) ↔
      P [] v ∧ ∀ ws w, ws ++ [w] <+: vs → P (v :: ws) w := by
  refine ⟨fun h => ⟨h [] v ?_, fun ws w hw => h (v :: ws) w ?_⟩, fun h ws w hw => ?_⟩
  · exact List.cons_prefix_cons.mpr ⟨rfl, List.nil_prefix⟩
  · exact List.cons_prefix_cons.mpr ⟨rfl, hw⟩
  · cases ws with
    | nil =>
        obtain ⟨rfl, -⟩ := List.cons_prefix_cons.mp hw
        exact h.1
    | cons u ws =>
        obtain ⟨rfl, htail⟩ := List.cons_prefix_cons.mp hw
        exact h.2 ws w htail

/-- **Kept by a sweep.**  A client is kept exactly when it is not too old at any visit of it. -/
theorem kept_iff (h : s.sweepVisits now vs = .ok t)
    (haddress : s.clientNameToIPMap.find c = some address)
    (hlast : s.clientPingList.find c = some last) :
    t.clientNameToIPMap.find c = some address ↔ ∀ ws v, ws ++ [v] <+: vs → v.client = c →
      now + elapsed (ws ++ [v]) - last ≤ 5 * 10 ^ 9 := by
  induction vs generalizing now s with
  | nil =>
      cases h
      simp [haddress]
  | cons v vs ih =>
      obtain ⟨s₁, hs₁, hrun⟩ := bind_eq_ok.mp h
      rw [forall_prefix_cons]
      have hrest : ∀ ws w, now + elapsed (v :: ws ++ [w]) = now + v.pause + elapsed (ws ++ [w]) :=
        fun ws w => by rw [List.cons_append, elapsed_cons]; omega
      have hfirst : now + elapsed ([] ++ [v]) = now + v.pause := by
        rw [List.nil_append, elapsed_cons]
        rfl
      simp only [hrest, hfirst]
      rcases sweepClient_cases hs₁ with ⟨hin, rfl⟩ | ⟨hout, rfl⟩
      · refine (ih hrun haddress hlast).trans (and_iff_right fun hv => ?_).symm
        by_contra hold
        rw [← timedOut_iff hlast, ← hv, hin] at hold
        cases hold
      · by_cases hv : v.client = c
        · -- removed at this visit
          subst hv
          have hgone : t.clientNameToIPMap.find v.client = none :=
            gone_sweepVisits hrun (StdMap.find_erase_self _ _)
          have hold := (timedOut_iff hlast).mp hout
          refine ⟨fun hkept => ?_, fun hage => absurd (hage.1 rfl) hold⟩
          rw [hgone] at hkept
          cases hkept
        · have hne : c ≠ v.client := Ne.symm hv
          refine (ih hrun ?_ ?_).trans (and_iff_right fun hc => absurd hc hv).symm
          · exact (StdMap.find_erase_of_ne _ hne).trans haddress
          · exact (StdMap.find_erase_of_ne _ hne).trans hlast

end Visits

end Server

/-- **Exactly the rounds that are quick enough.**  In a round that runs to its end, every client
that answers its ping is kept exactly when, at every visit of it, the exchanges after its own and
the sweep up to there took no more than five seconds. -/
theorem answering_kept_iff (exchange : Packet → Message.Transport) (took : Bytes → Nat)
    (start : Int) (visits : List Server.Visit) (s t : Server)
    (h : s.pingRound exchange took start visits = .ok t) :
    (∀ client address, s.clientNameToIPMap.find client = some address →
        s.answers exchange client address = true →
        t.clientNameToIPMap.find client = some address) ↔
      ∀ pre client address post,
        s.clientNameToIPMap.entries = pre ++ ⟨client, address⟩ :: post →
        s.answers exchange client address = true →
        ∀ ws v, ws ++ [v] <+: visits → v.client = client →
          (post.map fun e => took e.1).sum + Server.elapsed (ws ++ [v]) ≤ 5 * 10 ^ 9 := by
  obtain ⟨⟨s₁, now⟩, hpings, hsweep⟩ := bind_eq_ok.mp h
  -- one client, at its place in the map
  have hone : ∀ pre client address post,
      s.clientNameToIPMap.entries = pre ++ ⟨client, address⟩ :: post →
      s.answers exchange client address = true →
      (t.clientNameToIPMap.find client = some address ↔
        ∀ ws v, ws ++ [v] <+: visits → v.client = client →
          (post.map fun e => took e.1).sum + Server.elapsed (ws ++ [v]) ≤ 5 * 10 ^ 9) := by
    intro pre client address post hentries hanswers
    have hnodup := s.clientNameToIPMap.nodupKeys
    rw [hentries] at hpings hnodup
    have hpost : client ∉ post.map (·.1) :=
      (List.nodupKeys_cons.mp (hnodup.sublist (List.sublist_append_right _ _))).1
    have haddress : s₁.clientNameToIPMap.find client = some address := by
      rw [(Server.pingLoop_end hpings).1]
      exact StdMap.find_eq_some_iff.mpr (by simp [hentries])
    rw [Server.kept_iff hsweep haddress (Server.find_pingLoop hpings hanswers hpost)]
    refine forall₂_congr fun ws v => imp_congr_right fun _ => imp_congr_right fun _ => ?_
    omega
  refine ⟨fun hkept pre client address post hentries hanswers => ?_,
    fun hquick client address hfind hanswers => ?_⟩
  · refine (hone pre client address post hentries hanswers).mp (hkept client address ?_ hanswers)
    exact StdMap.find_eq_some_iff.mpr (by simp [hentries])
  · obtain ⟨pre, post, hentries⟩ := List.append_of_mem (StdMap.find_eq_some_iff.mp hfind)
    exact (hone pre client address post hentries hanswers).mpr
      (hquick pre client address post hentries hanswers)

/-- A server with three clients, who have just registered. -/
def threeClients : Server where
  name := lit "7"
  clientNameToIPMap := StdMap.empty.insertAll
    [(lit "1", lit "ann:host:81"), (lit "2", lit "bob:host:82"), (lit "3", lit "carl:host:83")]
  clientPingList := StdMap.empty.insertAll [(lit "1", 0), (lit "2", 0), (lit "3", 0)]
  clientNicknameToName := StdMap.empty.insertAll
    [(lit "1", lit "ann"), (lit "2", lit "bob"), (lit "3", lit "carl")]

/-- The client on port 81 answers, the others cannot be reached. -/
def firstAnswers (p : Packet) : Message.Transport :=
  if p.port = 81 then .exchanged (Message.serialize {}) else .noConnection

/-- The others are refused at once, and the round is over in time. -/
theorem answering_kept_refused :
    ∃ t, threeClients.pingRound firstAnswers (fun _ => 10 ^ 6) 0
        [{ client := lit "1" }, { client := lit "2" }, { client := lit "3" }] = .ok t ∧
      ((∀ client address, threeClients.clientNameToIPMap.find client = some address →
          threeClients.answers firstAnswers client address = true →
          t.clientNameToIPMap.find client = some address) ↔
        ∀ pre client address post,
          threeClients.clientNameToIPMap.entries = pre ++ ⟨client, address⟩ :: post →
          threeClients.answers firstAnswers client address = true →
          ∀ ws v, ws ++ [v] <+: [{ client := lit "1" }, { client := lit "2" },
              { client := lit "3" }] → v.client = client →
            (post.map fun _ => 10 ^ 6).sum + Server.elapsed (ws ++ [v]) ≤ 5 * 10 ^ 9) :=
  ⟨_, rfl, answering_kept_iff firstAnswers (fun _ => 10 ^ 6) 0 _ threeClients _ rfl⟩

/-- Each of the others takes the five seconds of its timeout. -/
theorem not_answering_kept :
    ¬ ∀ (exchange : Packet → Message.Transport) (took : Bytes → Nat) (start : Int)
        (visits : List Server.Visit) (s t : Server),
      s.pingRound exchange took start visits = .ok t →
      ∀ client address, s.clientNameToIPMap.find client = some address →
        s.answers exchange client address = true →
        t.clientNameToIPMap.find client = some address := by
  intro h
  have hround : ∃ t, threeClients.pingRound firstAnswers
      (fun c => if c = lit "1" then 10 ^ 6 else 5 * 10 ^ 9) 0 [{ client := lit "1" }] = .ok t ∧
      t.clientNameToIPMap.find (lit "1") = none := ⟨_, rfl, by decide +kernel⟩
  obtain ⟨t, ht, hgone⟩ := hround
  have hkept := h _ _ _ _ threeClients t ht (lit "1") (lit "ann:host:81") (by decide +kernel)
    (by decide +kernel)
  rw [hgone] at hkept
  cases hkept

end Cimabue
