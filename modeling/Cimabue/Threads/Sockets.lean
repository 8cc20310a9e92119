import Cimabue.Support.Machine
import Cimabue.Model.Node
import Mathlib.Logic.Function.Basic

/-!
# Threads — Sockets

The descriptors that `Send`, in any number of threads, shares with the connections the listen thread
accepts and the handlers close (`sockets`).  `socket()` and `accept()` return any descriptor that is
not open; `close()` frees the one it is given, whoever holds it.

`Send` closes its descriptor once where `connect()` or `send()` fails.  Where the text was taken it
closes it after `Recv`, and once more in both branches of the test of what `Recv` returned.

* `sends_proper_iff`: every call that returns has closed its own descriptor exactly once, and nobody
  else's is ever closed, exactly in the runs where no call makes its second close.
* `not_sends_proper`: the second close of one call frees the descriptor of another.
-/

namespace Cimabue

/-- Who holds a descriptor: a call of `Send`, or an accepted connection. -/
inductive Holder where
  | send (call : Nat)
  | connection (skt : Nat)
deriving DecidableEq

/-- Where a call of `Send` stands: before `connect()`, `send()` or `Recv`, or before one of its
calls of `close()`. -/
inductive SendAt where
  | notCalled
  | connecting (skt : Nat)
  | unconnected (skt : Nat)
  | sending (skt : Nat)
  | unsent (skt : Nat)
  | receiving (skt : Nat)
  | closing (skt : Nat) (ret : Ret)
  | closingAgain (skt : Nat) (ret : Ret)
  /-- It has returned; none when `socket()` failed. -/
  | returned (skt : Option Nat)
deriving DecidableEq

/-- Where a connection stands: not accepted yet, queued or handled, closed by its handler. -/
inductive ConnectionAt where
  | awaited
  | accepted (skt : Nat)
  | closed
deriving DecidableEq

/-- A call of `close()`, and who held the descriptor. -/
structure Close where
  caller : Holder
  skt : Nat
  held : Option Holder
deriving DecidableEq

/-- The descriptor table, the calls of `Send`, the connections, and the calls of `close()` so far. -/
structure Sockets where
  table : Nat → Option Holder := fun _ => none
  sends : Nat → SendAt := fun _ => .notCalled
  connections : Nat → ConnectionAt := fun _ => .awaited
  closes : List Close := []

/-- The system calls, with what they come to. -/
inductive SocketStep where
  /-- `socket()` of a call, none when it fails -/
  | socket (call : Nat) (skt : Option Nat)
  | connect (call : Nat) (ok : Bool)
  /-- `send()`, and whether it takes the whole text -/
  | send (call : Nat) (ok : Bool)
  /-- `Recv` of the reply -/
  | recv (call : Nat) (peer : Bytes)
  | close (call : Nat)
  /-- `AcceptTCPConnection` -/
  | accept (conn : Nat) (skt : Nat)
  /-- `close(skt)` of `processUpMessage` or `processDownMessage` -/
  | closeAccepted (conn : Nat)
deriving DecidableEq

namespace Sockets

/-- A descriptor that `socket()` or `accept()` returns. -/
def obtain (s : Sockets) (holder : Holder) (skt : Nat) : Sockets :=
  { s with table := Function.update s.table skt (some holder) }

/-- `close()`. -/
def close (s : Sockets) (caller : Holder) (skt : Nat) : Sockets :=
  { s with
    table := Function.update s.table skt none
    closes := s.closes ++ [{ caller, skt, held := s.table skt }] }

/-- A call goes on. -/
def goto (s : Sockets) (call : Nat) (place : SendAt) : Sockets :=
  { s with sends := Function.update s.sends call place }

/-- A connection is accepted or closed. -/
def gotoConnection (s : Sockets) (conn : Nat) (place : ConnectionAt) : Sockets :=
  { s with connections := Function.update s.connections conn place }

def step (s : Sockets) : SocketStep → Option Sockets
  | .socket call skt =>
      match s.sends call, skt with
      | .notCalled, none => some (s.goto call (.returned none))
      | .notCalled, some skt =>
          if s.table skt = none then
            some ((s.obtain (.send call) skt).goto call (.connecting skt))
          else none
      | _, _ => none
  | .connect call ok =>
      match s.sends call with
      | .connecting skt => some (s.goto call (if ok then .sending skt else .unconnected skt))
      | _ => none
  | .send call ok =>
      match s.sends call with
      | .sending skt => some (s.goto call (if ok then .receiving skt else .unsent skt))
      | _ => none
  | .recv call peer =>
      match s.sends call with
      | .receiving skt =>
          (Message.recv { type := .none, clientSrc := [], clientDest := [], serverSrc := [],
                          serverDest := [], data := [] } peer).toOption.map fun r =>
            s.goto call (.closing skt r.1)
      | _ => none
  | .close call =>
      match s.sends call with
      | .unconnected skt | .unsent skt =>
          some ((s.close (.send call) skt).goto call (.returned (some skt)))
      | .closing skt ret => some ((s.close (.send call) skt).goto call (.closingAgain skt ret))
      -- whatever `ret` is
      | .closingAgain skt _ => some ((s.close (.send call) skt).goto call (.returned (some skt)))
      | _ => none
  | .accept conn skt =>
      match s.connections conn with
      | .awaited =>
          if s.table skt = none then
            some ((s.obtain (.connection conn) skt).gotoConnection conn (.accepted skt))
          else none
      | _ => none
  | .closeAccepted conn =>
      match s.connections conn with
      | .accepted skt => some ((s.close (.connection conn) skt).gotoConnection conn .closed)
      | _ => none

end Sockets

/-- The system calls of the threads. -/
def sockets : Machine Sockets SocketStep where
  step := Sockets.step

/-! ### Who holds what -/

/-- The call has closed its descriptor and is before the close of either branch. -/
def SendAt.again : SendAt → Bool
  | .closingAgain _ _ => true
  | _ => false

/-- The descriptor a call has still to close. -/
def SendAt.skt : SendAt → Option Nat
  | .connecting skt | .unconnected skt | .sending skt | .unsent skt | .receiving skt
  | .closing skt _ => some skt
  | .notCalled | .closingAgain _ _ | .returned _ => none

/-- The descriptors a call has closed, where it does not make its second close. -/
def SendAt.closed : SendAt → List Nat
  | .closingAgain skt _ => [skt]
  | .returned skt => skt.toList
  | _ => []

/-- The descriptor of a connection that is not closed. -/
def ConnectionAt.skt : ConnectionAt → Option Nat
  | .accepted skt => some skt
  | .awaited | .closed => none

/-- Every descriptor held is in the table, under its holder. -/
def Owned (table : Nat → Option Holder) (holds : Holder → Option Nat) : Prop :=
  ∀ x skt, holds x = some skt → table skt = some x

section Table

variable {table : Nat → Option Holder} {holds : Holder → Option Nat} {x : Holder} {skt : Nat}

theorem Owned.open (h : Owned table holds) (hfree : table skt = none) :
    Owned (Function.update table skt (some x)) (Function.update holds x (some skt)) := by
  intro y k hy
  by_cases hyx : y = x
  · subst hyx
    obtain rfl : skt = k := by simpa using hy
    simp
  · rw [Function.update_of_ne hyx] at hy
    have hk := h y k hy
    have hne : k ≠ skt := fun he => by rw [he, hfree] at hk; cases hk
    rwa [Function.update_of_ne hne]

theorem Owned.close (h : Owned table holds) (hx : holds x = some skt) :
    Owned (Function.update table skt none) (Function.update holds x none) := by
  intro y k hy
  by_cases hyx : y = x
  · subst hyx
    simp at hy
  · rw [Function.update_of_ne hyx] at hy
    have hk := h y k hy
    -- one descriptor has one holder
    have hne : k ≠ skt := fun he => by
      rw [he, h x skt hx] at hk
      exact hyx (Option.some.inj hk).symm
    rwa [Function.update_of_ne hne]

theorem Owned.keep (h : Owned table holds) {o : Option Nat} (hx : holds x = o) :
    Owned table (Function.update holds x o) := by
  rwa [← hx, Function.update_eq_self]

end Table

namespace Sockets

/-- The descriptors a caller has closed. -/
def closedBy (s : Sockets) (x : Holder) : List Nat :=
  (s.closes.filter fun c => c.caller = x).map Close.skt

/-- Every call that has returned has closed the descriptor it got, once; and no call of `close()`
was on a descriptor of somebody else. -/
def Proper (s : Sockets) : Prop :=
  (∀ call skt, s.sends call = .returned skt → s.closedBy (.send call) = skt.toList) ∧
    ∀ c ∈ s.closes, c.held = none ∨ c.held = some c.caller

/-- The step is not the second close of a call. -/
def ClosesOnce (s : Sockets) : SocketStep → Prop
  | .close call => ¬ (s.sends call).again
  | _ => True

instance (s : Sockets) (a : SocketStep) : Decidable (s.ClosesOnce a) := by
  cases a <;> unfold ClosesOnce <;> infer_instance

/-- The descriptor a holder has still to close. -/
def holds (s : Sockets) : Holder → Option Nat
  | .send call => (s.sends call).skt
  | .connection conn => (s.connections conn).skt

variable {s t : Sockets} {call conn skt : Nat} {place : SendAt} {place' : ConnectionAt}
  {x y : Holder}

theorem holds_goto : (s.goto call place).holds = Function.update s.holds (.send call) place.skt := by
  funext x
  cases x with
  | connection conn => simp [holds, goto]
  | send c =>
      by_cases hc : c = call
      · subst hc
        simp [holds, goto]
      · simp [holds, goto, hc]

theorem holds_gotoConnection :
    (s.gotoConnection conn place').holds =
      Function.update s.holds (.connection conn) place'.skt := by
  funext x
  cases x with
  | send c => simp [holds, gotoConnection]
  | connection c =>
      by_cases hc : c = conn
      · subst hc
        simp [holds, gotoConnection]
      · simp [holds, gotoConnection, hc]

theorem closedBy_close :
    (s.close x skt).closedBy y = s.closedBy y ++ if x = y then [skt] else [] := by
  by_cases hxy : x = y <;> simp [closedBy, close, List.filter_append, hxy]

/-! ### What a run keeps -/

/-- What holds as long as no call makes its second close. -/
structure Inv (s : Sockets) : Prop where
  owned : Owned s.table s.holds
  closed : ∀ call, s.closedBy (.send call) = (s.sends call).closed
  own : ∀ c ∈ s.closes, c.held = none ∨ c.held = some c.caller

theorem Inv.proper (h : s.Inv) : s.Proper := by
  refine ⟨fun call skt hat => ?_, h.own⟩
  rw [h.closed call, hat]
  rfl

theorem inv_init : Inv {} where
  owned x skt hx := by cases x <;> cases hx
  closed call := rfl
  own c hc := by cases hc

/-- The closes of the calls, after a step of one of them. -/
theorem closed_goto (h : ∀ c, c ≠ call → s.closedBy (.send c) = (s.sends c).closed)
    (hplace : s.closedBy (.send call) = place.closed) :
    ∀ c, (s.goto call place).closedBy (.send c) = ((s.goto call place).sends c).closed := by
  intro c
  change s.closedBy (.send c) = (Function.update s.sends call place c).closed
  by_cases hc : c = call
  · subst hc
    rwa [Function.update_self]
  · rw [Function.update_of_ne hc]
    exact h c hc

/-- A step of a call that neither opens nor closes. -/
theorem inv_goto (h : s.Inv) (hskt : (s.sends call).skt = place.skt)
    (hclosed : (s.sends call).closed = place.closed) : (s.goto call place).Inv where
  owned := by
    rw [holds_goto]
    exact h.owned.keep hskt
  closed := closed_goto (fun c _ => h.closed c) ((h.closed call).trans hclosed)
  own := h.own

theorem inv_socket (h : s.Inv) (hat : s.sends call = .notCalled) (hfree : s.table skt = none) :
    ((s.obtain (.send call) skt).goto call (.connecting skt)).Inv where
  owned := by
    rw [holds_goto]
    exact h.owned.open hfree
  closed := closed_goto (fun c _ => h.closed c) ((h.closed call).trans (by rw [hat]; rfl))
  own := h.own

theorem inv_accept (h : s.Inv) (hfree : s.table skt = none) :
    ((s.obtain (.connection conn) skt).gotoConnection conn (.accepted skt)).Inv where
  owned := by
    rw [holds_gotoConnection]
    exact h.owned.open hfree
  closed := h.closed
  own := h.own

/-- The close by the holder. -/
theorem own_close (h : s.Inv) (hx : s.holds x = some skt) :
    ∀ c ∈ (s.close x skt).closes, c.held = none ∨ c.held = some c.caller := by
  intro c hc
  rcases List.mem_append.mp hc with hc | hc
  · exact h.own c hc
  · obtain rfl := List.mem_singleton.mp hc
    exact .inr (h.owned x skt hx)

theorem inv_close (h : s.Inv) (hskt : (s.sends call).skt = some skt)
    (hclosed : (s.sends call).closed = []) (hplace : place.skt = none)
    (hplace' : place.closed = [skt]) : ((s.close (.send call) skt).goto call place).Inv where
  owned := by
    rw [holds_goto, hplace]
    exact h.owned.close (x := .send call) hskt
  closed := by
    refine closed_goto (fun c hc => ?_) ?_
    · rw [closedBy_close, if_neg (by simpa using Ne.symm hc), List.append_nil]
      exact h.closed c
    · rw [closedBy_close, if_pos rfl, h.closed call, hclosed, hplace', List.nil_append]
  own := own_close h hskt

theorem inv_closeAccepted (h : s.Inv) (hat : s.connections conn = .accepted skt) :
    ((s.close (.connection conn) skt).gotoConnection conn .closed).Inv := by
  have hskt : s.holds (.connection conn) = some skt := by rw [holds, hat]; rfl
  refine ⟨?_, fun c => ?_, own_close h hskt⟩
  · rw [holds_gotoConnection]
    exact h.owned.close hskt
  · change (s.close (.connection conn) skt).closedBy (.send c) = (s.sends c).closed
    rw [closedBy_close, if_neg (by simp), List.append_nil]
    exact h.closed c

theorem inv_step {a : SocketStep} (h : s.Inv) (hC : s.ClosesOnce a)
    (hstep : sockets.step s a = some t) : t.Inv := by
  cases a with
  | socket call skt =>
      simp only [sockets, step] at hstep
      split at hstep
      · next hat => cases hstep; exact inv_goto h (by rw [hat]; rfl) (by rw [hat]; rfl)
      · next hat =>
          split at hstep
          · next hfree => cases hstep; exact inv_socket h hat hfree
          · cases hstep
      · cases hstep
  | connect call ok =>
      simp only [sockets, step] at hstep
      split at hstep
      · next hat => cases hstep; cases ok <;> exact inv_goto h (by rw [hat]; rfl) (by rw [hat]; rfl)
      · cases hstep
  | send call ok =>
      simp only [sockets, step] at hstep
      split at hstep
      · next hat => cases hstep; cases ok <;> exact inv_goto h (by rw [hat]; rfl) (by rw [hat]; rfl)
      · cases hstep
  | recv call peer =>
      simp only [sockets, step] at hstep
      split at hstep
      · next hat =>
          obtain ⟨r, -, rfl⟩ := Option.map_eq_some_iff.mp hstep
          exact inv_goto h (by rw [hat]; rfl) (by rw [hat]; rfl)
      · cases hstep
  | close call =>
      simp only [sockets, step] at hstep
      split at hstep
      · next hat => cases hstep; exact inv_close h (by rw [hat]; rfl) (by rw [hat]; rfl) rfl rfl
      · next hat => cases hstep; exact inv_close h (by rw [hat]; rfl) (by rw [hat]; rfl) rfl rfl
      · next hat => cases hstep; exact inv_close h (by rw [hat]; rfl) (by rw [hat]; rfl) rfl rfl
      · next hat =>
          rw [ClosesOnce, hat] at hC
          exact absurd rfl hC
      · cases hstep
  | accept conn skt =>
      simp only [sockets, step] at hstep
      split at hstep
      · split at hstep
        · next hfree => cases hstep; exact inv_accept h hfree
        · cases hstep
      · cases hstep
  | closeAccepted conn =>
      simp only [sockets, step] at hstep
      split at hstep
      · next hat => cases hstep; exact inv_closeAccepted h hat
      · cases hstep

/-- After its second close a call has closed its descriptor twice. -/
theorem closedBy_second (h : s.Inv) {ret : Ret} (hat : s.sends call = .closingAgain skt ret) :
    ((s.close (.send call) skt).goto call (.returned (some skt))).closedBy (.send call) =
      [skt, skt] := by
  change (s.close (.send call) skt).closedBy (.send call) = [skt, skt]
  rw [closedBy_close, if_pos rfl, h.closed call, hat]
  rfl

theorem closesOnce_of_proper {a : SocketStep} (h : s.Inv) (hstep : sockets.step s a = some t)
    (ht : t.Proper) : s.ClosesOnce a := by
  cases a with
  | close call =>
      cases hat : s.sends call with
      | closingAgain skt ret =>
          simp only [sockets, step, hat, Option.some.injEq] at hstep
          subst hstep
          have hone := ht.1 call (some skt) (by simp [goto])
          rw [closedBy_second h hat] at hone
          cases hone
      | _ => rw [ClosesOnce, hat]; exact Bool.false_ne_true
  | socket | connect | send | recv | accept | closeAccepted => trivial

end Sockets

/-- **Exactly the runs without a second close.**  Every call of `Send` that has returned closed its
own descriptor once and nobody closed anybody else's, all along a run, exactly when no call in it
makes its second close. -/
theorem sends_proper_iff (as : List SocketStep) (t : Sockets) (hrun : sockets.run {} as = some t) :
    sockets.Always Sockets.Proper {} as ↔ sockets.Meets Sockets.ClosesOnce {} as :=
  Machine.always_iff_meets (I := Sockets.Inv) (R := fun _ _ => True)
    (fun _ _ _ hI _ hC hstep => Sockets.inv_step hI hC hstep)
    (fun _ _ _ hI _ _ hstep =>
      ⟨Sockets.closesOnce_of_proper hI hstep, fun hC => (Sockets.inv_step hI hC hstep).proper⟩)
    Sockets.inv_init Sockets.inv_init.proper (Machine.meets_of_forall _ as fun _ _ _ => trivial) hrun

/-- A client that cannot be reached, while another one's message is handled. -/
theorem sends_proper_unreachable :
    sockets.Always Sockets.Proper {} [.accept 0 5, .socket 0 (some 6), .connect 0 false,
        .closeAccepted 0, .close 0, .socket 1 (some 5), .connect 1 true, .send 1 false, .close 1] ↔
      sockets.Meets Sockets.ClosesOnce {} [.accept 0 5, .socket 0 (some 6), .connect 0 false,
        .closeAccepted 0, .close 0, .socket 1 (some 5), .connect 1 true, .send 1 false, .close 1] :=
  sends_proper_iff _ _ rfl

/-- The ping thread's call closes its descriptor; the process thread's call is given the same one,
and the ping thread's second close takes it away. -/
theorem not_sends_proper :
    ¬ ∀ (as : List SocketStep) (t : Sockets), sockets.run {} as = some t → t.Proper := by
  intro h
  have hlast : ∃ t, sockets.run {} [.socket 0 (some 5), .connect 0 true, .send 0 true,
      .recv 0 (Message.serialize {}), .close 0, .socket 1 (some 5), .connect 1 true,
      .close 0] = some t ∧
        (⟨.send 0, 5, some (.send 1)⟩ : Close) ∈ t.closes := ⟨_, rfl, by decide +kernel⟩
  obtain ⟨t, ht, hclose⟩ := hlast
  rcases (h _ t ht).2 _ hclose with hheld | hheld <;> cases hheld

end Cimabue
