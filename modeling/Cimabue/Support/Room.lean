import Cimabue.Support.Simulation
import Mathlib.Logic.Function.Basic

/-!
# Support — Room

A room whose members write to one another by nickname: what a chat is for, over any names,
nicknames and texts.  Nicknames may be shared, and then the room says which of their holders a text
is for.

* `inbox_run`: after a run, a member has what was said to it, in the order it was said
  (`Room.heard`).
-/

namespace Cimabue

/-- The nicknames of the members, and what everybody has been told, with the teller's nickname. -/
structure Room (ν ξ θ : Type*) where
  nickname : ν → Option ξ
  inbox : ν → List (ξ × θ)

/-- What happens in a room. -/
inductive RoomAction (ν ξ θ : Type*) where
  /-- `v` enters under the nickname `x`. -/
  | enter (v : ν) (x : ξ)
  /-- `v` leaves. -/
  | leave (v : ν)
  /-- `v` says `t` to the nickname `x`, and `u` is the member who hears it. -/
  | say (v : ν) (x : ξ) (t : θ) (u : Option ν)

namespace Room

variable {ν ξ θ : Type*} [DecidableEq ν]

/-- Nobody is there. -/
def silent : Room ν ξ θ := ⟨fun _ => none, fun _ => []⟩

/-- A text for the nickname `x` is for `u`: one of its holders, or nobody when there is none. -/
def For (r : Room ν ξ θ) (x : ξ) : Option ν → Prop
  | none => ∀ v, r.nickname v ≠ some x
  | some u => r.nickname u = some x

open Classical in
/-- What happens to the members and to what they have been told. -/
noncomputable def step (r : Room ν ξ θ) : RoomAction ν ξ θ → Option (Room ν ξ θ)
  | .enter v x =>
      if r.nickname v = none then some { r with nickname := Function.update r.nickname v (some x) }
      else none
  | .leave v => some { r with nickname := Function.update r.nickname v none }
  | .say v x t u =>
      match r.nickname v with
      | none => none
      | some y =>
          if r.For x u then
            some { r with inbox := fun w => if u = some w then r.inbox w ++ [(y, t)] else r.inbox w }
          else none

end Room

/-- The runs of a room. -/
noncomputable def room (ν ξ θ : Type*) [DecidableEq ν] : Machine (Room ν ξ θ) (RoomAction ν ξ θ) where
  step := Room.step

namespace Room

variable {ν ξ θ : Type*} [DecidableEq ν] {r r' : Room ν ξ θ}

/-! ### What one action does -/

theorem step_enter {v : ν} {x : ξ} (h : r.nickname v = none) :
    (room ν ξ θ).step r (.enter v x) =
      some { r with nickname := Function.update r.nickname v (some x) } :=
  if_pos h

theorem step_say {v : ν} {x y : ξ} {t : θ} {u : Option ν} (hv : r.nickname v = some y)
    (hu : r.For x u) :
    ∃ r', (room ν ξ θ).step r (.say v x t u) = some r' ∧ r'.nickname = r.nickname ∧
      (∀ w, u = some w → r'.inbox w = r.inbox w ++ [(y, t)]) ∧
      ∀ w, u ≠ some w → r'.inbox w = r.inbox w := by
  refine ⟨{ r with inbox := fun w => if u = some w then r.inbox w ++ [(y, t)] else r.inbox w },
    ?_, rfl, fun w hw => if_pos hw, fun w hw => if_neg hw⟩
  simp only [room, step, hv, if_pos hu]

/-- What `u` hears of an action. -/
def heard (u : ν) (r : Room ν ξ θ) : RoomAction ν ξ θ → List (ξ × θ)
  | .enter _ _ | .leave _ => []
  | .say v _ t w => if w = some u then (r.nickname v).toList.map fun y => (y, t) else []

theorem inbox_step {a : RoomAction ν ξ θ} (u : ν)
    (hstep : (room ν ξ θ).step r a = some r') : r'.inbox u = r.inbox u ++ heard u r a := by
  cases a with
  | enter v x =>
      obtain ⟨-, h⟩ := Option.ite_none_right_eq_some.mp hstep
      rw [← Option.some.inj h]
      exact (List.append_nil _).symm
  | leave v =>
      rw [← Option.some.inj hstep]
      exact (List.append_nil _).symm
  | say v x t w =>
      simp only [room, step] at hstep
      cases hv : r.nickname v with
      | none => rw [hv] at hstep; cases hstep
      | some y =>
          rw [hv] at hstep
          obtain ⟨-, h⟩ := Option.ite_none_right_eq_some.mp hstep
          rw [← Option.some.inj h]
          by_cases hw : w = some u <;> simp [heard, hw, hv]

/-! ### Runs -/

/-- **A member has what was said to it**, in the order it was said. -/
theorem inbox_run (u : ν) {as : List (RoomAction ν ξ θ)}
    (hrun : (room ν ξ θ).run r as = some r') :
    r'.inbox u = r.inbox u ++ (room ν ξ θ).labels (heard u) r as :=
  Machine.labels_of_step (P := fun _ => True) (C := fun _ _ => True)
    (fun _ _ _ _ _ hstep => ⟨trivial, inbox_step u hstep⟩) trivial
    (Machine.meets_of_forall _ _ fun _ _ _ => trivial) hrun

end Room

end Cimabue
