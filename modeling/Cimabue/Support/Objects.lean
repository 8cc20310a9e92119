import Mathlib.Data.List.Basic
import Mathlib.Data.Option.Basic

/-!
# Support — Objects

Objects that are made by `new` and deleted by `delete` (`Heap`), and a manager that is in one of its
states, an object of its own (`Stateful`): a state that is entered may do something, go on to another
state, and delete itself (`handOver`).  An object that is used after it was deleted is none.

* `get_new`, `get_put`, `get_delete`: what is there after an operation.
* `Settles.handOver`: a state that hands over settles where the next one does.
* `Settled.setState`: every time a state is set that settles, one object is left behind, and the
  manager is in the last one.
-/

namespace Cimabue

/-! ### The heap -/

/-- The objects made so far; none in the place of one that has been deleted. -/
structure Heap (α : Type*) where
  cells : List (Option α) := []
deriving DecidableEq

namespace Heap

variable {α : Type*} {h h' : Heap α} {p q : Nat} {a : α}

/-- The object at `p`. -/
def get (h : Heap α) (p : Nat) : Option α := h.cells[p]?.join

/-- `new` -/
def new (h : Heap α) (a : α) : Heap α × Nat := ({ cells := h.cells ++ [some a] }, h.cells.length)

/-- The object at `p` is changed. -/
def put (h : Heap α) (p : Nat) (a : α) : Option (Heap α) :=
  (h.get p).map fun _ => { cells := h.cells.set p (some a) }

/-- `delete` -/
def delete (h : Heap α) (p : Nat) : Option (Heap α) :=
  (h.get p).map fun _ => { cells := h.cells.set p none }

@[simp] theorem get_empty (p : Nat) : ({} : Heap α).get p = none := rfl

theorem lt_of_get (hp : h.get p = some a) : p < h.cells.length := by
  by_contra hlt
  rw [get, List.getElem?_eq_none (Nat.le_of_not_lt hlt)] at hp
  cases hp

/-- The place of a new object is behind all the others. -/
theorem get_new (h : Heap α) (a : α) (p : Nat) :
    (h.new a).1.get p = if p = h.cells.length then some a else h.get p := by
  simp only [get, new]
  split_ifs with heq
  · rw [heq, List.getElem?_concat_length, Option.join_some]
  · rcases Nat.lt_or_ge p h.cells.length with hlt | hge
    · rw [List.getElem?_append_left hlt]
    · rw [List.getElem?_eq_none hge, List.getElem?_eq_none (by simp; omega)]

theorem get_set {c : Option α} (hp : p < h.cells.length) (q : Nat) :
    ({ cells := h.cells.set p c } : Heap α).get q = if q = p then c else h.get q := by
  simp only [get, List.getElem?_set]
  by_cases hq : q = p
  · subst hq
    simp [hp]
  · rw [if_neg (Ne.symm hq), if_neg hq]

theorem get_put (hput : h.put p a = some h') (q : Nat) :
    h'.get q = if q = p then some a else h.get q := by
  obtain ⟨b, hb, rfl⟩ := Option.map_eq_some_iff.mp hput
  exact get_set (lt_of_get hb) q

theorem get_delete (hdel : h.delete p = some h') (q : Nat) :
    h'.get q = if q = p then none else h.get q := by
  obtain ⟨b, hb, rfl⟩ := Option.map_eq_some_iff.mp hdel
  exact get_set (lt_of_get hb) q

theorem delete_append (cells rest : List (Option α)) (a : α) :
    ({ cells := cells ++ some a :: rest } : Heap α).delete cells.length =
      some { cells := cells ++ none :: rest } := by
  simp [delete, get]

theorem length_put (hput : h.put p a = some h') : h'.cells.length = h.cells.length := by
  obtain ⟨b, -, rfl⟩ := Option.map_eq_some_iff.mp hput
  exact List.length_set

theorem length_delete (hdel : h.delete p = some h') : h'.cells.length = h.cells.length := by
  obtain ⟨b, -, rfl⟩ := Option.map_eq_some_iff.mp hdel
  exact List.length_set

end Heap

/-! ### States that hand over -/

/-- A manager: the state objects made so far, the one it is in, and what else it has. -/
structure Stateful (ι μ : Type) where
  states : Heap ι := {}
  currentState : Option Nat := none
  data : μ

namespace Stateful

variable {ι μ : Type}

/-- `setState` of a new state of the kind `k`, whose entry is `onEntry`, given its own place.  The state
that is left is used once more. -/
def setState (k : ι) (onEntry : Nat → Stateful ι μ → Option (Stateful ι μ)) (m : Stateful ι μ) :
    Option (Stateful ι μ) := do
  let (states, this) := m.states.new k
  match m.currentState with
  | none => pure ()
  | some p => do
      let _ ← states.get p
      pure ()
  onEntry this { m with states, currentState := some this }

/-- The entry of a state in which the manager stays. -/
def stay (_ : Nat) (m : Stateful ι μ) : Option (Stateful ι μ) := some m

/-- The entry of a state that does something, goes on to a new state of the kind `k`, and deletes
itself. -/
def handOver (act : μ → Option μ) (k : ι) (onEntry : Nat → Stateful ι μ → Option (Stateful ι μ))
    (this : Nat) (m : Stateful ι μ) : Option (Stateful ι μ) := do
  let data ← act m.data
  let m ← setState k onEntry { m with data }
  let states ← m.states.delete this
  pure { m with states }

/-- Entered by a new state of the kind `k`, the manager does `act`, and settles in a state of the kind
`last`, after `n` that have gone. -/
def Settles (onEntry : Nat → Stateful ι μ → Option (Stateful ι μ)) (k : ι) (n : Nat) (last : ι)
    (act : μ → Option μ) : Prop :=
  ∀ cells data, onEntry cells.length ⟨⟨cells ++ [some k]⟩, some cells.length, data⟩ =
    (act data).map fun data =>
      ⟨⟨cells ++ (List.replicate n none ++ [some last])⟩, some (cells.length + n), data⟩

theorem settles_stay (k : ι) : Settles (μ := μ) stay k 0 k some := fun _ _ => rfl

/-- What is set settles as its entry does. -/
theorem Settles.setState {onEntry : Nat → Stateful ι μ → Option (Stateful ι μ)} {k last : ι} {n : Nat}
    {act : μ → Option μ} (h : Settles onEntry k n last act) {m : Stateful ι μ}
    (hm : ∀ p, m.currentState = some p → (m.states.get p).isSome) :
    m.setState k onEntry = (act m.data).map fun data =>
      ⟨⟨m.states.cells ++ (List.replicate n none ++ [some last])⟩, some (m.states.cells.length + n),
        data⟩ := by
  rw [← h]
  cases hp : m.currentState with
  | none =>
      simp only [Stateful.setState, hp]
      rfl
  | some p =>
      -- the state that is left is still there
      obtain ⟨a, ha⟩ := Option.isSome_iff_exists.mp (hm p hp)
      have hne : p ≠ m.states.cells.length := Nat.ne_of_lt (Heap.lt_of_get ha)
      have hget : (m.states.new k).1.get p = some a := by rw [Heap.get_new, if_neg hne, ha]
      simp only [Stateful.setState, hp, hget]
      rfl

/-- **Handing over.**  A state that hands over to one that settles is gone when the manager has
settled. -/
theorem Settles.handOver {onEntry : Nat → Stateful ι μ → Option (Stateful ι μ)} {k last : ι} {n : Nat}
    {act : μ → Option μ} (h : Settles onEntry k n last act) (act' : μ → Option μ) (k' : ι) :
    Settles (handOver act' k onEntry) k' (n + 1) last fun data => (act' data).bind act := by
  intro cells data
  cases hact' : act' data with
  | none => simp [Stateful.handOver, hact']
  | some data' =>
      have hlive : ∀ p, some cells.length = some p →
          (({ cells := cells ++ [some k'] } : Heap ι).get p).isSome := by
        rintro p ⟨⟩
        simp [Heap.get]
      have hset := h.setState (m := ⟨⟨cells ++ [some k']⟩, some cells.length, data'⟩) hlive
      cases hact : act data' with
      | none => simp [Stateful.handOver, hact', hset, hact]
      | some data'' =>
          have hcells : cells ++ [some k'] ++ (List.replicate n none ++ [some last]) =
              cells ++ some k' :: (List.replicate n none ++ [some last]) := by simp
          have hplace : (cells ++ [some k']).length + n = cells.length + (n + 1) := by simp; omega
          simp only [Stateful.handOver, hact', hset, hact, hcells, hplace, Option.bind_eq_bind,
            Option.bind_some, Option.map_some, Heap.delete_append]
          rfl

/-! ### A state set again and again -/

/-- A state has been set `count` times, each time after `n` that have gone. -/
structure Settled (n : Nat) (last : ι) (count : Nat) (m : Stateful ι μ) : Prop where
  length : m.states.cells.length = count * (n + 1)
  states : ∀ p, m.states.get p = if p < count * (n + 1) ∧ p % (n + 1) = n then some last else none
  current : m.currentState = if count = 0 then none else some (count * (n + 1) - 1)

theorem settled_zero (n : Nat) (last : ι) (data : μ) :
    Settled n last 0 ({ data } : Stateful ι μ) where
  length := by simp
  states p := by simp
  current := rfl

/-- The state a manager is in has not gone. -/
theorem Settled.isSome_get {n count : Nat} {last : ι} {m : Stateful ι μ} (h : Settled n last count m)
    {p : Nat} (hp : m.currentState = some p) : (m.states.get p).isSome := by
  rw [h.current] at hp
  cases count with
  | zero => cases hp
  | succ c =>
      obtain rfl : (c + 1) * (n + 1) - 1 = p := Option.some.inj hp
      have hlast : (c + 1) * (n + 1) - 1 = (n + 1) * c + n := by
        rw [Nat.add_mul, Nat.one_mul, Nat.mul_comm c]
        omega
      rw [h.states, if_pos]
      · rfl
      · refine ⟨Nat.sub_lt (Nat.mul_pos (Nat.succ_pos c) (Nat.succ_pos n)) Nat.one_pos, ?_⟩
        rw [hlast, Nat.mul_add_mod, Nat.mod_eq_of_lt (Nat.lt_succ_self n)]

theorem join_replicate_append {α : Type*} (n i : Nat) (a : α) :
    (List.replicate n none ++ [some a])[i]?.join = if i = n then some a else none := by
  rcases Nat.lt_trichotomy i n with hlt | rfl | hgt
  · rw [List.getElem?_append_left (by simpa using hlt), List.getElem?_replicate, if_pos hlt,
      if_neg (Nat.ne_of_lt hlt)]
    rfl
  · rw [if_pos rfl, List.getElem?_append_right (by simp)]
    simp
  · rw [if_neg (Nat.ne_of_gt hgt), List.getElem?_eq_none (by simp; omega)]
    rfl

/-- **Setting a state once more.** -/
theorem Settled.setState {onEntry : Nat → Stateful ι μ → Option (Stateful ι μ)} {k last : ι}
    {n count : Nat} {act : μ → Option μ} (h : Settles onEntry k n last act) {m m' : Stateful ι μ}
    (hm : Settled n last count m) (hset : m.setState k onEntry = some m') :
    Settled n last (count + 1) m' ∧ act m.data = some m'.data := by
  rw [h.setState fun p hp => hm.isSome_get hp] at hset
  obtain ⟨data, hdata, rfl⟩ := Option.map_eq_some_iff.mp hset
  have hlen := hm.length
  refine ⟨⟨?_, fun p => ?_, ?_⟩, hdata⟩
  · simp only [List.length_append, List.length_replicate, List.length_singleton, Nat.add_mul, hlen]
    omega
  · have hold := hm.states p
    rw [Heap.get] at hold ⊢
    rcases Nat.lt_or_ge p m.states.cells.length with hlt | hge
    · -- an object from before
      rw [List.getElem?_append_left hlt, hold]
      exact if_congr (by rw [Nat.add_mul]; omega) rfl rfl
    · -- one of those that have gone since, or the last one
      obtain ⟨i, rfl⟩ := Nat.exists_eq_add_of_le hge
      rw [List.getElem?_append_right hge, Nat.add_sub_cancel_left, join_replicate_append, hlen,
        Nat.add_mod, Nat.mul_mod_left, Nat.zero_add, Nat.mod_mod, Nat.add_mul]
      refine if_congr ⟨fun hi => ?_, fun ⟨hlt, hmod⟩ => ?_⟩ rfl rfl
      · rw [hi, Nat.mod_eq_of_lt (Nat.lt_succ_self n)]
        exact ⟨by omega, rfl⟩
      · rwa [Nat.mod_eq_of_lt (by omega)] at hmod
  · rw [if_neg (Nat.succ_ne_zero count), hlen, Nat.add_mul]
    exact congrArg some (by omega)

end Stateful

end Cimabue
