import Mathlib.Data.List.Basic
import Mathlib.Data.List.TakeWhile

/-!
# Support — StdString

`std::string`'s searches and `substr`, over any alphabet.  A position is an `Option Nat`: `none` is
`npos`, the largest `size_type`, which no string reaches.  Arithmetic on positions wraps: `npos + 1`
is `0` (`posSucc`), and the difference of two positions in the wrong order is larger than any
string, so that `substr` takes it for "up to the end" (`posSub`).

A call outside its contract is a `Fault`: an exception (`substr` past the end) or undefined
behaviour (`front` of an empty list, a dereferenced `end()`, a read of an unset variable).
-/

namespace Cimabue

/-- What goes wrong when C++ code leaves the contract of what it calls. -/
inductive Fault where
  /-- `std::out_of_range`, thrown by `substr`. -/
  | outOfRange
  /-- `front()` or `pop_front()` of an empty `std::list`. -/
  | emptyFront
  /-- An iterator equal to `end()` is dereferenced. -/
  | endIterator
  /-- A variable is read that no branch has set. -/
  | unsetVariable
  /-- An integer is used as an object's address. -/
  | badPointer
  /-- The bound given to a loop is used up (no run of the code: see the loop's theorem). -/
  | loopBound
deriving DecidableEq, Repr

/-! ### Results -/

section Results

variable {α β : Type}

theorem bind_eq_ok {x : Except Fault α} {f : α → Except Fault β} {b : β} :
    (x >>= f) = .ok b ↔ ∃ a, x = .ok a ∧ f a = .ok b := by
  cases x with
  | error e => simp [bind, Except.bind]
  | ok a => simp [bind, Except.bind]

@[simp] theorem ok_bind (a : α) (f : α → Except Fault β) : (Except.ok a >>= f) = f a := rfl

@[simp] theorem error_bind (e : Fault) (f : α → Except Fault β) :
    (Except.error e >>= f) = .error e := rfl

@[simp] theorem pure_eq_ok (a : α) : (pure a : Except Fault α) = .ok a := rfl

instance decidableForallOk {x : Except Fault α} {P : α → Prop} [DecidablePred P] :
    Decidable (∀ a, x = .ok a → P a) :=
  match x with
  | .ok a => decidable_of_iff (P a) ⟨fun h _ e => Except.ok.inj e ▸ h, fun h => h a rfl⟩
  | .error _ => isTrue nofun

end Results

/-! ### Positions -/

/-- `a + 1` on `size_type`. -/
def posSucc : Option Nat → Option Nat
  | some a => some (a + 1)
  | none => some 0

/-- `a - b` on `size_type`, as a length given to `substr`: `none` is past the end of every
string. -/
def posSub : Option Nat → Option Nat → Option Nat
  | some a, some b => if b ≤ a then some (a - b) else none
  | _, _ => none

section Search

variable {α : Type*}

/-- The first position at or after `pos` whose element satisfies `p`. -/
def findFrom (p : α → Bool) (s : List α) (pos : Option Nat) : Option Nat :=
  pos.bind fun i => ((s.drop i).findIdx? p).map (i + ·)

/-- `s.find_first_of(c, pos)`, and `s.find(c, pos)`, for a `c` of one character. -/
def findFirstOf [DecidableEq α] (s : List α) (c : α) (pos : Option Nat) : Option Nat :=
  findFrom (· = c) s pos

/-- `s.find_first_not_of(c, pos)`. -/
def findFirstNotOf [DecidableEq α] (s : List α) (c : α) (pos : Option Nat) : Option Nat :=
  findFrom (· ≠ c) s pos

/-- `s.substr(pos, len)`: throws when `pos` is past the end, and cuts `len` to what is there. -/
def substr (s : List α) (pos len : Option Nat) : Except Fault (List α) :=
  match pos with
  | none => .error .outOfRange
  | some i =>
      if s.length < i then .error .outOfRange
      else match len with
        | none => .ok (s.drop i)
        | some n => .ok ((s.drop i).take n)

/-- A search from the end of a prefix is a search of what follows it. -/
theorem findFrom_append (p : α → Bool) (pre s : List α) :
    findFrom p (pre ++ s) (some pre.length) = (s.findIdx? p).map (pre.length + ·) := by
  simp [findFrom]

/-- A position that does not match is passed over. -/
theorem findFrom_append_cons {p : α → Bool} {a : α} (pre s : List α) (h : p a = false) :
    findFrom p (pre ++ a :: s) (some pre.length) =
      findFrom p ((pre ++ [a]) ++ s) (some (pre ++ [a]).length) := by
  rw [findFrom_append, findFrom_append, List.findIdx?_cons, h]
  cases s.findIdx? p with
  | none => rfl
  | some i => simp; omega

theorem findFrom_append_none {p : α → Bool} (pre : List α) {f : List α}
    (h : ∀ x ∈ f, p x = false) : findFrom p (pre ++ f) (some pre.length) = none := by
  rw [findFrom_append, List.findIdx?_eq_none_iff.mpr h, Option.map_none]

theorem findFrom_append_found {p : α → Bool} {c : α} (pre s : List α) {f : List α}
    (h : ∀ x ∈ f, p x = false) (hc : p c = true) :
    findFrom p (pre ++ (f ++ c :: s)) (some pre.length) = some (pre.length + f.length) := by
  rw [findFrom_append, List.findIdx?_append, List.findIdx?_eq_none_iff.mpr h, List.findIdx?_cons, hc]
  simp

/-- `substr` from the end of a prefix, up to the end. -/
theorem substr_append_none (pre s : List α) :
    substr (pre ++ s) (some pre.length) none = .ok s := by
  simp [substr]

/-- `substr` of a part in the middle. -/
theorem substr_append_some (pre f s : List α) :
    substr (pre ++ (f ++ s)) (some pre.length) (some f.length) = .ok f := by
  simp [substr]

/-- `substr` copies from the string. -/
theorem subset_of_substr {s t : List α} {pos len : Option Nat} (h : substr s pos len = .ok t) :
    t ⊆ s := by
  cases pos with
  | none => cases h
  | some i =>
      simp only [substr] at h
      split_ifs at h
      cases len with
      | none => exact Except.ok.inj h ▸ List.drop_subset i s
      | some n =>
          have hsub := List.Subset.trans (List.take_subset n (s.drop i)) (List.drop_subset i s)
          exact Except.ok.inj h ▸ hsub

end Search

/-- `front()` and then `pop_front()`. -/
def popFront {β : Type*} : List β → Except Fault (β × List β)
  | [] => .error .emptyFront
  | t :: rest => .ok (t, rest)

@[simp] theorem popFront_cons {β : Type*} (t : β) (rest : List β) :
    popFront (t :: rest) = .ok (t, rest) := rfl

end Cimabue
