import Cimabue.Support.Machine
import Mathlib.Data.List.Nodup
import Mathlib.Logic.Function.Basic
import Mathlib.Logic.Relation

/-!
# Support — Locks

Threads that lock and unlock non-recursive mutexes, each running a program of its own (`LockProg`)
whose branches and numbers of rounds are open, and all their interleavings (`locks`).

`LockProg.effect` goes through a program once, with the mutexes held before it, and returns those
held after it: a lock must be above all that are held, an unlock must be of one that is held, the
two branches must agree, and a round must leave what it found.  The rest is for threads whose
programs lead from nothing to nothing.

* `inv_step`: what a thread holds, by its program, is what it owns, and a step keeps that.
* `Inv.not_owned_of_requests`, `Inv.owned_of_releases`: no thread requests a mutex it holds or
  unlocks one it does not hold.
* `Inv.acyclic`: the threads that wait for one another are not in a cycle.
* `Inv.not_owned_of_loop`: between two rounds a thread holds nothing.
-/

namespace Cimabue

/-- What a thread does to the mutexes. -/
inductive LockProg (μ : Type*) where
  | skip
  | lock (m : μ)
  | unlock (m : μ)
  | seq (p q : LockProg μ)
  /-- One of the two. -/
  | either (p q : LockProg μ)
  /-- Any number of rounds. -/
  | loop (p : LockProg μ)

variable {ι μ : Type*}

namespace LockProg

/-- One program after the other. -/
def block : List (LockProg μ) → LockProg μ
  | [] => .skip
  | p :: ps => .seq p (block ps)

/-- A program under a mutex. -/
def critical (m : μ) (p : LockProg μ) : LockProg μ := block [.lock m, p, .unlock m]

/-- What is held after the program, none if it breaks the discipline. -/
def effect [DecidableEq μ] (rank : μ → Nat) : LockProg μ → List μ → Option (List μ)
  | .skip, held => some held
  | .lock m, held => if ∀ h ∈ held, rank h < rank m then some (m :: held) else none
  | .unlock m, held => if m ∈ held then some (held.erase m) else none
  | .seq p q, held => (p.effect rank held).bind (q.effect rank)
  | .either p q, held =>
      if p.effect rank held = q.effect rank held then p.effect rank held else none
  | .loop p, held => if p.effect rank held = some held then some held else none

/-- What is held after the programs a thread has before it. -/
def effects [DecidableEq μ] (rank : μ → Nat) : List (LockProg μ) → List μ → Option (List μ)
  | [], held => some held
  | p :: k, held => (p.effect rank held).bind (effects rank k)

/-- The mutex a thread is about to lock. -/
def requests : List (LockProg μ) → Option μ
  | .lock m :: _ => some m
  | _ => none

/-- The mutex a thread is about to unlock. -/
def releases : List (LockProg μ) → Option μ
  | .unlock m :: _ => some m
  | _ => none

section Effects

variable [DecidableEq μ] {rank : μ → Nat} {p q : LockProg μ} {k : List (LockProg μ)}
  {m : μ} {held after : List μ}

theorem effects_skip (h : effects rank (.skip :: k) held = some after) :
    effects rank k held = some after := h

theorem effects_lock (h : effects rank (.lock m :: k) held = some after) :
    (∀ h ∈ held, rank h < rank m) ∧ effects rank k (m :: held) = some after := by
  rw [effects, effect] at h
  split at h
  · next hm => exact ⟨hm, h⟩
  · cases h

theorem effects_unlock (h : effects rank (.unlock m :: k) held = some after) :
    m ∈ held ∧ effects rank k (held.erase m) = some after := by
  rw [effects, effect] at h
  split at h
  · next hm => exact ⟨hm, h⟩
  · cases h

theorem effects_seq (h : effects rank (.seq p q :: k) held = some after) :
    effects rank (p :: q :: k) held = some after := by
  rwa [effects, effect, Option.bind_assoc] at h

theorem effects_either (h : effects rank (.either p q :: k) held = some after) (b : Bool) :
    effects rank ((if b then p else q) :: k) held = some after := by
  rw [effects, effect] at h
  split at h
  · next hpq =>
      cases b with
      | true => exact h
      | false =>
          rw [hpq] at h
          exact h
  · cases h

theorem effects_loop (h : effects rank (.loop p :: k) held = some after) :
    p.effect rank held = some held ∧ effects rank k held = some after := by
  rw [effects, effect] at h
  split at h
  · next hp => exact ⟨hp, h⟩
  · cases h

end Effects

end LockProg

/-- The owner of each mutex, and what each thread has before it. -/
structure Locks (ι μ : Type*) where
  owner : μ → Option ι
  rest : ι → List (LockProg μ)

namespace Locks

/-- Every mutex is free and every thread at the beginning of its program. -/
def init (prog : ι → LockProg μ) : Locks ι μ where
  owner _ := none
  rest i := [prog i]

/-- The thread `i` waits for a mutex that `j` owns. -/
def WaitsFor (s : Locks ι μ) (i j : ι) : Prop :=
  ∃ m, LockProg.requests (s.rest i) = some m ∧ s.owner m = some j

variable [DecidableEq ι]

/-- A thread goes on. -/
def goto (s : Locks ι μ) (i : ι) (k : List (LockProg μ)) : Locks ι μ :=
  { s with rest := Function.update s.rest i k }

theorem rest_goto_self {s : Locks ι μ} {i : ι} {k : List (LockProg μ)} : (s.goto i k).rest i = k :=
  Function.update_self ..

theorem rest_goto_of_ne {s : Locks ι μ} {i j : ι} {k : List (LockProg μ)} (h : j ≠ i) :
    (s.goto i k).rest j = s.rest j :=
  Function.update_of_ne h ..

variable [DecidableEq μ]

/-- A mutex changes hands. -/
def give (s : Locks ι μ) (m : μ) (o : Option ι) : Locks ι μ :=
  { s with owner := Function.update s.owner m o }

/-- A step of a thread; the flag decides a branch, or whether there is another round. -/
def step (s : Locks ι μ) (a : ι × Bool) : Option (Locks ι μ) :=
  match s.rest a.1 with
  | [] => none
  | .skip :: k => some (s.goto a.1 k)
  | .lock m :: k => if s.owner m = none then some ((s.give m (some a.1)).goto a.1 k) else none
  | .unlock m :: k => some ((s.give m none).goto a.1 k)
  | .seq p q :: k => some (s.goto a.1 (p :: q :: k))
  | .either p q :: k => some (s.goto a.1 ((if a.2 then p else q) :: k))
  | .loop p :: k => some (s.goto a.1 (if a.2 then p :: .loop p :: k else k))

end Locks

/-- The threads, in any interleaving. -/
def locks (ι μ : Type*) [DecidableEq ι] [DecidableEq μ] : Machine (Locks ι μ) (ι × Bool) where
  step := Locks.step

namespace Locks

variable [DecidableEq μ] {rank : μ → Nat} {s t : Locks ι μ} {i j : ι} {m : μ}
  {held : ι → List μ} {l : List μ} {k : List (LockProg μ)}

/-- What each thread holds by its program is what it owns. -/
structure Holds (rank : μ → Nat) (s : Locks ι μ) (held : ι → List μ) : Prop where
  ends : ∀ i, LockProg.effects rank (s.rest i) (held i) = some []
  owner : ∀ i m, m ∈ held i ↔ s.owner m = some i
  nodup : ∀ i, (held i).Nodup

/-- What a run keeps. -/
def Inv (rank : μ → Nat) (s : Locks ι μ) : Prop := ∃ held, Holds rank s held

theorem inv_init {prog : ι → LockProg μ} (h : ∀ i, (prog i).effect rank [] = some []) :
    Inv rank (init prog) := by
  refine ⟨fun _ => [], fun i => ?_, fun i m => ?_, fun i => List.nodup_nil⟩
  · rw [init, LockProg.effects, h i]
    rfl
  · simp [init]

section Steps

variable [DecidableEq ι]

/-- Where a thread goes on with what it holds. -/
theorem Holds.goto (h : Holds rank s held) (hk : LockProg.effects rank k (held i) = some []) :
    Holds rank (s.goto i k) held := by
  refine ⟨fun j => ?_, h.owner, h.nodup⟩
  by_cases hj : j = i
  · subst hj
    rwa [rest_goto_self]
  · rw [rest_goto_of_ne hj]
    exact h.ends j

/-- Where a thread goes on with `l` instead. -/
theorem Holds.update (h : Holds rank s held) (hk : LockProg.effects rank k l = some [])
    (howner : ∀ m, m ∈ l ↔ t.owner m = some i)
    (hother : ∀ j m, j ≠ i → (s.owner m = some j ↔ t.owner m = some j)) (hl : l.Nodup)
    (hrest : t.rest = s.rest) : Holds rank (t.goto i k) (Function.update held i l) := by
  refine ⟨fun j => ?_, fun j m => ?_, fun j => ?_⟩ <;> by_cases hj : j = i
  · subst hj
    rwa [rest_goto_self, Function.update_self]
  · rw [rest_goto_of_ne hj, Function.update_of_ne hj, hrest]
    exact h.ends j
  · subst hj
    rw [Function.update_self]
    exact howner m
  · rw [Function.update_of_ne hj]
    exact (h.owner j m).trans (hother j m hj)
  · subst hj
    rwa [Function.update_self]
  · rw [Function.update_of_ne hj]
    exact h.nodup j

theorem Holds.lock (h : Holds rank s held) (hat : s.rest i = .lock m :: k)
    (hfree : s.owner m = none) :
    Holds rank ((s.give m (some i)).goto i k) (Function.update held i (m :: held i)) := by
  have hends := h.ends i
  rw [hat] at hends
  refine h.update (LockProg.effects_lock hends).2 (fun m' => ?_) (fun j m' hj => ?_) ?_ rfl
  · by_cases hm : m' = m
    · subst hm
      simp [give]
    · simp [give, hm, h.owner]
  · by_cases hm : m' = m
    · subst hm
      simp [give, hfree, Ne.symm hj]
    · simp [give, hm]
  · refine List.nodup_cons.mpr ⟨fun hm => ?_, h.nodup i⟩
    rw [h.owner, hfree] at hm
    cases hm

theorem Holds.unlock (h : Holds rank s held) (hat : s.rest i = .unlock m :: k) :
    Holds rank ((s.give m none).goto i k) (Function.update held i ((held i).erase m)) := by
  have hends := h.ends i
  rw [hat] at hends
  obtain ⟨hheld, hk⟩ := LockProg.effects_unlock hends
  refine h.update hk (fun m' => ?_) (fun j m' hj => ?_) ((h.nodup i).erase m) rfl
  · rw [(h.nodup i).mem_erase_iff, h.owner]
    by_cases hm : m' = m
    · subst hm
      simp [give]
    · simp [give, hm]
  · by_cases hm : m' = m
    · subst hm
      simp [give, (h.owner i m').mp hheld, Ne.symm hj]
    · simp [give, hm]

theorem inv_step {a : ι × Bool} (hinv : Inv rank s) (h : (locks ι μ).step s a = some t) :
    Inv rank t := by
  obtain ⟨held, hh⟩ := hinv
  have hends := hh.ends a.1
  simp only [locks, step] at h
  split at h
  · cases h
  · next hat => cases h; rw [hat] at hends; exact ⟨held, hh.goto (LockProg.effects_skip hends)⟩
  · next hat =>
      split at h
      · next hfree => cases h; exact ⟨_, hh.lock hat hfree⟩
      · cases h
  · next hat => cases h; exact ⟨_, hh.unlock hat⟩
  · next hat => cases h; rw [hat] at hends; exact ⟨held, hh.goto (LockProg.effects_seq hends)⟩
  · next hat =>
      cases h
      rw [hat] at hends
      exact ⟨held, hh.goto (LockProg.effects_either hends a.2)⟩
  · next p k hat =>
      cases h
      rw [hat] at hends
      obtain ⟨hp, hk⟩ := LockProg.effects_loop hends
      refine ⟨held, hh.goto ?_⟩
      cases a.2 with
      | false => exact hk
      | true => rwa [if_pos rfl, LockProg.effects, hp]

end Steps

/-! ### What follows -/

theorem Inv.rank_lt_of_requests (hinv : Inv rank s) {m m' : μ}
    (h : LockProg.requests (s.rest i) = some m) (hm : s.owner m' = some i) : rank m' < rank m := by
  obtain ⟨held, hh⟩ := hinv
  have hends := hh.ends i
  cases hat : s.rest i with
  | nil => rw [hat] at h; cases h
  | cons p k =>
      rw [hat] at h hends
      cases p <;> cases h
      exact (LockProg.effects_lock hends).1 m' ((hh.owner i m').mpr hm)

/-- No thread requests a mutex it holds. -/
theorem Inv.not_owned_of_requests (hinv : Inv rank s)
    (h : LockProg.requests (s.rest i) = some m) : s.owner m ≠ some i :=
  fun hm => Nat.lt_irrefl _ (hinv.rank_lt_of_requests h hm)

/-- No thread unlocks a mutex it does not hold. -/
theorem Inv.owned_of_releases (hinv : Inv rank s)
    (h : LockProg.releases (s.rest i) = some m) : s.owner m = some i := by
  obtain ⟨held, hh⟩ := hinv
  have hends := hh.ends i
  cases hat : s.rest i with
  | nil => rw [hat] at h; cases h
  | cons p k =>
      rw [hat] at h hends
      cases p <;> cases h
      exact (hh.owner i m).mp (LockProg.effects_unlock hends).1

/-- Along a chain of waiting threads the mutexes they request go up. -/
theorem Inv.rank_lt_of_waits (hinv : Inv rank s) (h : Relation.TransGen s.WaitsFor i j) :
    ∃ m, LockProg.requests (s.rest i) = some m ∧
      ∀ m', LockProg.requests (s.rest j) = some m' → rank m < rank m' := by
  induction h with
  | single hij =>
      obtain ⟨m, hm, howner⟩ := hij
      exact ⟨m, hm, fun m' hm' => hinv.rank_lt_of_requests hm' howner⟩
  | tail _ hjl ih =>
      obtain ⟨m, hm, hlt⟩ := ih
      obtain ⟨m', hm', howner⟩ := hjl
      exact ⟨m, hm, fun m'' hm'' =>
        Nat.lt_trans (hlt m' hm') (hinv.rank_lt_of_requests hm'' howner)⟩

/-- **No deadlock.**  No thread waits, directly or through others, for itself. -/
theorem Inv.acyclic (hinv : Inv rank s) (i : ι) : ¬ Relation.TransGen s.WaitsFor i i := by
  intro h
  obtain ⟨m, hm, hlt⟩ := hinv.rank_lt_of_waits h
  exact Nat.lt_irrefl _ (hlt m hm)

/-- Before a round of its loop, with nothing after it, a thread holds no mutex. -/
theorem Inv.not_owned_of_loop (hinv : Inv rank s) {p : LockProg μ} (h : s.rest i = [.loop p]) :
    s.owner m ≠ some i := by
  obtain ⟨held, hh⟩ := hinv
  have hends := hh.ends i
  rw [h] at hends
  have hnil : held i = [] := Option.some.inj (LockProg.effects_loop hends).2
  intro hm
  rw [← hh.owner, hnil] at hm
  cases hm

end Locks

end Cimabue
