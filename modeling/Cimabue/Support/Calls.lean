import Cimabue.Support.Machine
import Mathlib.Data.List.Nodup
import Mathlib.Logic.Function.Basic
import Mathlib.Logic.Relation

/-!
# Support — Calls

Threads that lock mutexes and call one another (`CallProg`): a caller waits until the thread it has
called takes its request up and answers it, or gives up; the branches, the numbers of rounds and the
threads that are called are open, requests come from outside too, and all this in any interleaving
(`calls`).

Mutexes and kinds of threads that answer have ranks.  `CallProg.effect` goes through a program once
with the mutexes held and whether an answer is owed: what is requested must rank above the mutexes
that are held and, in a thread that answers, above its own kind; a request is taken up where nothing
is held or owed, and answered once.

* `sound_step`: what a thread holds and owes by its program is what it has, and a step keeps that.
* `Sound.acyclic`: the threads that wait for one another are not in a cycle.
* `Sound.exists_canGo`: a thread that waits does so, through others, for one that can go on.
-/

namespace Cimabue

/-- What a thread does to the mutexes and to the other threads. -/
inductive CallProg (μ κ : Type*) where
  | skip
  | lock (m : μ)
  | unlock (m : μ)
  /-- A request to a thread of the kind `c`, and the wait for its answer. -/
  | call (c : κ)
  /-- The next request is taken up. -/
  | take
  /-- The request that has been taken up is answered. -/
  | answer
  | seq (p q : CallProg μ κ)
  /-- One of the two. -/
  | either (p q : CallProg μ κ)
  /-- Any number of rounds. -/
  | loop (p : CallProg μ κ)
  /-- Round after round. -/
  | forever (p : CallProg μ κ)

/-- The mutexes that are held, and whether an answer is owed. -/
structure Duties (μ : Type*) where
  held : List μ := []
  owes : Bool := false
deriving DecidableEq

/-- The ranks of the mutexes, and of the kinds of threads that answer. -/
structure Ranks (μ κ : Type*) where
  mutex : μ → Nat
  kind : κ → Nat

variable {ι μ κ : Type*}

namespace CallProg

/-- One program after the other. -/
def block : List (CallProg μ κ) → CallProg μ κ
  | [] => .skip
  | p :: ps => .seq p (block ps)

/-- A program under a mutex. -/
def critical (m : μ) (p : CallProg μ κ) : CallProg μ κ := block [.lock m, p, .unlock m]

/-- A request of the rank `w` is above what is held, and not below `floor`. -/
def Above (R : Ranks μ κ) (floor : Nat) (held : List μ) (w : Nat) : Prop :=
  floor ≤ w ∧ ∀ m ∈ held, R.mutex m < w

instance (R : Ranks μ κ) (floor : Nat) (held : List μ) (w : Nat) :
    Decidable (Above R floor held w) := inferInstanceAs (Decidable (_ ∧ _))

variable [DecidableEq μ]

/-- The duties after the program, none if it breaks the discipline. -/
def effect (R : Ranks μ κ) (floor : Nat) : CallProg μ κ → Duties μ → Option (Duties μ)
  | .skip, d => some d
  | .lock m, d =>
      if Above R floor d.held (R.mutex m) then some { d with held := m :: d.held } else none
  | .unlock m, d => if m ∈ d.held then some { d with held := d.held.erase m } else none
  | .call c, d => if Above R floor d.held (R.kind c) then some d else none
  | .take, d => if d = {} then some { owes := true } else none
  | .answer, d => if d.owes then some { d with owes := false } else none
  | .seq p q, d => (p.effect R floor d).bind (q.effect R floor)
  | .either p q, d =>
      if p.effect R floor d = q.effect R floor d then p.effect R floor d else none
  | .loop p, d => if p.effect R floor d = some d then some d else none
  | .forever p, d => if p.effect R floor d = some d then some d else none

/-- The duties after the programs a thread has before it. -/
def effects (R : Ranks μ κ) (floor : Nat) : List (CallProg μ κ) → Duties μ → Option (Duties μ)
  | [], d => some d
  | p :: k, d => (p.effect R floor d).bind (effects R floor k)

/-- The rank of what a thread is about to request. -/
def wants (R : Ranks μ κ) : List (CallProg μ κ) → Option Nat
  | .lock m :: _ => some (R.mutex m)
  | .call c :: _ => some (R.kind c)
  | _ => none

section Effects

variable {R : Ranks μ κ} {floor : Nat} {p q : CallProg μ κ} {k : List (CallProg μ κ)} {m : μ}
  {c : κ} {d after : Duties μ}

/-- A part of a program that has a condition. -/
theorem effects_cons {P : Prop} [Decidable P] {e : Duties μ}
    (hp : p.effect R floor d = if P then some e else none)
    (h : effects R floor (p :: k) d = some after) : P ∧ effects R floor k e = some after := by
  rw [effects, hp] at h
  split_ifs at h with hP
  · exact ⟨hP, h⟩
  · cases h

theorem effects_seq (h : effects R floor (.seq p q :: k) d = some after) :
    effects R floor (p :: q :: k) d = some after := by
  rwa [effects, effect, Option.bind_assoc] at h

theorem effects_either (h : effects R floor (.either p q :: k) d = some after) (b : Bool) :
    effects R floor ((if b then p else q) :: k) d = some after := by
  rw [effects, effect] at h
  split_ifs at h with hpq
  · cases b with
    | true => exact h
    | false =>
        rw [hpq] at h
        exact h
  · cases h

theorem effects_loop (h : effects R floor (.loop p :: k) d = some after) (b : Bool) :
    effects R floor (if b then p :: .loop p :: k else k) d = some after := by
  obtain ⟨hp, hk⟩ := effects_cons rfl h
  cases b with
  | false => exact hk
  | true => rwa [if_pos rfl, effects, hp]

theorem effects_forever (h : effects R floor (.forever p :: k) d = some after) :
    effects R floor (p :: .forever p :: k) d = some after := by
  obtain ⟨hp, -⟩ := effects_cons rfl h
  rwa [effects, hp]

/-- What is requested is above what is held. -/
theorem above_of_wants {w : Nat} (hw : wants R k = some w)
    (h : effects R floor k d = some after) : Above R floor d.held w := by
  match k, hw with
  | .lock m :: k, rfl => exact (effects_cons rfl h).1
  | .call c :: k, rfl => exact (effects_cons rfl h).1

end Effects

end CallProg

/-! ### The threads -/

/-- The owner of each mutex, what each thread has before it, the requests that wait for it, the one it
has taken up, and whom it waits for.  A request of nobody is one from outside, or one that has been
given up. -/
structure Calls (ι μ κ : Type*) where
  owner : μ → Option ι
  rest : ι → List (CallProg μ κ)
  queue : ι → List (Option ι)
  serving : ι → Option (Option ι)
  awaiting : ι → Option ι

/-- What happens to the threads. -/
inductive CallStep (ι : Type*) where
  /-- A thread goes on; the flag decides a branch, or whether there is another round.  A call that goes
  on like this has reached none of the threads. -/
  | go (i : ι) (b : Bool)
  /-- A thread calls another one. -/
  | call (i j : ι)
  /-- A request comes from outside. -/
  | arrive (j : ι)
  /-- A thread no longer waits for an answer. -/
  | giveUp (i : ι)

namespace Calls

/-- Every mutex is free, nobody waits, and every thread is at the beginning of its program. -/
def init (prog : ι → CallProg μ κ) : Calls ι μ κ where
  owner _ := none
  rest i := [prog i]
  queue _ := []
  serving _ := none
  awaiting _ := none

/-- The thread `i` waits for a mutex of `j`, or for its answer. -/
def WaitsFor (s : Calls ι μ κ) (i j : ι) : Prop :=
  (∃ m k, s.rest i = .lock m :: k ∧ s.owner m = some j) ∨ s.awaiting i = some j

/-- The requests that `j` has not answered, and for which somebody waits. -/
def pending (s : Calls ι μ κ) (j : ι) : List ι := ((s.serving j).toList ++ s.queue j).filterMap id

variable [DecidableEq ι]

/-- A thread goes on. -/
def goto (s : Calls ι μ κ) (i : ι) (k : List (CallProg μ κ)) : Calls ι μ κ :=
  { s with rest := Function.update s.rest i k }

/-- The wait of a thread is over. -/
def resume (s : Calls ι μ κ) (i : ι) : Calls ι μ κ :=
  { s with
    rest := Function.update s.rest i (s.rest i).tail
    awaiting := Function.update s.awaiting i none }

/-- A request of `i` becomes one of nobody. -/
def forgotten (i : ι) (c : Option ι) : Option ι := if c = some i then none else c

variable [DecidableEq μ]

/-- A mutex changes hands. -/
def give (s : Calls ι μ κ) (m : μ) (o : Option ι) : Calls ι μ κ :=
  { s with owner := Function.update s.owner m o }

variable [DecidableEq κ]

/-- What a step leads to; `kind` tells the threads that answer. -/
def step (kind : ι → Option κ) (s : Calls ι μ κ) : CallStep ι → Option (Calls ι μ κ)
  | .go i b =>
      match s.rest i with
      | [] => none
      | .skip :: k => some (s.goto i k)
      | .lock m :: k => if s.owner m = none then some ((s.give m (some i)).goto i k) else none
      | .unlock m :: k => some ((s.give m none).goto i k)
      | .call _ :: k => if s.awaiting i = none then some (s.goto i k) else none
      | .take :: k =>
          match s.queue i with
          | [] => none
          | c :: cs =>
              some ({ s with
                queue := Function.update s.queue i cs
                serving := Function.update s.serving i (some c) }.goto i k)
      | .answer :: k =>
          match s.serving i with
          | none => none
          | some c =>
              let s := { s with serving := Function.update s.serving i none }
              some ((c.elim s s.resume).goto i k)
      | .seq p q :: k => some (s.goto i (p :: q :: k))
      | .either p q :: k => some (s.goto i ((if b then p else q) :: k))
      | .loop p :: k => some (s.goto i (if b then p :: .loop p :: k else k))
      | .forever p :: k => some (s.goto i (p :: .forever p :: k))
  | .call i j =>
      match s.rest i with
      | .call c :: _ =>
          if s.awaiting i = none ∧ kind j = some c then
            some { s with
              queue := Function.update s.queue j (s.queue j ++ [some i])
              awaiting := Function.update s.awaiting i (some j) }
          else none
      | _ => none
  | .arrive j => some { s with queue := Function.update s.queue j (s.queue j ++ [none]) }
  | .giveUp i =>
      match s.awaiting i with
      | none => none
      | some j =>
          some ({ s with
            queue := Function.update s.queue j ((s.queue j).map (forgotten i))
            serving := Function.update s.serving j ((s.serving j).map (forgotten i)) }.resume i)

/-- The thread can go on by itself. -/
def CanGo (kind : ι → Option κ) (s : Calls ι μ κ) (i : ι) : Prop :=
  ∃ b, (s.step kind (.go i b)).isSome

end Calls

/-- The threads, in any interleaving. -/
def calls [DecidableEq ι] [DecidableEq μ] [DecidableEq κ] (kind : ι → Option κ) :
    Machine (Calls ι μ κ) (CallStep ι) where
  step := Calls.step kind

namespace Calls

variable {R : Ranks μ κ} {kind : ι → Option κ} {s t : Calls ι μ κ}

/-! #### Whom is waited for -/

/-- A thread that waits for an answer is at its call, and its request is where it waits. -/
structure Posted (kind : ι → Option κ) (s : Calls ι μ κ) : Prop where
  waits : ∀ i j, s.awaiting i = some j → ∃ c k, s.rest i = .call c :: k ∧ kind j = some c
  pending : ∀ i j, i ∈ s.pending j ↔ s.awaiting i = some j
  nodup : ∀ j, (s.pending j).Nodup

section Posted

variable {i j : ι}

/-- A thread that does not wait goes on. -/
theorem Posted.goto (h : Posted kind s) (hi : s.awaiting i = none)
    (hrest : ∀ j, j ≠ i → t.rest j = s.rest j) (hawaiting : t.awaiting = s.awaiting)
    (hpending : t.pending = s.pending) : Posted kind t := by
  refine ⟨fun j l hj => ?_, fun j l => by rw [hpending, hawaiting, h.pending], fun j => ?_⟩
  · rw [hawaiting] at hj
    have hne : j ≠ i := by
      rintro rfl
      rw [hi] at hj
      cases hj
    rw [hrest j hne]
    exact h.waits j l hj
  · rw [hpending]
    exact h.nodup j

/-- The wait of `i` for `j` is over. -/
theorem Posted.resume [DecidableEq ι] (h : Posted kind s) (hi : s.awaiting i = some j)
    (hrest : ∀ l, l ≠ i → t.rest l = s.rest l)
    (hawaiting : t.awaiting = Function.update s.awaiting i none)
    (hother : ∀ l, l ≠ j → t.pending l = s.pending l)
    (hpending : t.pending j = (s.pending j).filter (· ≠ i)) : Posted kind t := by
  have hmem : ∀ l, l ∈ t.pending j ↔ l ∈ s.pending j ∧ l ≠ i := fun l => by
    rw [hpending, List.mem_filter, decide_eq_true_eq]
  refine ⟨fun l j' hl => ?_, fun l j' => ?_, fun j' => ?_⟩
  · rw [hawaiting, Function.update_apply] at hl
    split_ifs at hl with hli
    rw [hrest l hli]
    exact h.waits l j' hl
  · rw [hawaiting, Function.update_apply]
    by_cases hj : j' = j
    · subst hj
      rw [hmem, h.pending]
      split_ifs with hli <;> simp [hli]
    · rw [hother j' hj, h.pending]
      split_ifs with hli
      · subst hli
        simp [hi, Ne.symm hj]
      · rfl
  · by_cases hj : j' = j
    · subst hj
      rw [hpending]
      exact (h.nodup j').filter _
    · rw [hother j' hj]
      exact h.nodup j'

/-- Where no call is before a thread, it does not wait. -/
theorem Posted.awaiting_eq_none (h : Posted kind s) (hat : ∀ c k, s.rest i ≠ .call c :: k) :
    s.awaiting i = none := by
  by_contra hne
  obtain ⟨j, hj⟩ := Option.ne_none_iff_exists'.mp hne
  obtain ⟨c, k, hc, -⟩ := h.waits i j hj
  exact hat c k hc

/-- The threads that answer keep on doing so, when `i` goes on. -/
theorem endless_goto (h : ∀ j, (kind j).isSome → ∃ p, .forever p ∈ s.rest j)
    (hrest : ∀ j, j ≠ i → t.rest j = s.rest j)
    (hend : (∃ p, .forever p ∈ s.rest i) → ∃ p, .forever p ∈ t.rest i) (j : ι)
    (hj : (kind j).isSome) : ∃ p, .forever p ∈ t.rest j := by
  by_cases hji : j = i
  · subst hji
    exact hend (h j hj)
  · rw [hrest j hji]
    exact h j hj

end Posted

/-! #### What is held and owed -/

/-- A thread that answers requests what is above its kind. -/
def floor (R : Ranks μ κ) (kind : ι → Option κ) (i : ι) : Nat :=
  (kind i).elim 0 fun c => R.kind c + 1

variable [DecidableEq μ]

/-- What a thread holds and owes by its program is what it has. -/
structure Holds (R : Ranks μ κ) (kind : ι → Option κ) (s : Calls ι μ κ) (held : ι → List μ) :
    Prop where
  ends : ∀ i, CallProg.effects R (floor R kind i) (s.rest i) ⟨held i, (s.serving i).isSome⟩ = some {}
  owner : ∀ i m, m ∈ held i ↔ s.owner m = some i
  nodup : ∀ i, (held i).Nodup

/-- What a run keeps; a thread that answers does so for ever. -/
structure Sound (R : Ranks μ κ) (kind : ι → Option κ) (s : Calls ι μ κ) : Prop where
  holds : ∃ held, Holds R kind s held
  posted : Posted kind s
  endless : ∀ j, (kind j).isSome → ∃ p, .forever p ∈ s.rest j

theorem sound_init {prog : ι → CallProg μ κ}
    (h : ∀ i, (prog i).effect R (floor R kind i) {} = some {})
    (hforever : ∀ j, (kind j).isSome → ∃ p, prog j = .forever p) : Sound R kind (init prog) where
  holds := by
    refine ⟨fun _ => [], fun i => ?_, fun i m => ?_, fun i => List.nodup_nil⟩
    · rw [init, CallProg.effects]
      exact (congrArg (Option.bind · _) (h i)).trans rfl
    · simp [init]
  posted := ⟨nofun, fun i j => by simp [init, Calls.pending], fun j => List.nodup_nil⟩
  endless j hj := by
    obtain ⟨p, hp⟩ := hforever j hj
    exact ⟨p, by simp [init, hp]⟩

section Steps

variable [DecidableEq ι] {held : ι → List μ} {i j : ι} {m : μ} {c : κ}
  {k : List (CallProg μ κ)} {l : List μ}

/-- A thread goes on with other duties. -/
theorem Holds.update (h : Holds R kind s held) (hrest : t.rest = Function.update s.rest i k)
    (hserving : ∀ j, j ≠ i → (t.serving j).isSome = (s.serving j).isSome)
    (hk : CallProg.effects R (floor R kind i) k ⟨l, (t.serving i).isSome⟩ = some {})
    (howner : ∀ m, m ∈ l ↔ t.owner m = some i)
    (hother : ∀ j m, j ≠ i → (s.owner m = some j ↔ t.owner m = some j)) (hl : l.Nodup) :
    Holds R kind t (Function.update held i l) := by
  refine ⟨fun j => ?_, fun j m => ?_, fun j => ?_⟩ <;> by_cases hj : j = i
  · subst hj
    rwa [hrest, Function.update_self, Function.update_self]
  · rw [hrest, Function.update_of_ne hj, Function.update_of_ne hj, hserving j hj]
    exact h.ends j
  · subst hj
    rw [Function.update_self]
    exact howner m
  · rw [Function.update_of_ne hj]
    exact (h.owner j m).trans (hother j m hj)
  · subst hj
    rwa [Function.update_self]
  · rw [Function.update_of_ne hj]
    exact h.nodup j

/-- A thread goes on, and the mutexes stay where they are. -/
theorem Holds.goto (h : Holds R kind s held) (hrest : t.rest = Function.update s.rest i k)
    (hserving : ∀ j, j ≠ i → (t.serving j).isSome = (s.serving j).isSome) (howner : t.owner = s.owner)
    (hk : CallProg.effects R (floor R kind i) k ⟨held i, (t.serving i).isSome⟩ = some {}) :
    Holds R kind t held := by
  have ht := h.update hrest hserving hk (fun m => by rw [howner, h.owner])
    (fun j m _ => by rw [howner]) (h.nodup i)
  rwa [Function.update_eq_self] at ht

theorem Holds.lock (h : Holds R kind s held) (hat : s.rest i = .lock m :: k)
    (hfree : s.owner m = none) :
    Holds R kind ((s.give m (some i)).goto i k) (Function.update held i (m :: held i)) := by
  have hends := h.ends i
  rw [hat] at hends
  refine h.update rfl (fun _ _ => rfl) (CallProg.effects_cons rfl hends).2 (fun m' => ?_)
    (fun j m' hj => ?_) ?_
  · by_cases hm : m' = m
    · subst hm
      simp [give, Calls.goto]
    · simp [give, Calls.goto, hm, h.owner]
  · by_cases hm : m' = m
    · subst hm
      simp [give, Calls.goto, hfree, Ne.symm hj]
    · simp [give, Calls.goto, hm]
  · refine List.nodup_cons.mpr ⟨fun hm => ?_, h.nodup i⟩
    rw [h.owner, hfree] at hm
    cases hm

theorem Holds.unlock (h : Holds R kind s held) (hat : s.rest i = .unlock m :: k) :
    Holds R kind ((s.give m none).goto i k) (Function.update held i ((held i).erase m)) := by
  have hends := h.ends i
  rw [hat] at hends
  obtain ⟨hheld, hk⟩ := CallProg.effects_cons rfl hends
  refine h.update rfl (fun _ _ => rfl) hk (fun m' => ?_) (fun j m' hj => ?_) ((h.nodup i).erase m)
  · rw [(h.nodup i).mem_erase_iff, h.owner]
    by_cases hm : m' = m
    · subst hm
      simp [give, Calls.goto]
    · simp [give, Calls.goto, hm]
  · by_cases hm : m' = m
    · subst hm
      simp [give, Calls.goto, (h.owner i m').mp hheld, Ne.symm hj]
    · simp [give, Calls.goto, hm]

/-- The wait of a thread is over. -/
theorem Holds.resume (h : Holds R kind s held) (hat : s.rest i = .call c :: k) :
    Holds R kind (s.resume i) held := by
  have hends := h.ends i
  rw [hat] at hends
  refine h.goto (i := i) (k := k) ?_ (fun _ _ => rfl) rfl (CallProg.effects_cons rfl hends).2
  rw [Calls.resume, hat]
  rfl

/-! #### The steps -/

/-- A thread that does not wait goes on, with the same duties. -/
theorem Sound.goto (h : Sound R kind s) (hi : s.awaiting i = none)
    (hk : ∀ d, CallProg.effects R (floor R kind i) (s.rest i) d = some {} →
      CallProg.effects R (floor R kind i) k d = some {})
    (hend : ∀ p, .forever p ∈ s.rest i → ∃ q, .forever q ∈ k) : Sound R kind (s.goto i k) := by
  obtain ⟨⟨held, hh⟩, hp, he⟩ := h
  refine ⟨⟨held, hh.goto rfl (fun _ _ => rfl) rfl (hk _ (hh.ends i))⟩,
    hp.goto hi (fun j hj => Function.update_of_ne hj ..) rfl rfl, fun j hj => ?_⟩
  obtain ⟨p, hmem⟩ := he j hj
  by_cases hji : j = i
  · subst hji
    simpa [Calls.goto] using hend p hmem
  · exact ⟨p, by simpa [Calls.goto, hji] using hmem⟩

/-- A request is taken up. -/
theorem Sound.take {q : Option ι} {qs : List (Option ι)} (h : Sound R kind s)
    (hat : s.rest i = .take :: k) (hqueue : s.queue i = q :: qs) :
    Sound R kind ({ s with
      queue := Function.update s.queue i qs
      serving := Function.update s.serving i (some q) }.goto i k) := by
  obtain ⟨⟨held, hh⟩, hp, he⟩ := h
  have hends := hh.ends i
  rw [hat] at hends
  obtain ⟨hd, hk⟩ := CallProg.effects_cons rfl hends
  have hheld : held i = [] := congrArg Duties.held hd
  have hserving : s.serving i = none := by simpa using congrArg Duties.owes hd
  refine ⟨⟨held, hh.goto rfl (fun j hj => ?_) rfl ?_⟩,
    hp.goto (hp.awaiting_eq_none (i := i) fun c k => by rw [hat]; nofun)
      (fun j hj => Function.update_of_ne hj ..) rfl (funext fun j => ?_),
    endless_goto he (fun j hj => Function.update_of_ne hj ..) fun hf => ?_⟩
  · simp [Calls.goto, hj]
  · simpa [Calls.goto, hheld] using hk
  · by_cases hj : j = i
    · subst hj
      cases q <;> simp [Calls.goto, Calls.pending, hqueue, hserving]
    · simp [Calls.goto, Calls.pending, hj]
  · simpa [Calls.goto, hat] using hf

/-- The request that has been taken up is answered. -/
theorem Sound.answer {q : Option ι} (h : Sound R kind s) (hat : s.rest i = .answer :: k)
    (hserving : s.serving i = some q) :
    let s' := { s with serving := Function.update s.serving i none }
    Sound R kind ((q.elim s' s'.resume).goto i k) := by
  obtain ⟨⟨held, hh⟩, hp, he⟩ := h
  have hi : s.awaiting i = none := hp.awaiting_eq_none fun c k => by rw [hat]; nofun
  have hends := hh.ends i
  rw [hat] at hends
  have hk := (CallProg.effects_cons rfl hends).2
  cases q with
  | none =>
      refine ⟨⟨held, hh.goto rfl (fun j hj => ?_) rfl ?_⟩,
        hp.goto hi (fun j hj => Function.update_of_ne hj ..) rfl (funext fun j => ?_),
        endless_goto he (fun j hj => Function.update_of_ne hj ..) fun hf => ?_⟩
      · simp [Calls.goto, hj]
      · simpa [Calls.goto] using hk
      · by_cases hj : j = i
        · subst hj
          simp [Calls.goto, Calls.pending, hserving]
        · simp [Calls.goto, Calls.pending, hj]
      · simpa [Calls.goto, hat] using hf
  | some j =>
      -- `j` has waited for the answer
      have hpend : s.pending i = j :: (s.queue i).filterMap id := by simp [Calls.pending, hserving]
      have hj : s.awaiting j = some i := (hp.pending j i).mp (by simp [hpend])
      obtain ⟨c, k', hcall, -⟩ := hp.waits j i hj
      have hji : j ≠ i := by
        rintro rfl
        rw [hi] at hj
        cases hj
      let u := ({ s with serving := Function.update s.serving i none } : Calls ι μ κ).resume j
      have hnodup := hp.nodup i
      rw [hpend, List.nodup_cons] at hnodup
      have hpu : Posted kind u := by
        refine hp.resume hj (fun l hl => Function.update_of_ne hl ..) rfl (fun l hl => ?_) ?_
        · simp [u, Calls.resume, Calls.pending, hl]
        · rw [hpend, List.filter_cons_of_neg (by simp)]
          have hself : u.pending i = (s.queue i).filterMap id := by
            simp [u, Calls.resume, Calls.pending]
          rw [hself, List.filter_eq_self.mpr fun l hl => ?_]
          exact decide_eq_true fun e => hnodup.1 (e ▸ hl)
      have hui : u.awaiting i = none := (Function.update_of_ne hji.symm ..).trans hi
      refine ⟨⟨held, (hh.resume hcall).goto (t := u.goto i k) rfl (fun l hl => ?_) rfl ?_⟩,
        hpu.goto hui (fun l hl => Function.update_of_ne hl ..) rfl rfl, endless_goto (s := u)
          (endless_goto he (fun l hl => Function.update_of_ne hl ..) fun hf => ?_)
          (fun l hl => Function.update_of_ne hl ..) fun hf => ?_⟩
      · simp [u, Calls.goto, Calls.resume, hl]
      · simpa [u, Calls.goto, Calls.resume] using hk
      · simpa [u, Calls.resume, hcall] using hf
      · simpa [u, Calls.goto, Calls.resume, hji.symm, hat] using hf

/-- A thread calls another one. -/
theorem Sound.call (h : Sound R kind s) (hat : s.rest i = .call c :: k) (hi : s.awaiting i = none)
    (hj : kind j = some c) :
    Sound R kind { s with
      queue := Function.update s.queue j (s.queue j ++ [some i])
      awaiting := Function.update s.awaiting i (some j) } := by
  obtain ⟨⟨held, hh⟩, hp, he⟩ := h
  have hnot : ∀ l, i ∉ s.pending l := fun l hl => by
    rw [hp.pending, hi] at hl
    cases hl
  have hpending : ∀ l, Calls.pending { s with
      queue := Function.update s.queue j (s.queue j ++ [some i])
      awaiting := Function.update s.awaiting i (some j) } l =
        if l = j then s.pending j ++ [i] else s.pending l := fun l => by
    split_ifs with hl
    · subst hl
      simp [Calls.pending]
    · simp [Calls.pending, hl]
  refine ⟨⟨held, hh.ends, hh.owner, hh.nodup⟩, ⟨fun l l' hl => ?_, fun l l' => ?_, fun l => ?_⟩, he⟩
  · simp only [Function.update_apply] at hl
    split_ifs at hl with hli
    · obtain rfl := Option.some.inj hl
      exact ⟨c, k, hli ▸ hat, hj⟩
    · exact hp.waits l l' hl
  · simp only [hpending, Function.update_apply]
    by_cases hli : l = i
    · subst hli
      by_cases hl' : l' = j
      · simp [hl']
      · simp [hl', hnot l', Ne.symm hl']
    · rw [if_neg hli, ← hp.pending]
      by_cases hl' : l' = j
      · simp [hl', hli]
      · simp [hl']
  · rw [hpending]
    split_ifs with hl
    · exact (hp.nodup j).append (List.nodup_singleton i) (List.disjoint_singleton.mpr (hnot j))
    · exact hp.nodup l

/-- A request comes from outside. -/
theorem Sound.arrive (h : Sound R kind s) (j : ι) :
    Sound R kind { s with queue := Function.update s.queue j (s.queue j ++ [none]) } := by
  obtain ⟨⟨held, hh⟩, hp, he⟩ := h
  have hpending : ∀ l, Calls.pending
      { s with queue := Function.update s.queue j (s.queue j ++ [none]) } l = s.pending l := fun l => by
    by_cases hl : l = j
    · subst hl
      simp [Calls.pending]
    · simp [Calls.pending, hl]
  refine ⟨⟨held, hh.ends, hh.owner, hh.nodup⟩, ⟨hp.waits, fun l l' => ?_, fun l => ?_⟩, he⟩
  · rw [hpending, hp.pending]
  · rw [hpending]
    exact hp.nodup l

theorem filterMap_forgotten (i : ι) (qs : List (Option ι)) :
    (qs.map (forgotten i)).filterMap id = (qs.filterMap id).filter (· ≠ i) := by
  induction qs with
  | nil => rfl
  | cons q qs ih =>
      cases q with
      | none => simpa [forgotten] using ih
      | some j =>
          by_cases hj : j = i
          · simpa [forgotten, hj] using ih
          · simpa [forgotten, hj] using ih

/-- A thread no longer waits. -/
theorem Sound.giveUp (h : Sound R kind s) (hi : s.awaiting i = some j) :
    Sound R kind ({ s with
      queue := Function.update s.queue j ((s.queue j).map (forgotten i))
      serving := Function.update s.serving j ((s.serving j).map (forgotten i)) }.resume i) := by
  obtain ⟨⟨held, hh⟩, hp, he⟩ := h
  obtain ⟨c, k, hcall, -⟩ := hp.waits i j hi
  have hends := hh.ends i
  rw [hcall] at hends
  have hserving : ∀ l, (Function.update s.serving j ((s.serving j).map (forgotten i)) l).isSome =
      (s.serving l).isSome := fun l => by
    rw [Function.update_apply]
    split_ifs with hl
    · rw [hl, Option.isSome_map]
    · rfl
  refine ⟨⟨held, hh.goto (i := i) (k := k) ?_ (fun l _ => hserving l) rfl ?_⟩,
    hp.resume hi (fun l hl => Function.update_of_ne hl ..) rfl (fun l hl => ?_) ?_,
    endless_goto he (fun l hl => Function.update_of_ne hl ..) fun hf => ?_⟩
  · simp [Calls.resume, hcall]
  · have hk := (CallProg.effects_cons rfl hends).2
    rwa [← hserving i] at hk
  · simp [Calls.resume, Calls.pending, hl]
  · have hmap : ((s.serving j).map (forgotten i)).toList ++ (s.queue j).map (forgotten i) =
        ((s.serving j).toList ++ s.queue j).map (forgotten i) := by
      rw [List.map_append]
      cases s.serving j <;> rfl
    simp only [Calls.resume, Calls.pending, Function.update_self, hmap, filterMap_forgotten]
  · simpa [Calls.resume, hcall] using hf

variable [DecidableEq κ]

/-- **A step keeps the discipline.** -/
theorem sound_step {a : CallStep ι} (h : Sound R kind s) (hs : (calls kind).step s a = some t) :
    Sound R kind t := by
  cases a with
  | go i b =>
      obtain ⟨⟨held, hh⟩, hp, he⟩ := id h
      simp only [calls, step] at hs
      split at hs
      · cases hs
      · next k hat =>
          cases hs
          exact h.goto (hp.awaiting_eq_none fun c k => by rw [hat]; nofun)
            (fun d hd => by rwa [hat] at hd) fun p hp => ⟨p, by simpa [hat] using hp⟩
      · next m k hat =>
          split_ifs at hs with hfree
          cases hs
          exact ⟨⟨_, hh.lock hat hfree⟩,
            hp.goto (hp.awaiting_eq_none (i := i) fun c k => by rw [hat]; nofun)
              (fun j hj => Function.update_of_ne hj ..) rfl rfl,
            endless_goto he (fun j hj => Function.update_of_ne hj ..) fun hf => by
              simpa [Calls.goto, give, hat] using hf⟩
      · next m k hat =>
          cases hs
          exact ⟨⟨_, hh.unlock hat⟩,
            hp.goto (hp.awaiting_eq_none (i := i) fun c k => by rw [hat]; nofun)
              (fun j hj => Function.update_of_ne hj ..) rfl rfl,
            endless_goto he (fun j hj => Function.update_of_ne hj ..) fun hf => by
              simpa [Calls.goto, give, hat] using hf⟩
      · next c k hat =>
          -- nobody has been reached
          split_ifs at hs with hi
          cases hs
          exact h.goto hi (fun d hd => by
            rw [hat] at hd
            exact (CallProg.effects_cons rfl hd).2) fun p hp => ⟨p, by simpa [hat] using hp⟩
      · next k hat =>
          split at hs
          · cases hs
          · next q qs hqueue =>
              cases hs
              exact h.take hat hqueue
      · next k hat =>
          split at hs
          · cases hs
          · next q hserving =>
              cases hs
              exact h.answer hat hserving
      · next p q k hat =>
          cases hs
          exact h.goto (hp.awaiting_eq_none fun c k => by rw [hat]; nofun)
            (fun d hd => CallProg.effects_seq (hat ▸ hd)) fun p' hp' => ⟨p', by
              simpa [hat] using Or.inr (Or.inr (by simpa [hat] using hp'))⟩
      · next p q k hat =>
          cases hs
          exact h.goto (hp.awaiting_eq_none fun c k => by rw [hat]; nofun)
            (fun d hd => CallProg.effects_either (hat ▸ hd) b) fun p' hp' => ⟨p',
              List.mem_cons_of_mem _ (by simpa [hat] using hp')⟩
      · next p k hat =>
          cases hs
          refine h.goto (hp.awaiting_eq_none fun c k => by rw [hat]; nofun)
            (fun d hd => CallProg.effects_loop (hat ▸ hd) b) fun p' hp' => ⟨p', ?_⟩
          have hmem : .forever p' ∈ k := by simpa [hat] using hp'
          cases b with
          | false => exact hmem
          | true => exact List.mem_cons_of_mem _ (List.mem_cons_of_mem _ hmem)
      · next p k hat =>
          cases hs
          exact h.goto (hp.awaiting_eq_none fun c k => by rw [hat]; nofun)
            (fun d hd => CallProg.effects_forever (hat ▸ hd)) fun p' _ => ⟨p, by simp⟩
  | call i j =>
      simp only [calls, step] at hs
      split at hs
      · next c k hat =>
          split_ifs at hs with hC
          cases hs
          exact h.call hat hC.1 hC.2
      · cases hs
  | arrive j =>
      cases hs
      exact h.arrive j
  | giveUp i =>
      simp only [calls, step] at hs
      split at hs
      · cases hs
      · next j hi =>
          cases hs
          exact h.giveUp hi

end Steps

/-! ### What follows -/

/-- Whoever is waited for requests what is above that, if anything. -/
theorem Sound.lt_of_waitsFor (h : Sound R kind s) {i j : ι} (hij : s.WaitsFor i j) :
    ∃ w, CallProg.wants R (s.rest i) = some w ∧
      ∀ w', CallProg.wants R (s.rest j) = some w' → w < w' := by
  obtain ⟨⟨held, hh⟩, hp, -⟩ := h
  rcases hij with ⟨m, k, hat, hm⟩ | hij
  · refine ⟨R.mutex m, by rw [hat]; rfl, fun w' hw' => ?_⟩
    exact (CallProg.above_of_wants hw' (hh.ends j)).2 m ((hh.owner j m).mpr hm)
  · obtain ⟨c, k, hat, hc⟩ := hp.waits i j hij
    refine ⟨R.kind c, by rw [hat]; rfl, fun w' hw' => ?_⟩
    have hfloor := (CallProg.above_of_wants hw' (hh.ends j)).1
    rw [floor, hc] at hfloor
    exact hfloor

/-- Along a chain of waiting threads the ranks of what they request go up. -/
theorem Sound.lt_of_waits (h : Sound R kind s) {i j : ι} (hij : Relation.TransGen s.WaitsFor i j) :
    ∃ w, CallProg.wants R (s.rest i) = some w ∧
      ∀ w', CallProg.wants R (s.rest j) = some w' → w < w' := by
  induction hij with
  | single hij => exact h.lt_of_waitsFor hij
  | tail _ hjl ih =>
      obtain ⟨w, hw, hlt⟩ := ih
      obtain ⟨w', hw', hlt'⟩ := h.lt_of_waitsFor hjl
      exact ⟨w, hw, fun w'' hw'' => Nat.lt_trans (hlt w' hw') (hlt' w'' hw'')⟩

/-- **No cycle.**  No thread waits, directly or through others, for itself. -/
theorem Sound.acyclic (h : Sound R kind s) (i : ι) : ¬ Relation.TransGen s.WaitsFor i i := by
  intro hcycle
  obtain ⟨w, hw, hlt⟩ := h.lt_of_waits hcycle
  exact Nat.lt_irrefl w (hlt w hw)

variable [DecidableEq ι] [DecidableEq κ]

/-- A thread that is waited for, and does not wait itself, can go on. -/
theorem Sound.canGo (h : Sound R kind s) {i j : ι} (hij : s.WaitsFor i j)
    (hj : ∀ l, ¬ s.WaitsFor j l) : s.CanGo kind j := by
  obtain ⟨⟨held, hh⟩, hp, he⟩ := h
  have hends := hh.ends j
  -- it holds a mutex, or there is a request for it
  have howed : held j ≠ [] ∨ (kind j).isSome ∧ i ∈ s.pending j := by
    rcases hij with ⟨m, k, -, hm⟩ | hij
    · exact .inl (List.ne_nil_of_mem ((hh.owner j m).mpr hm))
    · obtain ⟨c, k, -, hc⟩ := hp.waits i j hij
      exact .inr ⟨by rw [hc]; rfl, (hp.pending i j).mpr hij⟩
  cases hat : s.rest j with
  | nil =>
      rw [hat] at hends
      rcases howed with hheld | ⟨hkind, -⟩
      · exact absurd (congrArg Duties.held (Option.some.inj hends)) hheld
      · obtain ⟨p, hp⟩ := he j hkind
        rw [hat] at hp
        cases hp
  | cons p k =>
      rw [hat] at hends
      cases p with
      | skip | unlock | seq | either | loop | forever => exact ⟨false, by simp [step, hat]⟩
      | lock m =>
          have hfree : s.owner m = none := Option.eq_none_iff_forall_not_mem.mpr fun l hl =>
            hj l (.inl ⟨m, k, hat, hl⟩)
          exact ⟨false, by simp [step, hat, hfree]⟩
      | call c =>
          have hawaiting : s.awaiting j = none :=
            Option.eq_none_iff_forall_not_mem.mpr fun l hl => hj l (.inr hl)
          exact ⟨false, by simp [step, hat, hawaiting]⟩
      | take =>
          have hd := (CallProg.effects_cons rfl hends).1
          have hheld : held j = [] := congrArg Duties.held hd
          have hserving : s.serving j = none := by simpa using congrArg Duties.owes hd
          obtain ⟨-, hpend⟩ := howed.resolve_left (not_not.mpr hheld)
          -- the request has not been taken up, so that it is in the queue
          cases hqueue : s.queue j with
          | nil => simp [Calls.pending, hserving, hqueue] at hpend
          | cons q qs => exact ⟨false, by simp [step, hat, hqueue]⟩
      | answer =>
          obtain ⟨q, hq⟩ := Option.isSome_iff_exists.mp (CallProg.effects_cons rfl hends).1
          exact ⟨false, by simp [step, hat, hq]⟩

/-- **Somebody can go on.**  Where the ranks are bounded, a thread that waits does so, directly or
through others, for one that can go on. -/
theorem Sound.exists_canGo (h : Sound R kind s) {N : Nat} (hmutex : ∀ m, R.mutex m ≤ N)
    (hkind : ∀ c, R.kind c ≤ N) {i j : ι} (hij : s.WaitsFor i j) :
    ∃ l, Relation.TransGen s.WaitsFor i l ∧ s.CanGo kind l := by
  obtain ⟨w, hw, hlt⟩ := h.lt_of_waitsFor hij
  induction hn : N - w using Nat.strongRecOn generalizing i j w with
  | ind n ih =>
      by_cases hj : ∃ l, s.WaitsFor j l
      · obtain ⟨l, hjl⟩ := hj
        obtain ⟨w', hw', hlt'⟩ := h.lt_of_waitsFor hjl
        have hle : w' ≤ N := by
          match hrest : s.rest j, hw' with
          | .lock m :: k, hw' => exact Option.some.inj hw' ▸ hmutex m
          | .call c :: k, hw' => exact Option.some.inj hw' ▸ hkind c
        have hww' := hlt w' hw'
        obtain ⟨l', hl', hgo⟩ := ih (N - w') (by omega) hjl w' hw' hlt' rfl
        exact ⟨l', .head hij hl', hgo⟩
      · exact ⟨j, .single hij, h.canGo hij (not_exists.mp hj)⟩

end Calls

end Cimabue
