import Mathlib.Data.List.Nodup
import Mathlib.Logic.Function.Basic
import Cimabue.Support.Allocation
import Cimabue.Support.Simulation

/-!
# Support — Ownership

Queues that own what is in them.  Something is made and put into a queue, taken out, handled and
released, and meanwhile other things are done (`Serving`).  The same is done with values, and with
pointers to objects; code for pointers that carries out what is done with values (`Implements`), and
that loses some objects on the way, keeps a ledger.

* `Implements.step`, `Implements.run`: the pointers of the queues are distinct, and are those of the
  values; what is there is what is in the queues, and what has been lost.
* `Ledger.clear`: when what is in the queues is deleted, there is what has been lost.
-/

namespace Cimabue

/-- What is done with the items of some queues. -/
structure Serving (M : Type → Type) (σ δ π κ ω ι : Type) where
  /-- An item is made. -/
  make : δ → M ι
  /-- An item of a queue is handled. -/
  handle : π → κ → σ → ι → M σ
  /-- An item that was handled is released. -/
  release : ι → M Unit
  /-- Something else is done. -/
  act : ω → σ → M σ

/-- The queues, and what they are served by. -/
structure Queued (σ π ι : Type) where
  node : σ
  queue : π → List ι := fun _ => []

/-- The steps. -/
inductive QueueStep (δ π κ ω : Type) where
  | put (q : π) (d : δ)
  | take (q : π) (k : κ)
  | act (w : ω)

/-- An item is put into the queue `q`. -/
def Queued.put {σ π ι : Type} [DecidableEq π] (s : Queued σ π ι) (q : π) (x : ι) : Queued σ π ι :=
  { s with queue := Function.update s.queue q (s.queue q ++ [x]) }

namespace Serving

variable {M : Type → Type} [Monad M] {σ δ π κ ω ι : Type} [DecidableEq π]

/-- One step; nothing is taken out of an empty queue. -/
def step (c : Serving M σ δ π κ ω ι) (s : Queued σ π ι) : QueueStep δ π κ ω → M (Queued σ π ι)
  | .put q d => do
      let x ← c.make d
      pure (s.put q x)
  | .take q k =>
      match s.queue q with
      | [] => pure s
      | x :: rest => do
          let node ← c.handle q k s.node x
          c.release x
          pure { node, queue := Function.update s.queue q rest }
  | .act w => do
      let node ← c.act w s.node
      pure { s with node }

end Serving

variable {σ δ π κ ω μ α ε : Type}

/-- With values. -/
def Serving.values [DecidableEq π] (v : Serving (Except ε) σ δ π κ ω μ) :
    Machine (Queued σ π μ) (QueueStep δ π κ ω) where
  step u a := (v.step u a).toOption

/-- With pointers to objects. -/
def Serving.pointers [DecidableEq π] (c : Serving (Alloc α ε) σ δ π κ ω Nat) :
    Machine (Queued σ π Nat × Heap α) (QueueStep δ π κ ω) where
  step s a := (c.step s.1 a s.2).toOption

/-- The objects that are lost on the way. -/
structure Losses (α σ δ π κ ω μ : Type) where
  make : δ → List α
  handle : π → κ → σ → μ → List α
  act : ω → σ → List α

/-- The objects a step loses. -/
def Losses.step (lost : Losses α σ δ π κ ω μ) (u : Queued σ π μ) : QueueStep δ π κ ω → List α
  | .put _ d => lost.make d
  | .take q k =>
      match u.queue q with
      | [] => []
      | m :: _ => lost.handle q k u.node m
  | .act w => lost.act w u.node

/-- The code `c` for pointers carries out `v`, where the value `m` is the object `obj m`, and loses
`lost`. -/
structure Implements (c : Serving (Alloc α ε) σ δ π κ ω Nat) (v : Serving (Except ε) σ δ π κ ω μ)
    (obj : μ → α) (lost : Losses α σ δ π κ ω μ) : Prop where
  make : ∀ d h, Alloc.Carries (c.make d) h (v.make d) fun m p h' => h.Made h' p (obj m) (lost.make d)
  handle : ∀ q k s m p h, h.get p = some (obj m) →
    Alloc.Carries (c.handle q k s p) h (v.handle q k s m) fun t t' h' =>
      t' = t ∧ h.Extends h' (lost.handle q k s m)
  act : ∀ w s h, Alloc.Carries (c.act w s) h (v.act w s) fun t t' h' =>
    t' = t ∧ h.Extends h' (lost.act w s)
  release : c.release = Alloc.delete
  released : v.release = fun _ => pure ()

/-- The pointers `t` are those of the values `u`; what is there is what is in the queues `ks`, and what
has been lost. -/
structure Ledger (ks : List π) (obj : μ → α) (t : Queued σ π Nat) (h : Heap α) (u : Queued σ π μ)
    (lost : List α) : Prop where
  node : t.node = u.node
  queue : ∀ q, (t.queue q).map h.get = (u.queue q).map fun m => some (obj m)
  nodup : (ks.flatMap t.queue).Nodup
  objects : h.objects.Perm ((ks.flatMap u.queue).map obj ++ lost)

/-! ### What is in the queues -/

variable {c : Serving (Alloc α ε) σ δ π κ ω Nat} {v : Serving (Except ε) σ δ π κ ω μ}
  {obj : μ → α} {lost : Losses α σ δ π κ ω μ} {ks : List π} {t : Queued σ π Nat} {h h' : Heap α}
  {u : Queued σ π μ} {l : List α}

/-- With nothing in the queues, there is nothing. -/
theorem ledger_init (ks : List π) (obj : μ → α) (node : σ) :
    Ledger ks obj ({ node } : Queued σ π Nat) {} ({ node } : Queued σ π μ) [] where
  node := rfl
  queue _ := rfl
  nodup := by
    rw [List.flatMap_eq_nil_iff.mpr fun _ _ => rfl]
    exact List.nodup_nil
  objects := by
    rw [List.flatMap_eq_nil_iff.mpr fun _ _ => rfl]
    exact List.Perm.refl []

namespace Ledger

/-- What is in a queue is there. -/
theorem alive (hl : Ledger ks obj t h u l) {p : Nat} (hp : p ∈ ks.flatMap t.queue) :
    h.get p ≠ none := by
  obtain ⟨q, -, hp⟩ := List.mem_flatMap.mp hp
  have hmem : h.get p ∈ (u.queue q).map fun m => some (obj m) := hl.queue q ▸ List.mem_map_of_mem hp
  obtain ⟨m, -, hm⟩ := List.mem_map.mp hmem
  rw [← hm]
  exact Option.some_ne_none _

theorem get_of_extends (hl : Ledger ks obj t h u l) {added : List α} (hh : h.Extends h' added) {p : Nat}
    (hp : p ∈ ks.flatMap t.queue) : h'.get p = h.get p := by
  obtain ⟨a, ha⟩ := Option.ne_none_iff_exists'.mp (hl.alive hp)
  rw [ha, hh.get p a ha]

/-- Something else is done. -/
theorem act (hl : Ledger ks obj t h u l) (hall : ∀ q, q ∈ ks) {added : List α}
    (hh : h.Extends h' added) (node : σ) :
    Ledger ks obj { t with node } h' { u with node } (l ++ added) where
  node := rfl
  queue r := (List.map_congr_left fun p' hp' => hl.get_of_extends hh
    (List.mem_flatMap.mpr ⟨r, hall r, hp'⟩)).trans (hl.queue r)
  nodup := hl.nodup
  objects := by
    rw [← List.append_assoc]
    exact hh.objects.trans (hl.objects.append_right added)

end Ledger

/-- What is at `ps` is deleted. -/
def Alloc.deleteAll : List Nat → Alloc α ε Unit
  | [] => pure ()
  | p :: ps => do
      Alloc.delete p
      Alloc.deleteAll ps

theorem Alloc.deleteAll_spec {ps : List Nat} {as : List α} (hps : ps.map h.get = as.map some)
    (hnodup : ps.Nodup) (hobjects : h.objects.Perm (as ++ l)) :
    ∃ h', (Alloc.deleteAll ps : Alloc α ε Unit) h = .ok ((), h') ∧ h'.objects.Perm l := by
  induction ps generalizing h as with
  | nil =>
      obtain rfl : as = [] := List.map_eq_nil_iff.mp hps.symm
      exact ⟨h, rfl, hobjects⟩
  | cons p ps ih =>
      obtain ⟨a, as, rfl, ha, hrest⟩ := List.map_eq_cons_iff.mp hps.symm
      obtain ⟨hp, hnodup⟩ := List.nodup_cons.mp hnodup
      obtain ⟨h₁, hdel, hrun⟩ := exists_delete (ε := ε) ha.symm
      have hkept : ps.map h₁.get = as.map some := by
        rw [hrest]
        refine List.map_congr_left fun p' hp' => ?_
        have hne : p' ≠ p := fun heq => hp (heq ▸ hp')
        rw [Heap.get_delete hdel, if_neg hne]
      obtain ⟨h₂, hrun₂, hobj⟩ := ih hkept hnodup
        ((Heap.perm_objects_delete ha.symm hdel).symm.trans hobjects).cons_inv
      refine ⟨h₂, ?_, hobj⟩
      simp only [deleteAll, Bind.bind, StateT.bind, hrun]
      exact hrun₂

/-- **The end.**  When what is in the queues has been deleted, there is what has been lost. -/
theorem Ledger.clear (hl : Ledger ks obj t h u l) :
    ∃ h', (Alloc.deleteAll (ks.flatMap t.queue) : Alloc α ε Unit) h = .ok ((), h') ∧
      h'.objects.Perm l := by
  refine Alloc.deleteAll_spec ?_ hl.nodup hl.objects
  rw [List.map_flatMap, List.map_map, List.map_flatMap]
  exact List.flatMap_congr fun q _ => hl.queue q

/-! ### Queues as lists -/

variable [DecidableEq π]

/-- One queue among the others. -/
theorem perm_flatMap_update {ι : Type} {ks : List π} {q : π} (hks : ks.Nodup) (hq : q ∈ ks)
    (f : π → List ι) (l : List ι) :
    (ks.flatMap (Function.update f q l)).Perm (l ++ (ks.erase q).flatMap f) := by
  have hsame : (ks.erase q).flatMap (Function.update f q l) = (ks.erase q).flatMap f := by
    refine List.flatMap_congr fun k hk => ?_
    rw [Function.update_of_ne (hks.mem_erase_iff.mp hk).1]
  calc (ks.flatMap (Function.update f q l)).Perm ((q :: ks.erase q).flatMap (Function.update f q l)) :=
        (List.perm_cons_erase hq).flatMap_right _
    _ = l ++ (ks.erase q).flatMap f := by rw [List.flatMap_cons, Function.update_self, hsame]

theorem perm_flatMap_self {ι : Type} {ks : List π} {q : π} (hq : q ∈ ks) (f : π → List ι) :
    (ks.flatMap f).Perm (f q ++ (ks.erase q).flatMap f) := by
  rw [← List.flatMap_cons]
  exact (List.perm_cons_erase hq).flatMap_right f

/-- An item more. -/
theorem perm_flatMap_put {ι : Type} {ks : List π} {q : π} (hks : ks.Nodup) (hq : q ∈ ks)
    (f : π → List ι) (x : ι) :
    (ks.flatMap (Function.update f q (f q ++ [x]))).Perm (x :: ks.flatMap f) := by
  refine (perm_flatMap_update hks hq f _).trans ?_
  rw [List.append_assoc]
  exact List.perm_middle.trans ((perm_flatMap_self hq f).symm.cons x)

/-- An item less. -/
theorem perm_flatMap_take {ι : Type} {ks : List π} {q : π} (hks : ks.Nodup) (hq : q ∈ ks)
    {f : π → List ι} {x : ι} {rest : List ι} (hf : f q = x :: rest) :
    (ks.flatMap f).Perm (x :: ks.flatMap (Function.update f q rest)) := by
  refine (perm_flatMap_self hq f).trans ?_
  rw [hf]
  exact (perm_flatMap_update hks hq f rest).symm.cons x

/-! ### The ledger is kept -/

namespace Ledger

/-- A new object is put into a queue. -/
theorem put (hl : Ledger ks obj t h u l) (hks : ks.Nodup) (hall : ∀ q, q ∈ ks) {p : Nat} {m : μ}
    {added : List α} (hm : h.Made h' p (obj m) added) (q : π) :
    Ledger ks obj (t.put q p) h' (u.put q m) (l ++ added) where
  node := hl.node
  queue r := by
    have hold : (t.queue r).map h'.get = (u.queue r).map fun m => some (obj m) :=
      (List.map_congr_left fun p' hp' => hl.get_of_extends hm.since
        (List.mem_flatMap.mpr ⟨r, hall r, hp'⟩)).trans (hl.queue r)
    by_cases hr : r = q
    · subst hr
      simp [Queued.put, hold, hm.get]
    · simp [Queued.put, Function.update_of_ne hr, hold]
  nodup := by
    refine (perm_flatMap_put hks (hall q) t.queue p).nodup_iff.mpr (List.nodup_cons.mpr ⟨?_, hl.nodup⟩)
    exact fun hp => hl.alive hp hm.fresh
  objects := by
    have hu : ((ks.flatMap (u.put q m).queue).map obj).Perm
        (obj m :: (ks.flatMap u.queue).map obj) :=
      (perm_flatMap_put hks (hall q) u.queue m).map obj
    calc h'.objects.Perm (h.objects ++ obj m :: added) := hm.since.objects
      List.Perm _ (((ks.flatMap u.queue).map obj ++ l) ++ obj m :: added) :=
        hl.objects.append_right _
      List.Perm _ (obj m :: (((ks.flatMap u.queue).map obj ++ l) ++ added)) := List.perm_middle
      _ = (obj m :: (ks.flatMap u.queue).map obj) ++ (l ++ added) := by simp
      List.Perm _ ((ks.flatMap (u.put q m).queue).map obj ++ (l ++ added)) := hu.symm.append_right _

/-- An object is taken out of a queue, and deleted after others have been made. -/
theorem take (hl : Ledger ks obj t h u l) (hks : ks.Nodup) (hall : ∀ q, q ∈ ks) {q : π} {p : Nat}
    {ps : List Nat} {m : μ} {ms : List μ} (ht : t.queue q = p :: ps) (hu : u.queue q = m :: ms)
    {added : List α} {h₁ : Heap α} (hh : h.Extends h₁ added) (hdel : h₁.delete p = some h')
    (node : σ) :
    Ledger ks obj ⟨node, Function.update t.queue q ps⟩ h' ⟨node, Function.update u.queue q ms⟩
      (l ++ added) := by
  have htake := perm_flatMap_take hks (hall q) ht
  obtain ⟨hp, hnodup⟩ := List.nodup_cons.mp (htake.nodup_iff.mp hl.nodup)
  have hqueue := hl.queue q
  rw [ht, hu, List.map_cons, List.map_cons] at hqueue
  obtain ⟨hget, hrest⟩ := List.cons_eq_cons.mp hqueue
  -- the others are as they were
  have hkept : ∀ p' ∈ ks.flatMap (Function.update t.queue q ps), h'.get p' = h.get p' := by
    intro p' hp'
    have hne : p' ≠ p := fun heq => hp (heq ▸ hp')
    rw [Heap.get_delete hdel, if_neg hne]
    exact hl.get_of_extends hh (htake.mem_iff.mpr (List.mem_cons_of_mem p hp'))
  refine ⟨rfl, fun r => ?_, hnodup, ?_⟩
  · rw [List.map_congr_left fun p' hp' => hkept p' (List.mem_flatMap.mpr ⟨r, hall r, hp'⟩)]
    by_cases hr : r = q
    · subst hr
      simpa using hrest
    · simpa [Function.update_of_ne hr] using hl.queue r
  · have hmap : ((ks.flatMap u.queue).map obj).Perm
        (obj m :: (ks.flatMap (Function.update u.queue q ms)).map obj) :=
      (perm_flatMap_take hks (hall q) hu).map obj
    refine List.Perm.cons_inv (a := obj m) ?_
    calc (obj m :: h'.objects).Perm h₁.objects :=
          (Heap.perm_objects_delete (hh.get p _ hget) hdel).symm
      List.Perm _ (h.objects ++ added) := hh.objects
      List.Perm _ (((ks.flatMap u.queue).map obj ++ l) ++ added) := hl.objects.append_right _
      List.Perm _ (((obj m :: (ks.flatMap (Function.update u.queue q ms)).map obj) ++ l) ++ added) :=
        (hmap.append_right l).append_right added
      _ = obj m :: ((ks.flatMap (Function.update u.queue q ms)).map obj ++ (l ++ added)) := by simp

end Ledger

/-- **A step.** -/
theorem Implements.step (hi : Implements c v obj lost) (hks : ks.Nodup) (hall : ∀ q, q ∈ ks)
    (hl : Ledger ks obj t h u l) (a : QueueStep δ π κ ω) :
    Alloc.Carries (c.step t a) h (v.step u a) fun u' t' h' =>
      Ledger ks obj t' h' u' (l ++ lost.step u a) := by
  cases a with
  | put q d =>
      exact (hi.make d h).bind fun m p h' _ hm => Alloc.carries_pure (hl.put hks hall hm q)
  | act w =>
      have hact := hi.act w u.node h
      rw [← hl.node] at hact
      simp only [Serving.step, Losses.step, ← hl.node]
      refine hact.bind fun s s' h' _ hs => ?_
      obtain ⟨rfl, hh⟩ := hs
      exact Alloc.carries_pure (hl.act hall hh s')
  | take q k =>
      have hqueue := hl.queue q
      cases hu : u.queue q with
      | nil =>
          have ht : t.queue q = [] := by
            rw [hu, List.map_nil] at hqueue
            exact List.map_eq_nil_iff.mp hqueue
          simp only [Serving.step, Losses.step, ht, hu, List.append_nil]
          exact Alloc.carries_pure hl
      | cons m ms =>
          obtain ⟨p, ps, ht, hget, -⟩ : ∃ p ps, t.queue q = p :: ps ∧ h.get p = some (obj m) ∧
              ps.map h.get = ms.map fun m => some (obj m) := by
            rw [hu, List.map_cons] at hqueue
            exact List.map_eq_cons_iff.mp hqueue
          simp only [Serving.step, Losses.step, ht, hu, ← hl.node]
          refine (hi.handle q k t.node m p h hget).bind fun s s' h₁ _ hs => ?_
          obtain ⟨rfl, hh⟩ := hs
          obtain ⟨h₂, hdel, hrun⟩ := Alloc.exists_delete (ε := ε) (hh.get p _ hget)
          rw [hi.release, hi.released]
          exact Alloc.Carries.step hrun (Alloc.carries_pure (hl.take hks hall ht hu hh hdel s'))

/-- **A run.**  The code for pointers stops where what is done with values stops, and where it does
not, the ledger has what all the steps have lost. -/
theorem Implements.run (hi : Implements c v obj lost) (hks : ks.Nodup) (hall : ∀ q, q ∈ ks)
    (hl : Ledger ks obj t h u l) (as : List (QueueStep δ π κ ω)) :
    ((c.pointers.run (t, h) as).isSome ↔ (v.values.run u as).isSome) ∧
      ∀ s, c.pointers.run (t, h) as = some s → ∃ u', v.values.run u as = some u' ∧
        Ledger ks obj s.1 s.2 u' (l ++ v.values.labels lost.step u as) := by
  induction as generalizing t h u l with
  | nil =>
      refine ⟨Iff.rfl, ?_⟩
      rintro s ⟨⟩
      exact ⟨u, rfl, by rw [Machine.labels, List.append_nil]; exact hl⟩
  | cons a as ih =>
      have hstep := hi.step hks hall hl a
      cases hv : v.step u a with
      | error e =>
          rw [hv] at hstep
          have hrun : c.step t a h = .error (.fault e) := hstep
          have hc : c.pointers.step (t, h) a = none := by
            simp only [Serving.pointers, hrun, Except.toOption]
          have hv' : v.values.step u a = none := by
            simp only [Serving.values, hv, Except.toOption]
          simp [Machine.run, hc, hv']
      | ok u' =>
          rw [hv] at hstep
          obtain ⟨t', h', hrun, hl'⟩ := hstep
          have hc : c.pointers.step (t, h) a = some (t', h') := by
            simp only [Serving.pointers, hrun, Except.toOption]
          have hv' : v.values.step u a = some u' := by
            simp only [Serving.values, hv, Except.toOption]
          obtain ⟨hiff, hrest⟩ := ih hl'
          simp only [Machine.run, hc, hv', Option.bind_some]
          refine ⟨hiff, fun s hs => ?_⟩
          obtain ⟨w, hw, hlw⟩ := hrest s hs
          refine ⟨w, hw, ?_⟩
          rw [Machine.labels_cons as hv', ← List.append_assoc]
          exact hlw

/-- **All runs.**  The code for pointers stops where what is done with values stops, never because an
object is not there, and the ledger is kept. -/
theorem Implements.accounts (hi : Implements c v obj lost) (hks : ks.Nodup) (hall : ∀ q, q ∈ ks)
    (node : σ) (as : List (QueueStep δ π κ ω)) :
    ((c.pointers.run ({ node }, {}) as).isSome ↔ (v.values.run { node } as).isSome) ∧
      ∀ t h, c.pointers.run ({ node }, {}) as = some (t, h) →
        (∀ a, c.step t a h ≠ .error .gone) ∧
        ∃ u, v.values.run { node } as = some u ∧
          Ledger ks obj t h u (v.values.labels lost.step { node } as) := by
  obtain ⟨hiff, hrun⟩ := hi.run hks hall (ledger_init ks obj node) as
  refine ⟨hiff, fun t h ht => ?_⟩
  obtain ⟨u, hu, hl⟩ := hrun (t, h) ht
  refine ⟨fun a hgone => ?_, u, hu, hl⟩
  have hstep := hi.step hks hall hl a
  cases hv : v.step u a with
  | error e =>
      rw [hv] at hstep
      exact absurd (Except.error.inj (hgone.symm.trans hstep)) nofun
  | ok u' =>
      rw [hv] at hstep
      obtain ⟨t', h', hok, -⟩ := hstep
      exact absurd (hgone.symm.trans hok) nofun

end Cimabue
