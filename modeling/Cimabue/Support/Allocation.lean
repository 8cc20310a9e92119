import Mathlib.Data.List.Perm.Basic
import Cimabue.Support.Objects

/-!
# Support — Allocation

Programs that make, change and delete objects (`Alloc`), beside the plain computation a program
carries out (`Carries`), and the ledger of what a program leaves behind: from `h` to `h'` the objects
of `h` are as they were, and besides them `added` is there, and nothing else (`Extends`).

* `Extends.trans`: what two programs leave behind, one after the other, is what both leave behind.
* `Made.delete`, `Made.since`: an object made since `h` is deleted, or is left behind.
* `Carries.bind`: a program carries out what its parts carry out.
-/

namespace Cimabue

/-! ### What is there -/

namespace Heap

variable {α : Type*} {h h' h'' : Heap α} {p : Nat} {a b : α} {added more : List α}

/-- The objects that are there. -/
def objects (h : Heap α) : List α := h.cells.filterMap id

theorem objects_new (h : Heap α) (a : α) : (h.new a).1.objects = h.objects ++ [a] := by
  simp [objects, new]

theorem cells_of_get (hp : h.get p = some a) :
    ∃ before after, h.cells = before ++ some a :: after ∧ p = before.length := by
  have hlt := lt_of_get hp
  have hcell : h.cells[p] = some a := by
    rwa [get, List.getElem?_eq_getElem hlt, Option.join_some] at hp
  refine ⟨h.cells.take p, h.cells.drop (p + 1), ?_, by simp [Nat.le_of_lt hlt]⟩
  rw [← hcell, ← List.drop_eq_getElem_cons hlt, List.take_append_drop]

theorem perm_objects_delete (hp : h.get p = some a) (hdel : h.delete p = some h') :
    h.objects.Perm (a :: h'.objects) := by
  obtain ⟨_, -, rfl⟩ := Option.map_eq_some_iff.mp hdel
  obtain ⟨before, after, hcells, rfl⟩ := cells_of_get hp
  simp [objects, hcells, List.perm_middle]

theorem perm_objects_put (hp : h.get p = some a) (hput : h.put p b = some h') :
    (a :: h'.objects).Perm (b :: h.objects) := by
  obtain ⟨_, -, rfl⟩ := Option.map_eq_some_iff.mp hput
  obtain ⟨before, after, hcells, rfl⟩ := cells_of_get hp
  simp only [objects, hcells, List.set_append_right _ _ (Nat.le_refl _), Nat.sub_self,
    List.set_cons_zero, List.filterMap_append, List.filterMap_cons, id]
  exact (List.perm_middle.cons a).trans ((List.Perm.swap b a _).trans (List.perm_middle.symm.cons b))

/-! ### The ledger -/

/-- From `h` to `h'`: the objects of `h` are as they were, and `added` is there besides. -/
structure Extends (h h' : Heap α) (added : List α) : Prop where
  get : ∀ p a, h.get p = some a → h'.get p = some a
  objects : h'.objects.Perm (h.objects ++ added)

theorem Extends.refl (h : Heap α) : h.Extends h [] where
  get _ _ := id
  objects := by simp

theorem Extends.trans (h₁ : h.Extends h' added) (h₂ : h'.Extends h'' more) :
    h.Extends h'' (added ++ more) where
  get p a hp := h₂.get p a (h₁.get p a hp)
  objects := by
    rw [← List.append_assoc]
    exact h₂.objects.trans (h₁.objects.append_right more)

theorem Extends.perm (hh : h.Extends h' added) (hl : added.Perm more) : h.Extends h' more where
  get := hh.get
  objects := hh.objects.trans (hl.append_left _)

/-- Since `h`, the object at `p` has been made, and holds `a`; `added` is there besides. -/
structure Made (h h' : Heap α) (p : Nat) (a : α) (added : List α) : Prop where
  fresh : h.get p = none
  get : h'.get p = some a
  since : h.Extends h' (a :: added)

/-- An object that is made. -/
theorem made_new (h : Heap α) (a : α) : h.Made (h.new a).1 (h.new a).2 a [] where
  fresh := by
    by_contra hp
    obtain ⟨b, hb⟩ := Option.ne_none_iff_exists'.mp hp
    exact Nat.lt_irrefl _ (lt_of_get hb)
  get := by rw [get_new]; exact if_pos rfl
  since :=
    { get := fun p b hp => by rw [get_new, if_neg (Nat.ne_of_lt (lt_of_get hp)), hp]
      objects := by rw [objects_new] }

/-- What is made after other objects has been made since. -/
theorem Extends.made (hh : h.Extends h' added) (hm : h'.Made h'' p a more) :
    h.Made h'' p a (added ++ more) where
  fresh := by
    by_contra hp
    obtain ⟨b, hb⟩ := Option.ne_none_iff_exists'.mp hp
    exact Option.some_ne_none b ((hh.get p b hb).symm.trans hm.fresh)
  get := hm.get
  since := (hh.trans hm.since).perm List.perm_middle

/-- What was made is changed. -/
theorem Made.put (hm : h.Made h' p a added) (hput : h'.put p b = some h'') :
    h.Made h'' p b added where
  fresh := hm.fresh
  get := by rw [get_put hput, if_pos rfl]
  since :=
    { get := fun q c hq => by
        have hne : q ≠ p := by rintro rfl; rw [hm.fresh] at hq; cases hq
        rw [get_put hput, if_neg hne, hm.since.get q c hq]
      objects := by
        have hperm := (perm_objects_put hm.get hput).trans (hm.since.objects.cons b)
        have hmid : (b :: (h.objects ++ a :: added)).Perm (a :: (h.objects ++ b :: added)) :=
          (List.perm_middle.cons b).trans ((List.Perm.swap a b _).trans
            (List.perm_middle.symm.cons a))
        exact (hperm.trans hmid).cons_inv }

/-- What was made is deleted. -/
theorem Made.delete (hm : h.Made h' p a added) (hdel : h'.delete p = some h'') :
    h.Extends h'' added where
  get q c hq := by
    have hne : q ≠ p := by rintro rfl; rw [hm.fresh] at hq; cases hq
    rw [get_delete hdel, if_neg hne, hm.since.get q c hq]
  objects :=
    ((perm_objects_delete hm.get hdel).symm.trans (hm.since.objects.trans List.perm_middle)).cons_inv

/-- What was made stays while more is added. -/
theorem Made.trans (hm : h.Made h' p a added) (hh : h'.Extends h'' more) :
    h.Made h'' p a (added ++ more) where
  fresh := hm.fresh
  get := hh.get p a hm.get
  since := hm.since.trans hh

end Heap

/-! ### Programs -/

/-- What stops a program. -/
inductive Failure (ε : Type) where
  /-- A fault of its own. -/
  | fault (e : ε)
  /-- An object is used that is not there. -/
  | gone
deriving DecidableEq

/-- Programs over objects of the type `α`. -/
abbrev Alloc (α ε : Type) := StateT (Heap α) (Except (Failure ε))

namespace Alloc

variable {α ε β γ : Type}

/-- `new` -/
def new (a : α) : Alloc α ε Nat := fun h => .ok ((h.new a).2, (h.new a).1)

/-- The object at `p` is changed. -/
def write (p : Nat) (a : α) : Alloc α ε Unit := fun h =>
  match h.put p a with
  | none => .error .gone
  | some h => .ok ((), h)

/-- `delete` -/
def delete (p : Nat) : Alloc α ε Unit := fun h =>
  match h.delete p with
  | none => .error .gone
  | some h => .ok ((), h)

/-- A computation that uses no objects. -/
def lift (v : Except ε β) : Alloc α ε β := fun h =>
  match v with
  | .ok b => .ok (b, h)
  | .error e => .error (.fault e)

/-! ### What a program carries out -/

/-- From `h` the program `x` carries out `v`: it stops with the same fault, or what it comes to, with
the heap it leaves, is `Q` of what `v` comes to. -/
def Carries (x : Alloc α ε β) (h : Heap α) (v : Except ε γ) (Q : γ → β → Heap α → Prop) : Prop :=
  match v with
  | .ok c => ∃ b h', x h = .ok (b, h') ∧ Q c b h'
  | .error e => x h = .error (.fault e)

variable {h : Heap α} {Q : γ → β → Heap α → Prop}

theorem Carries.imp {Q' : γ → β → Heap α → Prop} {x : Alloc α ε β} {v : Except ε γ}
    (hx : Carries x h v Q) (hQ : ∀ c b h', v = .ok c → Q c b h' → Q' c b h') : Carries x h v Q' := by
  cases v with
  | error e => exact hx
  | ok c =>
      obtain ⟨b, h', hrun, hb⟩ := hx
      exact ⟨b, h', hrun, hQ c b h' rfl hb⟩

theorem carries_pure {b : β} {c : γ} (hQ : Q c b h) : Carries (pure b : Alloc α ε β) h (.ok c) Q :=
  ⟨b, h, rfl, hQ⟩

theorem carries_lift (v : Except ε β) :
    Carries (lift v : Alloc α ε β) h v fun c b h' => b = c ∧ h' = h := by
  cases v with
  | error e => rfl
  | ok c => exact ⟨c, h, rfl, rfl, rfl⟩

/-- **One program after the other.** -/
theorem Carries.bind {β' γ' : Type} {x : Alloc α ε β} {v : Except ε γ} {f : β → Alloc α ε β'}
    {g : γ → Except ε γ'} {Q' : γ' → β' → Heap α → Prop} (hx : Carries x h v Q)
    (hf : ∀ c b h', v = .ok c → Q c b h' → Carries (f b) h' (g c) Q') :
    Carries (x >>= f) h (v >>= g) Q' := by
  cases v with
  | error e =>
      change x h = .error (.fault e) at hx
      change (x >>= f) h = .error (.fault e)
      simp only [Bind.bind, StateT.bind, hx]
      rfl
  | ok c =>
      obtain ⟨b, h', hrun, hb⟩ := hx
      have hrest := hf c b h' rfl hb
      have hbind : (x >>= f) h = f b h' := by
        simp only [Bind.bind, StateT.bind, hrun]
        rfl
      change Carries (x >>= f) h (g c) Q'
      unfold Carries at hrest ⊢
      rw [hbind]
      exact hrest

/-- A step that uses objects, and that a plain computation does not see. -/
theorem Carries.step {β' γ' : Type} {x : Alloc α ε β} {f : β → Alloc α ε β'} {v : Except ε γ'}
    {b : β} {h' : Heap α} {Q' : γ' → β' → Heap α → Prop} (hx : x h = .ok (b, h'))
    (hf : Carries (f b) h' v Q') : Carries (x >>= f) h v Q' := by
  have hbind : (x >>= f) h = f b h' := by
    simp only [Bind.bind, StateT.bind, hx]
    rfl
  unfold Carries at hf ⊢
  rw [hbind]
  exact hf

/-- A computation that uses no objects, and after it steps that a plain computation does not see. -/
theorem Carries.after {v : Except ε γ} {f : γ → Alloc α ε β}
    (hf : ∀ c, v = .ok c → Carries (f c) h (.ok c) Q) : Carries (lift v >>= f) h v Q := by
  cases v with
  | error e => rfl
  | ok c => exact (hf c rfl).step rfl

theorem exists_write {p : Nat} {a : α} (b : α) (hp : h.get p = some a) :
    ∃ h', h.put p b = some h' ∧ (write p b : Alloc α ε Unit) h = .ok ((), h') := by
  have hput : h.put p b = some { cells := h.cells.set p (some b) } := by
    rw [Heap.put, hp, Option.map_some]
  exact ⟨_, hput, by simp only [write, hput]⟩

theorem exists_delete {p : Nat} {a : α} (hp : h.get p = some a) :
    ∃ h', h.delete p = some h' ∧ (delete p : Alloc α ε Unit) h = .ok ((), h') := by
  have hdel : h.delete p = some { cells := h.cells.set p none } := by
    rw [Heap.delete, hp, Option.map_some]
  exact ⟨_, hdel, by simp only [delete, hdel]⟩

end Alloc

end Cimabue
