import Mathlib.Data.List.Basic

/-!
# Support — Machine

A deterministic machine whose actions may be disabled (`Machine`), its runs over lists of actions
(`run`), and the rule its invariants are proved by.

* `Meets C`: every step of the run, taken in the state before it, satisfies `C`.
* `Always P`: `P` holds of every state of the run, the first and the last included.
* `always_of_step`: if a step that satisfies `C` keeps `P`, a run that meets `C` is always in `P`.
* `always_of_kept`, `run_kept`: the same for a property that every step keeps, and any run.
* `meets_iff_meets`: if `C` and `D` are one at every step that is taken, a run meets the one
  exactly when it meets the other.
* `run_of_enabled`: if an action that satisfies `C` is enabled in `P` and keeps it, a list of actions
  that meets `C` has a run.
* `run_iff_meets`: if an action is enabled in `P` exactly when it satisfies `C`, and then keeps `P`, a
  list of actions has a run exactly when it meets `C`.
* `always_iff_meets`: if a step from `P` leads to `P` exactly when it satisfies `C`, a run from `P`
  is always in `P` exactly when it meets `C`.
-/

namespace Cimabue

/-- A deterministic transition system; `step s a = none` when `a` is disabled in `s`. -/
structure Machine (σ α : Type*) where
  step : σ → α → Option σ

namespace Machine

variable {σ α : Type*} (M : Machine σ α)

/-- The state a list of actions leads to, none when one of them is disabled. -/
def run : σ → List α → Option σ
  | s, [] => some s
  | s, a :: as => (M.step s a).bind fun t => run t as

/-- Every step of the run satisfies `C` in the state before it. -/
def Meets (C : σ → α → Prop) : σ → List α → Prop
  | _, [] => True
  | s, a :: as => C s a ∧ ∀ t, M.step s a = some t → Meets C t as

/-- Every state of the run satisfies `P`. -/
def Always (P : σ → Prop) : σ → List α → Prop
  | s, [] => P s
  | s, a :: as => P s ∧ ∀ t, M.step s a = some t → Always P t as

instance decidableMeets (C : σ → α → Prop) [∀ s a, Decidable (C s a)] :
    ∀ s as, Decidable (M.Meets C s as)
  | _, [] => isTrue trivial
  | s, a :: as =>
      match h : M.step s a with
      | none => decidable_of_iff (C s a) (by simp [Meets, h])
      | some t =>
          have := decidableMeets C t as
          decidable_of_iff (C s a ∧ M.Meets C t as) (by simp [Meets, h])

variable {M}

theorem Always.head {P : σ → Prop} {s : σ} {as : List α} (h : M.Always P s as) : P s := by
  cases as with
  | nil => exact h
  | cons a as => exact h.1

theorem Always.last {P : σ → Prop} {s t : σ} {as : List α} (h : M.Always P s as)
    (hrun : M.run s as = some t) : P t := by
  induction as generalizing s with
  | nil => exact Option.some.inj hrun ▸ h
  | cons a as ih =>
      obtain ⟨u, hu, hrun⟩ := Option.bind_eq_some_iff.mp hrun
      exact ih (h.2 u hu) hrun

theorem Always.imp {P Q : σ → Prop} (hPQ : ∀ s, P s → Q s) {s : σ} {as : List α}
    (h : M.Always P s as) : M.Always Q s as := by
  induction as generalizing s with
  | nil => exact hPQ s h
  | cons a as ih => exact ⟨hPQ s h.1, fun t ht => ih (h.2 t ht)⟩

/-- **The invariant rule.**  A property kept by every step that satisfies `C` holds all along a
run that meets `C`. -/
theorem always_of_step {P : σ → Prop} {C : σ → α → Prop}
    (hstep : ∀ s a t, P s → C s a → M.step s a = some t → P t) {s : σ} {as : List α} (hs : P s)
    (hC : M.Meets C s as) : M.Always P s as := by
  induction as generalizing s with
  | nil => exact hs
  | cons a as ih => exact ⟨hs, fun t ht => ih (hstep s a t hs hC.1 ht) (hC.2 t ht)⟩

/-- A property of the steps that an invariant gives. -/
theorem meets_of_step {P : σ → Prop} {C D : σ → α → Prop}
    (hstep : ∀ s a t, P s → C s a → M.step s a = some t → P t) (hD : ∀ s a, P s → C s a → D s a)
    {s : σ} {as : List α} (hs : P s) (hC : M.Meets C s as) : M.Meets D s as := by
  induction as generalizing s with
  | nil => trivial
  | cons a as ih => exact ⟨hD s a hs hC.1, fun t ht => ih (hstep s a t hs hC.1 ht) (hC.2 t ht)⟩

theorem meets_of_forall {C : σ → α → Prop} (s : σ) (as : List α) (hC : ∀ a ∈ as, ∀ s, C s a) :
    M.Meets C s as := by
  induction as generalizing s with
  | nil => trivial
  | cons a as ih => exact ⟨hC a (by simp) s, fun t _ => ih t fun b hb => hC b (by simp [hb])⟩

/-- The invariant rule, for a property that every step keeps. -/
theorem always_of_kept {P : σ → Prop} (hstep : ∀ s a t, P s → M.step s a = some t → P t) {s : σ}
    (hs : P s) (as : List α) : M.Always P s as :=
  always_of_step (C := fun _ _ => True) (fun s a t hs _ ht => hstep s a t hs ht) hs
    (meets_of_forall s as fun _ _ _ => trivial)

/-- A property that every step keeps holds where a run ends. -/
theorem run_kept {P : σ → Prop} (hstep : ∀ s a t, P s → M.step s a = some t → P t) {s t : σ}
    {as : List α} (hs : P s) (hrun : M.run s as = some t) : P t :=
  (always_of_kept hstep hs as).last hrun

theorem Meets.and {C D : σ → α → Prop} {s : σ} {as : List α} (hC : M.Meets C s as)
    (hD : M.Meets D s as) : M.Meets (fun s a => C s a ∧ D s a) s as := by
  induction as generalizing s with
  | nil => trivial
  | cons a as ih => exact ⟨⟨hC.1, hD.1⟩, fun t ht => ih (hC.2 t ht) (hD.2 t ht)⟩

theorem Meets.of_prefix {C : σ → α → Prop} {s : σ} {as bs : List α} (h : M.Meets C s bs)
    (hp : as <+: bs) : M.Meets C s as := by
  induction as generalizing s bs with
  | nil => trivial
  | cons a as ih =>
      obtain ⟨rest, rfl⟩ := hp
      exact ⟨h.1, fun t ht => ih (h.2 t ht) (List.prefix_append as rest)⟩

/-- Two properties that are one at every step that is taken are one along a run. -/
theorem meets_iff_meets {C D : σ → α → Prop} (h : ∀ s a t, M.step s a = some t → (C s a ↔ D s a))
    {s t : σ} {as : List α} (hrun : M.run s as = some t) : M.Meets C s as ↔ M.Meets D s as := by
  induction as generalizing s with
  | nil => exact Iff.rfl
  | cons a as ih =>
      obtain ⟨u, hu, hrun⟩ := Option.bind_eq_some_iff.mp hrun
      refine and_congr (h s a u hu) (forall_congr' fun v => forall_congr' fun hv => ?_)
      obtain rfl : u = v := Option.some.inj (hu.symm.trans hv)
      exact ih hrun

/-- **Progress.**  Where an action that satisfies `C` is enabled and keeps `P`, a list of actions
that meets `C` has a run. -/
theorem run_of_enabled {P : σ → Prop} {C : σ → α → Prop}
    (hstep : ∀ s a, P s → C s a → ∃ t, M.step s a = some t ∧ P t) {s : σ} {as : List α} (hs : P s)
    (hC : M.Meets C s as) : ∃ t, M.run s as = some t ∧ P t := by
  induction as generalizing s with
  | nil => exact ⟨s, rfl, hs⟩
  | cons a as ih =>
      obtain ⟨t, ht, hPt⟩ := hstep s a hs hC.1
      obtain ⟨u, hu, hPu⟩ := ih hPt (hC.2 t ht)
      exact ⟨u, by rw [run, ht]; exact hu, hPu⟩

/-- **What runs.**  Where an action is enabled in `P` exactly when it satisfies `C`, and then keeps `P`,
a list of actions has a run exactly when it meets `C`. -/
theorem run_iff_meets {P : σ → Prop} {R C : σ → α → Prop}
    (hkeep : ∀ s a t, P s → R s a → M.step s a = some t → P t)
    (hiff : ∀ s a, P s → R s a → ((∃ t, M.step s a = some t) ↔ C s a)) {s : σ} {as : List α}
    (hs : P s) (hR : M.Meets R s as) : (∃ t, M.run s as = some t) ↔ M.Meets C s as := by
  induction as generalizing s with
  | nil => exact ⟨fun _ => trivial, fun _ => ⟨s, rfl⟩⟩
  | cons a as ih =>
      constructor
      · rintro ⟨u, hrun⟩
        obtain ⟨t, ht, hrun⟩ := Option.bind_eq_some_iff.mp hrun
        refine ⟨(hiff s a hs hR.1).mp ⟨t, ht⟩, fun v hv => ?_⟩
        obtain rfl : t = v := Option.some.inj (ht.symm.trans hv)
        exact (ih (hkeep s a t hs hR.1 ht) (hR.2 t ht)).mp ⟨u, hrun⟩
      · rintro ⟨hC, hCs⟩
        obtain ⟨t, ht⟩ := (hiff s a hs hR.1).mpr hC
        obtain ⟨u, hu⟩ := (ih (hkeep s a t hs hR.1 ht) (hR.2 t ht)).mpr (hCs t ht)
        exact ⟨u, by rw [run, ht]; exact hu⟩

/-- **The exact condition.**  Where a step from `P` leads to `P` exactly when it satisfies `C`, a run
is always in `P` exactly when it meets `C`.  What the steps rely on, `I`, need only be kept by those
that satisfy `C`: the first one that does not has left `P`. -/
theorem always_iff_meets {I P : σ → Prop} {R C : σ → α → Prop}
    (hkeep : ∀ s a t, I s → R s a → C s a → M.step s a = some t → I t)
    (hiff : ∀ s a t, I s → P s → R s a → M.step s a = some t → (P t ↔ C s a)) {s t : σ}
    {as : List α} (hI : I s) (hP : P s) (hR : M.Meets R s as) (hrun : M.run s as = some t) :
    M.Always P s as ↔ M.Meets C s as := by
  induction as generalizing s with
  | nil => exact ⟨fun _ => trivial, fun _ => hP⟩
  | cons a as ih =>
      obtain ⟨u, hu, hrun⟩ := Option.bind_eq_some_iff.mp hrun
      have hPu := hiff s a u hI hP hR.1 hu
      constructor
      · rintro ⟨-, h⟩
        have hu' := h u hu
        have hC := hPu.mp hu'.head
        refine ⟨hC, fun v hv => ?_⟩
        obtain rfl : u = v := Option.some.inj (hu.symm.trans hv)
        exact (ih (hkeep s a u hI hR.1 hC hu) hu'.head (hR.2 u hu) hrun).mp hu'
      · rintro ⟨hC, h⟩
        refine ⟨hP, fun v hv => ?_⟩
        obtain rfl : u = v := Option.some.inj (hu.symm.trans hv)
        exact (ih (hkeep s a u hI hR.1 hC hu) (hPu.mpr hC) (hR.2 u hu) hrun).mpr (h u hu)

end Machine

end Cimabue
