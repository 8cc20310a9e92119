import Cimabue.Support.Machine

/-!
# Support — Simulation

A machine seen as another one: every step is matched by a list of actions of the other machine, its
label, and the two states stay related (`Simulates`).  A label may be empty, for a step the other
machine does not see.

* `Simulates.run`: a run is matched by a run over its labels.
* `labels_of_step`: what every step adds to a list, a run adds in that order.
* `run_filter_of_idle`: actions that change nothing can be left out of a run.
* `run_filter`: where the actions of two kinds swap, a run leads where the actions of the one kind,
  followed by those of the other, lead.
-/

namespace Cimabue

namespace Machine

variable {σ τ α β : Type*}

theorem run_append (M : Machine σ α) (s : σ) (as bs : List α) :
    M.run s (as ++ bs) = (M.run s as).bind fun t => M.run t bs := by
  induction as generalizing s with
  | nil => rfl
  | cons a as ih => simp only [List.cons_append, run, ih, Option.bind_assoc]

/-! ### Simulation -/

/-- The labels along a run. -/
def labels (M : Machine σ α) (label : σ → α → List β) : σ → List α → List β
  | _, [] => []
  | s, a :: as => label s a ++ ((M.step s a).map fun t => labels M label t as).getD []

theorem labels_cons {M : Machine σ α} {label : σ → α → List β} {s t : σ} {a : α} (as : List α)
    (h : M.step s a = some t) : M.labels label s (a :: as) = label s a ++ M.labels label t as := by
  rw [labels, h]
  rfl

/-- Where every step has one label, the labels of a run are those of its actions. -/
theorem labels_singleton {M : Machine σ α} (f : α → β) {s t : σ} {as : List α}
    (hrun : M.run s as = some t) : M.labels (fun _ a => [f a]) s as = as.map f := by
  induction as generalizing s with
  | nil => rfl
  | cons a as ih =>
      obtain ⟨u, hu, hrun⟩ := Option.bind_eq_some_iff.mp hrun
      rw [labels_cons as hu, ih hrun]
      rfl

/-- A label was put there by an action, in the state before it. -/
theorem mem_labels {M : Machine σ α} {label : σ → α → List β} {s : σ} {as : List α} {b : β}
    (h : b ∈ M.labels label s as) :
    ∃ pre a post t, as = pre ++ a :: post ∧ M.run s pre = some t ∧ b ∈ label t a := by
  induction as generalizing s with
  | nil => cases h
  | cons a as ih =>
      rcases List.mem_append.mp h with h | h
      · exact ⟨[], a, as, s, rfl, rfl, h⟩
      · cases ht : M.step s a with
        | none => rw [ht] at h; cases h
        | some t =>
            rw [ht] at h
            obtain ⟨pre, a', post, u, rfl, hu, hb⟩ := ih h
            exact ⟨a :: pre, a', post, u, rfl, by rw [run, ht]; exact hu, hb⟩

/-- What every step adds to a list, a run adds in that order. -/
theorem labels_of_step {M : Machine σ α} {label : σ → α → List β} {P : σ → Prop}
    {C : σ → α → Prop} {g : σ → List β}
    (hstep : ∀ s a t, P s → C s a → M.step s a = some t → P t ∧ g t = g s ++ label s a) {s t : σ}
    {as : List α} (hs : P s) (hC : M.Meets C s as) (hrun : M.run s as = some t) :
    g t = g s ++ M.labels label s as := by
  induction as generalizing s with
  | nil => rw [← Option.some.inj hrun, labels, List.append_nil]
  | cons a as ih =>
      obtain ⟨u, hu, hrun⟩ := Option.bind_eq_some_iff.mp hrun
      obtain ⟨hPu, hgu⟩ := hstep s a u hs hC.1 hu
      rw [ih hPu (hC.2 u hu) hrun, hgu, labels_cons as hu, List.append_assoc]

/-- From related states, a step that satisfies `C` is matched by the actions of its label. -/
structure Simulates (M : Machine σ α) (N : Machine τ β) (R : σ → τ → Prop) (C : σ → α → Prop)
    (label : σ → α → List β) : Prop where
  step : ∀ s a t u, R s u → C s a → M.step s a = some t →
    ∃ v, N.run u (label s a) = some v ∧ R t v

/-- **The simulation rule.**  A run is matched by the actions of its labels. -/
theorem Simulates.run {M : Machine σ α} {N : Machine τ β} {R : σ → τ → Prop} {C : σ → α → Prop}
    {label : σ → α → List β} (h : M.Simulates N R C label) {s t : σ} {u : τ} {as : List α}
    (hR : R s u) (hC : M.Meets C s as) (hrun : M.run s as = some t) :
    ∃ v, N.run u (M.labels label s as) = some v ∧ R t v := by
  induction as generalizing s u with
  | nil => exact ⟨u, rfl, Option.some.inj hrun ▸ hR⟩
  | cons a as ih =>
      obtain ⟨s', hs', hrun⟩ := Option.bind_eq_some_iff.mp hrun
      obtain ⟨u', hu', hR'⟩ := h.step s a s' u hR hC.1 hs'
      obtain ⟨v, hv, hRv⟩ := ih hR' (hC.2 s' hs') hrun
      exact ⟨v, by rw [labels_cons as hs', run_append, hu']; exact hv, hRv⟩

/-! ### Actions that swap -/

/-- Actions that change nothing can be left out. -/
theorem run_filter_of_idle {M : Machine σ α} (p : α → Bool)
    (h : ∀ s a, p a = false → M.step s a = some s) (s : σ) (as : List α) :
    M.run s as = M.run s (as.filter p) := by
  induction as generalizing s with
  | nil => rfl
  | cons a as ih =>
      cases ha : p a with
      | true =>
          simp only [List.filter_cons, ha, if_true, run]
          exact congrArg _ (funext fun t => ih t)
      | false =>
          simp only [List.filter_cons, ha, Bool.false_eq_true, if_false, run, h s a ha,
            Option.bind_some, ih]

/-- Two actions lead to one state in either order, or are refused in both. -/
def Swaps (M : Machine σ α) (a b : α) : Prop :=
  ∀ s, (M.step s a).bind (M.step · b) = (M.step s b).bind (M.step · a)

variable {M : Machine σ α}

/-- An action moves past the actions it swaps with. -/
theorem step_run_of_swaps {a : α} {bs : List α} (h : ∀ b ∈ bs, M.Swaps a b) (s : σ) :
    ((M.step s a).bind fun t => M.run t bs) = (M.run s bs).bind (M.step · a) := by
  induction bs generalizing s with
  | nil => simp [run]
  | cons b bs ih =>
      have hbs : ∀ b ∈ bs, M.Swaps a b := fun c hc => h c (List.mem_cons_of_mem b hc)
      calc ((M.step s a).bind fun t => M.run t (b :: bs))
          = ((M.step s a).bind (M.step · b)).bind fun t => M.run t bs := by
            simp only [run, Option.bind_assoc]
        _ = (M.step s b).bind fun t => (M.step t a).bind fun u => M.run u bs := by
            rw [h b (by simp) s, Option.bind_assoc]
        _ = (M.run s (b :: bs)).bind (M.step · a) := by
            simp only [ih hbs, run, Option.bind_assoc]

/-- **Sorting a run.**  Where the actions of two kinds swap, a run leads where those of the one kind,
followed by those of the other, lead. -/
theorem run_filter (p : α → Bool) (h : ∀ a b, p a = false → p b = true → M.Swaps a b) (s : σ)
    (as : List α) :
    M.run s as = M.run s (as.filter p ++ as.filter fun a => !p a) := by
  induction as generalizing s with
  | nil => rfl
  | cons a as ih =>
      cases ha : p a with
      | true =>
          simp only [List.filter_cons, ha, if_true, Bool.not_true, Bool.false_eq_true, if_false,
            List.cons_append, run]
          exact congrArg _ (funext fun t => ih t)
      | false =>
          have hswaps : ∀ b ∈ as.filter p, M.Swaps a b := fun b hb =>
            h a b ha (List.of_mem_filter hb)
          calc M.run s (a :: as)
              = (M.step s a).bind fun t =>
                  (M.run t (as.filter p)).bind fun u => M.run u (as.filter fun a => !p a) := by
                simp only [run, ih, run_append]
            _ = ((M.run s (as.filter p)).bind (M.step · a)).bind fun u =>
                  M.run u (as.filter fun a => !p a) := by
                rw [← step_run_of_swaps hswaps, Option.bind_assoc]
            _ = M.run s ((a :: as).filter p ++ (a :: as).filter fun a => !p a) := by
                simp only [List.filter_cons, ha, Bool.false_eq_true, if_false, Bool.not_false,
                  if_true, run_append, run, Option.bind_assoc]

end Machine

end Cimabue
