import Mathlib.Data.List.TakeWhile
import Mathlib.Algebra.BigOperators.Group.List.Basic
import Mathlib.Algebra.GroupWithZero.Nat
import Mathlib.Data.List.Flatten

/-!
# Support — Split

The fields of a text: its maximal non-empty runs without the separator, in order (`runs`).  A
text is empty, begins with a separator, is one field, or is a field, a separator and a text
(`runs_induction`).

* `runs_flatMap_append`: fields written one after the other, each followed by the separator, are
  read back.
* `mem_runs`: a field is non-empty, holds no separator, and every element of it is in the text.
* `sum_length_runs_le`: the fields and the separators between them fit in the text.
* `runs_eq_append_of_cut`: what fields a cut text begins with.
* `filled_append_cons`: a text is `Filled`, all its parts fields, when its two parts at a separator
  are.
-/

namespace Cimabue

variable {α : Type*} [DecidableEq α]

/-- The maximal non-empty runs of `s` without `c`, in order. -/
def runs (c : α) (s : List α) : List (List α) := (s.splitOn c).filter (· ≠ [])

@[simp] theorem runs_nil (c : α) : runs c [] = [] := rfl

/-- A text cut at a separator has the fields of its two parts. -/
theorem runs_append_cons (c : α) (s t : List α) : runs c (s ++ c :: t) = runs c s ++ runs c t := by
  simp only [runs, List.splitOn_append_cons_self, List.filter_append]

@[simp] theorem runs_cons_self (c : α) (s : List α) : runs c (c :: s) = runs c s :=
  runs_append_cons c [] s

theorem runs_of_not_mem {c : α} {s : List α} (h : c ∉ s) (hs : s ≠ []) : runs c s = [s] := by
  rw [runs, List.splitOn_eq_singleton h]
  simp [hs]

/-- A non-empty separator-free text before a separator is the first field. -/
theorem runs_field_cons {c : α} {f : List α} (s : List α) (h : c ∉ f) (hf : f ≠ []) :
    runs c (f ++ c :: s) = f :: runs c s := by
  rw [runs_append_cons, runs_of_not_mem h hf, List.singleton_append]

/-- **Fields read back.**  Fields written with a separator after each are the first fields of the
text. -/
theorem runs_flatMap_append {c : α} {fs : List (List α)} (h : ∀ f ∈ fs, f ≠ [] ∧ c ∉ f)
    (s : List α) : runs c (fs.flatMap (· ++ [c]) ++ s) = fs ++ runs c s := by
  induction fs with
  | nil => rfl
  | cons f fs ih =>
      obtain ⟨hf, hc⟩ := h f (by simp)
      rw [List.flatMap_cons, List.append_assoc, List.append_assoc, List.singleton_append,
        runs_field_cons _ hc hf, ih fun g hg => h g (by simp [hg]), List.cons_append]

/-! ### The shape of a text -/

/-- A text that does not begin with the separator is its first field, up to the separator or to
the end. -/
theorem field_or_field_cons {c a : α} (s : List α) (h : a ≠ c) :
    ∃ f, f ≠ [] ∧ c ∉ f ∧ (a :: s = f ∨ ∃ t, a :: s = f ++ c :: t) := by
  have happ := List.takeWhile_append_dropWhile (p := (· ≠ c)) (l := a :: s)
  refine ⟨(a :: s).takeWhile (· ≠ c), by simp [h], fun hm => by
    simpa using List.mem_takeWhile_imp hm, ?_⟩
  cases hd : (a :: s).dropWhile (· ≠ c) with
  | nil => rw [hd, List.append_nil] at happ; exact .inl happ.symm
  | cons b t =>
      have hb : b = c := by
        have := List.head?_dropWhile_not (· ≠ c) (a :: s)
        rw [hd] at this; simpa using this
      rw [hd, hb] at happ
      exact .inr ⟨t, happ.symm⟩

/-- The induction the fields are defined by. -/
theorem runs_induction {c : α} {P : List α → Prop} (nil : P []) (sep : ∀ s, P s → P (c :: s))
    (last : ∀ f, f ≠ [] → c ∉ f → P f)
    (field : ∀ f s, f ≠ [] → c ∉ f → P s → P (f ++ c :: s)) (s : List α) : P s := by
  induction hn : s.length using Nat.strong_induction_on generalizing s with
  | _ n ih =>
      subst hn
      cases s with
      | nil => exact nil
      | cons a s =>
          by_cases h : a = c
          · subst h; exact sep s (ih _ (by simp) s rfl)
          · obtain ⟨f, hf, hc, e | ⟨t, e⟩⟩ := field_or_field_cons s h
            · exact e ▸ last f hf hc
            · refine e ▸ field f t hf hc (ih _ ?_ t rfl)
              rw [e, List.length_append, List.length_cons]; omega

theorem mem_runs {c : α} {s f : List α} (h : f ∈ runs c s) :
    f ≠ [] ∧ c ∉ f ∧ ∀ x ∈ f, x ∈ s := by
  induction s using runs_induction (c := c) with
  | nil => cases h
  | sep s ih =>
      obtain ⟨h₁, h₂, h₃⟩ := ih (by rwa [runs_cons_self] at h)
      exact ⟨h₁, h₂, fun x hx => List.mem_cons_of_mem _ (h₃ x hx)⟩
  | last g hg hc =>
      rw [runs_of_not_mem hc hg, List.mem_singleton] at h
      subst h
      exact ⟨hg, hc, fun _ hx => hx⟩
  | field g s hg hc ih =>
      rw [runs_field_cons s hc hg, List.mem_cons] at h
      rcases h with rfl | h
      · exact ⟨hg, hc, fun x hx => List.mem_append_left _ hx⟩
      · obtain ⟨h₁, h₂, h₃⟩ := ih h
        exact ⟨h₁, h₂, fun x hx => List.mem_append_right _ (List.mem_cons_of_mem _ (h₃ x hx))⟩

/-- The fields and the separators between them fit in the text. -/
theorem sum_length_runs_le (c : α) (s : List α) :
    ((runs c s).map (fun f => f.length + 1)).sum ≤ s.length + 1 := by
  induction s using runs_induction (c := c) with
  | nil => simp
  | sep s ih => rw [runs_cons_self, List.length_cons]; omega
  | last f hf hc => simp [runs_of_not_mem hc hf]
  | field f s hf hc ih =>
      rw [runs_field_cons s hc hf, List.map_cons, List.sum_cons, List.length_append,
        List.length_cons]
      omega

theorem runs_eq_nil_iff {c : α} {s : List α} : runs c s = [] ↔ ∀ x ∈ s, x = c := by
  induction s using runs_induction (c := c) with
  | nil => simp
  | sep s ih => simp [ih]
  | last f hf hc =>
      rw [runs_of_not_mem hc hf]
      obtain ⟨a, g, rfl⟩ := List.exists_cons_of_ne_nil hf
      simp only [List.mem_cons, not_or] at hc
      simp [Ne.symm hc.1]
  | field f s hf hc _ =>
      rw [runs_field_cons s hc hf]
      obtain ⟨a, g, rfl⟩ := List.exists_cons_of_ne_nil hf
      simp only [List.mem_cons, not_or] at hc
      simp [Ne.symm hc.1]

/-- The fields of a text are no fewer than those of its beginning. -/
theorem length_runs_le_append (c : α) (s t : List α) :
    (runs c s).length ≤ (runs c (s ++ t)).length := by
  induction s using runs_induction (c := c) with
  | nil => simp
  | sep s ih => simpa using ih
  | last f hf hc =>
      rw [runs_of_not_mem hc hf, List.length_singleton]
      obtain ⟨a, g, rfl⟩ := List.exists_cons_of_ne_nil hf
      refine List.length_pos_iff.mpr fun h => hc ?_
      have ha : a = c := runs_eq_nil_iff.mp h a (by simp)
      simp [ha]
  | field f s hf hc ih =>
      rw [List.append_assoc, List.cons_append, runs_field_cons _ hc hf, runs_field_cons _ hc hf]
      simpa using ih

/-- **Fields of a cut text.**  Of a text that begins with fields, a beginning with more fields than
these has them first. -/
theorem runs_eq_append_of_cut {c : α} {fs : List (List α)} {s t : List α}
    (hfs : ∀ f ∈ fs, f ≠ [] ∧ c ∉ f) (hs : fs.flatMap (· ++ [c]) <+: s) (ht : t <+: s)
    (hlen : fs.length < (runs c t).length) : ∃ rest, runs c t = fs ++ rest := by
  rcases List.prefix_or_prefix_of_prefix ht hs with ⟨cut, hcut⟩ | ⟨content, hcontent⟩
  · -- the beginning ends before the fields do
    have hfew := length_runs_le_append c t cut
    have hruns := runs_flatMap_append hfs []
    rw [runs_nil, List.append_nil, List.append_nil, ← hcut] at hruns
    rw [hruns] at hfew
    omega
  · exact ⟨runs c content, by rw [← hcontent, runs_flatMap_append hfs]⟩

/-! ### Texts without empty parts -/

/-- No part of `s` between separators is empty. -/
def Filled (c : α) (s : List α) : Prop := [] ∉ s.splitOn c

theorem filled_append_cons {c : α} {s t : List α} :
    Filled c (s ++ c :: t) ↔ Filled c s ∧ Filled c t := by
  simp only [Filled, List.splitOn_append_cons_self, List.mem_append, not_or]

theorem filled_of_not_mem {c : α} {s : List α} (h : c ∉ s) (hs : s ≠ []) : Filled c s := by
  rw [Filled, List.splitOn_eq_singleton h, List.mem_singleton]
  exact Ne.symm hs

theorem Filled.ne_nil {c : α} {s : List α} (h : Filled c s) : s ≠ [] := by
  rintro rfl
  exact h (List.mem_singleton_self _)

end Cimabue
