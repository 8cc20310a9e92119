import Mathlib.Data.List.Induction

/-!
# Support — Latch

A value that the first event that brings one sets, and that stays until an event clears it
(`latch`), over the events of any list.

* `latch_eq_some_iff`: the value is the one of an event with nothing set before it, and nothing
  cleared after it.
* `latch_eq_none_iff`: there is none exactly when every event that brings one is followed by one
  that clears it.
-/

namespace Cimabue

/-- What an event is to a latch. -/
inductive LatchEvent (β : Type*) where
  | set (b : β)
  | clear
  | skip

/-- The value after some events, `f a` being what the event `a` is to it. -/
def latch {α β : Type*} (f : α → LatchEvent β) : Option β → List α → Option β
  | b, [] => b
  | b, a :: as =>
      match f a with
      | .set c => latch f (b.or (some c)) as
      | .clear => latch f none as
      | .skip => latch f b as

variable {α β : Type*} {f : α → LatchEvent β}

theorem latch_append (b : Option β) (as bs : List α) :
    latch f b (as ++ bs) = latch f (latch f b as) bs := by
  induction as generalizing b with
  | nil => rfl
  | cons a as ih =>
      simp only [List.cons_append, latch]
      split <;> exact ih _

/-- A value stays, or is cleared. -/
theorem latch_some {b : β} {as : List α} (h : ∀ a ∈ as, f a ≠ .clear) :
    latch f (some b) as = some b := by
  induction as with
  | nil => rfl
  | cons a as ih =>
      have has : ∀ a ∈ as, f a ≠ .clear := fun x hx => h x (List.mem_cons_of_mem a hx)
      rw [latch]
      split
      · exact ih has
      · exact absurd ‹_› (h a (by simp))
      · exact ih has

/-- **The value** is the one of an event with nothing set before it, and nothing cleared after it. -/
theorem latch_eq_some_iff {as : List α} {b : β} :
    latch f none as = some b ↔ ∃ pre a post, as = pre ++ a :: post ∧ f a = .set b ∧
      (∀ x ∈ post, f x ≠ .clear) ∧ latch f none pre = none := by
  constructor
  · intro h
    induction as using List.reverseRecOn with
    | nil => cases h
    | append_singleton as a ih =>
        rw [latch_append, latch, latch] at h
        -- the last event keeps what is there, brings the value, or clears it
        have hkept (hne : f a ≠ .clear) (h : latch f none as = some b) :
            ∃ pre a' post, as ++ [a] = pre ++ a' :: post ∧ f a' = .set b ∧
              (∀ x ∈ post, f x ≠ .clear) ∧ latch f none pre = none := by
          obtain ⟨pre, a', post, rfl, ha', hpost, hpre⟩ := ih h
          refine ⟨pre, a', post ++ [a], by simp, ha', fun x hx => ?_, hpre⟩
          rcases List.mem_append.mp hx with hx | hx
          · exact hpost x hx
          · exact List.mem_singleton.mp hx ▸ hne
        split at h
        next c hc =>
          cases hprev : latch f none as with
          | none =>
              rw [hprev] at h
              obtain rfl := Option.some.inj h
              exact ⟨as, a, [], rfl, hc, nofun, hprev⟩
          | some b' =>
              rw [hprev] at h
              obtain rfl := Option.some.inj h
              exact hkept (by simp [hc]) hprev
        next => cases h
        next hskip => exact hkept (by simp [hskip]) h
  · rintro ⟨pre, a, post, rfl, ha, hpost, hpre⟩
    rw [latch_append, hpre, latch, ha]
    exact latch_some hpost

/-- **No value** is there exactly when whatever was set has been cleared. -/
theorem latch_eq_none_iff {as : List α} :
    latch f none as = none ↔ ∀ pre a post b, as = pre ++ a :: post → f a = .set b →
      ∃ x ∈ post, f x = .clear := by
  constructor
  · rintro h pre a post b rfl ha
    by_contra hpost
    push Not at hpost
    rw [latch_append, latch, ha] at h
    cases hpre : latch f none pre with
    | none => rw [hpre] at h; exact absurd (h.symm.trans (latch_some hpost)) nofun
    | some b' => rw [hpre] at h; exact absurd (h.symm.trans (latch_some hpost)) nofun
  · intro h
    cases hl : latch f none as with
    | none => rfl
    | some b =>
        obtain ⟨pre, a, post, has, ha, hpost, -⟩ := latch_eq_some_iff.mp hl
        obtain ⟨x, hx, hclear⟩ := h pre a post b has ha
        exact absurd hclear (hpost x hx)

end Cimabue
