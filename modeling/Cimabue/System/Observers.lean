import Cimabue.Support.Objects
import Cimabue.System.Views

/-!
# System — Observers

The views of a client: `addView`, `remView` and `updateViews` of `StateManager`, and the constructor
and destructor of `Observer`, which call the first two (`observing`).

* `views_follow`: over any history of views that come and go and of events, an event is told to the
  views that are there and to no other, and every view lists what the events since it came have made
  of an empty list.
-/

namespace Cimabue

/-- The views that have been made, and the list `views` of the manager. -/
structure Observers where
  objects : Heap ConsoleView := {}
  views : List Nat := []
deriving DecidableEq

/-- What happens to the views. -/
inductive ObserverStep where
  /-- A `ConsoleView` is made. -/
  | attach
  /-- The view at `p` is deleted. -/
  | detach (p : Nat)
  /-- `updateViews` -/
  | notify (e : Event)

namespace Observers

/-- `addView` -/
def addView (o : Observers) (p : Nat) : Observers := { o with views := o.views ++ [p] }

/-- `remView`: the first one that is equal. -/
def remView (o : Observers) (p : Nat) : Observers := { o with views := o.views.erase p }

/-- The loop of `updateViews`: none where a view has gone. -/
def updateAll (event : EventData) : List Nat → Heap ConsoleView → Option (Heap ConsoleView)
  | [], objects => some objects
  | p :: ps, objects => do
      let v ← objects.get p
      let v ← v.update event
      let objects ← objects.put p v
      updateAll event ps objects

/-- What a step leads to. -/
def step (o : Observers) : ObserverStep → Option Observers
  | .attach =>
      let (objects, p) := o.objects.new {}
      some ({ o with objects }.addView p)
  | .detach p => (o.objects.delete p).map fun objects => { o with objects }.remView p
  | .notify e => do
      let event ← e.build
      let objects ← updateAll event o.views o.objects
      pure { o with objects }

end Observers

/-- The views of a client. -/
def observing : Machine Observers ObserverStep where
  step := Observers.step

namespace Observers

/-- A view is deleted once, and an event fits its arrays. -/
def Allowed (o : Observers) : ObserverStep → Prop
  | .attach => True
  | .detach p => (o.objects.get p).isSome
  | .notify e => e.Fits ∧ ∀ s ∈ e.texts, (0 : Byte) ∉ s

instance (e : Event) : Decidable e.Fits :=
  match e with
  | .message .. => inferInstanceAs (Decidable (_ ∧ _))
  | .updateAdd _ | .updateRem _ => inferInstanceAs (Decidable (_ < _))

instance (o : Observers) (a : ObserverStep) : Decidable (o.Allowed a) :=
  match a with
  | .attach => isTrue trivial
  | .detach _ => inferInstanceAs (Decidable (_ = true))
  | .notify _ => inferInstanceAs (Decidable (_ ∧ _))

/-- How many views have been made. -/
def attached (as : List ObserverStep) : Nat := as.countP (· matches .attach)

/-- The events that have been told. -/
def told (as : List ObserverStep) : List Event :=
  as.filterMap fun
    | .notify e => some e
    | _ => none

/-- What holds after the steps `as`. -/
structure Follows (as : List ObserverStep) (o : Observers) : Prop where
  length : o.objects.cells.length = attached as
  nodup : o.views.Nodup
  views : ∀ p, p ∈ o.views ↔ (o.objects.get p).isSome
  clients : ∀ p v, o.objects.get p = some v → ∃ pre post, as = pre ++ .attach :: post ∧
    attached pre = p ∧ ConsoleView.updateViews {} (told post) = some v

/-! ### An event -/

/-- An event that fits is told to any view. -/
theorem exists_update {e : Event} (hfits : e.Fits) (hnul : ∀ s ∈ e.texts, (0 : Byte) ∉ s) :
    ∃ d, e.build = some d ∧ ∀ v : ConsoleView, ∃ v', v.update d = some v' := by
  have hintact := (Event.intact_iff_fits hnul).mpr hfits
  cases e with
  | message nickname content =>
      obtain ⟨d, hbuild, hnick, hmsg⟩ := hintact
      refine ⟨d, hbuild, fun v => ?_⟩
      cases d <;> exact ⟨_, by simp only [ConsoleView.update, hnick, hmsg]; rfl⟩
  | updateAdd nickname | updateRem nickname =>
      obtain ⟨d, hbuild, hnick⟩ := hintact
      refine ⟨d, hbuild, fun v => ?_⟩
      obtain ⟨a, -, hd⟩ := Option.bind_eq_some_iff.mp hbuild
      obtain rfl := Option.some.inj hd
      exact ⟨_, by simp only [ConsoleView.update, hnick]; rfl⟩

theorem updateViews_concat (v : ConsoleView) (es : List Event) (e : Event) :
    v.updateViews (es ++ [e]) = (v.updateViews es).bind fun w => e.build.bind w.update := by
  induction es generalizing v with
  | nil => cases hbuild : e.build <;> simp [ConsoleView.updateViews, hbuild]
  | cons e' es ih =>
      simp only [List.cons_append, ConsoleView.updateViews, Option.bind_eq_bind, ih,
        Option.bind_assoc]

/-- The loop tells every view of the list once. -/
theorem updateAll_spec {d : EventData} (hd : ∀ v : ConsoleView, ∃ v', v.update d = some v')
    {ps : List Nat} (hnodup : ps.Nodup) {h : Heap ConsoleView} (hlive : ∀ p ∈ ps, (h.get p).isSome) :
    ∃ h', updateAll d ps h = some h' ∧ h'.cells.length = h.cells.length ∧
      ∀ q, h'.get q = if q ∈ ps then (h.get q).bind (·.update d) else h.get q := by
  induction ps generalizing h with
  | nil => exact ⟨h, rfl, rfl, fun q => by simp⟩
  | cons p ps ih =>
      obtain ⟨hp, hnodup⟩ := List.nodup_cons.mp hnodup
      obtain ⟨v, hv⟩ := Option.isSome_iff_exists.mp (hlive p (by simp))
      obtain ⟨v', hv'⟩ := hd v
      obtain ⟨h₁, hput⟩ : ∃ h₁, h.put p v' = some h₁ := ⟨_, by rw [Heap.put, hv]; rfl⟩
      have hget := Heap.get_put hput
      have hlive₁ : ∀ q ∈ ps, (h₁.get q).isSome := fun q hq => by
        have hqp : q ≠ p := fun heq => hp (heq ▸ hq)
        rw [hget, if_neg hqp]
        exact hlive q (List.mem_cons_of_mem p hq)
      obtain ⟨h', hall, hlen, hget'⟩ := ih hnodup hlive₁
      refine ⟨h', ?_, hlen.trans (Heap.length_put hput), fun q => ?_⟩
      · simp only [updateAll, hv, hv', hput, Option.bind_eq_bind, Option.bind_some, hall]
      · rw [hget', hget]
        by_cases hq : q = p
        · subst hq
          rw [if_neg hp, if_pos rfl, if_pos (by simp), hv, Option.bind_some, hv']
        · rw [if_neg hq]
          simp [hq]

/-! ### The steps -/

theorem attached_concat (as : List ObserverStep) (a : ObserverStep) :
    attached (as ++ [a]) = attached as + if a matches .attach then 1 else 0 := by
  simp [attached, List.countP_append, List.countP_cons]

theorem told_concat (as : List ObserverStep) (a : ObserverStep) :
    told (as ++ [a]) = told as ++ told [a] := List.filterMap_append

/-- A step keeps the views in step with what has happened. -/
theorem Follows.step {as : List ObserverStep} {o : Observers} {a : ObserverStep} (h : Follows as o)
    (hC : o.Allowed a) : ∃ o', observing.step o a = some o' ∧ Follows (as ++ [a]) o' := by
  obtain ⟨hlen, hnodup, hviews, hclients⟩ := h
  cases a with
  | attach =>
      have hnew : o.objects.cells.length ∉ o.views := fun hmem => by
        obtain ⟨v, hv⟩ := Option.isSome_iff_exists.mp ((hviews _).mp hmem)
        exact absurd (Heap.lt_of_get hv) (Nat.lt_irrefl _)
      refine ⟨{ objects := (o.objects.new {}).1, views := o.views ++ [o.objects.cells.length] }, rfl,
        ⟨?_, hnodup.append (List.nodup_singleton _) (List.disjoint_singleton.mpr hnew), fun p => ?_,
          fun p v hv => ?_⟩⟩
      · simp [Heap.new, attached_concat, hlen]
      · rw [List.mem_append, List.mem_singleton, hviews, Heap.get_new]
        split_ifs with hp <;> simp [hp]
      · have hget := (Heap.get_new o.objects {} p).symm.trans hv
        split_ifs at hget with hp
        · exact ⟨as, [], rfl, by rw [hp, hlen], hget⟩
        · obtain ⟨pre, post, rfl, hpre, hv⟩ := hclients p v hget
          exact ⟨pre, post ++ [.attach], by simp, hpre, by rw [told_concat]; simpa [told] using hv⟩
  | detach p =>
      obtain ⟨v, hv⟩ := Option.isSome_iff_exists.mp hC
      obtain ⟨objects, hdel⟩ : ∃ objects, o.objects.delete p = some objects :=
        ⟨_, by rw [Heap.delete, hv]; rfl⟩
      have hget := Heap.get_delete hdel
      refine ⟨_, Option.map_eq_some_iff.mpr ⟨objects, hdel, rfl⟩, ⟨?_, ?_, fun q => ?_,
        fun q w hw => ?_⟩⟩
      · simp [remView, Heap.length_delete hdel, attached_concat, hlen]
      · exact hnodup.erase p
      · rw [remView, hnodup.mem_erase_iff, hviews, hget]
        split_ifs with hq <;> simp [hq]
      · rw [remView, hget] at hw
        split_ifs at hw with hq
        obtain ⟨pre, post, rfl, hpre, hw⟩ := hclients q w hw
        exact ⟨pre, post ++ [.detach p], by simp, hpre, by rw [told_concat]; simpa [told] using hw⟩
  | notify e =>
      obtain ⟨d, hbuild, hd⟩ := exists_update hC.1 hC.2
      obtain ⟨objects, hall, hlen', hget⟩ := updateAll_spec hd hnodup fun p hp => (hviews p).mp hp
      refine ⟨{ o with objects }, ?_, ⟨?_, hnodup, fun q => ?_, fun q w hw => ?_⟩⟩
      · simp only [observing, Observers.step, hbuild, hall, Option.bind_eq_bind, Option.bind_some]
        rfl
      · simp [hlen', attached_concat, hlen]
      · rw [hget]
        split_ifs with hq
        · obtain ⟨v, hv⟩ := Option.isSome_iff_exists.mp ((hviews q).mp hq)
          obtain ⟨v', hv'⟩ := hd v
          simp [hv, hv', hq]
        · exact hviews q
      · rw [hget] at hw
        split_ifs at hw with hq
        · obtain ⟨v, hv, hw⟩ := Option.bind_eq_some_iff.mp hw
          obtain ⟨pre, post, rfl, hpre, hv⟩ := hclients q v hv
          refine ⟨pre, post ++ [.notify e], by simp, hpre, ?_⟩
          rw [told_concat]
          exact (updateViews_concat _ _ e).trans (by rw [hv, hbuild]; exact hw)
        · rw [hviews, hw] at hq
          exact absurd rfl hq

theorem Follows.run {pre as : List ObserverStep} {o : Observers} (h : Follows pre o)
    (hC : observing.Meets Allowed o as) :
    ∃ t, observing.run o as = some t ∧ Follows (pre ++ as) t := by
  induction as generalizing pre o with
  | nil => exact ⟨o, rfl, by rwa [List.append_nil]⟩
  | cons a as ih =>
      obtain ⟨u, hu, hu'⟩ := h.step hC.1
      obtain ⟨t, ht, ht'⟩ := ih hu' (hC.2 u hu)
      exact ⟨t, Option.bind_eq_some_iff.mpr ⟨u, hu, ht⟩, by simpa using ht'⟩

end Observers

/-- **The views follow the events.**  Over any history in which views come and go, each deleted once,
and events that fit are told, nothing that has gone is used.  The manager's list holds the views that
are there, each once, and every one of them lists what the events since it was made have made of the
empty list. -/
theorem views_follow (as : List ObserverStep) (h : observing.Meets Observers.Allowed {} as) :
    ∃ t, observing.run {} as = some t ∧ t.views.Nodup ∧
      (∀ p, p ∈ t.views ↔ (t.objects.get p).isSome) ∧
      ∀ p v, t.objects.get p = some v → ∃ pre post, as = pre ++ .attach :: post ∧
        Observers.attached pre = p ∧ ConsoleView.updateViews {} (Observers.told post) = some v := by
  have hinit : Observers.Follows [] {} :=
    ⟨rfl, List.nodup_nil, fun p => by simp, fun p v hv => by simp at hv⟩
  obtain ⟨t, hrun, hfollows⟩ := hinit.run h
  exact ⟨t, hrun, hfollows.nodup, hfollows.views, hfollows.clients⟩

/-- A view comes while another one is there, which then goes. -/
theorem views_follow_two :
    ∃ t, observing.run {} [.attach, .notify (.updateAdd (lit "ann")), .attach,
        .notify (.updateAdd (lit "bob")), .detach 0, .notify (.updateRem (lit "bob"))] = some t ∧
      t.views.Nodup ∧ (∀ p, p ∈ t.views ↔ (t.objects.get p).isSome) ∧
      ∀ p v, t.objects.get p = some v → ∃ pre post, [.attach, .notify (.updateAdd (lit "ann")),
          .attach, .notify (.updateAdd (lit "bob")), .detach 0, .notify (.updateRem (lit "bob"))] =
            pre ++ .attach :: post ∧
        Observers.attached pre = p ∧ ConsoleView.updateViews {} (Observers.told post) = some v :=
  views_follow _ (by decide +kernel)

end Cimabue
