import Mathlib.Data.List.Flatten
import Mathlib.Data.List.TakeWhile

/-!
# Support — StdStream

`std::istream`, and `>>` of it into a string, over any alphabet and any blanks (`IStream.extract`).  A
reading skips blanks and takes what is before the next one; at the end of the text it fails, and the
string stays as it was.

* `words`: the words of a text, its maximal non-empty parts without blanks.
* `extract_eq`: a reading gives the next word, or nothing new at the end.
* `words_lines`: the words of a text of lines are those of each line.
-/

namespace Cimabue

variable {α : Type*}

/-! ### Words -/

/-- The words of a text, in order; `p` tells the blanks. -/
def words (p : α → Bool) (s : List α) : List (List α) := (s.splitOnP p).filter (!·.isEmpty)

/-- A text that is one word. -/
def IsWord (p : α → Bool) (w : List α) : Prop := w ≠ [] ∧ ∀ x ∈ w, p x = false

instance [DecidableEq α] (p : α → Bool) (w : List α) : Decidable (IsWord p w) :=
  inferInstanceAs (Decidable (_ ∧ _))

section Words

variable {p : α → Bool}

@[simp] theorem words_nil (p : α → Bool) : words p [] = [] := rfl

/-- A text cut at a blank has the words of its two parts. -/
theorem words_append_cons {b : α} (s t : List α) (hb : p b = true) :
    words p (s ++ b :: t) = words p s ++ words p t := by
  rw [words, List.splitOnP_append_cons s t hb, List.filter_append]
  rfl

theorem words_cons_blank {b : α} (s : List α) (hb : p b = true) : words p (b :: s) = words p s :=
  words_append_cons [] s hb

theorem IsWord.words_eq {w : List α} (h : IsWord p w) : words p w = [w] := by
  rw [words, List.splitOnP_eq_singleton h.2]
  simp [h.1]

/-- Blanks at the beginning make no words. -/
theorem words_dropWhile (s : List α) : words p (s.dropWhile p) = words p s := by
  induction s with
  | nil => rfl
  | cons a s ih =>
      cases ha : p a with
      | true => rw [List.dropWhile_cons_of_pos ha, ih, words_cons_blank s ha]
      | false => rw [List.dropWhile_cons_of_neg (by simp [ha])]

/-- The first word of a text that begins with one. -/
theorem words_cons {a : α} (s : List α) (ha : p a = false) :
    words p (a :: s) = (a :: s).takeWhile (!p ·) :: words p ((a :: s).dropWhile (!p ·)) := by
  have happ := List.takeWhile_append_dropWhile (p := (!p ·)) (l := a :: s)
  have hword : IsWord p ((a :: s).takeWhile (!p ·)) :=
    ⟨by simp [ha], fun x hx => by simpa using List.mem_takeWhile_imp hx⟩
  cases hd : (a :: s).dropWhile (!p ·) with
  | nil =>
      rw [hd, List.append_nil] at happ
      rw [happ] at hword ⊢
      exact hword.words_eq
  | cons b t =>
      have hb : p b = true := by
        have := List.head?_dropWhile_not (!p ·) (a :: s)
        rw [hd] at this
        simpa using this
      rw [hd] at happ
      rw [← happ, words_append_cons _ t hb, hword.words_eq, happ, words_cons_blank t hb]
      rfl

theorem isWord_of_mem_words {s w : List α} (h : w ∈ words p s) : IsWord p w := by
  induction hn : s.length using Nat.strong_induction_on generalizing s with
  | _ n ih =>
      subst hn
      cases s with
      | nil => cases h
      | cons a s =>
          cases ha : p a with
          | true => exact ih _ (Nat.lt_succ_self _) (by rwa [words_cons_blank s ha] at h) rfl
          | false =>
              rw [words_cons s ha, List.mem_cons] at h
              rcases h with rfl | h
              · exact ⟨by simp [ha], fun x hx => by simpa using List.mem_takeWhile_imp hx⟩
              · refine ih _ ?_ h rfl
                rw [List.dropWhile_cons_of_pos (by simp [ha])]
                exact Nat.lt_succ_of_le (List.length_dropWhile_le _ s)

/-- The words of lines that are each ended by a blank. -/
theorem words_lines {e : α} (he : p e = true) (lines : List (List α)) (s : List α) :
    words p (lines.flatMap (· ++ [e]) ++ s) = lines.flatMap (words p) ++ words p s := by
  induction lines with
  | nil => rfl
  | cons l lines ih =>
      rw [List.flatMap_cons, List.flatMap_cons, List.append_assoc, List.append_assoc,
        List.singleton_append, words_append_cons l _ he, ih, List.append_assoc]

/-- Lines that are words are the words. -/
theorem flatMap_words {lines : List (List α)} (h : ∀ l ∈ lines, IsWord p l) :
    lines.flatMap (words p) = lines := by
  induction lines with
  | nil => rfl
  | cons l lines ih =>
      rw [List.flatMap_cons, (h l (by simp)).words_eq, ih fun w hw => h w (by simp [hw])]
      rfl

end Words

/-! ### Readings -/

/-- An input stream: what has not been read of its text, and `good()`. -/
structure IStream (α : Type*) where
  rest : List α
  good : Bool := true
  /-- A stream that has gone bad has come to its end. -/
  ended : good = false → rest = [] := by nofun
deriving DecidableEq

namespace IStream

variable (p : α → Bool) (s : IStream α) (word : List α)

/-- `s >> word`: what `word` is afterwards, and the stream. -/
def extract : List α × IStream α :=
  if s.good then
    match s.rest.dropWhile p with
    -- the end while blanks are skipped: the string is left alone
    | [] => (word, { rest := [], good := false, ended := fun _ => rfl })
    | a :: text =>
        ((a :: text).takeWhile (!p ·),
          { rest := (a :: text).dropWhile (!p ·)
            -- the end behind the word
            good := !((a :: text).dropWhile (!p ·)).isEmpty
            ended := by simp })
  else (word, s)

/-- **A reading** gives the next word, or leaves the string as it was, and the words behind it. -/
theorem extract_eq :
    (s.extract p word).1 = (words p s.rest).headD word ∧
      words p (s.extract p word).2.rest = (words p s.rest).tail := by
  rw [extract]
  split_ifs with hgood
  · rw [← words_dropWhile s.rest]
    split
    · next h => simp [h]
    · next a text h =>
        have ha : p a = false := by
          have := List.head?_dropWhile_not p s.rest
          rw [h] at this
          simpa using this
        rw [h, words_cons text ha]
        exact ⟨rfl, rfl⟩
  · simp [s.ended (by simpa using hgood)]

end IStream

end Cimabue
