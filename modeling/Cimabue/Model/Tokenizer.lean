import Cimabue.Support.Split
import Cimabue.Support.StdString

/-!
# Model — Tokenizer

The token loop of `Message::deserialize`, `Node::tokenizeClientData` and
`CimabueClient::extractNicknameAndData`: three copies of one loop, at the separators `-`, `:` and
`@` (`tokenLoop`, `tokenize`).

The loop starts with both searches at position 0, so a text that begins with a separator starts
with the two positions in the wrong order: the first token is then the whole text after the
leading separators, and a text of separators only makes `substr` throw.

`tokenize_eq` is the loop's specification: it always stops, with the fields of the text
(`runs`), after one extra token when the text begins with a separator.  `tokenize_spec` says the
same of each kind of text, and that the bound on the turns is never what stops the loop.
-/

namespace Cimabue

variable {α : Type*} [DecidableEq α]

/-- The `while` loop, run at most `fuel` times from the positions `lastPos` and `pos`. -/
def tokenLoop (s : List α) (c : α) :
    Nat → Option Nat → Option Nat → List (List α) → Except Fault (List (List α))
  -- the loop stops when both searches have failed
  | _, none, none, tokens => .ok tokens
  | 0, _, _, _ => .error .loopBound
  | fuel + 1, lastPos, pos, tokens => do
      let token ← substr s lastPos (posSub pos lastPos)
      let lastPos' := findFirstNotOf s c pos
      let pos' := findFirstOf s c lastPos'
      tokenLoop s c fuel lastPos' pos' (tokens ++ [token])

/-- The tokens of `s` at the separator `c`. -/
def tokenize (c : α) (s : List α) : Except Fault (List (List α)) :=
  -- a turn reads a byte or ends the loop
  tokenLoop s c (s.length + 2) (findFirstNotOf s c (some 0)) (findFirstOf s c (some 0)) []

/-! ### One turn -/

theorem tokenLoop_done (s : List α) (c : α) (fuel : Nat) (tokens : List (List α)) :
    tokenLoop s c fuel none none tokens = .ok tokens := by
  cases fuel <;> rfl

/-- One turn of the loop, at a token that starts at `i`. -/
theorem tokenLoop_step {s : List α} {c : α} {fuel i : Nat} {pos : Option Nat} {token : List α}
    (tokens : List (List α)) (h : substr s (some i) (posSub pos (some i)) = .ok token) :
    tokenLoop s c (fuel + 1) (some i) pos tokens =
      tokenLoop s c fuel (findFirstNotOf s c pos) (findFirstOf s c (findFirstNotOf s c pos))
        (tokens ++ [token]) := by
  cases pos <;> simp only [tokenLoop, h] <;> rfl

theorem findFirstNotOf_head {c a : α} (pre s : List α) (h : a ≠ c) :
    findFirstNotOf (pre ++ a :: s) c (some pre.length) = some pre.length :=
  findFrom_append_found pre s (f := []) (by simp) (by simp [h])

/-! ### The loop reads the fields -/

/-- From any position before `rest`, with `lastPos` and `pos` the next start and the next end,
the loop adds the fields of `rest`. -/
def LoopReads (c : α) (rest : List α) : Prop :=
  ∀ (pre : List α) (fuel : Nat) (tokens : List (List α)), rest.length ≤ fuel →
    tokenLoop (pre ++ rest) c fuel (findFirstNotOf (pre ++ rest) c (some pre.length))
        (findFirstOf (pre ++ rest) c (findFirstNotOf (pre ++ rest) c (some pre.length))) tokens =
      .ok (tokens ++ runs c rest)

theorem LoopReads.nil (c : α) : LoopReads c [] := by
  intro pre fuel tokens _
  have e : findFirstNotOf (pre ++ []) c (some pre.length) = none :=
    findFrom_append_none pre (by simp)
  rw [e]
  exact (tokenLoop_done _ c fuel tokens).trans (by simp)

/-- A separator in front is passed over. -/
theorem LoopReads.sep {c : α} {s : List α} (hs : LoopReads c s) : LoopReads c (c :: s) := by
  intro pre fuel tokens hf
  have e : findFirstNotOf (pre ++ c :: s) c (some pre.length) =
      findFirstNotOf (pre ++ [c] ++ s) c (some (pre ++ [c]).length) :=
    findFrom_append_cons pre s (by simp)
  have h := hs (pre ++ [c]) fuel tokens (Nat.le_of_succ_le hf)
  rw [e, runs_cons_self]
  simpa only [List.append_assoc, List.singleton_append] using h

theorem LoopReads.last {c : α} {f : List α} (hf : f ≠ []) (hc : c ∉ f) : LoopReads c f := by
  intro pre fuel tokens hfuel
  obtain ⟨a, g, rfl⟩ := List.exists_cons_of_ne_nil hf
  obtain ⟨fuel, rfl⟩ : ∃ n, fuel = n + 1 := ⟨fuel - 1, by simp at hfuel; omega⟩
  have hend : findFirstOf (pre ++ a :: g) c (some pre.length) = none :=
    findFrom_append_none pre fun x hx => by simpa using fun (e : x = c) => hc (e ▸ hx)
  rw [findFirstNotOf_head pre g fun e => hc (by simp [e]), hend,
    tokenLoop_step tokens (substr_append_none pre (a :: g)), runs_of_not_mem hc hf]
  exact tokenLoop_done _ c fuel _

/-- A field is one token, and the next turn starts at the separator that ended it. -/
theorem LoopReads.field {c : α} {f s : List α} (hf : f ≠ []) (hc : c ∉ f) (hs : LoopReads c s) :
    LoopReads c (f ++ c :: s) := by
  intro pre fuel tokens hfuel
  obtain ⟨a, g, rfl⟩ := List.exists_cons_of_ne_nil hf
  obtain ⟨fuel, rfl⟩ : ∃ n, fuel = n + 1 := ⟨fuel - 1, by simp at hfuel; omega⟩
  have hstart : findFirstNotOf (pre ++ (a :: g ++ c :: s)) c (some pre.length) =
      some pre.length := findFirstNotOf_head pre _ fun e => hc (by simp [e])
  have hend : findFirstOf (pre ++ (a :: g ++ c :: s)) c (some pre.length) =
      some (pre.length + (a :: g).length) :=
    findFrom_append_found pre s (fun x hx => by simpa using fun (e : x = c) => hc (e ▸ hx))
      (by simp)
  have hlen : posSub (some (pre.length + (a :: g).length)) (some pre.length) =
      some (a :: g).length := by simp [posSub]
  rw [hstart, hend, runs_field_cons s hc hf,
    tokenLoop_step tokens (by rw [hlen]; exact substr_append_some pre (a :: g) (c :: s))]
  have h := hs.sep (pre ++ (a :: g)) fuel (tokens ++ [a :: g]) (by simp at hfuel ⊢; omega)
  rw [runs_cons_self] at h
  simpa only [List.append_assoc, List.length_append, List.singleton_append] using h

theorem loopReads (c : α) (s : List α) : LoopReads c s := by
  induction s using runs_induction (c := c) with
  | nil => exact .nil c
  | sep s ih => exact ih.sep
  | last f hf hc => exact .last hf hc
  | field f s hf hc ih => exact ih.field hf hc

/-! ### The specification -/

theorem head_dropWhile_ne {c a : α} {s t : List α} (h : s.dropWhile (· = c) = a :: t) : a ≠ c := by
  have := List.head?_dropWhile_not (· = c) s
  rw [h] at this
  simpa using this

/-- The search for the first character that is no separator finds the end of the leading
separators. -/
theorem findFirstNotOf_zero {c a : α} {s t : List α} (h : s.dropWhile (· = c) = a :: t) :
    findFirstNotOf s c (some 0) = some (s.takeWhile (· = c)).length := by
  have hs : s = s.takeWhile (· = c) ++ a :: t := by
    rw [← h, List.takeWhile_append_dropWhile]
  have := findFrom_append_found (p := (· ≠ c)) (c := a) [] t (f := s.takeWhile (· = c))
    (fun x hx => by simpa using List.mem_takeWhile_imp hx) (by simp [head_dropWhile_ne h])
  rw [List.nil_append, ← hs] at this
  simpa [findFirstNotOf] using this

/-- **The token loop.**  A text that does not begin with the separator gives its fields.  One that
does gives, before them, the text without its leading separators; if nothing is left of it,
`substr` throws. -/
theorem tokenize_eq (c : α) (s : List α) :
    tokenize c s =
      if s.head? = some c then
        if s.dropWhile (· = c) = [] then .error .outOfRange
        else .ok (s.dropWhile (· = c) :: runs c s)
      else .ok (runs c s) := by
  have hloop := fun (fuel : Nat) (tokens : List (List α)) (h : s.length ≤ fuel) =>
    loopReads c s [] fuel tokens h
  simp only [List.nil_append, List.length_nil] at hloop
  cases s with
  | nil => exact hloop 2 [] (by simp)
  | cons a s =>
      by_cases ha : a = c
      · subst ha
        have hpos : findFirstOf (a :: s) a (some 0) = some 0 :=
          findFrom_append_found [] s (f := []) (by simp) (by simp)
        simp only [List.head?_cons, if_true]
        rw [tokenize, hpos]
        cases hd : (a :: s).dropWhile (· = a) with
        | nil =>
            have hnone : findFirstNotOf (a :: s) a (some 0) = none :=
              findFrom_append_none [] fun x hx => by
                simpa using List.dropWhile_eq_nil_iff.mp hd x hx
            rw [hnone]
            rfl
        | cons b t =>
            have hstart := findFirstNotOf_zero hd
            have htok : substr (a :: s) (some ((a :: s).takeWhile (· = a)).length)
                (posSub (some 0) (some ((a :: s).takeWhile (· = a)).length)) = .ok (b :: t) := by
              have hwrap : posSub (some 0) (some ((a :: s).takeWhile (· = a)).length) = none := by
                simp [posSub]
              have hcut := substr_append_none ((a :: s).takeWhile (· = a)) ((a :: s).dropWhile (· = a))
              rw [List.takeWhile_append_dropWhile] at hcut
              rw [hwrap, ← hd]
              exact hcut
            rw [hstart, tokenLoop_step [] htok]
            exact hloop _ [b :: t] (by simp)
      · have hlast : findFirstNotOf (a :: s) c (some 0) = some 0 := findFirstNotOf_head [] s ha
        have h := hloop ((a :: s).length + 2) [] (by omega)
        rw [hlast] at h
        simpa [tokenize, hlast, ha] using h

/-- A text that does not begin with the separator gives its fields. -/
theorem tokenize_of_head {c : α} {s : List α} (h : s.head? ≠ some c) :
    tokenize c s = .ok (runs c s) := by
  rw [tokenize_eq, if_neg h]

theorem runs_dropWhile (c : α) (s : List α) : runs c (s.dropWhile (· = c)) = runs c s := by
  induction s with
  | nil => rfl
  | cons a s ih =>
      by_cases h : a = c
      · subst h; simpa using ih
      · simp [h]

/-- The tokens of a text that begins with the separator. -/
theorem tokenize_of_sep {c : α} {s : List α} {ts : List (List α)} (hs : s.head? = some c)
    (h : tokenize c s = .ok ts) : ts = s.dropWhile (· = c) :: runs c s := by
  rw [tokenize_eq, if_pos hs] at h
  split_ifs at h
  exact (Except.ok.inj h).symm

/-- A first token without a separator is a field, when there are two more tokens: all the tokens
are the fields of the text. -/
theorem runs_of_tokenize {c : α} {s t : List α} {ts : List (List α)}
    (h : tokenize c s = .ok (t :: ts)) (ht : c ∉ t) (hts : 2 ≤ ts.length) : runs c s = t :: ts := by
  by_cases hs : s.head? = some c
  · obtain ⟨rfl, rfl⟩ := List.cons.inj (tokenize_of_sep hs h)
    rw [← runs_dropWhile] at hts
    by_cases hnil : s.dropWhile (· = c) = []
    · simp [hnil] at hts
    · simp [runs_of_not_mem ht hnil] at hts
  · rw [tokenize_of_head hs] at h
    exact Except.ok.inj h

/-! ### Termination -/

/-- A loop that has stopped stops with more turns allowed, and with the same tokens. -/
theorem tokenLoop_succ {s : List α} {c : α} {fuel : Nat} {lastPos pos : Option Nat}
    {tokens : List (List α)} (h : tokenLoop s c fuel lastPos pos tokens ≠ .error .loopBound) :
    tokenLoop s c (fuel + 1) lastPos pos tokens = tokenLoop s c fuel lastPos pos tokens := by
  induction fuel generalizing lastPos pos tokens with
  | zero => cases lastPos <;> cases pos <;> first | rfl | exact absurd rfl h
  | succ fuel ih =>
      -- the first turn is the same, and from where it leads the induction goes on
      have hturn : ∀ token : Except Fault (List α),
          (token >>= fun token => tokenLoop s c fuel (findFirstNotOf s c pos)
            (findFirstOf s c (findFirstNotOf s c pos)) (tokens ++ [token])) ≠ .error .loopBound →
          (token >>= fun token => tokenLoop s c (fuel + 1) (findFirstNotOf s c pos)
            (findFirstOf s c (findFirstNotOf s c pos)) (tokens ++ [token])) =
          (token >>= fun token => tokenLoop s c fuel (findFirstNotOf s c pos)
            (findFirstOf s c (findFirstNotOf s c pos)) (tokens ++ [token])) := by
        intro token htoken
        cases token with
        | error f => rfl
        | ok token => exact ih htoken
      cases lastPos <;> cases pos <;> first | rfl | exact hturn _ h

theorem tokenLoop_add {s : List α} {c : α} {fuel : Nat} (extra : Nat) {lastPos pos : Option Nat}
    {tokens : List (List α)} (h : tokenLoop s c fuel lastPos pos tokens ≠ .error .loopBound) :
    tokenLoop s c (fuel + extra) lastPos pos tokens = tokenLoop s c fuel lastPos pos tokens := by
  induction extra with
  | zero => rfl
  | succ extra ih =>
      rw [← ih] at h
      rw [← Nat.add_assoc, tokenLoop_succ h, ih]

/-- The turns given to the loop are enough. -/
theorem tokenize_ne_loopBound (c : α) (s : List α) : tokenize c s ≠ .error .loopBound := by
  rw [tokenize_eq]
  split_ifs <;> simp

/-- **The tokenizer.**  The loop stops, whatever the text: more turns than its length and two make
no difference.  A text that does not begin with the separator gives its fields; one that does, and
has another character, gives before them the text without its leading separators; and `substr`
throws exactly at a text of separators only. -/
theorem tokenize_spec (c : α) (s : List α) :
    (tokenize c s ≠ .error .loopBound ∧ ∀ fuel, s.length + 2 ≤ fuel →
      tokenLoop s c fuel (findFirstNotOf s c (some 0)) (findFirstOf s c (some 0)) [] =
        tokenize c s) ∧
    (s.head? ≠ some c → tokenize c s = .ok (runs c s)) ∧
    (s.head? = some c → (∃ x ∈ s, x ≠ c) →
      tokenize c s = .ok (s.dropWhile (· = c) :: runs c s)) ∧
    (tokenize c s = .error .outOfRange ↔ s ≠ [] ∧ ∀ x ∈ s, x = c) := by
  have hall : s.dropWhile (· = c) = [] ↔ ∀ x ∈ s, x = c := by
    simp [List.dropWhile_eq_nil_iff]
  refine ⟨⟨tokenize_ne_loopBound c s, fun fuel hfuel => ?_⟩, tokenize_of_head, fun hhead hx => ?_,
    fun h => ?_, fun h => ?_⟩
  · obtain ⟨extra, rfl⟩ := Nat.exists_eq_add_of_le hfuel
    exact tokenLoop_add extra (tokenize_ne_loopBound c s)
  · obtain ⟨x, hmem, hne⟩ := hx
    rw [tokenize_eq, if_pos hhead, if_neg fun hnil => hne (hall.mp hnil x hmem)]
  · rw [tokenize_eq] at h
    split_ifs at h with hhead hnil
    exact ⟨fun hs => by simp [hs] at hhead, hall.mp hnil⟩
  · obtain ⟨a, l, rfl⟩ := List.exists_cons_of_ne_nil h.1
    have hhead : (a :: l).head? = some c := congrArg some (h.2 a (by simp))
    rw [tokenize_eq, if_pos hhead, if_pos (hall.mpr h.2)]

/-- A token is made of what the text is made of. -/
theorem subset_of_mem_tokens {c : α} {s t : List α} {ts : List (List α)}
    (h : tokenize c s = .ok ts) (ht : t ∈ ts) : t ⊆ s := by
  have hruns : t ∈ runs c s → t ⊆ s := fun hmem x hx => (mem_runs hmem).2.2 x hx
  by_cases hs : s.head? = some c
  · rw [tokenize_of_sep hs h] at ht
    rcases List.mem_cons.mp ht with rfl | ht
    · exact (List.dropWhile_suffix _).subset
    · exact hruns ht
  · rw [tokenize_of_head hs] at h
    exact hruns (Except.ok.inj h ▸ ht)

end Cimabue
