import Cimabue.Support.Bytes

/-!
# Support — CharArray

A C array of `n` characters (`CharArray n`), as `memset`, `strncpy` and a string read from its
address find it.  A write past the end has no result, and neither has a read that meets no NUL.

`strncpy_holds_iff`: where `strncpy` is called with the length of its source, the array holds the
source exactly when it has a byte to spare.
-/

namespace Cimabue

/-- `char a[n]`. -/
structure CharArray (n : Nat) where
  bytes : Bytes
  length_eq : bytes.length = n
deriving DecidableEq

namespace CharArray

variable {n : Nat}

/-- `memset(a, 0, n)`. -/
def zeroed (n : Nat) : CharArray n := ⟨List.replicate n 0, List.length_replicate⟩

/-- What `strncpy` writes: the first `count` bytes of `src` up to its first NUL, and NULs. -/
def copied (src : Bytes) (count : Nat) : Bytes := (cstr src ++ List.replicate count 0).take count

theorem length_copied (src : Bytes) (count : Nat) : (copied src count).length = count := by
  simp [copied]

/-- `strncpy(a, src, count)`: it writes `count` bytes, and none is past the end. -/
def strncpy (a : CharArray n) (src : Bytes) (count : Nat) : Option (CharArray n) :=
  if h : count ≤ n then
    some ⟨copied src count ++ a.bytes.drop count, by
      rw [List.length_append, length_copied, List.length_drop, a.length_eq]
      omega⟩
  else none

/-- The text at the address of the array, none when the reader runs past the end. -/
def text (a : CharArray n) : Option Bytes :=
  if (0 : Byte) ∈ a.bytes then some (cstr a.bytes) else none

theorem copied_length {src : Bytes} (h : (0 : Byte) ∉ src) : copied src src.length = src := by
  rw [copied, cstr_eq_self h, List.take_left]

/-- A NUL-free text in front of NULs is what a reader gets. -/
theorem cstr_append_zeros {src : Bytes} (h : (0 : Byte) ∉ src) (k : Nat) :
    cstr (src ++ List.replicate k 0) = src := by
  rw [cstr, List.takeWhile_append_of_pos fun x hx => by simpa using fun (e : x = 0) => h (e ▸ hx)]
  cases k <;> simp [List.replicate_succ]

/-- **What fits.**  A source copied over its own length is read back exactly when the array has a
byte more. -/
theorem strncpy_holds_iff {src : Bytes} (h : (0 : Byte) ∉ src) :
    (∃ a, (zeroed n).strncpy src src.length = some a ∧ a.text = some src) ↔ src.length < n := by
  constructor
  · rintro ⟨a, hcopy, htext⟩
    rw [strncpy] at hcopy
    split_ifs at hcopy with hle
    obtain rfl := Option.some.inj hcopy
    refine lt_of_le_of_ne hle fun heq => ?_
    -- the array is full, and there is no NUL in it
    rw [text, if_neg] at htext
    · cases htext
    · subst heq
      simp [zeroed, copied_length h, h]
  · intro hlt
    refine ⟨⟨src ++ List.replicate (n - src.length) 0, by simp; omega⟩, ?_, ?_⟩
    · rw [strncpy, dif_pos hlt.le]
      simp [zeroed, copied_length h]
    · rw [text, if_pos, cstr_append_zeros h]
      exact List.mem_append_right _ (List.mem_replicate.mpr ⟨by omega, rfl⟩)

end CharArray

end Cimabue
