import Mathlib.Algebra.Group.Int.Defs
import Mathlib.Algebra.GroupWithZero.Nat
import Mathlib.Data.Fin.Basic
import Mathlib.Data.List.TakeWhile
import Mathlib.Order.Fin.Basic

/-!
# Support — Bytes

A C++ `char` is a byte (`Byte`) and a `std::string` a list of bytes (`Bytes`).  The order of
`Byte` is the one `char_traits<char>` compares by, as unsigned characters, so the order of
`Bytes` is the one of `std::string`.

* `cstr`: what `std::string(const char *)` reads, the bytes before the first NUL.
* `decimal`, `decimalInt`: what `sprintf` prints for `%ld` and `%d`.
* `atoi`: the C library's, with its saturation at `long` and the cast to `int`.

`atoi_decimal`: `atoi` reads back the number `sprintf` printed, when it fits an `int`.
-/

namespace Cimabue

abbrev Byte := Fin 256

abbrev Bytes := List Byte

instance byteNeZero : NeZero 256 := ⟨by decide⟩

/-- The byte of an ASCII character. -/
def ch (c : Char) : Byte := Fin.ofNat 256 c.toNat

/-- The bytes of a string literal. -/
def lit (s : String) : Bytes := s.toList.map ch

/-- The text a NUL-terminated buffer holds. -/
def cstr (s : Bytes) : Bytes := s.takeWhile (· ≠ 0)

theorem zero_not_mem_cstr (s : Bytes) : (0 : Byte) ∉ cstr s := by
  intro h
  simpa using List.mem_takeWhile_imp h

theorem cstr_sublist (s : Bytes) : (cstr s).Sublist s := List.takeWhile_sublist _

theorem cstr_eq_self {s : Bytes} (h : (0 : Byte) ∉ s) : cstr s = s :=
  List.takeWhile_eq_self_iff.mpr fun x hx => by
    simpa using fun (e : x = 0) => h (e ▸ hx)

/-! ### Decimal text -/

/-- `sprintf` with `%ld`, at a number that is not negative. -/
def decimal (n : Nat) : Bytes := (Nat.toDigits 10 n).map ch

/-- `sprintf` with `%d`. -/
def decimalInt : Int → Bytes
  | .ofNat n => decimal n
  | .negSucc n => ch '-' :: decimal (n + 1)

@[simp] theorem decimalInt_natCast (n : Nat) : decimalInt n = decimal n := rfl

/-- The 32-bit two's complement value of `z`: the cast to `int`. -/
def toInt32 (z : Int) : Int := (z + 2 ^ 31) % 2 ^ 32 - 2 ^ 31

/-- The cast to `unsigned int`. -/
def toUInt32 (z : Int) : Nat := (z % 2 ^ 32).toNat

/-- `isspace` in the C locale. -/
def isSpace (b : Byte) : Bool := b = 32 || (9 ≤ b && b ≤ 13)

/-- `isdigit`. -/
def isDigit (b : Byte) : Bool := ch '0' ≤ b && b ≤ ch '9'

/-- The number a run of digits denotes. -/
def digitsVal (s : Bytes) : Nat := s.foldl (fun n b => 10 * n + (b.val - (ch '0').val)) 0

/-- `strtol(s, NULL, 10)` before it saturates: blanks, a sign, then digits. -/
def strtolRaw (s : Bytes) : Int :=
  match s.dropWhile isSpace with
  | [] => 0
  | b :: rest =>
      if b = ch '-' then - (digitsVal (rest.takeWhile isDigit) : Int)
      else if b = ch '+' then digitsVal (rest.takeWhile isDigit)
      else digitsVal ((b :: rest).takeWhile isDigit)

/-- `atoi`: `strtol` saturates at the ends of `long`, and the result is cast to `int`. -/
def atoi (s : Bytes) : Int := toInt32 (max (-2 ^ 63) (min (strtolRaw s) (2 ^ 63 - 1)))

theorem toInt32_eq_self {z : Int} (h₁ : -2 ^ 31 ≤ z) (h₂ : z < 2 ^ 31) : toInt32 z = z := by
  rw [toInt32]
  omega

theorem ch_digit {c : Char} (h : c.isDigit = true) :
    isDigit (ch c) = true ∧ isSpace (ch c) = false ∧ ch c ≠ ch '-' ∧ ch c ≠ ch '+' ∧
      (ch c).val - (ch '0').val = c.toNat - '0'.toNat := by
  have h' : 48 ≤ c.toNat ∧ c.toNat ≤ 57 := by
    simp only [Char.isDigit, Bool.and_eq_true, decide_eq_true_eq] at h
    exact h
  have hv : (ch c).val = c.toNat := by
    simp only [ch, Fin.ofNat]; omega
  have h0 : (ch '0').val = 48 := rfl
  have h9 : (ch '9').val = 57 := rfl
  refine ⟨?_, ?_, fun e => ?_, fun e => ?_, ?_⟩
  · simp only [isDigit, Fin.le_def, hv, h0, h9, Bool.and_eq_true, decide_eq_true_eq]; exact h'
  · simp only [isSpace, Fin.le_def, Fin.ext_iff, hv, Bool.or_eq_false_iff, Bool.and_eq_false_iff,
      decide_eq_false_iff_not]
    simp only [show ((32 : Byte) : Nat) = 32 from rfl, show ((9 : Byte) : Nat) = 9 from rfl,
      show ((13 : Byte) : Nat) = 13 from rfl]
    omega
  · have := congrArg Fin.val e; rw [hv] at this; simp [ch] at this; omega
  · have := congrArg Fin.val e; rw [hv] at this; simp [ch] at this; omega
  · rw [hv, h0]; rfl

theorem isDigit_of_mem_decimal {n : Nat} {b : Byte} (h : b ∈ decimal n) : isDigit b = true := by
  obtain ⟨c, hc, rfl⟩ := List.mem_map.mp h
  exact (ch_digit (Nat.isDigit_of_mem_toDigits (by decide) (by decide) hc)).1

theorem decimal_ne_nil (n : Nat) : decimal n ≠ [] := by
  simp [decimal, Nat.toDigits_ne_nil]

/-- A byte that is no digit does not occur in a decimal number. -/
theorem not_mem_decimal {n : Nat} {b : Byte} (hb : isDigit b = false) : b ∉ decimal n :=
  fun h => by rw [isDigit_of_mem_decimal h] at hb; cases hb

theorem digitsVal_decimal (n : Nat) : digitsVal (decimal n) = n := by
  have key : ∀ (l : List Char) (a : Nat), (∀ c ∈ l, c.isDigit = true) →
      (l.map ch).foldl (fun n b => 10 * n + (b.val - (ch '0').val)) a =
        Nat.ofDigitChars 10 l a := by
    intro l
    induction l with
    | nil => intro a _; rfl
    | cons c l ih =>
        intro a hl
        have hc := (ch_digit (hl c (by simp))).2.2.2.2
        simp only [List.map_cons, List.foldl_cons, Nat.ofDigitChars]
        rw [hc, ih _ fun d hd => hl d (by simp [hd])]
        rfl
  rw [digitsVal, decimal, key _ _ fun c hc => Nat.isDigit_of_mem_toDigits (by decide) (by decide) hc]
  exact Nat.ofDigitChars_ten_toDigits

theorem takeWhile_isDigit_decimal (n : Nat) : (decimal n).takeWhile isDigit = decimal n :=
  List.takeWhile_eq_self_iff.mpr fun _ hb => isDigit_of_mem_decimal hb

theorem strtolRaw_decimal (n : Nat) : strtolRaw (decimal n) = n := by
  have hd := digitsVal_decimal n
  have ht := takeWhile_isDigit_decimal n
  rw [strtolRaw]
  cases hs : Nat.toDigits 10 n with
  | nil => exact absurd hs Nat.toDigits_ne_nil
  | cons c l =>
      have hc : c.isDigit = true :=
        Nat.isDigit_of_mem_toDigits (b := 10) (n := n) (by decide) (by decide) (by simp [hs])
      obtain ⟨-, hsp, hm, hp, -⟩ := ch_digit hc
      have hcons : decimal n = ch c :: l.map ch := by simp [decimal, hs]
      rw [hcons] at hd ht ⊢
      rw [List.dropWhile_cons, if_neg (by simp [hsp])]
      simp only [if_neg hm, if_neg hp, ht, hd]

/-- `atoi` reads back a decimal number that fits an `int`. -/
theorem atoi_decimal {n : Nat} (h : n < 2 ^ 31) : atoi (decimal n) = n := by
  rw [atoi, strtolRaw_decimal]
  have : max (-2 ^ 63 : Int) (min (n : Int) (2 ^ 63 - 1)) = n := by omega
  rw [this]
  exact toInt32_eq_self (by omega) (by omega)

end Cimabue
