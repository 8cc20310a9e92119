import Cimabue.Wire.Address
import Cimabue.Wire.Frame

/-!
# Wire — Fields

Each parser takes the front of a list of tokens a fixed number of times, and `front()` of an empty
list is not defined: which texts each of them gets through.

* `fields_iff`: how many tokens a text has; a separator in front makes one more, and a text of
  separators only makes `substr` throw.
* `deserialize_iff`, `parseNickname_iff`, `parseAddress_iff`, `extractNicknameAndData_iff`: what the
  four parsers need.
* `readable_iff`, `send_iff`: what `Recv` needs of a stream, and `Send` of the reply.
-/

namespace Cimabue

variable {α : Type*} [DecidableEq α]

/-- At least `n` tokens; with a separator in front there is something else as well. -/
def Fields (c : α) (n : Nat) (s : List α) : Prop :=
  if s.head? = some c then runs c s ≠ [] ∧ n ≤ (runs c s).length + 1 else n ≤ (runs c s).length

instance (c : α) (n : Nat) (s : List α) : Decidable (Fields c n s) :=
  inferInstanceAs (Decidable (if s.head? = some c then
    runs c s ≠ [] ∧ n ≤ (runs c s).length + 1 else n ≤ (runs c s).length))

/-- **How many tokens a text has.** -/
theorem fields_iff {c : α} {n : Nat} {s : List α} :
    Fields c n s ↔ ∃ ts, tokenize c s = .ok ts ∧ n ≤ ts.length := by
  have hnil : s.dropWhile (· = c) = [] ↔ runs c s = [] := by
    rw [runs_eq_nil_iff]
    simp [List.dropWhile_eq_nil_iff]
  rw [Fields, tokenize_eq]
  split_ifs with hhead hdrop
  · simp [hnil.mp hdrop]
  · have hruns : runs c s ≠ [] := fun h => hdrop (hnil.mpr h)
    simp [hruns]
  · simp

/-- A text without a separator in front has its fields for tokens. -/
theorem fields_zero_iff {c : α} {s : List α} :
    Fields c 0 s ↔ s = [] ∨ ∃ x ∈ s, x ≠ c := by
  have hruns : runs c s ≠ [] ↔ ∃ x ∈ s, x ≠ c := by
    rw [ne_eq, runs_eq_nil_iff]
    push Not
    rfl
  rw [Fields, hruns]
  cases s with
  | nil => simp
  | cons a s =>
      by_cases ha : a = c
      · simp [ha]
      · simp [ha]

theorem threeParts_iff {data : Bytes} : ThreeParts data ↔ Fields dataSeparator 3 data := by
  rw [ThreeParts, Fields]
  split_ifs with hhead
  · constructor
    · intro h
      refine ⟨?_, by omega⟩
      rw [← List.length_pos_iff]
      omega
    · rintro ⟨-, h⟩
      omega
  · exact Iff.rfl

/-! ### The parsers -/

/-- **What decodes.** -/
theorem Message.deserialize_iff {s : Bytes} :
    (∃ m, deserialize s = .ok m) ↔ Fields msgSeparator 7 s := by
  rw [fields_iff]
  constructor
  · rintro ⟨m, h⟩
    obtain ⟨t₁, t₂, t₃, t₄, t₅, t₆, t₇, rest, htok, -⟩ := deserialize_ok_iff.mp h
    exact ⟨_, htok, by simp⟩
  · rintro ⟨ts, htok, hlen⟩
    match ts, hlen with
    | t₁ :: t₂ :: t₃ :: t₄ :: t₅ :: t₆ :: t₇ :: rest, _ => exact ⟨_, deserialize_of_tokens rest htok⟩

/-- A nickname is read of any text that is not made of separators only. -/
theorem parseNickname_iff {data : Bytes} :
    (∃ nick, parseNickname data = .ok nick) ↔ Fields dataSeparator 0 data := by
  rw [fields_iff]
  constructor
  · rintro ⟨nick, h⟩
    obtain ⟨tokens?, htok, -⟩ := bind_eq_ok.mp h
    obtain ⟨tokens, hraw, -⟩ := bind_eq_ok.mp htok
    exact ⟨tokens, hraw, Nat.zero_le _⟩
  · rintro ⟨ts, htok, -⟩
    cases ts with
    | nil => exact ⟨[], by simp [parseNickname, tokenizeClientData, htok]⟩
    | cons nick rest => exact ⟨nick, parseNickname_of_tokens htok⟩

/-- An address is looked for in three tokens, or in none. -/
theorem parseAddress_iff {data : Bytes} :
    (∃ r, parseAddress data = .ok r) ↔ data = [] ∨ Fields dataSeparator 3 data := by
  rw [← threeParts_iff, ← threeTokens_iff, ← reachable_iff]
  constructor
  · rintro ⟨r, h⟩
    cases r with
    | some a => exact .inr ⟨a.1, a.2, h⟩
    | none =>
        -- the tokenizer has found nothing, and a text without tokens is empty
        refine .inl ?_
        obtain ⟨tokens?, htok, h⟩ := bind_eq_ok.mp h
        obtain ⟨tokens, hraw, htokens⟩ := bind_eq_ok.mp htok
        cases htokens
        match tokens, hraw with
        | [], hraw =>
            by_cases hhead : data.head? = some dataSeparator
            · exact absurd (tokenize_of_sep hhead hraw) nofun
            · rw [tokenize_of_head hhead] at hraw
              have hall := runs_eq_nil_iff.mp (Except.ok.inj hraw)
              cases data with
              | nil => rfl
              | cons a s => exact absurd (congrArg some (hall a (by simp))) hhead
        | [_], _ | [_, _], _ | _ :: _ :: _ :: _, _ => simp [popFront] at h
  · rintro (rfl | ⟨ip, port, h⟩)
    · exact ⟨none, rfl⟩
    · exact ⟨_, h⟩

/-- A chat text has two tokens. -/
theorem extractNicknameAndData_iff {data : Bytes} :
    (∃ p, extractNicknameAndData data = .ok p) ↔ Fields chatSeparator 2 data := by
  rw [fields_iff]
  constructor
  · rintro ⟨p, h⟩
    obtain ⟨ts, htok, h⟩ := bind_eq_ok.mp h
    rcases ts with _ | ⟨nick, _ | ⟨content, rest⟩⟩
    · simp [popFront] at h
    · simp [popFront] at h
    · exact ⟨_, htok, by simp⟩
  · rintro ⟨ts, htok, hlen⟩
    rcases ts with _ | ⟨nick, _ | ⟨content, rest⟩⟩
    · cases hlen
    · exact absurd hlen (by simp)
    · exact ⟨(nick, content), by simp [extractNicknameAndData, htok]⟩

/-! ### The streams -/

/-- Where what follows always goes through, a computation does when its first part does. -/
theorem exists_bind_iff {β γ : Type} {x : Except Fault β} {f : β → Except Fault γ}
    (hf : ∀ b, ∃ c, f b = .ok c) : (∃ c, x >>= f = .ok c) ↔ ∃ b, x = .ok b := by
  constructor
  · rintro ⟨c, h⟩
    obtain ⟨b, hb, -⟩ := bind_eq_ok.mp h
    exact ⟨b, hb⟩
  · rintro ⟨b, rfl⟩
    exact hf b

/-- A stream that `Recv` gets through: it keeps no text, or one of seven tokens. -/
def Readable (peer : Bytes) : Prop :=
  ∀ text ∈ Message.received peer, Fields msgSeparator 7 text

instance (peer : Bytes) : Decidable (Readable peer) :=
  inferInstanceAs (Decidable (∀ text ∈ Message.received peer, _))

theorem recv_iff {m : Message} {peer : Bytes} :
    (∃ r, m.recv peer = .ok r) ↔ Readable peer := by
  rw [Message.recv, Readable]
  cases Message.received peer with
  | none => simp
  | some text =>
      refine (exists_bind_iff fun m' => ⟨(Ret.success, m'), rfl⟩).trans ?_
      rw [Message.deserialize_iff]
      simp

/-- **What a node gets through.** -/
theorem readable_iff {peer : Bytes} : (∃ m, receive peer = .ok m) ↔ Readable peer :=
  (exists_bind_iff fun r => ⟨r.2, rfl⟩).trans recv_iff

/-- The reply that comes back, if one does, is one that `Recv` gets through. -/
def Message.Transport.Answered : Message.Transport → Prop
  | .exchanged peer => Readable peer
  | .noSocket | .noConnection | .shortSend => True

instance (t : Message.Transport) : Decidable t.Answered :=
  match t with
  | .exchanged peer => inferInstanceAs (Decidable (Readable peer))
  | .noSocket | .noConnection | .shortSend => inferInstanceAs (Decidable True)

theorem send_iff {t : Message.Transport} : (∃ reply, Message.send t = .ok reply) ↔ t.Answered := by
  cases t with
  | noSocket | noConnection | shortSend => exact ⟨fun _ => trivial, fun _ => ⟨_, rfl⟩⟩
  | exchanged peer =>
      refine (exists_bind_iff fun r => ?_).trans recv_iff
      dsimp only
      split_ifs
      · exact ⟨_, rfl⟩
      · exact ⟨_, rfl⟩

end Cimabue
