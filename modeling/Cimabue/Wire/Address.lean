import Cimabue.Model.Client

/-!
# Wire — Address

What the parsers of `Node.cpp` make of the text a client registered under.

* `parseNicknameAndAddress_iff`, `reachable_iff`: the parsers give an address exactly when the
  tokenizer finds three tokens.
* `threeTokens_iff`: these are the texts with three fields, or with two after a separator.
* `reachable_registration`: the text `nickname:ip:port` is one, whatever the nickname.
* `parse_registration`: with a non-empty nickname without `:`, the nickname is read back.
* `registration_parses_iff`: all three parts are read back exactly when neither the nickname nor the
  address is empty or has a `:` in it.
-/

namespace Cimabue

/-- The tokenizer finds at least three tokens in the text. -/
def ThreeTokens (data : Bytes) : Prop :=
  ∃ nickname address port rest,
    tokenize dataSeparator data = .ok (nickname :: address :: port :: rest)

/-- An address a message can be sent to. -/
def Reachable (data : Bytes) : Prop := ∃ ip port, parseAddress data = .ok (some (ip, port))

/-- `parseAddress` reads what `parseNicknameAndAddress` does, and drops the nickname. -/
theorem parseAddress_eq (data : Bytes) :
    parseAddress data = (parseNicknameAndAddress data).map (Option.map (·.2)) := by
  rw [parseAddress, parseNicknameAndAddress]
  cases tokenizeClientData data with
  | error f => rfl
  | ok tokens? =>
      match tokens? with
      | none => rfl
      | some (_ :: _ :: _ :: _) => rfl
      | some [_, _] | some [_] | some [] => rfl

/-- **What a parser of three tokens returns.** -/
theorem parseNicknameAndAddress_iff {data : Bytes} :
    (∃ nickname ip port, parseNicknameAndAddress data = .ok (some (nickname, ip, port))) ↔
      ThreeTokens data := by
  constructor
  · rintro ⟨nickname, ip, port, h⟩
    obtain ⟨tokens?, htok, h⟩ := bind_eq_ok.mp h
    obtain ⟨tokens, hraw, hpos⟩ := bind_eq_ok.mp htok
    cases hpos
    match tokens, hraw with
    | a :: b :: c :: rest, hraw => exact ⟨a, b, c, rest, hraw⟩
    | [_, _], _ | [_], _ | [], _ => simp [popFront] at h
  · rintro ⟨nickname, address, port, rest, h⟩
    exact ⟨nickname, address, toUInt32 (atoi port),
      by simp [parseNicknameAndAddress, tokenizeClientData, h]⟩

theorem reachable_iff {data : Bytes} : Reachable data ↔ ThreeTokens data := by
  rw [← parseNicknameAndAddress_iff, Reachable, parseAddress_eq]
  constructor
  · rintro ⟨ip, port, h⟩
    cases hp : parseNicknameAndAddress data with
    | error f => rw [hp] at h; cases h
    | ok r =>
        rw [hp] at h
        obtain ⟨⟨nickname, ip', port'⟩, rfl, -⟩ := Option.map_eq_some_iff.mp (Except.ok.inj h)
        exact ⟨nickname, ip', port', rfl⟩
  · rintro ⟨nickname, ip, port, h⟩
    exact ⟨ip, port, by rw [h]; rfl⟩

/-- The nickname is the first token. -/
theorem parseNickname_of_tokens {data nickname : Bytes} {rest : List Bytes}
    (h : tokenize dataSeparator data = .ok (nickname :: rest)) :
    parseNickname data = .ok nickname := by
  simp [parseNickname, tokenizeClientData, h]

/-- Three non-empty parts between the separators; after a leading separator, two. -/
def ThreeParts (data : Bytes) : Prop :=
  if data.head? = some dataSeparator then 2 ≤ (runs dataSeparator data).length
  else 3 ≤ (runs dataSeparator data).length

/-- **Which texts have three tokens**: a separator in front makes one more. -/
theorem threeTokens_iff {data : Bytes} : ThreeTokens data ↔ ThreeParts data := by
  have hlong : ∀ ts : List Bytes, 3 ≤ ts.length ↔ ∃ a b c rest, ts = a :: b :: c :: rest := by
    intro ts
    match ts with
    | a :: b :: c :: rest => simp
    | [_, _] | [_] | [] => simp
  rw [ThreeTokens, ThreeParts, tokenize_eq]
  by_cases hs : data.head? = some dataSeparator
  · rw [if_pos hs, if_pos hs]
    by_cases hd : data.dropWhile (· = dataSeparator) = []
    · have hruns : runs dataSeparator data = [] := by rw [← runs_dropWhile, hd]; rfl
      simp [hd, hruns]
    · rw [if_neg hd]
      have := hlong (data.dropWhile (· = dataSeparator) :: runs dataSeparator data)
      rw [List.length_cons] at this
      simp only [Except.ok.injEq]
      exact Iff.trans this.symm (by omega)
  · rw [if_neg hs, if_neg hs]
    simp only [Except.ok.injEq]
    exact (hlong _).symm

/-- A part of a registration: not empty, without `:`. -/
def Part (s : Bytes) : Prop := s ≠ [] ∧ dataSeparator ∉ s

instance (s : Bytes) : Decidable (Part s) := inferInstanceAs (Decidable (_ ∧ _))

/-- The text `nickname:ip:port`. -/
def registration (nickname ip port : Bytes) : Bytes :=
  nickname ++ lit ":" ++ ip ++ lit ":" ++ port

theorem registration_eq (nickname ip port : Bytes) :
    registration nickname ip port =
      nickname ++ dataSeparator :: (ip ++ dataSeparator :: port) := by
  have hsep : lit ":" = [dataSeparator] := rfl
  simp [registration, hsep]

theorem tokenize_registration {nickname ip port : Bytes} (h₁ : Part nickname) (h₂ : Part ip)
    (h₃ : Part port) :
    tokenize dataSeparator (registration nickname ip port) = .ok [nickname, ip, port] := by
  have hhead : (registration nickname ip port).head? ≠ some dataSeparator := by
    obtain ⟨a, l, rfl⟩ := List.exists_cons_of_ne_nil h₁.1
    rw [registration_eq]
    simpa using fun (e : a = dataSeparator) => h₁.2 (by simp [e])
  rw [tokenize_of_head hhead, registration_eq, runs_field_cons _ h₁.2 h₁.1, runs_field_cons _ h₂.2 h₂.1,
    runs_of_not_mem h₃.2 h₃.1]

/-- A registration has an address and a port, whatever its nickname. -/
theorem reachable_registration (nickname : Bytes) {ip port : Bytes} (h₂ : Part ip) (h₃ : Part port) :
    Reachable (registration nickname ip port) := by
  have hruns : runs dataSeparator (registration nickname ip port) =
      runs dataSeparator nickname ++ [ip, port] := by
    rw [registration_eq, runs_append_cons, runs_field_cons _ h₂.2 h₂.1, runs_of_not_mem h₃.2 h₃.1]
  rw [reachable_iff, threeTokens_iff, ThreeParts, hruns]
  split_ifs with hhead
  · simp
  · -- a nickname that does not begin with a separator has a part of its own
    have hnick : runs dataSeparator nickname ≠ [] := by
      intro h
      cases nickname with
      | nil => exact hhead rfl
      | cons a s =>
          have ha : a = dataSeparator := runs_eq_nil_iff.mp h a (by simp)
          exact hhead (by simp [registration, ha])
    have := List.length_pos_iff.mpr hnick
    simp
    omega

theorem parseNickname_registration (nickname : Bytes) {ip port : Bytes} (h₂ : Part ip)
    (h₃ : Part port) : ∃ x, parseNickname (registration nickname ip port) = .ok x := by
  obtain ⟨x, address, number, rest, htok⟩ := reachable_iff.mp (reachable_registration nickname h₂ h₃)
  exact ⟨x, parseNickname_of_tokens htok⟩

/-- A registration under the empty nickname begins with a separator: what is read for its nickname is
all the rest. -/
theorem parseNickname_of_empty {ip : Bytes} (port : Bytes) (h₂ : Part ip) :
    parseNickname (registration [] ip port) = .ok (ip ++ dataSeparator :: port) := by
  obtain ⟨a, l, rfl⟩ := List.exists_cons_of_ne_nil h₂.1
  have ha : a ≠ dataSeparator := fun e => h₂.2 (by simp [e])
  have hdrop : (registration [] (a :: l) port).dropWhile (· = dataSeparator) =
      a :: l ++ dataSeparator :: port := by
    rw [registration_eq]
    simp [ha]
  have htok := tokenize_eq dataSeparator (registration [] (a :: l) port)
  rw [if_pos (by rw [registration_eq]; rfl), hdrop, if_neg (by simp)] at htok
  exact parseNickname_of_tokens htok

/-- **A registration parses.** -/
theorem parse_registration {nickname ip port : Bytes} (h₁ : Part nickname) (h₂ : Part ip)
    (h₃ : Part port) :
    parseNickname (registration nickname ip port) = .ok nickname ∧
      Reachable (registration nickname ip port) := by
  have htok := tokenize_registration h₁ h₂ h₃
  exact ⟨parseNickname_of_tokens htok, reachable_iff.mpr ⟨nickname, ip, port, [], htok⟩⟩

/-! ### Which registrations read back -/

/-- What a client registers with, where its parts have no NUL. -/
theorem nicknameIpPort_eq {c : Client} {ip d : Bytes} {port : Nat} (hnick : (0 : Byte) ∉ c.nickname)
    (hip : (0 : Byte) ∉ ip) (h : c.nicknameIpPort ip port = some d) :
    d = registration c.nickname ip (decimal port) := by
  rw [Client.nicknameIpPort, cstr_eq_self hnick, cstr_eq_self hip] at h
  obtain ⟨-, h⟩ := Option.ite_none_right_eq_some.mp h
  exact (Option.some.inj h).symm

/-- The first two tokens behind what the parser returns. -/
theorem tokenize_of_parse {data nickname ip : Bytes} {port : Nat}
    (h : parseNicknameAndAddress data = .ok (some (nickname, ip, port))) :
    ∃ number rest, tokenize dataSeparator data = .ok (nickname :: ip :: number :: rest) := by
  obtain ⟨a, b, c, rest, htok⟩ := parseNicknameAndAddress_iff.mp ⟨_, _, _, h⟩
  simp [parseNicknameAndAddress, tokenizeClientData, htok] at h
  obtain ⟨rfl, rfl, -⟩ := h
  exact ⟨c, rest, htok⟩

/-- Parts that read back are parts: a token is a field of the text, but for the first one of a text
that begins with a separator, which is no nickname that could have stood there. -/
theorem parts_of_parse {nickname ip number : Bytes} {port : Nat}
    (h : parseNicknameAndAddress (registration nickname ip number) =
      .ok (some (nickname, ip, port))) : Part nickname ∧ Part ip := by
  obtain ⟨third, rest, htok⟩ := tokenize_of_parse h
  by_cases hs : (registration nickname ip number).head? = some dataSeparator
  · obtain ⟨hnick, -⟩ := List.cons.inj (tokenize_of_sep hs htok)
    rw [registration_eq] at hs hnick
    cases nickname with
    | nil =>
        rw [tokenize_eq, if_pos (by rw [registration_eq]; exact hs), registration_eq,
          if_pos hnick.symm] at htok
        cases htok
    | cons a s =>
        obtain rfl : a = dataSeparator := by simpa using hs
        exact absurd rfl (head_dropWhile_ne hnick.symm)
  · rw [tokenize_of_head hs] at htok
    have hruns := Except.ok.inj htok
    have hpart : ∀ f ∈ nickname :: ip :: third :: rest, Part f := fun f hf => by
      rw [← hruns] at hf
      exact ⟨(mem_runs hf).1, (mem_runs hf).2.1⟩
    exact ⟨hpart nickname (by simp), hpart ip (by simp)⟩

/-- **The registrations that read back.**  The text a client registers with is parsed into the
nickname, the address and the port it was made of exactly when the nickname and the address are not
empty and without `:`; and then the two other parsers agree. -/
theorem registration_parses_iff (c : Client) (ip d : Bytes) (port : Nat)
    (hnick : (0 : Byte) ∉ c.nickname) (hip : (0 : Byte) ∉ ip) (hport : port ≤ 65535)
    (h : c.nicknameIpPort ip port = some d) :
    (parseNicknameAndAddress d = .ok (some (c.nickname, ip, port)) ↔
      (c.nickname ≠ [] ∧ dataSeparator ∉ c.nickname) ∧ ip ≠ [] ∧ dataSeparator ∉ ip) ∧
    (parseNicknameAndAddress d = .ok (some (c.nickname, ip, port)) →
      parseNickname d = .ok c.nickname ∧ parseAddress d = .ok (some (ip, port))) := by
  obtain rfl := nicknameIpPort_eq hnick hip h
  refine ⟨⟨parts_of_parse, fun ⟨h₁, h₂⟩ => ?_⟩, fun hparse => ?_⟩
  · have h₃ : Part (decimal port) := ⟨decimal_ne_nil port, not_mem_decimal (by decide)⟩
    have hread : toUInt32 (atoi (decimal port)) = port := by
      rw [atoi_decimal (by omega), toUInt32]
      omega
    simp [parseNicknameAndAddress, tokenizeClientData, tokenize_registration h₁ h₂ h₃, hread]
  · obtain ⟨number, rest, htok⟩ := tokenize_of_parse hparse
    exact ⟨parseNickname_of_tokens htok, by rw [parseAddress_eq, hparse]; rfl⟩

/-- A client with an address, and one without. -/
theorem registration_parses_ann :
    parseNicknameAndAddress (lit "ann:10.0.0.2:30001") =
        .ok (some (lit "ann", lit "10.0.0.2", 30001)) ∧
      parseNicknameAndAddress (lit "ann::30001") ≠ .ok (some (lit "ann", [], 30001)) :=
  ⟨(registration_parses_iff { name := lit "1", nickname := lit "ann" } (lit "10.0.0.2") _ 30001
      (by decide) (by decide) (by decide) rfl).1.mpr (by decide),
    fun h => ((registration_parses_iff { name := lit "1", nickname := lit "ann" } [] _ 30001
      (by decide) (by decide) (by decide) rfl).1.mp h).2.1 rfl⟩

end Cimabue
