import Cimabue.Model.Client
import Cimabue.Model.Server

/-!
# Wire — ListCodec

The text of a list of clients: a number, then `:nickname:name` for each (`entriesText`), as the
server writes it and `decodeUpdate` reads it.

* `decodeUpdate_entriesText`: entries without `:` are read back in order, when the number says how
  many there are.
* `decodeUpdate_newcomerEntry`, `decodeUpdate_listEntry`: so are the two texts the server writes.
* `client_list_round_trip`: so is the text of any list of pairs (`listText`), and the client's
  directory becomes the old one with those pairs inserted.
* `decodeUpdate_spec`: whatever the text, `decodeUpdate` reads it without a fault, and reads no
  nickname with a `:` in it.
-/

namespace Cimabue

/-- The entries of the pairs of a nickname and a name. -/
def entriesText (ps : List (Bytes × Bytes)) : Bytes :=
  ps.flatMap fun p => dataSeparator :: p.1 ++ dataSeparator :: p.2

/-- The pairs of a map from names to nicknames, in its order. -/
def nickPairs (nicks : StdMap Bytes Bytes) : List (Bytes × Bytes) :=
  nicks.entries.map fun e => (e.2, e.1)

theorem mem_nickPairs {nicks : StdMap Bytes Bytes} {x v : Bytes} :
    (x, v) ∈ nickPairs nicks ↔ nicks.find v = some x := by
  rw [StdMap.find_eq_some_iff, nickPairs, List.mem_map]
  refine ⟨?_, fun he => ⟨⟨v, x⟩, he, rfl⟩⟩
  rintro ⟨⟨v', x'⟩, he, h⟩
  cases h
  exact he

/-- No `:` in either part. -/
def Unsplit (p : Bytes × Bytes) : Prop := dataSeparator ∉ p.1 ∧ dataSeparator ∉ p.2

instance (p : Bytes × Bytes) : Decidable (Unsplit p) := inferInstanceAs (Decidable (_ ∧ _))

/-! ### One entry -/

theorem findFirstOf_none (pre : Bytes) {f : Bytes} (h : dataSeparator ∉ f) :
    findFirstOf (pre ++ f) dataSeparator (some pre.length) = none :=
  findFrom_append_none pre fun x hx => by
    simpa using fun (e : x = dataSeparator) => h (e ▸ hx)

theorem findFirstOf_found (pre : Bytes) {f : Bytes} (s : Bytes) (h : dataSeparator ∉ f) :
    findFirstOf (pre ++ (f ++ dataSeparator :: s)) dataSeparator (some pre.length) =
      some (pre.length + f.length) :=
  findFrom_append_found pre s
    (fun x hx => by simpa using fun (e : x = dataSeparator) => h (e ▸ hx)) (by simp)

/-- The text after the first separator. -/
theorem substr_after (f s : Bytes) :
    substr (f ++ dataSeparator :: s) (some (f.length + 1)) none = .ok s := by
  have := substr_append_none (f ++ [dataSeparator]) s
  simpa using this

/-- The last entry: the whole rest is the name, and a blank is left. -/
theorem extractNewClient_last {nick name : Bytes} (h₁ : dataSeparator ∉ nick)
    (h₂ : dataSeparator ∉ name) :
    extractNewClient (nick ++ dataSeparator :: name) = .ok ((nick, name), msgVoid) := by
  have hfirst := findFirstOf_found [] name h₁
  have hsecond := findFirstOf_none (nick ++ [dataSeparator]) h₂
  have hnick := substr_append_some [] nick (dataSeparator :: name)
  simp only [List.nil_append, List.length_nil, Nat.zero_add] at hfirst hnick
  simp only [List.append_assoc, List.singleton_append, List.length_append,
    List.length_singleton] at hsecond
  simp only [extractNewClient, hfirst, posSucc, hnick, hsecond, ok_bind, substr_after, pure_eq_ok]

/-- An entry with another one after it. -/
theorem extractNewClient_next {nick name : Bytes} (s : Bytes) (h₁ : dataSeparator ∉ nick)
    (h₂ : dataSeparator ∉ name) :
    extractNewClient (nick ++ dataSeparator :: (name ++ dataSeparator :: s)) =
      .ok ((nick, name), s) := by
  have hfirst := findFirstOf_found [] (name ++ dataSeparator :: s) h₁
  have hsecond := findFirstOf_found (nick ++ [dataSeparator]) s h₂
  have hnick := substr_append_some [] nick (dataSeparator :: (name ++ dataSeparator :: s))
  have hname := substr_append_some (nick ++ [dataSeparator]) name (dataSeparator :: s)
  have hrest := substr_after (nick ++ dataSeparator :: name) s
  have hlen : posSub (posSub (some (nick.length + 1 + name.length)) (some nick.length)) (some 1) =
      some name.length := by
    simp only [posSub]
    rw [if_pos (by omega)]
    simp only
    rw [if_pos (by omega)]
    congr 1
    omega
  simp only [List.nil_append, List.length_nil, Nat.zero_add] at hfirst hnick
  simp only [List.append_assoc, List.nil_append, List.cons_append, List.length_append,
    List.length_cons, List.length_nil, Nat.zero_add] at hsecond hname hrest
  rw [show nick.length + (name.length + 1) + 1 = nick.length + 1 + name.length + 1 by omega] at hrest
  simp only [extractNewClient, hfirst, posSucc, hnick, hsecond, ok_bind, hlen, hname, hrest,
    pure_eq_ok]

/-! ### The entries -/

theorem entriesText_cons (p : Bytes × Bytes) (ps : List (Bytes × Bytes)) :
    entriesText (p :: ps) = dataSeparator :: (p.1 ++ dataSeparator :: (p.2 ++ entriesText ps)) := by
  simp [entriesText]

/-- The entries after the first separator are read back. -/
theorem extractClients_entries {p : Bytes × Bytes} {ps : List (Bytes × Bytes)}
    (h : ∀ q ∈ p :: ps, Unsplit q) :
    extractClients (ps.length + 1) (p.1 ++ dataSeparator :: (p.2 ++ entriesText ps)) =
      .ok (p :: ps) := by
  induction ps generalizing p with
  | nil =>
      obtain ⟨h₁, h₂⟩ := h p (by simp)
      simp [extractClients, entriesText, extractNewClient_last h₁ h₂]
  | cons q ps ih =>
      obtain ⟨h₁, h₂⟩ := h p (by simp)
      have hrest := ih (p := q) fun r hr => h r (List.mem_cons_of_mem _ hr)
      rw [entriesText_cons, List.length_cons, extractClients, extractNewClient_next _ h₁ h₂,
        ok_bind]
      simp only [hrest, ok_bind, pure_eq_ok]

/-- **Lists read back.**  Entries without `:`, after a number that says how many there are. -/
theorem decodeUpdate_entriesText {number : Bytes} {ps : List (Bytes × Bytes)}
    (hnumber : dataSeparator ∉ number) (hcount : toUInt32 (atoi number) = ps.length)
    (h : ∀ p ∈ ps, Unsplit p) : decodeUpdate (number ++ entriesText ps) = .ok ps := by
  cases ps with
  | nil =>
      have hfirst := findFirstOf_none [] hnumber
      have hnum := substr_append_none [] number
      simp only [List.nil_append, List.length_nil] at hfirst hnum
      simp only [entriesText, List.flatMap_nil, List.append_nil, decodeUpdate, hfirst, posSucc, hnum,
        ok_bind, hcount]
      rfl
  | cons p ps =>
      have hfirst := findFirstOf_found [] (p.1 ++ dataSeparator :: (p.2 ++ entriesText ps))
        hnumber
      have hnum := substr_append_some [] number
        (dataSeparator :: (p.1 ++ dataSeparator :: (p.2 ++ entriesText ps)))
      simp only [List.nil_append, List.length_nil, Nat.zero_add] at hfirst hnum
      rw [entriesText_cons]
      simp only [decodeUpdate, hfirst, posSucc, hnum, ok_bind, substr_after, hcount]
      exact extractClients_entries h

/-! ### Any text -/

/-- A text without a separator is read twice: both searches start over. -/
theorem extractNewClient_single {data : Bytes} (h : dataSeparator ∉ data) :
    extractNewClient data = .ok ((data, data), msgVoid) := by
  have hnone := findFirstOf_none [] h
  have hall := substr_append_none [] data
  simp only [List.nil_append, List.length_nil] at hnone hall
  simp only [extractNewClient, hnone, posSucc, hall, ok_bind, pure_eq_ok]

/-- **Any text has a first entry.**  Its nickname has no separator; where no part of the text is
empty, the nickname is not, and no part of what is left is. -/
theorem extractNewClient_spec (data : Bytes) :
    ∃ nick name rest, extractNewClient data = .ok ((nick, name), rest) ∧ dataSeparator ∉ nick ∧
      (Filled dataSeparator data → nick ≠ [] ∧ Filled dataSeparator rest) := by
  have hvoid : Filled dataSeparator msgVoid := filled_of_not_mem (by decide) (by decide)
  by_cases hdata : dataSeparator ∈ data
  · obtain ⟨nick, s, rfl, hnick⟩ := List.eq_append_cons_of_mem hdata
    by_cases hs : dataSeparator ∈ s
    · obtain ⟨name, rest, rfl, hname⟩ := List.eq_append_cons_of_mem hs
      refine ⟨nick, name, rest, extractNewClient_next rest hnick hname, hnick, fun h => ?_⟩
      obtain ⟨h₁, h₂⟩ := filled_append_cons.mp h
      exact ⟨h₁.ne_nil, (filled_append_cons.mp h₂).2⟩
    · exact ⟨nick, s, msgVoid, extractNewClient_last hnick hs, hnick, fun h =>
        ⟨(filled_append_cons.mp h).1.ne_nil, hvoid⟩⟩
  · exact ⟨data, data, msgVoid, extractNewClient_single hdata, hdata, fun h => ⟨h.ne_nil, hvoid⟩⟩

theorem extractClients_spec (count : Nat) (data : Bytes) :
    ∃ ps, extractClients count data = .ok ps ∧ (∀ p ∈ ps, dataSeparator ∉ p.1) ∧
      (Filled dataSeparator data → ∀ p ∈ ps, p.1 ≠ []) := by
  induction count generalizing data with
  | zero => exact ⟨[], rfl, nofun, fun _ => nofun⟩
  | succ count ih =>
      obtain ⟨nick, name, rest, hfirst, hnick, hfilled⟩ := extractNewClient_spec data
      obtain ⟨ps, hps, hsep, hne⟩ := ih rest
      refine ⟨(nick, name) :: ps, ?_, ?_, fun h => ?_⟩
      · simp only [extractClients, hfirst, hps, ok_bind, pure_eq_ok]
      · rintro p hp
        rcases List.mem_cons.mp hp with rfl | hp
        · exact hnick
        · exact hsep p hp
      · obtain ⟨h₁, h₂⟩ := hfilled h
        rintro p hp
        rcases List.mem_cons.mp hp with rfl | hp
        · exact h₁
        · exact hne h₂ p hp

/-- **Any text is read**, and its nicknames have no separator; where no part of the text is empty, no
nickname is. -/
theorem decodeUpdate_spec (data : Bytes) :
    ∃ ps, decodeUpdate data = .ok ps ∧ (∀ p ∈ ps, dataSeparator ∉ p.1) ∧
      (Filled dataSeparator data → ∀ p ∈ ps, p.1 ≠ []) := by
  by_cases hdata : dataSeparator ∈ data
  · obtain ⟨number, s, rfl, hnumber⟩ := List.eq_append_cons_of_mem hdata
    obtain ⟨ps, hps, hsep, hne⟩ := extractClients_spec (toUInt32 (atoi number)) s
    refine ⟨ps, ?_, hsep, fun h => hne (filled_append_cons.mp h).2⟩
    have hfirst := findFirstOf_found [] s hnumber
    have hnum := substr_append_some [] number (dataSeparator :: s)
    simp only [List.nil_append, List.length_nil, Nat.zero_add] at hfirst hnum
    simp only [decodeUpdate, hfirst, posSucc, hnum, ok_bind, substr_after, hps]
  · obtain ⟨ps, hps, hsep, hne⟩ := extractClients_spec (toUInt32 (atoi data)) data
    refine ⟨ps, ?_, hsep, hne⟩
    have hnone := findFirstOf_none [] hdata
    have hall := substr_append_none [] data
    simp only [List.nil_append, List.length_nil] at hnone hall
    simp only [decodeUpdate, hnone, posSucc, hall, ok_bind, hps]

/-- A list of parts that are not empty has no empty part. -/
theorem filled_append_entriesText {s : Bytes} {ps : List (Bytes × Bytes)}
    (hs : Filled dataSeparator s)
    (h : ∀ p ∈ ps, Filled dataSeparator p.1 ∧ Filled dataSeparator p.2) :
    Filled dataSeparator (s ++ entriesText ps) := by
  induction ps generalizing s with
  | nil => simpa [entriesText] using hs
  | cons p ps ih =>
      obtain ⟨h₁, h₂⟩ := h p (by simp)
      have hrest := ih (s := p.2) h₂ fun q hq => h q (List.mem_cons_of_mem _ hq)
      rw [entriesText_cons]
      exact filled_append_cons.mpr ⟨hs, filled_append_cons.mpr ⟨h₁, hrest⟩⟩

theorem toUInt32_of_lt {n : Nat} (h : n < 2 ^ 31) : toUInt32 (n : Int) = n := by
  rw [toUInt32]
  omega

/-! ### The server's two texts -/

theorem decodeUpdate_newcomerEntry {nick name : Bytes} (h : Unsplit (nick, name)) :
    decodeUpdate (Server.newcomerEntry nick name) = .ok [(nick, name)] := by
  have htext : Server.newcomerEntry nick name = lit "1" ++ entriesText [(nick, name)] := by
    have h₁ : lit "1:" = [ch '1', ch ':'] := rfl
    have h₂ : lit ":" = [ch ':'] := rfl
    have h₃ : lit "1" = [ch '1'] := rfl
    simp [Server.newcomerEntry, entriesText, h₁, h₂, h₃, dataSeparator]
  rw [htext]
  have hone : toUInt32 (atoi (lit "1")) = 1 := by decide
  exact decodeUpdate_entriesText (by decide) hone (by simpa using h)

theorem listEntry_eq (nicks : StdMap Bytes Bytes) :
    Server.listEntry nicks = decimalInt (toInt32 nicks.size) ++ entriesText (nickPairs nicks) := by
  have hsep : lit ":" = [dataSeparator] := rfl
  simp [Server.listEntry, entriesText, nickPairs, List.flatMap_map, hsep]

/-- The text of a list of pairs: their number, cast to `int`, and the entries. -/
def listText (ps : List (Bytes × Bytes)) : Bytes :=
  decimalInt (toInt32 ps.length) ++ entriesText ps

theorem length_nickPairs (nicks : StdMap Bytes Bytes) : (nickPairs nicks).length = nicks.size := by
  rw [nickPairs, List.length_map]
  rfl

theorem listEntry_eq_listText (nicks : StdMap Bytes Bytes) :
    Server.listEntry nicks = listText (nickPairs nicks) := by
  rw [listEntry_eq, listText, length_nickPairs]

/-- The bytes of the entries: the two parts of each, and their separators. -/
theorem length_entriesText (ps : List (Bytes × Bytes)) :
    (entriesText ps).length = (ps.map fun p => 2 + p.1.length + p.2.length).sum := by
  induction ps with
  | nil => rfl
  | cons p ps ih =>
      rw [entriesText_cons, List.map_cons, List.sum_cons, ← ih]
      simp only [List.length_cons, List.length_append]
      omega

/-- There are no more entries than bytes. -/
theorem length_le_entriesText (ps : List (Bytes × Bytes)) : ps.length ≤ (entriesText ps).length := by
  induction ps with
  | nil => exact Nat.zero_le _
  | cons p ps ih =>
      rw [entriesText_cons]
      simp only [List.length_cons, List.length_append]
      omega

theorem length_le_listText (ps : List (Bytes × Bytes)) : ps.length ≤ (listText ps).length := by
  rw [listText, List.length_append]
  exact Nat.le_add_left_of_le (length_le_entriesText ps)

/-- **The full list reads back**, as long as an `int` counts it. -/
theorem decodeUpdate_listText {ps : List (Bytes × Bytes)} (hlen : ps.length < 2 ^ 31)
    (h : ∀ p ∈ ps, Unsplit p) : decodeUpdate (listText ps) = .ok ps := by
  rw [listText, toInt32_eq_self (by omega) (by omega), decimalInt_natCast]
  refine decodeUpdate_entriesText (not_mem_decimal (by decide)) ?_ h
  rw [atoi_decimal hlen, toUInt32_of_lt hlen]

theorem decodeUpdate_listEntry {nicks : StdMap Bytes Bytes} (hsize : nicks.size < 2 ^ 31)
    (h : ∀ p ∈ nickPairs nicks, Unsplit p) :
    decodeUpdate (Server.listEntry nicks) = .ok (nickPairs nicks) := by
  rw [listEntry_eq_listText]
  exact decodeUpdate_listText (by rwa [length_nickPairs]) h

/-- **The list, from the server to the directory.**  The client reads back the pairs the server
wrote, in order, and its directory becomes the old one with those pairs inserted: a nickname that
was there keeps its client. -/
theorem client_list_round_trip (ps : List (Bytes × Bytes)) (hlen : ps.length < 2 ^ 31)
    (h : ∀ p ∈ ps, Unsplit p) :
    (∀ nicks, nickPairs nicks = ps → Server.listEntry nicks = listText ps) ∧
    decodeUpdate (listText ps) = .ok ps ∧
    ∀ (c : Client) (msg : Message), msg.type = .updateAddClients → msg.clientDest = c.name →
      msg.data = listText ps →
      ∃ c', c.processDownMessage msg = .ok (c', ps.map (fun p => .notify (.updateAdd p.1)) ++
          [.reply {}, .close], .success) ∧
        c'.clientNickToNameMap = c.clientNickToNameMap.insertAll ps ∧
        ∀ nick, c'.clientNickToNameMap.find nick =
          (c.clientNickToNameMap.find nick).or ((ps.find? (·.1 = nick)).map (·.2)) := by
  have hdecode := decodeUpdate_listText hlen h
  refine ⟨fun nicks hnicks => ?_, hdecode, fun c msg htype hdest hdata => ?_⟩
  · rw [listEntry_eq_listText, hnicks]
  · refine ⟨{ c with clientNickToNameMap := c.clientNickToNameMap.insertAll ps }, ?_, rfl,
      fun nick => StdMap.find_insertAll _ ps nick⟩
    rw [Client.processDownMessage, if_neg (by simp [hdest]), htype, hdata]
    simp only [hdecode, ok_bind, pure_eq_ok]

/-- Two clients, one of them without a nickname, and the empty list. -/
theorem client_list_round_trip_two :
    decodeUpdate (lit "2:ann:1::2") = .ok [(lit "ann", lit "1"), ([], lit "2")] ∧
      decodeUpdate (lit "0") = .ok [] :=
  ⟨(client_list_round_trip [(lit "ann", lit "1"), ([], lit "2")] (by decide) (by decide)).2.1,
    (client_list_round_trip [] (by decide) (by decide)).2.1⟩

theorem filled_decimalInt (z : Int) : Filled dataSeparator (decimalInt z) := by
  cases z with
  | ofNat n => exact filled_of_not_mem (not_mem_decimal (by decide)) (decimal_ne_nil n)
  | negSucc n =>
      refine filled_of_not_mem (fun h => ?_) (List.cons_ne_nil _ _)
      rcases List.mem_cons.mp h with h | h
      · exact absurd h (by decide)
      · exact not_mem_decimal (by decide) h

theorem filled_listEntry {nicks : StdMap Bytes Bytes}
    (h : ∀ p ∈ nickPairs nicks, Filled dataSeparator p.1 ∧ Filled dataSeparator p.2) :
    Filled dataSeparator (Server.listEntry nicks) := by
  rw [listEntry_eq]
  exact filled_append_entriesText (filled_decimalInt _) h

end Cimabue
