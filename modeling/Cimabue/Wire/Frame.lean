import Cimabue.Model.Message

/-!
# Wire — Frame

What `Recv` makes of a stream, and what it makes of a text `serialize` wrote.

* `received_eq`: the text `Recv` keeps is what comes before the first `|`, cut to 4095 bytes and
  at the first NUL; it keeps none when the peer closes before a `|` and before 4096 bytes.
* `deserialize_ok_iff`: a text decodes exactly when the tokenizer finds at least seven tokens, and
  the message is made of the first seven.
* `recv_serialize`: a message whose strings are `Clean` and whose fields leave room for a byte of
  the priority is received with every field.
* `headLength_le_of_recv`: and if its fields leave no room, it is not received.
-/

namespace Cimabue

/-- Text that crosses the wire as one field: non-empty, without `-`, `|` and NUL. -/
def Clean (s : Bytes) : Prop := s ≠ [] ∧ msgSeparator ∉ s ∧ msgEnd ∉ s ∧ (0 : Byte) ∉ s

instance (s : Bytes) : Decidable (Clean s) := inferInstanceAs (Decidable (_ ∧ _))

theorem clean_msgVoid : Clean msgVoid := by decide

theorem clean_decodeType (t : MessageType) : Clean (decodeType t) := by
  cases t <;> decide

theorem clean_decodePriority (p : MessagePriority) : Clean (decodePriority p) :=
  show Clean (lit "MSG_PRIORITY_NORMAL") by decide

namespace Message

/-! ### The text that is kept -/

/-- The loop of `Recv` stops at the first `|`, or with the buffer full. -/
theorem recvLoop_eq (room : Nat) (peer : Bytes) :
    recvLoop room peer =
      if msgEnd ∈ peer.take room then some (peer.takeWhile (· ≠ msgEnd) ++ [msgEnd])
      else if room ≤ peer.length then some (peer.take room) else none := by
  induction room generalizing peer with
  | zero => simp [recvLoop]
  | succ room ih =>
      cases peer with
      | nil => simp [recvLoop]
      | cons b peer =>
          by_cases hb : b = msgEnd
          · simp [recvLoop, hb]
          · simp only [recvLoop, if_neg hb, ih, List.take_succ_cons, List.mem_cons,
              List.length_cons, Nat.add_le_add_iff_right, Ne.symm hb, false_or]
            split_ifs with h₁ h₂
            · simp [hb]
            · simp
            · rfl

theorem cstr_append_zero (s : Bytes) : cstr (s ++ [0]) = cstr s := by
  induction s with
  | nil => rfl
  | cons b s ih =>
      by_cases hb : b = 0
      · simp [cstr, hb]
      · simpa [cstr, hb] using ih

/-- Overwriting the last byte by NUL removes it from the text. -/
theorem cstr_set_last (s : Bytes) (b : Byte) :
    cstr ((s ++ [b]).set ((s ++ [b]).length - 1) 0) = cstr s := by
  rw [← cstr_append_zero s]
  congr 1
  simp

theorem length_takeWhile_lt {p : Byte → Bool} {x : Byte} (hx : p x = false) :
    ∀ {s : Bytes} {n : Nat}, x ∈ s.take n → (s.takeWhile p).length < n
  | [], _, h | _ :: _, 0, h => by simp at h
  | a :: s, n + 1, h => by
      rw [List.take_succ_cons, List.mem_cons] at h
      by_cases ha : p a = true
      · have hs : x ∈ s.take n := h.resolve_left fun e => by simp [← e, hx] at ha
        simpa [ha] using length_takeWhile_lt hx hs
      · simp [ha]

/-- **The text that is kept**: what comes before the first `|`, cut to 4095 bytes and at the first
NUL. -/
theorem received_eq (peer : Bytes) :
    received peer =
      if msgEnd ∈ peer ∨ msgBufferSize ≤ peer.length then
        some (cstr ((peer.takeWhile (· ≠ msgEnd)).take (msgBufferSize - 1)))
      else none := by
  rw [received, recvLoop_eq]
  by_cases hend : msgEnd ∈ peer.take msgBufferSize
  · have hlen : (peer.takeWhile (· ≠ msgEnd)).length < msgBufferSize :=
      length_takeWhile_lt (by simp) hend
    rw [if_pos hend, if_pos (.inl (List.mem_of_mem_take hend)), Option.map_some, cstr_set_last,
      List.take_of_length_le (by omega)]
  · rw [if_neg hend]
    by_cases hfull : msgBufferSize ≤ peer.length
    · rw [if_pos hfull, if_pos (.inr hfull), Option.map_some]
      -- no `|` among the bytes kept, so cutting there changes nothing
      have hcut : (peer.takeWhile (· ≠ msgEnd)).take (msgBufferSize - 1) =
          peer.take (msgBufferSize - 1) := by
        rw [List.take_takeWhile]
        refine List.takeWhile_eq_self_iff.mpr fun x hx => ?_
        have hx' : x ∈ peer.take msgBufferSize :=
          (List.take_sublist_take_left (by decide)).subset hx
        simpa using fun (e : x = msgEnd) => hend (e ▸ hx')
      have hlen : msgBufferSize - 1 < peer.length := by
        simp only [msgBufferSize] at hfull ⊢
        omega
      have hlast : peer.take msgBufferSize =
          peer.take (msgBufferSize - 1) ++ [peer[msgBufferSize - 1]] := by
        rw [← List.take_succ_eq_append_getElem]
        rfl
      rw [hcut, hlast, cstr_set_last]
    · have hnot : msgEnd ∉ peer := by
        rwa [List.take_of_length_le (by omega)] at hend
      rw [if_neg hfull, if_neg (by tauto), Option.map_none]

/-- The text that is kept has neither `|` nor NUL. -/
theorem not_mem_of_received {peer text : Bytes} (h : received peer = some text) :
    msgEnd ∉ text ∧ (0 : Byte) ∉ text ∧ text.length ≤ msgBufferSize - 1 := by
  rw [received_eq] at h
  split_ifs at h
  obtain rfl := Option.some.inj h
  have hsub := cstr_sublist ((peer.takeWhile (· ≠ msgEnd)).take (msgBufferSize - 1))
  refine ⟨fun hm => ?_, zero_not_mem_cstr _, ?_⟩
  · simpa using List.mem_takeWhile_imp (List.mem_of_mem_take (hsub.subset hm))
  · exact hsub.length_le.trans (List.length_take_le _ _)

/-! ### The seven tokens -/

/-- The message `deserialize` makes of its seven tokens. -/
def ofTokens (type clientSrc clientDest serverSrc serverDest data priority : Bytes) : Message :=
  { type := encodeType type, clientSrc, clientDest, serverSrc, serverDest, data,
    priority := encodePriority priority }

theorem deserialize_of_tokens {s t₁ t₂ t₃ t₄ t₅ t₆ t₇ : Bytes} (rest : List Bytes)
    (h : tokenize msgSeparator s = .ok (t₁ :: t₂ :: t₃ :: t₄ :: t₅ :: t₆ :: t₇ :: rest)) :
    deserialize s = .ok (ofTokens t₁ t₂ t₃ t₄ t₅ t₆ t₇) := by
  rw [deserialize, h]; rfl

theorem deserialize_of_throw {s : Bytes} {f : Fault} (h : tokenize msgSeparator s = .error f) :
    deserialize s = .error f := by
  rw [deserialize, h]; rfl

/-- Fewer than seven tokens: `front()` of an empty list. -/
theorem deserialize_of_few {s : Bytes} {ts : List Bytes} (h : tokenize msgSeparator s = .ok ts)
    (hlen : ts.length < 7) : deserialize s = .error .emptyFront := by
  rw [deserialize, h]
  match ts, hlen with
  | [], _ | [_], _ | [_, _], _ | [_, _, _], _ | [_, _, _, _], _ | [_, _, _, _, _], _
  | [_, _, _, _, _, _], _ => rfl

/-- **What decodes**: a text of at least seven tokens. -/
theorem deserialize_ok_iff {s : Bytes} {m : Message} :
    deserialize s = .ok m ↔ ∃ t₁ t₂ t₃ t₄ t₅ t₆ t₇ rest,
      tokenize msgSeparator s = .ok (t₁ :: t₂ :: t₃ :: t₄ :: t₅ :: t₆ :: t₇ :: rest) ∧
        m = ofTokens t₁ t₂ t₃ t₄ t₅ t₆ t₇ := by
  constructor
  · intro h
    cases htok : tokenize msgSeparator s with
    | error f => rw [deserialize_of_throw htok] at h; cases h
    | ok ts =>
        match ts, htok with
        | t₁ :: t₂ :: t₃ :: t₄ :: t₅ :: t₆ :: t₇ :: rest, htok =>
            rw [deserialize_of_tokens rest htok] at h
            exact ⟨t₁, t₂, t₃, t₄, t₅, t₆, t₇, rest, rfl, (Except.ok.inj h).symm⟩
        | [], htok | [_], htok | [_, _], htok | [_, _, _], htok | [_, _, _, _], htok
        | [_, _, _, _, _], htok | [_, _, _, _, _, _], htok =>
            rw [deserialize_of_few htok (by simp)] at h; cases h
  · rintro ⟨t₁, t₂, t₃, t₄, t₅, t₆, t₇, rest, htok, rfl⟩
    exact deserialize_of_tokens rest htok

/-- `Recv` succeeds exactly when it keeps a text and the text decodes. -/
theorem recv_success_iff {m m' : Message} {peer : Bytes} :
    recv m peer = .ok (.success, m') ↔
      ∃ text, received peer = some text ∧ deserialize text = .ok m' := by
  rw [recv]
  cases received peer with
  | none => simp
  | some text =>
      cases h : deserialize text with
      | error f => simp [h, bind, Except.bind]
      | ok m'' => simp [h, bind, Except.bind, pure, Except.pure]

/-- `Recv` fails exactly when the peer stops before a `|` and before the buffer is full, and then
the message is as it was. -/
theorem recv_error_iff {m m' : Message} {peer : Bytes} :
    recv m peer = .ok (.error, m') ↔
      (msgEnd ∉ peer ∧ peer.length < msgBufferSize) ∧ m' = m := by
  rw [recv, received_eq]
  split_ifs with hkept
  · have hnot : ¬(msgEnd ∉ peer ∧ peer.length < msgBufferSize) := fun ⟨hend, hlen⟩ =>
      hkept.elim hend (Nat.not_le.mpr hlen)
    simp only [hnot, false_and, iff_false]
    intro h
    obtain ⟨m'', -, h⟩ := bind_eq_ok.mp h
    cases h
  · obtain ⟨hend, hlen⟩ := not_or.mp hkept
    simp [hend, Nat.not_le.mp hlen, eq_comm]

/-! ### A text `serialize` wrote -/

/-- The six fields `serialize` writes before the priority. -/
def header (m : Message) : List Bytes :=
  [decodeType m.type, m.clientSrc, m.clientDest, m.serverSrc, m.serverDest, m.data]

/-- What `serialize` writes before the priority. -/
def headText (m : Message) : Bytes := m.header.flatMap (· ++ [msgSeparator])

/-- The bytes before the priority: the type name, the five strings and six separators. -/
def headLength (m : Message) : Nat :=
  (decodeType m.type).length + m.clientSrc.length + m.clientDest.length + m.serverSrc.length
    + m.serverDest.length + m.data.length + 6

theorem length_headText (m : Message) : m.headText.length = m.headLength := by
  simp [headText, header, headLength]; omega

theorem serialize_eq (m : Message) :
    m.serialize = m.headText ++ (decodePriority m.priority ++ [msgEnd]) := by
  simp [serialize, headText, header]

theorem head?_headText_append (m : Message) (s : Bytes) :
    (m.headText ++ s).head? ≠ some msgSeparator := by
  have h : (decodeType m.type).head? = some (ch 'M') := by cases m.type <;> decide
  rw [headText, header, List.flatMap_cons, List.append_assoc, List.append_assoc,
    List.head?_append, h, Option.some_or]
  decide

/-- The six fields of a message may be written to the wire. -/
def CleanHeader (m : Message) : Prop :=
  Clean m.clientSrc ∧ Clean m.clientDest ∧ Clean m.serverSrc ∧ Clean m.serverDest ∧ Clean m.data

instance (m : Message) : Decidable m.CleanHeader := inferInstanceAs (Decidable (_ ∧ _))

theorem CleanHeader.mem {m : Message} (h : m.CleanHeader) {f : Bytes} (hf : f ∈ m.header) :
    Clean f := by
  obtain ⟨h₁, h₂, h₃, h₄, h₅⟩ := h
  simp only [header, List.mem_cons, List.not_mem_nil, or_false] at hf
  rcases hf with rfl | rfl | rfl | rfl | rfl | rfl
  exacts [clean_decodeType _, h₁, h₂, h₃, h₄, h₅]

theorem CleanHeader.runs_headText {m : Message} (h : m.CleanHeader) (s : Bytes) :
    runs msgSeparator (m.headText ++ s) = m.header ++ runs msgSeparator s :=
  runs_flatMap_append (fun _ hf => ⟨(h.mem hf).1, (h.mem hf).2.1⟩) s

theorem CleanHeader.not_mem_headText {m : Message} (h : m.CleanHeader) :
    msgEnd ∉ m.headText ∧ (0 : Byte) ∉ m.headText := by
  have hmem : ∀ x, x ≠ msgSeparator → (∀ f, Clean f → x ∉ f) → x ∉ m.headText := by
    intro x hsep hclean hx
    obtain ⟨f, hf, hx⟩ := List.mem_flatMap.mp hx
    rcases List.mem_append.mp hx with hx | hx
    · exact hclean f (h.mem hf) hx
    · exact hsep (List.mem_singleton.mp hx)
  exact ⟨hmem msgEnd (by decide) fun _ hf => hf.2.2.1, hmem 0 (by decide) fun _ hf => hf.2.2.2⟩

/-- Of a clean message `Recv` keeps the fields and the priority, cut to 4095 bytes. -/
theorem CleanHeader.received_serialize {m : Message} (h : m.CleanHeader) :
    received m.serialize =
      some ((m.headText ++ decodePriority m.priority).take (msgBufferSize - 1)) := by
  obtain ⟨hend, hnul⟩ := h.not_mem_headText
  obtain ⟨-, -, hpend, hpnul⟩ := clean_decodePriority m.priority
  have hpre : m.serialize.takeWhile (· ≠ msgEnd) = m.headText ++ decodePriority m.priority := by
    rw [serialize_eq, ← List.append_assoc, List.takeWhile_append_of_pos]
    · simp
    · intro x hx
      have : x ≠ msgEnd := fun e => (List.mem_append.mp (e ▸ hx)).elim hend hpend
      simpa using this
  rw [received_eq, if_pos (.inl (by simp [serialize_eq])), hpre, cstr_eq_self]
  exact fun hx => (List.mem_append.mp (List.mem_of_mem_take hx)).elim hnul hpnul

/-- What `Recv` makes of a text `serialize` wrote of `m`: the type of `MSG_SET_CLIENT_LIST` has no
name of its own, and every priority reads as normal. -/
def afterWire (m : Message) : Message :=
  { m with type := encodeType (decodeType m.type), priority := .normal }

/-- **A clean message that fits is received.** -/
theorem recv_serialize {m : Message} (h : m.CleanHeader) (hlen : m.headLength ≤ msgBufferSize - 2)
    (m₀ : Message) : recv m₀ m.serialize = .ok (.success, m.afterWire) := by
  refine recv_success_iff.mpr ⟨_, h.received_serialize, ?_⟩
  obtain ⟨hne, hsep, -, -⟩ := clean_decodePriority m.priority
  -- at least one byte of the priority is kept, and its text is ignored
  have hroom : msgBufferSize - 1 - m.headText.length ≠ 0 := by
    rw [length_headText]; simp only [msgBufferSize] at hlen ⊢; omega
  have hq : (decodePriority m.priority).take (msgBufferSize - 1 - m.headText.length) ≠ [] :=
    fun e => (List.take_eq_nil_iff.mp e).elim hroom hne
  have htok : tokenize msgSeparator
      (m.headText ++ (decodePriority m.priority).take (msgBufferSize - 1 - m.headText.length)) =
      .ok (m.header ++ [(decodePriority m.priority).take (msgBufferSize - 1 - m.headText.length)]) := by
    rw [tokenize_of_head (head?_headText_append m _), h.runs_headText,
      runs_of_not_mem (fun hx => hsep (List.mem_of_mem_take hx)) hq]
  rw [List.take_append, List.take_of_length_le (by rw [length_headText]; omega)]
  exact deserialize_of_tokens [] htok

/-- A clean message that does not fit loses its priority token, and `deserialize` takes the front
of an empty list. -/
theorem recv_serialize_of_long {m : Message} (h : m.CleanHeader)
    (hlen : msgBufferSize - 1 ≤ m.headLength) (m₀ : Message) :
    recv m₀ m.serialize = .error .emptyFront := by
  have hcut : (m.headText ++ decodePriority m.priority).take (msgBufferSize - 1) =
      m.headText.take (msgBufferSize - 1) :=
    List.take_append_of_le_length (by rw [length_headText]; exact hlen)
  have hhead : (m.headText.take (msgBufferSize - 1)).head? ≠ some msgSeparator := by
    have := head?_headText_append m []
    rw [List.append_nil] at this
    rwa [List.head?_take, if_neg (by decide)]
  have hfew : (runs msgSeparator (m.headText.take (msgBufferSize - 1))).length < 7 := by
    have h₁ := length_runs_le_append msgSeparator (m.headText.take (msgBufferSize - 1))
      (m.headText.drop (msgBufferSize - 1))
    have h₂ := h.runs_headText []
    rw [List.append_nil, runs_nil, List.append_nil] at h₂
    rw [List.take_append_drop, h₂] at h₁
    exact Nat.lt_succ_of_le h₁
  simp only [recv, h.received_serialize, hcut, deserialize_of_few (tokenize_of_head hhead) hfew]
  rfl

/-- A clean message is received exactly when it fits. -/
theorem headLength_le_of_recv {m m₀ m' : Message} (h : m.CleanHeader)
    (hr : recv m₀ m.serialize = .ok (.success, m')) : m.headLength ≤ msgBufferSize - 2 := by
  by_contra hlen
  rw [recv_serialize_of_long h (by simp only [msgBufferSize] at hlen ⊢; omega)] at hr
  cases hr

/-! ### What was received is clean -/

theorem received_prefix {peer text : Bytes} (h : received peer = some text) : text <+: peer := by
  rw [received_eq] at h
  split_ifs at h
  rw [← Option.some.inj h]
  exact ((List.takeWhile_prefix _).trans (List.take_prefix _ _)).trans (List.takeWhile_prefix _)

/-- Every field of a text that is kept is clean. -/
theorem clean_of_mem_runs {peer text f : Bytes} (h : received peer = some text)
    (hf : f ∈ runs msgSeparator text) : Clean f := by
  obtain ⟨hend, hnul, -⟩ := not_mem_of_received h
  obtain ⟨hne, hsep, hmem⟩ := mem_runs hf
  exact ⟨hne, hsep, fun hx => hend (hmem _ hx), fun hx => hnul (hmem _ hx)⟩

/-- The name of a type has no separator in it. -/
theorem msgSeparator_not_mem_of_encodeType {t : Bytes} (h : encodeType t ≠ .none) :
    msgSeparator ∉ t := by
  rw [encodeType] at h
  split_ifs at h
  case neg => exact absurd rfl h
  all_goals subst t; decide

/-- **What a message of a named type was decoded from**: its tokens are the fields of the text that
was kept, and each is clean. -/
theorem tokens_of_recv {m₀ m : Message} {peer : Bytes} (h : m₀.recv peer = .ok (.success, m))
    (htype : m.type ≠ .none) :
    ∃ text t₁ t₂ t₃ t₄ t₅ t₆ t₇ rest, received peer = some text ∧
      runs msgSeparator text = t₁ :: t₂ :: t₃ :: t₄ :: t₅ :: t₆ :: t₇ :: rest ∧
      (∀ f ∈ t₁ :: t₂ :: t₃ :: t₄ :: t₅ :: t₆ :: t₇ :: rest, Clean f) ∧
      m = ofTokens t₁ t₂ t₃ t₄ t₅ t₆ t₇ := by
  obtain ⟨text, hkept, hdes⟩ := recv_success_iff.mp h
  obtain ⟨t₁, t₂, t₃, t₄, t₅, t₆, t₇, rest, htok, rfl⟩ := deserialize_ok_iff.mp hdes
  have hruns := runs_of_tokenize htok (msgSeparator_not_mem_of_encodeType htype) (by simp)
  exact ⟨text, t₁, t₂, t₃, t₄, t₅, t₆, t₇, rest, hkept, hruns,
    fun f hf => clean_of_mem_runs hkept (hruns ▸ hf), rfl⟩

theorem cleanHeader_of_recv {m₀ m : Message} {peer : Bytes}
    (h : m₀.recv peer = .ok (.success, m)) (htype : m.type ≠ .none) : m.CleanHeader := by
  obtain ⟨text, t₁, t₂, t₃, t₄, t₅, t₆, t₇, rest, -, -, hclean, rfl⟩ := tokens_of_recv h htype
  exact ⟨hclean t₂ (by simp), hclean t₃ (by simp), hclean t₄ (by simp), hclean t₅ (by simp),
    hclean t₆ (by simp)⟩

end Message

end Cimabue
