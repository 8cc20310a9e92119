import Cimabue.Wire.Frame

/-!
# Wire — RoundTrip

Three statements about `Recv`, over every message and over every stream.

* `recv_serialize_iff`: a message comes back from the wire as it was sent exactly when its type has
  a name of its own, its priority is normal, its strings are clean and its fields leave room for
  one byte of the priority.
* `header_independent`: whatever a message contains, and even if it is cut, the header that is
  received is the one that was sent.
* `frameGrammar_iff`: `Recv` implements the documented frame (`Frame`, `FrameGrammar`) on a stream
  exactly when the stream opens with a frame whose fields no NUL cuts, or the peer closes before a
  `|` and before the buffer is full.  On every other stream `deserialize` takes what it can from
  the tokens it finds: too many are dropped, too few are read past the end of the list.
-/

namespace Cimabue
namespace Message

/-! ### Round trip -/

theorem encodeType_ne_setClientList (s : Bytes) : encodeType s ≠ .setClientList := by
  rw [encodeType]
  split_ifs <;> simp

theorem encodeType_decodeType {t : MessageType} (h : t ≠ .setClientList) :
    encodeType (decodeType t) = t := by
  cases t
  case setClientList => exact absurd rfl h
  all_goals decide

/-- What is kept of a text `serialize` wrote, or of the beginning of one, does not begin with a
separator. -/
theorem head?_of_received_cut {m : Message} {peer text : Bytes} (hpeer : peer <+: m.serialize)
    (h : received peer = some text) : text.head? ≠ some msgSeparator := by
  have hkept := received_prefix h
  obtain ⟨s, hs⟩ := hkept.trans hpeer
  rw [serialize_eq] at hs
  have hhead := head?_headText_append m (decodePriority m.priority ++ [msgEnd])
  rw [← hs, List.head?_append] at hhead
  intro e
  rw [e] at hhead
  exact hhead rfl

/-- What comes back from the wire has clean strings, a named type and the normal priority. -/
theorem of_recv_serialize {m m₀ m' : Message} (h : recv m₀ m.serialize = .ok (.success, m')) :
    m'.type ≠ .setClientList ∧ m'.priority = .normal ∧ m'.CleanHeader := by
  obtain ⟨text, hrec, hdes⟩ := recv_success_iff.mp h
  obtain ⟨t₁, t₂, t₃, t₄, t₅, t₆, t₇, rest, htok, rfl⟩ := deserialize_ok_iff.mp hdes
  rw [tokenize_of_head (head?_of_received_cut List.prefix_rfl hrec)] at htok
  have hclean : ∀ f ∈ t₁ :: t₂ :: t₃ :: t₄ :: t₅ :: t₆ :: t₇ :: rest, Clean f := fun f hf =>
    clean_of_mem_runs hrec (Except.ok.inj htok ▸ hf)
  exact ⟨encodeType_ne_setClientList t₁, rfl, hclean t₂ (by simp), hclean t₃ (by simp),
    hclean t₄ (by simp), hclean t₅ (by simp), hclean t₆ (by simp)⟩

/-- **Exact round trip.** -/
theorem recv_serialize_iff (m₀ m : Message) :
    recv m₀ m.serialize = .ok (.success, m) ↔
      m.type ≠ .setClientList ∧ m.priority = .normal ∧
        (Clean m.clientSrc ∧ Clean m.clientDest ∧ Clean m.serverSrc ∧ Clean m.serverDest ∧
          Clean m.data) ∧
        (decodeType m.type).length + (m.clientSrc.length + m.clientDest.length
          + m.serverSrc.length + m.serverDest.length + m.data.length) + 6 ≤ 4094 := by
  have hlen : (decodeType m.type).length + (m.clientSrc.length + m.clientDest.length
      + m.serverSrc.length + m.serverDest.length + m.data.length) + 6 = m.headLength := by
    rw [headLength]
    omega
  rw [hlen]
  constructor
  · intro h
    -- the fields that come back are fields of a text, and they are the message's own
    obtain ⟨htype, hprio, hclean⟩ := of_recv_serialize h
    exact ⟨htype, hprio, hclean, headLength_le_of_recv hclean h⟩
  · rintro ⟨htype, hprio, hclean, hfit⟩
    have hm : m.afterWire = m := by
      rw [afterWire, encodeType_decodeType htype, ← hprio]
    rw [recv_serialize hclean hfit m₀, hm]

/-! ### Header and content -/

/-- The type and the four routing fields, as `serialize` writes them. -/
def routing (m : Message) : List Bytes :=
  [decodeType m.type, m.clientSrc, m.clientDest, m.serverSrc, m.serverDest]

/-- The two messages have the same type, clients and servers. -/
def SameHeader (m m' : Message) : Prop :=
  m.type = m'.type ∧ m.clientSrc = m'.clientSrc ∧ m.clientDest = m'.clientDest ∧
    m.serverSrc = m'.serverSrc ∧ m.serverDest = m'.serverDest

theorem routing_prefix_serialize (m : Message) :
    m.routing.flatMap (· ++ [msgSeparator]) <+: m.serialize :=
  ⟨m.data ++ ([msgSeparator] ++ (decodePriority m.priority ++ [msgEnd])), by
    simp [serialize, routing]⟩

/-- The routing fields may be written to the wire; of the content nothing is said. -/
def CleanRouting (m : Message) : Prop :=
  Clean m.clientSrc ∧ Clean m.clientDest ∧ Clean m.serverSrc ∧ Clean m.serverDest

instance (m : Message) : Decidable m.CleanRouting := inferInstanceAs (Decidable (_ ∧ _))

theorem CleanRouting.mem {m : Message} (h : m.CleanRouting) {f : Bytes} (hf : f ∈ m.routing) :
    Clean f := by
  obtain ⟨h₁, h₂, h₃, h₄⟩ := h
  simp only [routing, List.mem_cons, List.not_mem_nil, or_false] at hf
  rcases hf with rfl | rfl | rfl | rfl | rfl
  exacts [clean_decodeType _, h₁, h₂, h₃, h₄]

/-- The first fields that `serialize` writes are the first tokens of what is received, also when
the stream breaks off. -/
theorem tokens_of_cut {m m₀ m' : Message} {peer : Bytes} {fs : List Bytes}
    (hfs : ∀ f ∈ fs, f ≠ [] ∧ msgSeparator ∉ f)
    (hm : fs.flatMap (· ++ [msgSeparator]) <+: m.serialize) (hlen : fs.length < 7)
    (hpeer : peer <+: m.serialize) (h : recv m₀ peer = .ok (.success, m')) :
    ∃ t₁ t₂ t₃ t₄ t₅ t₆ t₇ rest rest', t₁ :: t₂ :: t₃ :: t₄ :: t₅ :: t₆ :: t₇ :: rest = fs ++ rest' ∧
      m' = ofTokens t₁ t₂ t₃ t₄ t₅ t₆ t₇ := by
  obtain ⟨text, hkept, hdes⟩ := recv_success_iff.mp h
  obtain ⟨t₁, t₂, t₃, t₄, t₅, t₆, t₇, rest, htok, rfl⟩ := deserialize_ok_iff.mp hdes
  rw [tokenize_of_head (head?_of_received_cut hpeer hkept)] at htok
  have htok := Except.ok.inj htok
  have hmore : fs.length < (runs msgSeparator text).length := by
    rw [htok]
    simp only [List.length_cons]
    omega
  have hcut := received_prefix hkept
  obtain ⟨rest', hrest⟩ := runs_eq_append_of_cut hfs hm (hcut.trans hpeer) hmore
  exact ⟨t₁, t₂, t₃, t₄, t₅, t₆, t₇, rest, rest', htok.symm.trans hrest, rfl⟩

/-- **The first five fields are the header**, whatever the content: a text that is cut before the
content has no seven fields. -/
theorem sameHeader_of_recv {m m₀ m' : Message} {peer : Bytes} (htype : m.type ≠ .setClientList)
    (hclean : m.CleanRouting) (hpeer : peer <+: m.serialize)
    (h : recv m₀ peer = .ok (.success, m')) : m'.SameHeader m := by
  have hfields : ∀ f ∈ m.routing, f ≠ [] ∧ msgSeparator ∉ f := fun f hf =>
    ⟨(hclean.mem hf).1, (hclean.mem hf).2.1⟩
  obtain ⟨t₁, t₂, t₃, t₄, t₅, t₆, t₇, rest, rest', htok, rfl⟩ :=
    tokens_of_cut hfields m.routing_prefix_serialize (by simp [routing]) hpeer h
  simp only [routing, List.cons_append, List.nil_append, List.cons.injEq] at htok
  obtain ⟨rfl, rfl, rfl, rfl, rfl, -⟩ := htok
  exact ⟨encodeType_decodeType htype, rfl, rfl, rfl, rfl⟩

/-- The type of what is received is the one that was sent, whatever the other fields. -/
theorem type_of_cut {m m₀ m' : Message} {peer : Bytes} (htype : m.type ≠ .setClientList)
    (hpeer : peer <+: m.serialize) (h : recv m₀ peer = .ok (.success, m')) : m'.type = m.type := by
  have hfields : ∀ f ∈ [decodeType m.type], f ≠ [] ∧ msgSeparator ∉ f := by
    simpa using ⟨(clean_decodeType m.type).1, (clean_decodeType m.type).2.1⟩
  have hm : [decodeType m.type].flatMap (· ++ [msgSeparator]) <+: m.serialize := by
    refine List.IsPrefix.trans ?_ m.routing_prefix_serialize
    simp [routing]
  obtain ⟨t₁, t₂, t₃, t₄, t₅, t₆, t₇, rest, rest', htok, rfl⟩ :=
    tokens_of_cut hfields hm (by simp) hpeer h
  obtain ⟨rfl, -⟩ := List.cons.inj htok
  exact encodeType_decodeType htype

/-- **Content forges no header.**  Whatever the two contents of one header, when both texts are
received the two messages have the header that was sent. -/
theorem header_independent (m m₀ m₀' m₁ m₂ : Message) (d₁ d₂ : Bytes)
    (htype : m.type ≠ .setClientList) (hclean : m.CleanRouting)
    (h₁ : recv m₀ { m with data := d₁ }.serialize = .ok (.success, m₁))
    (h₂ : recv m₀' { m with data := d₂ }.serialize = .ok (.success, m₂)) :
    m₁.SameHeader m₂ ∧ m₁.SameHeader m ∧ m₂.SameHeader m := by
  have hsame₁ : m₁.SameHeader m :=
    sameHeader_of_recv (m := { m with data := d₁ }) htype hclean List.prefix_rfl h₁
  have hsame₂ : m₂.SameHeader m :=
    sameHeader_of_recv (m := { m with data := d₂ }) htype hclean List.prefix_rfl h₂
  obtain ⟨ht, hcs, hcd, hss, hsd⟩ := hsame₂
  refine ⟨?_, hsame₁, ht, hcs, hcd, hss, hsd⟩
  rw [SameHeader, ht, hcs, hcd, hss, hsd]
  exact hsame₁

/-- A greeting, and a content written like the end of one frame and the beginning of another. -/
theorem header_independent_forged :
    ∃ m₁ m₂,
      recv {} (lit "MSG_SEND_MESSAGE-1-2- -7-ann@hi-MSG_PRIORITY_NORMAL|") = .ok (.success, m₁) ∧
      recv {} (lit "MSG_SEND_MESSAGE-1-2- -7--9-9|MSG_ADD_CLIENT-3-MSG_PRIORITY_NORMAL|") =
        .ok (.success, m₂) ∧ m₁.SameHeader m₂ :=
  ⟨_, _, rfl, rfl, (header_independent
    { type := .sendMessage, clientSrc := lit "1", clientDest := lit "2", serverDest := lit "7" }
    {} {} _ _ (lit "ann@hi") (lit "-9-9|MSG_ADD_CLIENT-3") (by decide) (by decide) rfl rfl).1⟩

end Message

/-! ### The documented frame -/

/-- `type-src_client-dst_client-src_server-dst_server-data-priority`: seven non-empty fields
without separators. -/
structure Frame where
  type : Bytes
  clientSrc : Bytes
  clientDest : Bytes
  serverSrc : Bytes
  serverDest : Bytes
  data : Bytes
  priority : Bytes
  fields_ok : ∀ f ∈ [type, clientSrc, clientDest, serverSrc, serverDest, data, priority],
    f ≠ [] ∧ msgSeparator ∉ f ∧ msgEnd ∉ f

namespace Frame

/-- The fields before the priority. -/
def head (fr : Frame) : List Bytes :=
  [fr.type, fr.clientSrc, fr.clientDest, fr.serverSrc, fr.serverDest, fr.data]

/-- The text of a frame, without its `|`. -/
def text (fr : Frame) : Bytes := fr.head.flatMap (· ++ [msgSeparator]) ++ fr.priority

/-- The message a frame stands for. -/
def message (fr : Frame) : Message :=
  .ofTokens fr.type fr.clientSrc fr.clientDest fr.serverSrc fr.serverDest fr.data fr.priority

/-- The stream `peer` opens with the frame, its `|` within `MSG_BUFFER_SIZE` bytes. -/
def Opens (fr : Frame) (peer : Bytes) : Prop :=
  ∃ rest, peer = fr.text ++ msgEnd :: rest ∧ fr.text.length < msgBufferSize

/-- No NUL cuts a field that is read: none in the first six, none in front of the priority. -/
def Uncut (fr : Frame) : Prop := (∀ f ∈ fr.head, (0 : Byte) ∉ f) ∧ fr.priority.head? ≠ some 0

theorem mem_head {fr : Frame} {f : Bytes} (h : f ∈ fr.head) :
    f ≠ [] ∧ msgSeparator ∉ f ∧ msgEnd ∉ f := by
  refine fr.fields_ok f ?_
  simp only [head, List.mem_cons, List.not_mem_nil, or_false] at h ⊢
  tauto

theorem runs_head_append (fr : Frame) (s : Bytes) :
    runs msgSeparator (fr.head.flatMap (· ++ [msgSeparator]) ++ s) =
      fr.head ++ runs msgSeparator s :=
  runs_flatMap_append (fun _ hf => ⟨(mem_head hf).1, (mem_head hf).2.1⟩) s

theorem runs_text (fr : Frame) : runs msgSeparator fr.text = fr.head ++ [fr.priority] := by
  obtain ⟨hne, hsep, -⟩ := fr.fields_ok fr.priority (by simp)
  rw [text, runs_head_append, runs_of_not_mem hsep hne]

theorem msgEnd_not_mem_text (fr : Frame) : msgEnd ∉ fr.text := by
  intro h
  rcases List.mem_append.mp h with h | h
  · obtain ⟨f, hf, hx⟩ := List.mem_flatMap.mp h
    rcases List.mem_append.mp hx with hx | hx
    · exact (mem_head hf).2.2 hx
    · exact absurd hx (by decide)
  · exact (fr.fields_ok fr.priority (by simp)).2.2 h

theorem Opens.takeWhile {fr : Frame} {peer : Bytes} (h : fr.Opens peer) :
    peer.takeWhile (· ≠ msgEnd) = fr.text := by
  obtain ⟨rest, rfl, -⟩ := h
  rw [List.takeWhile_append_of_pos]
  · simp
  · intro x hx
    simpa using fun (e : x = msgEnd) => fr.msgEnd_not_mem_text (e ▸ hx)

/-- Of a stream that opens with a frame, the frame is kept, up to its first NUL. -/
theorem Opens.received {fr : Frame} {peer : Bytes} (h : fr.Opens peer) :
    Message.received peer = some (cstr fr.text) := by
  obtain ⟨rest, hpeer, hlen⟩ := h
  rw [Message.received_eq, if_pos (.inl (by simp [hpeer])), Opens.takeWhile ⟨rest, hpeer, hlen⟩,
    List.take_of_length_le (by omega)]

/-- A stream opens with one frame at most, up to the names of its parts. -/
theorem Opens.head_eq {fr fr' : Frame} {peer : Bytes} (h : fr.Opens peer) (h' : fr'.Opens peer) :
    fr.head = fr'.head ∧ fr.priority = fr'.priority := by
  have e : fr.head ++ [fr.priority] = fr'.head ++ [fr'.priority] := by
    rw [← runs_text, ← runs_text, ← h.takeWhile, h'.takeWhile]
  simpa using List.append_inj' e rfl

theorem head?_text_append (fr : Frame) (s : Bytes) :
    (fr.head.flatMap (· ++ [msgSeparator]) ++ s).head? ≠ some msgSeparator := by
  obtain ⟨hne, hsep, -⟩ := fr.fields_ok fr.type (by simp)
  obtain ⟨a, t, ht⟩ := List.exists_cons_of_ne_nil hne
  have ha : a ≠ msgSeparator := fun e => hsep (by simp [ht, e])
  simpa [head, ht] using ha

/-- A frame no NUL cuts gives its seven tokens. -/
theorem Uncut.deserialize {fr : Frame} (h : fr.Uncut) :
    Message.deserialize (cstr fr.text) = .ok fr.message := by
  obtain ⟨hhead, hprio⟩ := h
  obtain ⟨hne, hsep, -⟩ := fr.fields_ok fr.priority (by simp)
  have hnul : ∀ x ∈ fr.head.flatMap (· ++ [msgSeparator]), (decide (x ≠ 0)) = true := by
    intro x hx
    obtain ⟨f, hf, hxf⟩ := List.mem_flatMap.mp hx
    rcases List.mem_append.mp hxf with hxf | hxf
    · simpa using fun (e : x = 0) => hhead f hf (e ▸ hxf)
    · rw [List.mem_singleton.mp hxf]; decide
  have hcut : cstr fr.text = fr.head.flatMap (· ++ [msgSeparator]) ++ cstr fr.priority := by
    rw [text, cstr, List.takeWhile_append_of_pos hnul, cstr]
  have hq : cstr fr.priority ≠ [] := by
    obtain ⟨a, t, ht⟩ := List.exists_cons_of_ne_nil hne
    rw [ht] at hprio ⊢
    simpa [cstr] using hprio
  have htok : tokenize msgSeparator (cstr fr.text) = .ok (fr.head ++ [cstr fr.priority]) := by
    rw [hcut, tokenize_of_head (fr.head?_text_append _), runs_head_append,
      runs_of_not_mem (fun hx => hsep ((cstr_sublist _).subset hx)) hq]
  -- the text of the priority is ignored
  exact (Message.deserialize_of_tokens [] htok).trans rfl

/-- A NUL that cuts a field leaves nothing of the priority. -/
theorem cstr_text_prefix {fr : Frame} (h : ¬ fr.Uncut) :
    cstr fr.text <+: fr.head.flatMap (· ++ [msgSeparator]) := by
  by_cases hnul : (0 : Byte) ∈ fr.head.flatMap (· ++ [msgSeparator])
  · have hcut : cstr fr.text = cstr (fr.head.flatMap (· ++ [msgSeparator])) := by
      rw [text, cstr, List.takeWhile_append, if_neg, cstr]
      intro e
      have := (List.takeWhile_prefix (· ≠ (0 : Byte))).eq_of_length e
      exact zero_not_mem_cstr _ (this ▸ hnul)
    rw [hcut]
    exact List.takeWhile_prefix _
  · have hprio : fr.priority.head? = some 0 := by
      by_contra hp
      refine h ⟨fun f hf hx => hnul (List.mem_flatMap.mpr ⟨f, hf, ?_⟩), hp⟩
      exact List.mem_append_left _ hx
    obtain ⟨t, ht⟩ := List.head?_eq_some_iff.mp hprio
    have hcut : cstr fr.text = fr.head.flatMap (· ++ [msgSeparator]) := by
      rw [text, ht, cstr, List.takeWhile_append_of_pos]
      · simp
      · intro x hx
        simpa using fun (e : x = 0) => hnul (e ▸ hx)
    exact ⟨[], by rw [List.append_nil, hcut]⟩

/-- A frame a NUL cuts gives fewer than seven tokens. -/
theorem deserialize_of_cut {fr : Frame} (h : ¬ fr.Uncut) :
    Message.deserialize (cstr fr.text) = .error .emptyFront := by
  obtain ⟨s, hs⟩ := cstr_text_prefix h
  have hhead : (cstr fr.text).head? ≠ some msgSeparator := by
    intro e
    have := fr.head?_text_append []
    rw [List.append_nil, ← hs, List.head?_append, e] at this
    exact this rfl
  have hfew : (runs msgSeparator (cstr fr.text)).length < 7 := by
    have h₁ := length_runs_le_append msgSeparator (cstr fr.text) s
    have h₂ := fr.runs_head_append []
    rw [List.append_nil, runs_nil, List.append_nil] at h₂
    rw [hs, h₂] at h₁
    exact Nat.lt_succ_of_le h₁
  exact Message.deserialize_of_few (tokenize_of_head hhead) hfew

end Frame

/-- What the documented format asks of `Recv` on the stream `peer`: a frame is received field by
field, everything else is an error that leaves the message as it was. -/
def FrameGrammar (peer : Bytes) : Prop :=
  ∀ m₀ : Message,
    (∀ fr : Frame, fr.Opens peer → m₀.recv peer = .ok (.success, fr.message)) ∧
    ((¬ ∃ fr : Frame, fr.Opens peer) → m₀.recv peer = .ok (.error, m₀))

theorem Message.recv_of_received {m₀ : Message} {peer text : Bytes}
    (h : Message.received peer = some text) :
    m₀.recv peer = (Message.deserialize text).map fun m => (.success, m) := by
  simp only [recv, h]
  rfl

/-- **Where the documented format holds**: on a stream that opens with a frame no NUL cuts, and on
one that closes before a `|` and before the buffer is full. -/
theorem frameGrammar_iff (peer : Bytes) :
    FrameGrammar peer ↔
      (∃ fr : Frame, fr.Opens peer ∧ fr.Uncut) ∨
        (msgEnd ∉ peer ∧ peer.length < msgBufferSize) := by
  constructor
  · intro h
    by_cases hfr : ∃ fr : Frame, fr.Opens peer
    · obtain ⟨fr, hopen⟩ := hfr
      refine .inl ⟨fr, hopen, ?_⟩
      by_contra hcut
      have hrecv := (h {}).1 fr hopen
      rw [Message.recv_of_received hopen.received, Frame.deserialize_of_cut hcut] at hrecv
      cases hrecv
    · -- the message is an error, so nothing was kept
      have hrecv := (h {}).2 hfr
      cases hkept : Message.received peer with
      | none =>
          rw [Message.received_eq] at hkept
          split_ifs at hkept with hc
          push Not at hc
          exact .inr hc
      | some text =>
          rw [Message.recv_of_received hkept] at hrecv
          cases hdes : Message.deserialize text with
          | error f => rw [hdes] at hrecv; cases hrecv
          | ok m => rw [hdes] at hrecv; cases hrecv
  · rintro (⟨fr, hopen, hcut⟩ | ⟨hend, hlen⟩) m₀
    · refine ⟨fun fr' hopen' => ?_, fun hno => absurd ⟨fr, hopen⟩ hno⟩
      have hcut' : fr'.Uncut := by
        obtain ⟨hh, hp⟩ := hopen.head_eq hopen'
        rw [Frame.Uncut] at hcut ⊢
        rwa [← hh, ← hp]
      rw [Message.recv_of_received hopen'.received, hcut'.deserialize]
      rfl
    · have hkept : Message.received peer = none := by
        rw [Message.received_eq, if_neg]
        rintro (h | h)
        exacts [hend h, absurd h (by omega)]
      refine ⟨fun fr hopen => ?_, fun _ => by simp only [Message.recv, hkept]⟩
      rw [hopen.received] at hkept
      cases hkept

/-- A frame of one field: `front()` of an empty list. -/
theorem not_frameGrammar_ping : ¬ FrameGrammar (lit "MSG_PING_CLIENT|") := by
  intro h
  have hrecv : Message.recv {} (lit "MSG_PING_CLIENT|") = .error .emptyFront := by decide
  by_cases hfr : ∃ fr : Frame, fr.Opens (lit "MSG_PING_CLIENT|")
  · obtain ⟨fr, hopen⟩ := hfr
    rw [(h {}).1 fr hopen] at hrecv
    cases hrecv
  · rw [(h {}).2 hfr] at hrecv
    cases hrecv

end Cimabue
