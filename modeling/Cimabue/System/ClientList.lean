import Cimabue.System.Broadcast

/-!
# System — ClientList

The list of all clients that a newcomer is sent, against the buffer it is received in.

The clients are any whose registration a node has received (`Accepted`), with names and nicknames
that are not empty and have no `:`, `-` or `|` in them (`Plain`).

* `clean_listText`: the text of their list may be written to the wire.
* `full_list_received_iff`: the newcomer receives the list whole exactly when the fields of the
  frame take 4094 bytes at most.
* `not_full_list_received`: forty clients with long nicknames.
-/

namespace Cimabue

/-- Not empty, and without `:`, `-` and `|`. -/
def Plain (s : Bytes) : Prop :=
  s ≠ [] ∧ dataSeparator ∉ s ∧ msgSeparator ∉ s ∧ msgEnd ∉ s

instance (s : Bytes) : Decidable (Plain s) := inferInstanceAs (Decidable (_ ∧ _))

/-- A registration with this nickname and name has been received. -/
def Accepted (nickname name : Bytes) : Prop :=
  ∃ m₀ peer m, Message.recv m₀ peer = .ok (.success, m) ∧ m.type = .addClient ∧
    m.clientSrc = name ∧ parseNickname m.data = .ok nickname

/-! ### What was registered is clean -/

/-- A nickname is made of what its registration is made of. -/
theorem subset_of_parseNickname {data nickname : Bytes} (h : parseNickname data = .ok nickname) :
    nickname ⊆ data := by
  obtain ⟨tokens?, htok, h⟩ := bind_eq_ok.mp h
  obtain ⟨tokens, hraw, hpos⟩ := bind_eq_ok.mp htok
  match tokens, hraw with
  | [], _ =>
      cases hpos
      cases h
      exact List.nil_subset _
  | t :: ts, hraw =>
      cases hpos
      cases h
      exact subset_of_mem_tokens hraw (by simp)

theorem Accepted.clean {nickname name : Bytes} (h : Accepted nickname name) (hplain : Plain nickname) :
    Clean nickname ∧ Clean name := by
  obtain ⟨m₀, peer, m, hrecv, htype, rfl, hnick⟩ := h
  obtain ⟨hsrc, -, -, -, -, -, -, hnul⟩ := Message.cleanHeader_of_recv hrecv (by rw [htype]; simp)
  exact ⟨⟨hplain.1, hplain.2.2.1, hplain.2.2.2,
    fun hx => hnul (subset_of_parseNickname hnick hx)⟩, hsrc⟩

/-- Digits, separators and clean parts. -/
theorem clean_listText {ps : List (Bytes × Bytes)} (hlen : ps.length < 2 ^ 31)
    (h : ∀ p ∈ ps, Clean p.1 ∧ Clean p.2) : Clean (listText ps) := by
  have hnumber : decimalInt (toInt32 ps.length) = decimal ps.length := by
    rw [toInt32_eq_self (by omega) (by omega), decimalInt_natCast]
  have hmem : ∀ x, isDigit x = false → x ≠ dataSeparator → (∀ s, Clean s → x ∉ s) →
      x ∉ listText ps := by
    intro x hdigit hsep hclean hx
    rw [listText, hnumber] at hx
    rcases List.mem_append.mp hx with hx | hx
    · exact not_mem_decimal hdigit hx
    · obtain ⟨p, hp, hx⟩ := List.mem_flatMap.mp hx
      simp only [List.cons_append, List.mem_cons, List.mem_append] at hx
      rcases hx with hx | hx | hx | hx
      · exact hsep hx
      · exact hclean _ (h p hp).1 hx
      · exact hsep hx
      · exact hclean _ (h p hp).2 hx
  refine ⟨?_, hmem _ (by decide) (by decide) fun s hs => hs.2.1,
    hmem _ (by decide) (by decide) fun s hs => hs.2.2.1,
    hmem _ (by decide) (by decide) fun s hs => hs.2.2.2⟩
  rw [listText, hnumber]
  exact fun hnil => decimal_ne_nil _ (List.append_eq_nil_iff.mp hnil).1

/-! ### The frame -/

namespace Server

variable {s : Server} {src : Bytes} {ps : List (Bytes × Bytes)}

theorem headLength_listFrame :
    (s.updateMessage .updateAddClients src (listText ps)).headLength =
      30 + src.length + s.name.length + (listText ps).length := by
  have htype : (decodeType .updateAddClients).length = 22 := rfl
  have hvoid : msgVoid.length = 1 := rfl
  simp only [Message.headLength, updateMessage, htype, hvoid]
  omega

/-- The number, where an `int` holds it, and the entries. -/
theorem length_listText (hlen : ps.length < 2 ^ 31) :
    (listText ps).length =
      (decimal ps.length).length + (ps.map fun p => 2 + p.1.length + p.2.length).sum := by
  rw [listText, toInt32_eq_self (by omega) (by omega), decimalInt_natCast, List.length_append,
    length_entriesText]

/-- The fields of the frame that lists the clients `ps` to `src` take 4094 bytes at most. -/
def ListFits (s : Server) (src : Bytes) (ps : List (Bytes × Bytes)) : Prop :=
  30 + src.length + s.name.length +
    ((decimal ps.length).length + (ps.map fun p => 2 + p.1.length + p.2.length).sum) ≤ 4094

instance (s : Server) (src : Bytes) (ps : List (Bytes × Bytes)) : Decidable (s.ListFits src ps) :=
  inferInstanceAs (Decidable (_ ≤ _))

theorem recv_of_listFits (hname : Clean s.name) (hsrc : Clean src)
    (hps : ∀ p ∈ ps, Clean p.1 ∧ Clean p.2) (h : s.ListFits src ps) (m₀ : Message) :
    ∃ m', m₀.recv (s.updateMessage .updateAddClients src (listText ps)).serialize =
      .ok (.success, m') ∧ m'.data = listText ps := by
  have hcount := length_le_entriesText ps
  rw [length_entriesText] at hcount
  rw [ListFits] at h
  have hlen : ps.length < 2 ^ 31 := by omega
  have hclean : (s.updateMessage .updateAddClients src (listText ps)).CleanHeader :=
    ⟨clean_msgVoid, hsrc, hname, clean_msgVoid, clean_listText hlen hps⟩
  refine ⟨_, Message.recv_serialize hclean ?_ m₀, rfl⟩
  rw [headLength_listFrame, length_listText hlen, msgBufferSize]
  omega

theorem listFits_of_recv {m₀ m : Message} (hname : Clean s.name) (hsrc : Clean src)
    (h : m₀.recv (s.updateMessage .updateAddClients src (listText ps)).serialize =
      .ok (.success, m)) (hdata : m.data = listText ps) : s.ListFits src ps := by
  -- what came back is clean, so the list is
  obtain ⟨-, -, -, -, -, -, hclean⟩ := Message.of_recv_serialize h
  rw [hdata] at hclean
  have hfit := Message.headLength_le_of_recv
    (m := s.updateMessage .updateAddClients src (listText ps))
    ⟨clean_msgVoid, hsrc, hname, clean_msgVoid, hclean⟩ h
  rw [headLength_listFrame, msgBufferSize] at hfit
  have hcount := length_le_listText ps
  rw [length_listText (by omega)] at hfit
  rw [ListFits]
  omega

end Server

/-- **Exactly the lists that fit.**  The newcomer receives the whole list of the registered clients
exactly when the fields of the frame, with their separators, take 4094 bytes at most. -/
theorem full_list_received_iff (s : Server) (msg : Message) (hname : Clean s.name)
    (hreg : ∀ name nickname, s.clientNicknameToName.find name = some nickname →
      Accepted nickname name ∧ Plain nickname ∧ Plain name)
    (hnew : (s.clientNicknameToName.find msg.clientSrc).isSome) :
    (∃ frame m', s.updateAdd msg msg.clientSrc = .ok (some frame) ∧
        Message.recv {} frame.serialize = .ok (.success, m') ∧
        m'.data = Server.listEntry s.clientNicknameToName) ↔
      30 + msg.clientSrc.length + s.name.length +
        ((decimal s.clientNicknameToName.size).length +
          (s.clientNicknameToName.entries.map fun e => 2 + e.2.length + e.1.length).sum) ≤ 4094 := by
  have hframe : s.updateAdd msg msg.clientSrc = .ok (some (s.updateMessage .updateAddClients
      msg.clientSrc (listText (nickPairs s.clientNicknameToName)))) := by
    rw [Server.updateAdd, if_neg (by simp), listEntry_eq_listText]
    rfl
  have hclean : ∀ p ∈ nickPairs s.clientNicknameToName, Clean p.1 ∧ Clean p.2 := fun p hp =>
    have hp' := hreg p.2 p.1 (mem_nickPairs.mp hp)
    hp'.1.clean hp'.2.1
  have hsrc : Clean msg.clientSrc := by
    obtain ⟨nickname, hnick⟩ := Option.isSome_iff_exists.mp hnew
    exact (hclean (nickname, msg.clientSrc) (mem_nickPairs.mpr hnick)).2
  have hfits : s.ListFits msg.clientSrc (nickPairs s.clientNicknameToName) ↔
      30 + msg.clientSrc.length + s.name.length +
        ((decimal s.clientNicknameToName.size).length +
          (s.clientNicknameToName.entries.map fun e => 2 + e.2.length + e.1.length).sum) ≤ 4094 := by
    rw [Server.ListFits, length_nickPairs, nickPairs, List.map_map]
    rfl
  rw [← hfits, listEntry_eq_listText]
  refine ⟨?_, fun h => ?_⟩
  · rintro ⟨frame, m', hupd, hrecv, hdata⟩
    rw [hframe] at hupd
    cases hupd
    exact Server.listFits_of_recv hname hsrc hrecv hdata
  · obtain ⟨m', hrecv, hdata⟩ := Server.recv_of_listFits hname hsrc hclean h {}
    exact ⟨_, m', hframe, hrecv, hdata⟩

/-! ### A crowd -/

/-- A registration from a client's address, with clean parts. -/
theorem accepted_registration {nickname name : Bytes} (hname : Clean name) (hnick : Part nickname)
    (hdata : Clean (registration nickname (lit "10.0.0.2") (lit "30001")))
    (hlen : name.length + (registration nickname (lit "10.0.0.2") (lit "30001")).length ≤ 4000) :
    Accepted nickname name := by
  have hfit : Message.headLength { type := .addClient, clientSrc := name
                                   data := registration nickname (lit "10.0.0.2") (lit "30001") } ≤
      msgBufferSize - 2 := by
    have htype : (decodeType .addClient).length = 14 := rfl
    have hvoid : msgVoid.length = 1 := rfl
    simp only [Message.headLength, htype, hvoid, msgBufferSize]
    omega
  have hrecv := Message.recv_serialize ⟨hname, clean_msgVoid, clean_msgVoid, clean_msgVoid, hdata⟩
    hfit {}
  exact ⟨_, _, _, hrecv, rfl, rfl, (parse_registration hnick (by decide) (by decide)).1⟩

/-- A nickname of a hundred letters. -/
def longNickname : Bytes := List.replicate 100 (ch 'a')

/-- So many clients, all with that nickname. -/
def crowd (n : Nat) : Server where
  name := lit "1"
  clientNicknameToName := StdMap.empty.insertAll <|
    (List.range n).reverse.map fun i => (decimal (1000 + i), longNickname)

theorem accepted_crowd {n : Nat}
    (hall : ∀ e ∈ (crowd n).clientNicknameToName.entries,
      Clean e.1 ∧ Plain e.1 ∧ e.1.length = 4 ∧ e.2 = longNickname) :
    ∀ name nickname, (crowd n).clientNicknameToName.find name = some nickname →
      Accepted nickname name ∧ Plain nickname ∧ Plain name := by
  intro name nickname h
  obtain ⟨hname, hplain, hlen, rfl⟩ := hall _ (StdMap.find_eq_some_iff.mp h)
  refine ⟨accepted_registration hname (by decide +kernel) (by decide +kernel) ?_,
    by decide +kernel, hplain⟩
  rw [hlen]
  decide +kernel

/-- Two clients' list is received. -/
theorem full_list_received_two :
    ∃ frame m', (crowd 2).updateAdd { clientSrc := lit "1001" } (lit "1001") = .ok (some frame) ∧
      Message.recv {} frame.serialize = .ok (.success, m') ∧
      m'.data = Server.listEntry (crowd 2).clientNicknameToName :=
  (full_list_received_iff (crowd 2) { clientSrc := lit "1001" } (by decide)
    (accepted_crowd (by decide +kernel)) (by decide +kernel)).mpr (by decide +kernel)

/-- The list of forty clients takes more than 4094 bytes: the frame is cut before its end. -/
theorem not_full_list_received :
    ¬ ∀ (s : Server) (msg : Message), Clean s.name →
      (∀ name nickname, s.clientNicknameToName.find name = some nickname →
        Accepted nickname name ∧ Plain nickname ∧ Plain name) →
      (s.clientNicknameToName.find msg.clientSrc).isSome →
      ∃ frame m', s.updateAdd msg msg.clientSrc = .ok (some frame) ∧
        Message.recv {} frame.serialize = .ok (.success, m') ∧
        m'.data = Server.listEntry s.clientNicknameToName := by
  intro h
  obtain ⟨frame, m', hupd, hrecv, hdata⟩ := h (crowd 40) { clientSrc := lit "1000" } (by decide)
    (accepted_crowd (by decide +kernel)) (by decide +kernel)
  rw [Server.updateAdd, if_neg (by simp), listEntry_eq_listText] at hupd
  cases hupd
  rw [listEntry_eq_listText] at hdata
  have hfits := Server.listFits_of_recv (by decide) (by decide) hrecv hdata
  exact absurd hfits (by decide +kernel)

end Cimabue
