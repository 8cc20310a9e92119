import Cimabue.System.Broadcast
import Cimabue.Threads.Registry

/-!
# Threads — Directory

The registry's threads with the broadcasts around them: `updateClientListAdd` after
`executeAddClient` in the process thread, `updateClientListRem` before `removeClient` in the ping
thread.  A broadcast is one section, under the mutex of the address map, and its updates are handled
by their addressees.

Between the broadcast of an eviction and the erasure of the address, a client is registered that the
others have been told is gone.  `Current` asks of each section that it does not meet this gap: a
registration is announced while its client is listed, from nicknames of listed clients, and an
eviction is announced where no directory has the client twice.

* `no_stale_entries`: in a run whose sections are so ordered, no directory of a registered client
  names a client that is not registered, whenever no handler is in progress.
* `not_no_stale_entries`: a client that registers in the gap is told of the one that is evicted.
-/

namespace Cimabue

/-- The registry's threads, the broadcasts they have before them, and the clients. -/
structure Net where
  calls : Registry
  /-- The registration `updateClientListAdd` has yet to announce. -/
  announcing : Option Message := none
  /-- The client whose eviction is announced and not begun. -/
  evicting : Option Bytes := none
  clients : Clients

/-- The sections of the two handlers. -/
inductive NetSection where
  /-- The registration of `c` begins. -/
  | addName (c : Client) (ip port : Bytes)
  | addPing (now : Int)
  | addNickname
  /-- `updateClientListAdd` -/
  | announce
  /-- `updateClientListRem` of a client that has timed out -/
  | notice (v : Bytes) (now : Int)
  | eraseName
  | erasePing
  | eraseNickname

/-- The clients with `c` among them; a client that is there already stays as it is. -/
def Clients.arrive (cs : Clients) (c : Client) : Clients :=
  match cs c.name with
  | none => cs.set c.name c
  | some _ => cs

namespace Net

/-- The updates a section sends. -/
def updates (n : Net) : NetSection → Except Fault (List Packet)
  | .announce =>
      match n.announcing with
      | none => pure []
      | some msg => n.calls.server.updateClientListAdd { exchange := n.clients.exchange } msg
  | .notice v _ => n.calls.server.updateClientListRem { exchange := n.clients.exchange } v
  | _ => pure []

/-- The clients after the updates of a section. -/
def informed (n : Net) (a : NetSection) : Except Fault Clients := do
  let ps ← n.updates a
  n.clients.deliverAll (ps.map (·.msg))

/-- The registration of `c` as the server receives it. -/
def arriving (c : Client) (ip port : Bytes) : Message :=
  c.connectMessage (registration c.nickname ip port)

def step (n : Net) : NetSection → Option Net
  | .addName c ip port =>
      -- the process thread is still at the last registration
      match n.announcing with
      | some _ => none
      | none => (registry.step n.calls (.addName (arriving c ip port))).map fun r =>
          { n with calls := r, clients := n.clients.arrive c }
  | .addPing now => (registry.step n.calls (.addPing now)).map fun r => { n with calls := r }
  | .addNickname =>
      match n.calls.adding with
      | .nickname msg => (registry.step n.calls .addNickname).map fun r =>
          { n with calls := r, announcing := some msg }
      | _ => none
  | .announce =>
      match n.announcing with
      | none => none
      | some _ => (n.informed .announce).toOption.map fun cs =>
          { n with announcing := none, clients := cs }
  | .notice v now =>
      if n.evicting = none ∧ n.calls.removing = .idle ∧ n.calls.server.timedOut v now then
        (n.informed (.notice v now)).toOption.map fun cs =>
          { n with evicting := some v, clients := cs }
      else none
  | .eraseName =>
      match n.evicting with
      | none => none
      | some v => (registry.step n.calls (.eraseName v)).map fun r =>
          { n with calls := r, evicting := none }
  | .erasePing => (registry.step n.calls .erasePing).map fun r => { n with calls := r }
  | .eraseNickname => (registry.step n.calls .eraseNickname).map fun r => { n with calls := r }

/-- No client, and no call. -/
def init (name : Bytes) : Net := { calls := { server := { name } }, clients := fun _ => none }

/-- The client `v` is registered. -/
def Registered (n : Net) (v : Bytes) : Prop :=
  (n.calls.server.clientNameToIPMap.find v).isSome

instance (n : Net) (v : Bytes) : Decidable (n.Registered v) := inferInstanceAs (Decidable (_ = true))

/-- The client `v` is registered, and the others have not been told that it is gone. -/
def Listed (n : Net) (v : Bytes) : Prop := n.Registered v ∧ n.evicting ≠ some v

instance (n : Net) (v : Bytes) : Decidable (n.Listed v) := inferInstanceAs (Decidable (_ ∧ _))

/-- No handler is in progress. -/
def Quiet (n : Net) : Prop := n.calls.Quiet ∧ n.announcing = none ∧ n.evicting = none

/-- The directories of the registered clients name registered clients only. -/
def NoStale (n : Net) : Prop :=
  ∀ k c, n.Registered k → n.clients k = some c → ∀ x v,
    c.clientNickToNameMap.find x = some v → n.Registered v

/-- A registration is the text `nickname:ip:port` of a client whose name has no `:`. -/
def Regular (_ : Net) : NetSection → Prop
  | .addName c ip port => dataSeparator ∉ c.name ∧ Part c.nickname ∧ Part ip ∧ Part port
  | _ => True

/-- Every update of the section is decoded as it was sent. -/
def UpdatesDelivered (n : Net) (a : NetSection) : Prop :=
  ∀ ps, n.updates a = .ok ps → ∀ p ∈ ps, Delivered p.msg

/-- What a section must find for the directories to stay current: a newcomer that knows listed
clients only, an announcement of a listed client and of the nicknames of listed clients, and
directories with one entry at most of a client whose eviction is announced. -/
def Current (n : Net) : NetSection → Prop
  | .addName c _ _ => ¬ n.Registered c.name → ∀ c' ∈ n.clients.arrive c c.name,
      ∀ e ∈ c'.clientNickToNameMap.entries, e.2 = c.name ∨ n.Listed e.2
  | .announce => ∀ msg ∈ n.announcing, n.Listed msg.clientSrc ∧
      ∀ e ∈ n.calls.server.clientNicknameToName.entries, n.Listed e.1
  | .notice v _ => ∀ e ∈ n.calls.server.clientNameToIPMap.entries, e.1 ≠ v → ∀ c ∈ n.clients e.1,
      ∀ e₁ ∈ c.clientNickToNameMap.entries, ∀ e₂ ∈ c.clientNickToNameMap.entries,
        e₁.2 = v → e₂.2 = v → e₁.1 = e₂.1
  | _ => True

instance decidableRegular : ∀ (n : Net) (a : NetSection), Decidable (n.Regular a)
  | _, .addName c _ _ => inferInstanceAs (Decidable (dataSeparator ∉ c.name ∧ _ ∧ _))
  | _, .addPing _ | _, .addNickname | _, .announce | _, .notice _ _ | _, .eraseName
  | _, .erasePing | _, .eraseNickname => isTrue trivial

instance decidableUpdatesDelivered (n : Net) (a : NetSection) : Decidable (n.UpdatesDelivered a) :=
  match h : n.updates a with
  | .error _ => isTrue (by simp [UpdatesDelivered, h])
  | .ok ps => decidable_of_iff (∀ p ∈ ps, Delivered p.msg) (by simp [UpdatesDelivered, h])

instance decidableCurrent : ∀ (n : Net) (a : NetSection), Decidable (n.Current a)
  | n, .addName c _ _ => inferInstanceAs (Decidable (¬ n.Registered c.name → _))
  | n, .announce => inferInstanceAs (Decidable (∀ msg ∈ n.announcing, _ ∧ _))
  | n, .notice _ _ =>
      inferInstanceAs (Decidable (∀ e ∈ n.calls.server.clientNameToIPMap.entries, _))
  | _, .addPing _ | _, .addNickname | _, .eraseName | _, .erasePing | _, .eraseNickname =>
      isTrue trivial

/-- What holds between the sections. -/
structure Inv (n : Net) : Prop where
  reachable : ∀ k a, n.calls.server.clientNameToIPMap.find k = some a → Reachable a
  present : ∀ k, n.Registered k → ∃ c, n.clients k = some c
  name : ∀ k c, n.clients k = some c → c.name = k
  unsplit : ∀ k x, n.calls.server.clientNicknameToName.find k = some x → Unsplit (x, k)
  pending : ∀ msg, n.calls.adding = .ping msg ∨ n.calls.adding = .nickname msg ∨
    n.announcing = some msg → ∃ nick, parseNickname msg.data = .ok nick ∧ Unsplit (nick, msg.clientSrc)
  sound : ∀ k c, n.Listed k → n.clients k = some c → ∀ x v,
    c.clientNickToNameMap.find x = some v → n.Listed v

theorem inv_init (name : Bytes) : (init name).Inv where
  reachable _ _ h := by cases h
  present _ h := by cases h
  name _ _ h := by cases h
  unsplit _ _ h := by cases h
  pending _ h := by rcases h with h | h | h <;> cases h
  sound _ _ h := by cases h.1

/-- The registered clients are there, under their names. -/
theorem Inv.client {n : Net} (hinv : n.Inv) (k : Bytes) (hk : n.Registered k) :
    ∃ c, n.clients k = some c ∧ c.name = k := by
  obtain ⟨c, hc⟩ := hinv.present k hk
  exact ⟨c, hc, hinv.name k c hc⟩

theorem Inv.noStale {n : Net} (hinv : n.Inv) (hq : n.Quiet) : n.NoStale := by
  have hlisted : ∀ v, n.Registered v → n.Listed v := fun v hv => ⟨hv, by simp [hq.2.2]⟩
  intro k c hk hc x v hx
  exact (hinv.sound k c (hlisted k hk) hc x v hx).1

/-! ### The sections of the process thread -/

theorem arrive_self (cs : Clients) (c : Client) : ∃ c', cs.arrive c c.name = some c' := by
  rw [Clients.arrive]
  cases h : cs c.name with
  | none => exact ⟨c, Clients.set_self _ _ _⟩
  | some c' => exact ⟨c', h⟩

/-- A client that is there stays as it is. -/
theorem arrive_of_some {cs : Clients} {c c₀ : Client} {k : Bytes} (h : cs k = some c₀) :
    cs.arrive c k = some c₀ := by
  rw [Clients.arrive]
  cases hc : cs c.name with
  | none =>
      have hk : k ≠ c.name := fun e => by rw [e, hc] at h; cases h
      simp only [Clients.set_of_ne _ _ hk, h]
  | some c' => exact h

theorem name_arrive {cs : Clients} {c c' : Client} {k : Bytes}
    (hname : ∀ k c, cs k = some c → c.name = k) (h : cs.arrive c k = some c') : c'.name = k := by
  rw [Clients.arrive] at h
  cases hc : cs c.name with
  | none =>
      by_cases hk : k = c.name
      · subst hk
        simp only [hc, Clients.set_self] at h
        rw [← Option.some.inj h]
      · simp only [hc, Clients.set_of_ne _ _ hk] at h
        exact hname k c' h
  | some c₀ => simp only [hc] at h; exact hname k c' h

theorem step_addName {n t : Net} {c : Client} {ip port : Bytes}
    (h : n.step (.addName c ip port) = some t) :
    t.calls.server = n.calls.server.addName (arriving c ip port) ∧
      t.calls.adding = .ping (arriving c ip port) ∧ t.announcing = none ∧
      t.evicting = n.evicting ∧ t.clients = n.clients.arrive c := by
  cases hann : n.announcing with
  | some msg => simp [step, hann] at h
  | none =>
      simp only [step, hann] at h
      obtain ⟨r, hr, rfl⟩ := Option.map_eq_some_iff.mp h
      obtain ⟨-, rfl⟩ := Registry.step_addName hr
      exact ⟨rfl, rfl, rfl, rfl, rfl⟩

theorem inv_addName {n t : Net} {c : Client} {ip port : Bytes} (hinv : n.Inv)
    (hreg : n.Regular (.addName c ip port)) (hC : n.Current (.addName c ip port))
    (h : n.step (.addName c ip port) = some t) : t.Inv := by
  obtain ⟨hname, hnick, hip, hport⟩ := hreg
  obtain ⟨hparse, haddr⟩ := parse_registration hnick hip hport
  obtain ⟨hserver, hadding, hann, hev, hclients⟩ := step_addName h
  have hnames : ∀ k, t.calls.server.clientNameToIPMap.find k =
      if k = c.name then some ((n.calls.server.clientNameToIPMap.find c.name).getD
        (registration c.nickname ip port)) else n.calls.server.clientNameToIPMap.find k := by
    intro k
    rw [hserver]
    exact StdMap.find_insert _ _ _ k
  have hregd : ∀ k, t.Registered k ↔ k = c.name ∨ n.Registered k := by
    intro k
    rw [Registered, hnames]
    split_ifs with hk <;> simp [hk, Registered]
  have hlisted : ∀ v, n.Listed v → t.Listed v := by
    intro v hv
    exact ⟨(hregd v).mpr (.inr hv.1), by rw [hev]; exact hv.2⟩
  constructor
  case reachable =>
    intro k a ha
    rw [hnames] at ha
    split_ifs at ha with hk
    · -- a name that is there keeps its text
      cases hold : n.calls.server.clientNameToIPMap.find c.name with
      | none => rw [hold] at ha; exact Option.some.inj ha ▸ haddr
      | some b => rw [hold] at ha; exact Option.some.inj ha ▸ hinv.reachable _ b hold
    · exact hinv.reachable k a ha
  case present =>
    intro k hk
    rw [hclients]
    rcases (hregd k).mp hk with rfl | hk
    · exact arrive_self _ _
    · obtain ⟨c₀, hc₀⟩ := hinv.present k hk
      exact ⟨c₀, arrive_of_some hc₀⟩
  case name =>
    intro k c' hc'
    rw [hclients] at hc'
    exact name_arrive hinv.name hc'
  case unsplit =>
    intro k x hx
    rw [hserver] at hx
    exact hinv.unsplit k x hx
  case pending =>
    rintro msg (hmsg | hmsg | hmsg)
    · rw [hadding] at hmsg
      obtain rfl := AddAt.ping.inj hmsg
      exact ⟨c.nickname, hparse, hnick.2, hname⟩
    · rw [hadding] at hmsg
      cases hmsg
    · rw [hann] at hmsg
      cases hmsg
  case sound =>
    intro k c' hk hc' x v hx
    rw [hclients] at hc'
    by_cases hreg : n.Registered k
    · -- the client was there before, and stays as it is
      obtain ⟨c₀, hc₀⟩ := hinv.present k hreg
      obtain rfl : c₀ = c' := Option.some.inj ((arrive_of_some hc₀).symm.trans hc')
      have hk' : n.Listed k := ⟨hreg, by rw [← hev]; exact hk.2⟩
      exact hlisted v (hinv.sound k c₀ hk' hc₀ x v hx)
    · obtain rfl : k = c.name := ((hregd k).mp hk.1).resolve_right hreg
      rcases hC hreg c' hc' ⟨x, v⟩ (StdMap.find_eq_some_iff.mp hx) with rfl | hv
      · exact hk
      · exact hlisted v hv

theorem inv_addPing {n t : Net} {now : Int} (hinv : n.Inv) (h : n.step (.addPing now) = some t) :
    t.Inv := by
  simp only [step] at h
  obtain ⟨r, hr, rfl⟩ := Option.map_eq_some_iff.mp h
  obtain ⟨msg, hat, rfl⟩ := Registry.step_addPing hr
  refine ⟨hinv.reachable, hinv.present, hinv.name, hinv.unsplit, ?_, hinv.sound⟩
  rintro msg' (hmsg | hmsg | hmsg)
  · cases hmsg
  · obtain rfl := AddAt.nickname.inj hmsg
    exact hinv.pending msg (.inl hat)
  · exact hinv.pending msg' (.inr (.inr hmsg))

theorem inv_addNickname {n t : Net} (hinv : n.Inv) (h : n.step .addNickname = some t) : t.Inv := by
  cases hat : n.calls.adding with
  | idle | ping _ => simp [step, hat] at h
  | nickname msg =>
      simp only [step, hat] at h
      obtain ⟨r, hr, rfl⟩ := Option.map_eq_some_iff.mp h
      obtain ⟨msg', x, hat', hx, rfl⟩ := Registry.step_addNickname hr
      obtain rfl : msg = msg' := AddAt.nickname.inj (hat.symm.trans hat')
      obtain ⟨nick, hnick, hunsplit⟩ := hinv.pending msg (.inr (.inl hat))
      obtain rfl : nick = x := Except.ok.inj (hnick.symm.trans hx)
      refine ⟨hinv.reachable, hinv.present, hinv.name, fun k y hy => ?_, ?_, hinv.sound⟩
      · simp only [StdMap.find_insert] at hy
        split_ifs at hy with hk
        · subst hk
          cases hold : n.calls.server.clientNicknameToName.find msg.clientSrc with
          | none => rw [hold] at hy; exact Option.some.inj hy ▸ hunsplit
          | some z => rw [hold] at hy; exact Option.some.inj hy ▸ hinv.unsplit _ z hold
        · exact hinv.unsplit k y hy
      · rintro msg' (hmsg | hmsg | hmsg)
        · cases hmsg
        · cases hmsg
        · obtain rfl := Option.some.inj hmsg
          exact ⟨nick, hnick, hunsplit⟩

/-- **The announcement of a registration**: every registered client learns what its update tells. -/
theorem step_announce {n t : Net} (hinv : n.Inv) (hdel : n.UpdatesDelivered .announce)
    (h : n.step .announce = some t) :
    ∃ msg nick, n.announcing = some msg ∧
      t = { n with announcing := none, clients := t.clients } ∧
      ∀ k, t.clients k =
        if n.Registered k then
          (n.clients k).map (·.learn (n.calls.server.announced nick msg.clientSrc k))
        else n.clients k := by
  cases hann : n.announcing with
  | none => simp [step, hann] at h
  | some msg =>
      simp only [step, hann] at h
      obtain ⟨cs, hcs, rfl⟩ := Option.map_eq_some_iff.mp h
      obtain ⟨nick, hnick, hunsplit⟩ := hinv.pending msg (.inr (.inr hann))
      obtain ⟨ps, hps, hdone⟩ := Server.broadcastAdd_ok n.calls.server n.clients
        { exchange := n.clients.exchange } msg (fun p => Clients.send_exchange _ p) hinv.reachable
        hinv.client hnick fun k hd => Server.decodeUpdate_addUpdate hunsplit
          (fun ⟨x, v⟩ hp => hinv.unsplit v x (mem_nickPairs.mp hp)) hd
      have hups : n.updates .announce = .ok ps := by simp only [updates, hann, hps]
      obtain ⟨cs', hall, hcs'⟩ := hdone (hdel ps hups)
      obtain rfl : cs' = cs := by
        simp only [informed, hups, ok_bind, hall] at hcs
        exact Option.some.inj hcs
      exact ⟨msg, nick, rfl, rfl, hcs'⟩

theorem inv_announce {n t : Net} (hinv : n.Inv) (hdel : n.UpdatesDelivered .announce)
    (hC : n.Current .announce) (h : n.step .announce = some t) : t.Inv := by
  obtain ⟨msg, nick, hann, ht, hclients⟩ := step_announce hinv hdel h
  obtain ⟨hsrc, hnicks⟩ := hC msg hann
  have hnew : ∀ k c, n.Registered k → n.clients k = some c →
      t.clients k = some (c.learn (n.calls.server.announced nick msg.clientSrc k)) := by
    intro k c hk hc
    rw [hclients, if_pos hk, hc, Option.map_some]
  rw [ht]
  refine ⟨hinv.reachable, fun k hk => ?_, fun k c hc => ?_, hinv.unsplit, ?_, ?_⟩
  · obtain ⟨c, hc⟩ := hinv.present k hk
    exact ⟨_, hnew k c hk hc⟩
  · by_cases hk : n.Registered k
    · obtain ⟨c₀, hc₀⟩ := hinv.present k hk
      obtain rfl := Option.some.inj ((hnew k c₀ hk hc₀).symm.trans hc)
      exact hinv.name k c₀ hc₀
    · exact hinv.name k c (((hclients k).trans (if_neg hk)).symm.trans hc)
  · rintro msg' (hmsg | hmsg | hmsg)
    · exact hinv.pending msg' (.inl hmsg)
    · exact hinv.pending msg' (.inr (.inl hmsg))
    · cases hmsg
  · intro k c hk hc x v hx
    have hk' : n.Listed k := hk
    obtain ⟨c₀, hc₀⟩ := hinv.present k hk'.1
    obtain rfl := Option.some.inj ((hnew k c₀ hk'.1 hc₀).symm.trans hc)
    rw [Client.find_learn, Option.or_eq_some_iff] at hx
    rcases hx with hx | ⟨-, hx⟩
    · exact hinv.sound k c₀ hk' hc₀ x v hx
    · -- an entry the message brought
      obtain ⟨⟨y, u⟩, hp, rfl⟩ := Option.map_eq_some_iff.mp hx
      have hmem := List.mem_of_find?_eq_some hp
      by_cases hks : k = msg.clientSrc
      · subst hks
        rw [Server.announced_self] at hmem
        exact hnicks ⟨u, y⟩ (StdMap.find_eq_some_iff.mp (mem_nickPairs.mp hmem))
      · rw [Server.announced_of_ne _ _ hks] at hmem
        obtain ⟨-, rfl⟩ := Prod.mk.inj (List.mem_singleton.mp hmem)
        exact hsrc

/-! ### The sections of the ping thread -/

/-- **The announcement of an eviction**: every other registered client drops an entry of the one that
is evicted. -/
theorem step_notice {n t : Net} {v : Bytes} {now : Int} (hinv : n.Inv)
    (hdel : n.UpdatesDelivered (.notice v now)) (h : n.step (.notice v now) = some t) :
    n.evicting = none ∧ t = { n with evicting := some v, clients := t.clients } ∧
      ∀ k, t.clients k =
        if n.Registered k ∧ k ≠ v then (n.clients k).map (·.forget v) else n.clients k := by
  simp only [step] at h
  split_ifs at h with hcond
  obtain ⟨hev, -, -⟩ := hcond
  obtain ⟨cs, hcs, rfl⟩ := Option.map_eq_some_iff.mp h
  obtain ⟨ps, hps, hdone⟩ := Server.broadcastRem_ok n.calls.server n.clients
    { exchange := n.clients.exchange } v (fun p => Clients.send_exchange _ p) hinv.reachable
    hinv.client
  obtain ⟨cs', hall, hcs'⟩ := hdone (hdel ps hps)
  obtain rfl : cs' = cs := by
    simp only [informed, updates, hps, ok_bind, hall] at hcs
    exact Option.some.inj hcs
  exact ⟨hev, rfl, hcs'⟩

theorem inv_notice {n t : Net} {v : Bytes} {now : Int} (hinv : n.Inv)
    (hdel : n.UpdatesDelivered (.notice v now)) (hC : n.Current (.notice v now))
    (h : n.step (.notice v now) = some t) : t.Inv := by
  obtain ⟨hev, ht, hclients⟩ := step_notice hinv hdel h
  have hnew : ∀ k c, n.Registered k → k ≠ v → n.clients k = some c →
      t.clients k = some (c.forget v) := by
    intro k c hk hkv hc
    rw [hclients, if_pos ⟨hk, hkv⟩, hc, Option.map_some]
  have hold : ∀ k, ¬ (n.Registered k ∧ k ≠ v) → t.clients k = n.clients k :=
    fun k hk => (hclients k).trans (if_neg hk)
  rw [ht]
  refine ⟨hinv.reachable, fun k hk => ?_, fun k c hc => ?_, hinv.unsplit, hinv.pending, ?_⟩
  · obtain ⟨c, hc⟩ := hinv.present k hk
    by_cases hkv : k = v
    · exact ⟨c, (hold k fun h => h.2 hkv).trans hc⟩
    · exact ⟨_, hnew k c hk hkv hc⟩
  · by_cases hk : n.Registered k ∧ k ≠ v
    · obtain ⟨c₀, hc₀⟩ := hinv.present k hk.1
      obtain rfl := Option.some.inj ((hnew k c₀ hk.1 hk.2 hc₀).symm.trans hc)
      rw [Client.name_forget]
      exact hinv.name k c₀ hc₀
    · exact hinv.name k c ((hold k hk).symm.trans hc)
  · intro k c hk hc x u hx
    have hkreg : n.Registered k := hk.1
    have hkv : k ≠ v := fun e => hk.2 (by rw [e])
    obtain ⟨c₀, hc₀⟩ := hinv.present k hkreg
    obtain rfl := Option.some.inj ((hnew k c₀ hkreg hkv hc₀).symm.trans hc)
    have hu := hinv.sound k c₀ ⟨hkreg, by simp [hev]⟩ hc₀ x u (Client.find_of_find_forget hx)
    refine ⟨hu.1, fun e => ?_⟩
    -- the entry that is dropped was the only one of `v`
    obtain rfl := Option.some.inj e
    obtain ⟨a, ha⟩ := Option.isSome_iff_exists.mp hkreg
    have honce := hC ⟨k, a⟩ (StdMap.find_eq_some_iff.mp ha) hkv c₀ hc₀
    exact Client.find_forget_ne (fun y z hy hz => honce ⟨y, v⟩ (StdMap.find_eq_some_iff.mp hy)
      ⟨z, v⟩ (StdMap.find_eq_some_iff.mp hz) rfl rfl) x hx

theorem inv_eraseName {n t : Net} (hinv : n.Inv) (h : n.step .eraseName = some t) : t.Inv := by
  cases hev : n.evicting with
  | none => simp [step, hev] at h
  | some v =>
      simp only [step, hev] at h
      obtain ⟨r, hr, rfl⟩ := Option.map_eq_some_iff.mp h
      obtain ⟨-, rfl⟩ := Registry.step_eraseName hr
      have hnames : ∀ k, (n.calls.server.eraseName v).clientNameToIPMap.find k =
          if k = v then none else n.calls.server.clientNameToIPMap.find k :=
        fun k => StdMap.find_erase _ v k
      have hregd : ∀ k, (((n.calls.server.eraseName v).clientNameToIPMap.find k).isSome) ↔
          n.Registered k ∧ k ≠ v := by
        intro k
        rw [hnames]
        by_cases hk : k = v <;> simp [hk, Registered]
      refine ⟨fun k a ha => ?_, fun k hk => hinv.present k ((hregd k).mp hk).1, hinv.name,
        hinv.unsplit, hinv.pending, fun k c hk hc x u hx => ?_⟩
      · simp only [hnames] at ha
        split_ifs at ha
        exact hinv.reachable k a ha
      · obtain ⟨hk', hkv⟩ := (hregd k).mp hk.1
        obtain ⟨hu, hue⟩ := hinv.sound k c ⟨hk', by simpa [hev] using Ne.symm hkv⟩ hc x u hx
        exact ⟨(hregd u).mpr ⟨hu, by simpa [hev, eq_comm] using hue⟩, by simp⟩

theorem inv_erasePing {n t : Net} (hinv : n.Inv) (h : n.step .erasePing = some t) : t.Inv := by
  simp only [step] at h
  obtain ⟨r, hr, rfl⟩ := Option.map_eq_some_iff.mp h
  obtain ⟨c, -, rfl⟩ := Registry.step_erasePing hr
  exact ⟨hinv.reachable, hinv.present, hinv.name, hinv.unsplit, hinv.pending, hinv.sound⟩

theorem inv_eraseNickname {n t : Net} (hinv : n.Inv) (h : n.step .eraseNickname = some t) :
    t.Inv := by
  simp only [step] at h
  obtain ⟨r, hr, rfl⟩ := Option.map_eq_some_iff.mp h
  obtain ⟨c, -, rfl⟩ := Registry.step_eraseNickname hr
  refine ⟨hinv.reachable, hinv.present, hinv.name, fun k x hx => ?_, hinv.pending, hinv.sound⟩
  simp only [Server.eraseNickname, StdMap.find_erase] at hx
  split_ifs at hx
  exact hinv.unsplit k x hx

theorem inv_step {n t : Net} {a : NetSection} (hinv : n.Inv) (hreg : n.Regular a)
    (hdel : n.UpdatesDelivered a) (hC : n.Current a) (h : n.step a = some t) : t.Inv := by
  cases a with
  | addName c ip port => exact inv_addName hinv hreg hC h
  | addPing now => exact inv_addPing hinv h
  | addNickname => exact inv_addNickname hinv h
  | announce => exact inv_announce hinv hdel hC h
  | notice v now => exact inv_notice hinv hdel hC h
  | eraseName => exact inv_eraseName hinv h
  | erasePing => exact inv_erasePing hinv h
  | eraseNickname => exact inv_eraseNickname hinv h

end Net

/-- The handlers of the two threads, section by section. -/
def net : Machine Net NetSection where
  step := Net.step

/-- **No stale entries.**  In a run whose updates arrive and whose sections meet `Current`, the
directories of the registered clients name registered clients only, whenever no handler is in
progress. -/
theorem no_stale_entries (name : Bytes) (as : List NetSection)
    (h : net.Meets (fun n a => n.Regular a ∧ n.UpdatesDelivered a) (Net.init name) as)
    (hC : net.Meets Net.Current (Net.init name) as) :
    net.Always (fun n => n.Quiet → n.NoStale) (Net.init name) as := by
  have hinv := Machine.always_of_step (M := net) (P := Net.Inv)
    (fun n a t hinv hC hstep => Net.inv_step hinv hC.1.1 hC.1.2 hC.2 hstep) (Net.inv_init name)
    (h.and hC)
  exact hinv.imp fun n hinv hq => hinv.noStale hq

/-- A client registers and is announced; another one registers, and the first is evicted once the
second is announced. -/
theorem no_stale_entries_two :
    net.Always (fun n => n.Quiet → n.NoStale) (Net.init (lit "7"))
      [.addName { name := lit "1", nickname := lit "ann" } (lit "host") (lit "80"), .addPing 0,
        .addNickname, .announce,
        .addName { name := lit "2", nickname := lit "bob" } (lit "host") (lit "82"), .addPing 0,
        .addNickname, .announce, .notice (lit "1") (6 * 10 ^ 9), .eraseName, .erasePing,
        .eraseNickname] :=
  no_stale_entries (lit "7") _ (by decide +kernel) (by decide +kernel)

/-- The eviction of the first client is announced, the second registers and gets the full list, and
the first is erased. -/
theorem not_no_stale_entries :
    ¬ ∀ (name : Bytes) (as : List NetSection) (n : Net),
      net.Meets (fun n a => n.Regular a ∧ n.UpdatesDelivered a) (Net.init name) as →
      net.run (Net.init name) as = some n → n.Quiet → n.NoStale := by
  intro h
  have hrun : (net.run (Net.init (lit "7"))
      [.addName { name := lit "1", nickname := lit "ann" } (lit "host") (lit "80"), .addPing 0,
        .addNickname, .announce, .notice (lit "1") (6 * 10 ^ 9),
        .addName { name := lit "2", nickname := lit "bob" } (lit "host") (lit "82"), .addPing 0,
        .addNickname, .announce, .eraseName, .erasePing, .eraseNickname]).any
      (fun n => n.calls.adding = .idle && n.calls.removing = .idle && n.announcing = none &&
        n.evicting = none && n.Registered (lit "2") && !n.Registered (lit "1") &&
        (n.clients (lit "2")).map (·.clientNickToNameMap.find (lit "ann")) =
          some (some (lit "1"))) = true := by
    decide +kernel
  obtain ⟨n, hn, hcheck⟩ := (Option.any_eq_true _ _).mp hrun
  simp only [Bool.and_eq_true, decide_eq_true_eq, Bool.not_eq_true', decide_eq_false_iff_not] at hcheck
  obtain ⟨⟨⟨⟨⟨⟨hadd, hrem⟩, hann⟩, hev⟩, hreg⟩, hgone⟩, hdir⟩ := hcheck
  obtain ⟨c, hc, hx⟩ := Option.map_eq_some_iff.mp hdir
  exact hgone (h (lit "7") _ n (by decide +kernel) hn ⟨⟨hadd, hrem⟩, hann, hev⟩ (lit "2") c hreg hc
    (lit "ann") (lit "1") hx)

end Cimabue
