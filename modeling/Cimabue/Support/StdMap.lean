import Mathlib.Data.List.Sigma
import Mathlib.Data.List.Lex
import Mathlib.Data.List.Pairwise
import Mathlib.Data.List.TakeWhile
import Mathlib.Order.Lattice

/-!
# Support — StdMap

`std::map`: a list of entries in strictly increasing order of the keys, which is the order an
iterator walks them in.

* `insert` keeps an entry whose key is there already; `erase` removes by key; `assign` writes
  through an iterator.
* `find_insert`, `find_erase`, `find_assign`: the lookups after each operation.
* `find_insertAll`: inserting a list of pairs one after the other, the first of a key wins.
* `perm_keys_insertAll`: a list of the keys, with those of the pairs appended, lists the keys again
  exactly when the pairs bring new keys only.
* `next_of_entries`, `next_erase_self`: an iterator walks the entries in order, and is not valid
  once its entry is erased.
-/

namespace Cimabue

/-- `std::map<κ, ν>`. -/
structure StdMap (κ ν : Type*) [LinearOrder κ] where
  entries : List ((_ : κ) × ν)
  sorted : entries.Pairwise (fun a b => a.1 < b.1)
deriving DecidableEq

namespace StdMap

variable {κ ν : Type*} [LinearOrder κ]

theorem nodupKeys (m : StdMap κ ν) : m.entries.NodupKeys :=
  List.nodupKeys_iff_pairwise.mpr (m.sorted.imp ne_of_lt)

/-- The map with no entry. -/
def empty : StdMap κ ν := ⟨[], .nil⟩

/-- `find`: the value at `k`, none where the iterator is `end()`. -/
def find (m : StdMap κ ν) (k : κ) : Option ν := m.entries.dlookup k

/-- `size`. -/
def size (m : StdMap κ ν) : Nat := m.entries.length

theorem find_eq_some_iff {m : StdMap κ ν} {k : κ} {v : ν} :
    m.find k = some v ↔ ⟨k, v⟩ ∈ m.entries :=
  List.mem_dlookup_iff m.nodupKeys

theorem find_of_mem {m : StdMap κ ν} {e : (_ : κ) × ν} (h : e ∈ m.entries) :
    m.find e.1 = some e.2 :=
  find_eq_some_iff.mpr h

@[simp] theorem find_empty (k : κ) : (empty : StdMap κ ν).find k = none := rfl

/-- A lookup passes over an entry with another key. -/
theorem dlookup_cons_of_ne {k d : κ} (w : ν) (l : List ((_ : κ) × ν)) (h : k ≠ d) :
    (⟨d, w⟩ :: l : List ((_ : κ) × ν)).dlookup k = l.dlookup k :=
  List.dlookup_cons_ne l ⟨d, w⟩ h

/-! ### insert -/

/-- `insert` on the entries: a new key goes to its place, a key that is there keeps its entry. -/
def insertEntries (k : κ) (v : ν) : List ((_ : κ) × ν) → List ((_ : κ) × ν)
  | [] => [⟨k, v⟩]
  | e :: rest =>
      if k < e.1 then ⟨k, v⟩ :: e :: rest
      else if k = e.1 then e :: rest
      else e :: insertEntries k v rest

theorem mem_insertEntries {k : κ} {v : ν} {e : (_ : κ) × ν} {l : List ((_ : κ) × ν)}
    (h : e ∈ insertEntries k v l) : e = ⟨k, v⟩ ∨ e ∈ l := by
  induction l with
  | nil => exact .inl (by simpa [insertEntries] using h)
  | cons d rest ih =>
      simp only [insertEntries] at h
      split_ifs at h with h₁ h₂
      · rcases List.mem_cons.mp h with h | h
        · exact .inl h
        · exact .inr h
      · exact .inr h
      · rcases List.mem_cons.mp h with rfl | h
        · exact .inr (by simp)
        · exact (ih h).imp id (List.mem_cons_of_mem _)

theorem sorted_insertEntries (k : κ) (v : ν) {l : List ((_ : κ) × ν)}
    (h : l.Pairwise (fun a b => a.1 < b.1)) :
    (insertEntries k v l).Pairwise (fun a b => a.1 < b.1) := by
  induction l with
  | nil => simp [insertEntries]
  | cons d rest ih =>
      obtain ⟨hd, hrest⟩ := List.pairwise_cons.mp h
      simp only [insertEntries]
      split_ifs with h₁ h₂
      · refine List.pairwise_cons.mpr ⟨fun e he => ?_, h⟩
        rcases List.mem_cons.mp he with rfl | he
        · exact h₁
        · exact h₁.trans (hd e he)
      · exact h
      · refine List.pairwise_cons.mpr ⟨fun e he => ?_, ih hrest⟩
        rcases mem_insertEntries he with rfl | he
        · exact lt_of_le_of_ne (not_lt.mp h₁) (Ne.symm h₂)
        · exact hd e he

theorem dlookup_insertEntries (k : κ) (v : ν) {l : List ((_ : κ) × ν)}
    (h : l.Pairwise (fun a b => a.1 < b.1)) (j : κ) :
    (insertEntries k v l).dlookup j =
      if j = k then some ((l.dlookup k).getD v) else l.dlookup j := by
  induction l with
  | nil =>
      by_cases hj : j = k
      · subst hj; simp [insertEntries]
      · simp [insertEntries, hj, List.dlookup_cons_ne]
  | cons d rest ih =>
      obtain ⟨hd, hrest⟩ := List.pairwise_cons.mp h
      obtain ⟨d, w⟩ := d
      rw [insertEntries]
      by_cases h₁ : k < d
      · -- `k` is smaller than every key
        have hk : (⟨d, w⟩ :: rest : List ((_ : κ) × ν)).dlookup k = none :=
          List.dlookup_eq_none.mpr fun hm => by
            obtain ⟨u, hu⟩ := List.exists_of_mem_keys hm
            rcases List.mem_cons.mp hu with e | hu
            · cases e; exact lt_irrefl _ h₁
            · exact lt_asymm h₁ (hd _ hu)
        rw [if_pos h₁, hk]
        by_cases hj : j = k
        · subst hj; simp
        · rw [if_neg hj, dlookup_cons_of_ne v _ hj]
      · rw [if_neg h₁]
        by_cases h₂ : k = d
        · -- the entry that is there stays
          subst h₂
          rw [if_pos rfl]
          by_cases hj : j = k
          · subst hj; simp
          · rw [if_neg hj]
        · rw [if_neg h₂, dlookup_cons_of_ne w rest h₂]
          by_cases hj : j = d
          · subst hj; simp [Ne.symm h₂]
          · rw [dlookup_cons_of_ne w _ hj, dlookup_cons_of_ne w _ hj, ih hrest]

/-- `insert(pair(k, v))`. -/
def insert (m : StdMap κ ν) (k : κ) (v : ν) : StdMap κ ν :=
  ⟨insertEntries k v m.entries, sorted_insertEntries k v m.sorted⟩

theorem find_insert [DecidableEq κ] (m : StdMap κ ν) (k : κ) (v : ν) (j : κ) :
    (m.insert k v).find j = if j = k then some ((m.find k).getD v) else m.find j := by
  have h := dlookup_insertEntries k v m.sorted j
  split_ifs at h ⊢ <;> exact h

theorem find_insert_self (m : StdMap κ ν) (k : κ) (v : ν) :
    (m.insert k v).find k = some ((m.find k).getD v) := by
  rw [find_insert, if_pos rfl]

theorem isSome_find_insert [DecidableEq κ] (m : StdMap κ ν) (k : κ) (v : ν) (j : κ) :
    ((m.insert k v).find j).isSome = (decide (j = k) || (m.find j).isSome) := by
  rw [find_insert]
  by_cases h : j = k <;> simp [h]

/-- Inserting pairs one after the other. -/
def insertAll (m : StdMap κ ν) (ps : List (κ × ν)) : StdMap κ ν :=
  ps.foldl (fun m p => m.insert p.1 p.2) m

/-- **First wins.**  After a list of pairs is inserted, a key has the value it had, or else the
value of the first pair with that key. -/
theorem find_insertAll [DecidableEq κ] (m : StdMap κ ν) (ps : List (κ × ν)) (k : κ) :
    (m.insertAll ps).find k = (m.find k).or ((ps.find? (·.1 = k)).map (·.2)) := by
  induction ps generalizing m with
  | nil => simp [insertAll]
  | cons p ps ih =>
      have h := ih (m.insert p.1 p.2)
      simp only [insertAll, List.foldl_cons] at h ⊢
      rw [h, find_insert]
      by_cases e : p.1 = k
      · subst e
        cases m.find p.1 <;> simp
      · rw [if_neg (Ne.symm e), List.find?_cons]
        simp [e]

/-! ### erase and assign -/

/-- `erase(k)`. -/
def erase (m : StdMap κ ν) (k : κ) : StdMap κ ν :=
  ⟨m.entries.kerase k, m.sorted.sublist (List.kerase_sublist k _)⟩

@[simp] theorem find_erase_self (m : StdMap κ ν) (k : κ) : (m.erase k).find k = none :=
  List.dlookup_kerase _ m.nodupKeys

theorem find_erase_of_ne (m : StdMap κ ν) {k j : κ} (h : j ≠ k) :
    (m.erase k).find j = m.find j :=
  List.dlookup_kerase_ne h

theorem find_erase [DecidableEq κ] (m : StdMap κ ν) (k j : κ) :
    (m.erase k).find j = if j = k then none else m.find j := by
  by_cases h : j = k
  · subst h
    rw [if_pos rfl, find_erase_self]
  · rw [if_neg h, find_erase_of_ne m h]

/-- `iter->second = v`, at the iterator of the key `k`. -/
def assign (m : StdMap κ ν) (k : κ) (v : ν) : StdMap κ ν :=
  ⟨m.entries.map fun e => if e.1 = k then ⟨e.1, v⟩ else e, by
    refine List.pairwise_map.mpr (m.sorted.imp fun {a b} h => ?_)
    split_ifs <;> exact h⟩

theorem find_assign [DecidableEq κ] (m : StdMap κ ν) (k : κ) (v : ν) (j : κ) :
    (m.assign k v).find j = if j = k then (m.find k).map fun _ => v else m.find j := by
  obtain ⟨l, hl⟩ := m
  simp only [find, assign]
  clear hl
  induction l with
  | nil => simp
  | cons e l ih =>
      obtain ⟨d, w⟩ := e
      rw [List.map_cons]
      by_cases hdk : d = k
      · subst hdk
        rw [if_pos rfl]
        by_cases hj : j = d
        · subst hj; simp
        · rw [dlookup_cons_of_ne v _ hj, ih, if_neg hj, if_neg hj, dlookup_cons_of_ne w _ hj]
      · rw [if_neg hdk, dlookup_cons_of_ne w l (Ne.symm hdk)]
        by_cases hj : j = d
        · subst hj; simp [hdk]
        · rw [dlookup_cons_of_ne w _ hj, ih, dlookup_cons_of_ne w l hj]

theorem isSome_find_assign (m : StdMap κ ν) (k : κ) (v : ν) (j : κ) :
    ((m.assign k v).find j).isSome = (m.find j).isSome := by
  rw [find_assign]
  by_cases h : j = k
  · subst h; simp
  · simp [h]

/-! ### Keys -/

/-- The keys, in order. -/
def keys (m : StdMap κ ν) : List κ := m.entries.keys

theorem nodup_keys (m : StdMap κ ν) : m.keys.Nodup := m.nodupKeys

theorem mem_keys {m : StdMap κ ν} {k : κ} : k ∈ m.keys ↔ (m.find k).isSome :=
  List.dlookup_isSome.symm

theorem sorted_keys (m : StdMap κ ν) : m.keys.Pairwise (· < ·) := List.pairwise_map.mpr m.sorted

@[simp] theorem keys_assign (m : StdMap κ ν) (k : κ) (v : ν) : (m.assign k v).keys = m.keys := by
  simp only [keys, List.keys, assign, List.map_map]
  refine List.map_congr_left fun e _ => ?_
  rw [Function.comp_apply]
  split_ifs <;> rfl

/-- Maps with the same keys have them in the same order. -/
theorem keys_eq {μ : Type*} {m : StdMap κ ν} {n : StdMap κ μ}
    (h : ∀ k, (m.find k).isSome = (n.find k).isSome) : m.keys = n.keys := by
  have hperm : m.keys.Perm n.keys :=
    (List.perm_ext_iff_of_nodup m.nodup_keys n.nodup_keys).mpr fun k => by
      rw [mem_keys, mem_keys, h]
  exact hperm.eq_of_pairwise (fun a b _ _ hab hba => absurd hba (lt_asymm hab)) m.sorted_keys
    n.sorted_keys

/-- An entry and its place among the keys. -/
theorem getElem?_entries {m : StdMap κ ν} {i : Nat} {e : (_ : κ) × ν} :
    m.entries[i]? = some e ↔ m.keys[i]? = some e.1 ∧ m.find e.1 = some e.2 := by
  obtain ⟨k, v⟩ := e
  rw [keys, List.keys, List.getElem?_map]
  constructor
  · intro h
    exact ⟨by rw [h]; rfl, find_of_mem (List.mem_of_getElem? h)⟩
  · rintro ⟨hkey, hfind⟩
    obtain ⟨⟨k', w⟩, hd, rfl⟩ := Option.map_eq_some_iff.mp hkey
    obtain rfl : w = v := Option.some.inj ((find_of_mem (List.mem_of_getElem? hd)).symm.trans hfind)
    exact hd

theorem mem_keys_insertAll {m : StdMap κ ν} {ps : List (κ × ν)} {k : κ} :
    k ∈ (m.insertAll ps).keys ↔ k ∈ m.keys ∨ k ∈ ps.map (·.1) := by
  rw [mem_keys, find_insertAll, Option.isSome_or, Bool.or_eq_true, ← mem_keys, Option.isSome_map,
    List.find?_isSome]
  simp

@[simp] theorem keys_erase [BEq κ] [LawfulBEq κ] (m : StdMap κ ν) (k : κ) :
    (m.erase k).keys = m.keys.erase k := by
  have hbeq : instBEqOfDecidableEq = ‹BEq κ› := lawful_beq_subsingleton _ _
  rw [← hbeq]
  exact List.keys_kerase

/-- **Only new keys.**  A list of the keys, with the keys of the inserted pairs appended, lists the
keys again exactly when the pairs have different keys and none of them was there. -/
theorem perm_keys_insertAll {m : StdMap κ ν} {ps : List (κ × ν)} {l : List κ} (hl : l.Perm m.keys) :
    (l ++ ps.map (·.1)).Perm (m.insertAll ps).keys ↔
      (ps.map (·.1)).Nodup ∧ ∀ k ∈ ps.map (·.1), k ∉ m.keys := by
  have hnodup : l.Nodup := hl.nodup_iff.mpr m.nodup_keys
  constructor
  · intro h
    obtain ⟨-, hps, hdisjoint⟩ := List.nodup_append.mp (h.nodup_iff.mpr (nodup_keys _))
    exact ⟨hps, fun k hk hm => hdisjoint k (hl.mem_iff.mpr hm) k hk rfl⟩
  · rintro ⟨hps, hnew⟩
    have hdisjoint : ∀ a ∈ l, ∀ b ∈ ps.map (·.1), a ≠ b := by
      rintro a ha b hb rfl
      exact hnew a hb (hl.mem_iff.mp ha)
    refine (List.perm_ext_iff_of_nodup (List.nodup_append.mpr ⟨hnodup, hps, hdisjoint⟩)
      (nodup_keys _)).mpr fun k => ?_
    rw [List.mem_append, hl.mem_iff, mem_keys_insertAll]

/-! ### Iterators -/

/-- `begin()`: the key of the first entry, none for `end()`. -/
def begin (m : StdMap κ ν) : Option κ := m.entries.head?.map (·.1)

/-- `++iter`, at the iterator of the key `k`: where it leads, none where no entry of the map has
that key and the iterator is not valid. -/
def next (m : StdMap κ ν) (k : κ) : Option (Option κ) :=
  match m.entries.dropWhile fun e => e.1 ≠ k with
  | [] => none
  | _ :: rest => some (rest.head?.map (·.1))

theorem next_of_entries {m : StdMap κ ν} {pre post : List ((_ : κ) × ν)} {e : (_ : κ) × ν}
    (h : m.entries = pre ++ e :: post) : m.next e.1 = some (post.head?.map (·.1)) := by
  have hpre : ∀ d ∈ pre, d.1 ≠ e.1 := fun d hd => by
    have hsorted := m.sorted
    rw [h, List.pairwise_append] at hsorted
    exact ne_of_lt (hsorted.2.2 d hd e (by simp))
  have hdrop : m.entries.dropWhile (fun d => d.1 ≠ e.1) = e :: post := by
    rw [h, List.dropWhile_append_of_pos (by simpa using hpre), List.dropWhile_cons_of_neg (by simp)]
  rw [next, hdrop]

/-- An iterator does not outlive the erasure of its entry. -/
theorem next_erase_self (m : StdMap κ ν) (k : κ) : (m.erase k).next k = none := by
  have hdrop : (m.erase k).entries.dropWhile (fun e => e.1 ≠ k) = [] := by
    refine List.dropWhile_eq_nil_iff.mpr fun e he => ?_
    have hfind := find_of_mem he
    by_cases hk : e.1 = k
    · rw [hk, find_erase_self] at hfind
      cases hfind
    · simpa using hk
  rw [next, hdrop]

end StdMap

end Cimabue
