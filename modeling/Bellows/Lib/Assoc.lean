/-
Finite maps: Mathlib's association lists at a constant value type, with
what the state machines do with a map besides looking up, inserting and
erasing: searching its values, dropping some and updating them in place.
-/
import Mathlib.Data.List.AList

/-- A finite map with at most one entry a key. -/
abbrev Assoc (κ υ : Type) := AList fun _ : κ => υ

namespace Assoc

variable {κ υ : Type} [DecidableEq κ]

/-- The first entry whose value satisfies `p`. -/
def findValue (m : Assoc κ υ) (p : υ → Bool) : Option (κ × υ) :=
  (m.entries.find? fun e => p e.2).map fun e => (e.1, e.2)

/-- Every value replaced by its image, the keys as they were. -/
def mapValues (f : υ → υ) (m : Assoc κ υ) : Assoc κ υ where
  entries := m.entries.map fun e => ⟨e.1, f e.2⟩
  nodupKeys := by
    have h := m.nodupKeys
    simp only [List.NodupKeys, List.keys, List.map_map] at h ⊢
    exact h

/-- The entries whose value satisfies `p`. -/
def retain (p : υ → Bool) (m : Assoc κ υ) : Assoc κ υ where
  entries := m.entries.filter fun e => p e.2
  nodupKeys := m.nodupKeys.sublist List.filter_sublist

theorem mem_entries_iff {m : Assoc κ υ} {k : κ} {v : υ} :
    (⟨k, v⟩ : Sigma fun _ : κ => υ) ∈ m.entries ↔ m.lookup k = some v :=
  AList.mem_lookup_iff.symm

theorem findValue_some {m : Assoc κ υ} {p : υ → Bool} {k : κ} {v : υ}
    (h : m.findValue p = some (k, v)) : m.lookup k = some v ∧ p v = true := by
  simp only [findValue, Option.map_eq_some_iff, Prod.mk.injEq] at h
  obtain ⟨⟨k', v'⟩, hf, rfl, rfl⟩ := h
  exact ⟨mem_entries_iff.1 (List.mem_of_find?_eq_some hf), by simpa using List.find?_some hf⟩

theorem findValue_eq_none {m : Assoc κ υ} {p : υ → Bool} :
    m.findValue p = none ↔ ∀ k v, m.lookup k = some v → p v = false := by
  simp only [findValue, Option.map_eq_none_iff, List.find?_eq_none, Bool.not_eq_true]
  exact ⟨fun h k v hk => h _ (mem_entries_iff.2 hk), fun h e he => h e.1 e.2 (mem_entries_iff.1 he)⟩

theorem findValue_isSome {m : Assoc κ υ} {p : υ → Bool} :
    (m.findValue p).isSome = true ↔ ∃ k v, m.lookup k = some v ∧ p v = true := by
  rw [← not_iff_not, Bool.not_eq_true, Option.isSome_eq_false_iff, Option.isNone_iff_eq_none,
    findValue_eq_none]
  push Not
  simp only [Bool.not_eq_true, ne_eq]

theorem lookup_mapValues (f : υ → υ) (m : Assoc κ υ) (k : κ) :
    (m.mapValues f).lookup k = (m.lookup k).map f := by
  ext v
  rw [← mem_entries_iff]
  simp only [mapValues, List.mem_map, Sigma.mk.injEq, Option.map_eq_some_iff]
  constructor
  · rintro ⟨⟨k', v'⟩, he, rfl, hv⟩
    exact ⟨v', mem_entries_iff.1 he, by simpa using hv⟩
  · rintro ⟨v', hk, rfl⟩
    exact ⟨⟨k, v'⟩, mem_entries_iff.2 hk, rfl, by simp⟩

theorem lookup_retain (p : υ → Bool) (m : Assoc κ υ) (k : κ) :
    (m.retain p).lookup k = (m.lookup k).filter p := by
  ext v
  rw [← mem_entries_iff]
  simp [retain, List.mem_filter, mem_entries_iff, Option.filter_eq_some_iff]

/-- Looking up after an insertion. -/
theorem lookup_insert_eq_ite (m : Assoc κ υ) (k k' : κ) (v : υ) :
    (m.insert k v).lookup k' = if k' = k then some v else m.lookup k' := by
  split
  · next h => subst h; exact AList.lookup_insert m
  · next h => exact AList.lookup_insert_ne h

/-- Looking up after a removal. -/
theorem lookup_erase_eq_ite (m : Assoc κ υ) (k k' : κ) :
    (m.erase k).lookup k' = if k' = k then none else m.lookup k' := by
  split
  · next h => subst h; exact AList.lookup_erase _ m
  · next h => exact AList.lookup_erase_ne h

/-- The entry of a key comes apart from the others. -/
theorem entries_perm_erase {m : Assoc κ υ} {k : κ} {v : υ} (h : m.lookup k = some v) :
    m.entries.Perm (⟨k, v⟩ :: (m.erase k).entries) := by
  have hmem := mem_entries_iff.2 h
  obtain ⟨w, l, l', -, heq, herase⟩ := List.exists_of_kerase (List.mem_keys_of_mem hmem)
  have hw : w = v := by
    have hentry : (⟨k, w⟩ : Sigma fun _ : κ => υ) ∈ m.entries := by simp [heq]
    exact Option.some.inj ((mem_entries_iff.1 hentry).symm.trans h)
  have hrest : (m.erase k).entries = l ++ l' := herase
  rw [heq, hrest, hw]
  exact List.perm_middle

end Assoc
