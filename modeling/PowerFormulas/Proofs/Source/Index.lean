import Mathlib.Data.List.Induction
import PowerFormulas.Source

/-!
# The index of a store

A store gives for a name the record that was inserted under it last. Its index leads from an id to a
record of this id, but not always when there is one: a record that is replaced takes the index entry
of its id with it, also if this entry leads to another record (`nameOf_finds_stored_iff`).
-/

namespace PowerFormulas.RecordStore

variable {s : RecordStore} {r : Record} {records : List Record} {name : String} {id : UInt32}

/-- The record that was inserted last under the name. -/
def lastNamed (records : List Record) (name : String) : Option Record :=
  records.reverse.find? fun r => r.name = name

/-- Since a record of the id came last, one of this id has been replaced. -/
def Lapsed (records : List Record) (id : UInt32) : Prop :=
  ∃ earlier r later, records = earlier ++ r :: later ∧
    (∃ old, lastNamed earlier r.name = some old ∧ old.id = id) ∧ ∀ r' ∈ r :: later, r'.id ≠ id

/-- A record of the id is stored, and its index entry was lost with that of another record. -/
def Orphaned (records : List Record) (id : UInt32) : Prop :=
  Lapsed records id ∧ ∃ name r, lastNamed records name = some r ∧ r.id = id

/-! ### One more record -/

theorem load_insert (s : RecordStore) (r : Record) (name : String) :
    (s.insert r).load name = if r.name = name then some r else s.load name := by
  simp [load, insert, Std.ExtTreeMap.getElem?_insert]

theorem nameOf_insert (s : RecordStore) (r : Record) (id : UInt32) :
    (s.insert r).nameOf id =
      if r.id = id then some r.name
      else if (s.load r.name).map Record.id = some id then none else s.nameOf id := by
  unfold nameOf insert load
  cases s.records[r.name]? with
  | none => simp [Std.ExtTreeMap.getElem?_insert]
  | some old => simp [Std.ExtTreeMap.getElem?_insert, Std.ExtTreeMap.getElem?_erase]

theorem ofList_append_singleton (records : List Record) (r : Record) :
    ofList (records ++ [r]) = (ofList records).insert r := by
  rw [ofList, List.foldl_append]
  rfl

theorem lastNamed_append_singleton (records : List Record) (r : Record) (name : String) :
    lastNamed (records ++ [r]) name = if r.name = name then some r else lastNamed records name := by
  rw [lastNamed, List.reverse_append]
  by_cases h : r.name = name <;> simp [h, lastNamed]

theorem lapsed_append_singleton : Lapsed (records ++ [r]) id ↔
    r.id ≠ id ∧ ((lastNamed records r.name).map Record.id = some id ∨ Lapsed records id) := by
  rw [Option.map_eq_some_iff]
  constructor
  · rintro ⟨earlier, r', later, hsplit, hold, hlater⟩
    rcases List.eq_nil_or_concat later with rfl | ⟨rest, last, rfl⟩
    · obtain ⟨rfl, hr⟩ := List.append_inj' hsplit rfl
      cases hr
      exact ⟨hlater _ List.mem_cons_self, .inl hold⟩
    · rw [List.concat_eq_append, ← List.cons_append, ← List.append_assoc] at hsplit
      obtain ⟨rfl, hr⟩ := List.append_inj' hsplit rfl
      cases hr
      have hlast : r.id ≠ id := hlater r (by simp)
      refine ⟨hlast, .inr ⟨earlier, r', rest, rfl, hold, fun r'' hmem => hlater r'' ?_⟩⟩
      rw [List.concat_eq_append, ← List.cons_append]
      exact List.mem_append_left _ hmem
  · rintro ⟨hr, hold | ⟨earlier, r', later, rfl, hold, hlater⟩⟩
    · exact ⟨records, r, [], rfl, hold, List.forall_mem_singleton.2 hr⟩
    · refine ⟨earlier, r', later ++ [r], List.append_assoc _ _ _, hold, ?_⟩
      rw [← List.cons_append, List.forall_mem_append]
      exact ⟨hlater, List.forall_mem_singleton.2 hr⟩

/-! ### All records -/

theorem load_ofList (records : List Record) (name : String) :
    (ofList records).load name = lastNamed records name := by
  induction records using List.reverseRecOn with
  | nil => rfl
  | append_singleton records r ih =>
    rw [ofList_append_singleton, load_insert, lastNamed_append_singleton, ih]

theorem name_of_lastNamed (h : lastNamed records name = some r) : r.name = name := by
  have hfound := List.find?_some h
  exact of_decide_eq_true hfound

theorem exists_stored_of_nameOf (h : (ofList records).nameOf id = some name) :
    ∃ r, lastNamed records name = some r ∧ r.id = id := by
  induction records using List.reverseRecOn with
  | nil => simp [ofList, nameOf, empty] at h
  | append_singleton records r ih =>
    rw [ofList_append_singleton, nameOf_insert] at h
    rw [lastNamed_append_singleton]
    split at h
    · rename_i hid
      cases h
      exact ⟨r, if_pos rfl, hid⟩
    · split at h
      · cases h
      · rename_i hkept
        obtain ⟨old, hold, hid⟩ := ih h
        have hname : r.name ≠ name := by
          rintro rfl
          rw [load_ofList, hold, Option.map_some, hid] at hkept
          exact hkept rfl
        exact ⟨old, by rw [if_neg hname, hold], hid⟩

/-- An id has no index entry if no record of it came, or if its entry has lapsed. -/
theorem nameOf_eq_none_iff :
    (ofList records).nameOf id = none ↔ (∀ r ∈ records, r.id ≠ id) ∨ Lapsed records id := by
  induction records using List.reverseRecOn with
  | nil => simp [ofList, nameOf, empty]
  | append_singleton records r ih =>
    rw [ofList_append_singleton, nameOf_insert, load_ofList, lapsed_append_singleton,
      List.forall_mem_append, List.forall_mem_singleton]
    by_cases hid : r.id = id
    · simp [hid]
    · by_cases hold : (lastNamed records r.name).map Record.id = some id
      · simp [hid, hold]
      · simp [hid, hold, ih]

/-- What is given for a name is the last record inserted under it, and what the index gives for an
id is the name of a record of this id. The index gives a name for an id just if a record of the id
is stored, unless the id is orphaned. -/
theorem nameOf_finds_stored_iff (records : List Record) :
    let s := ofList records
    (∀ name, s.load name = lastNamed records name) ∧
    (∀ id name, s.nameOf id = some name → ∃ r, s.load name = some r ∧ r.name = name ∧ r.id = id) ∧
    ∀ id, ((s.nameOf id).isSome ↔ ∃ name r, s.load name = some r ∧ r.id = id) ↔
      ¬ Orphaned records id := by
  intro s
  refine ⟨load_ofList records, ?_, ?_⟩
  · intro id name h
    obtain ⟨r, hr, hid⟩ := exists_stored_of_nameOf h
    exact ⟨r, (load_ofList records name).trans hr, name_of_lastNamed hr, hid⟩
  · intro id
    simp only [s, load_ofList]
    constructor
    · rintro hiff ⟨hlapsed, hstored⟩
      have hsome := hiff.2 hstored
      rw [nameOf_eq_none_iff.2 (.inr hlapsed)] at hsome
      cases hsome
    · intro hindexed
      constructor
      · intro hsome
        obtain ⟨name, hname⟩ := Option.isSome_iff_exists.1 hsome
        exact ⟨name, exists_stored_of_nameOf hname⟩
      · rintro ⟨name, r, hr, hid⟩
        rw [Option.isSome_iff_ne_none]
        intro hnone
        rcases nameOf_eq_none_iff.1 hnone with hnever | hlapsed
        · exact hnever r (List.mem_reverse.1 (List.mem_of_find?_eq_some hr)) hid
        · exact hindexed ⟨hlapsed, name, r, hr, hid⟩

/-- "Jab" and "Hook" have the id 1 until "Jab" comes with another one. Then no name is given for the
id 1, and "Hook" still has it. -/
theorem hook_is_orphaned :
    let record (name : String) (id : UInt32) : Record := ⟨name, id, [], 0, []⟩
    let s := ofList [record "Jab" 1, record "Hook" 1, record "Jab" 2]
    s.load "Hook" = some (record "Hook" 1) ∧ s.nameOf 1 = none := by
  intro record s
  decide +kernel

end PowerFormulas.RecordStore
