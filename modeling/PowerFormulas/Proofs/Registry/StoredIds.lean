import PowerFormulas.Proofs.Registry.Transparency
import PowerFormulas.Proofs.Source.Index

/-!
# Powers of a store by their ids

Two tables can say which power an id stands for, the index of the store and that of the registry.
They need not agree, as records are replaced and ids are used again, but each leads to a record of
the id (`exists_record_of_name`). So what is found under an id is a power of this id, and it is what
the stored record of its name decodes to (`getById_finds_stored_power_of_id`).
-/

namespace PowerFormulas

/-- The library over the records that were inserted into an empty store, one after another. -/
def Library.ofRecords (records : List Record) (c : Catalog) (names : List String) : Library :=
  ⟨(RecordStore.ofList records).toSource, c, names⟩

namespace Registry

variable {records : List Record} {c : Catalog} {names : List String} {r : Registry} {id : UInt32}
  {name : String}

theorem Agrees.exists_of_some {decoded : Except Malformed Power} {p : Power}
    (h : Agrees (some decoded) (.ok (some p))) : ∃ p₀, decoded = .ok p₀ ∧ p₀.Later p := by
  cases h with
  | found hlater => exact ⟨_, rfl, hlater⟩

/-- Whichever table an id's name is taken from, a record of the id is stored under this name. -/
theorem exists_record_of_name (hr : Consistent r) (hs : Sourced (.ofRecords records c names) r)
    (h : r.nameById[id]?.or ((RecordStore.ofList records).nameOf id) = some name) :
    ∃ record, (RecordStore.ofList records).load name = some record ∧ record.name = name ∧
      record.id = id := by
  rcases Option.or_eq_some_iff.1 h with hkept | ⟨-, hindex⟩
  · -- a kept power has come from the record of its name, and bears its id
    obtain ⟨p, hp, hid⟩ := hr.id_leads hkept
    obtain ⟨p₀, hdecode, hlater⟩ := later_of_kept (RecordStore.coherent_toSource records) hr hs hp
    obtain ⟨record, hload, hrecord⟩ := Library.decode_eq_some_iff.1 hdecode
    obtain ⟨-, hrecordId, -⟩ := Power.entries_of_decode hrecord
    refine ⟨record, hload, RecordStore.named_ofList records name record hload, ?_⟩
    rw [← hrecordId, ← hlater.id, hid]
  · obtain ⟨record, hlast, hid⟩ := RecordStore.exists_stored_of_nameOf hindex
    refine ⟨record, ?_, RecordStore.name_of_lastNamed hlast, hid⟩
    rw [RecordStore.load_ofList, hlast]

/-- A name with a stored record leads to what this record decodes to, or to a fault. -/
theorem get_of_stored {record : Record} (hr : Consistent r)
    (hs : Sourced (.ofRecords records c names) r)
    (hload : (RecordStore.ofList records).load name = some record) (hname : record.name = name) :
    (r.get (.ofRecords records c names) name).1 ≠ .ok none ∧
    ∀ p, (r.get (.ofRecords records c names) name).1 = .ok (some p) →
      ∃ p₀, Power.decode record = .ok p₀ ∧ p₀.Later p ∧ p.name = name ∧ p.id = record.id := by
  have hagrees := agrees_get (RecordStore.coherent_toSource records) hr hs name
  rw [Library.decode_eq_some_iff.2 ⟨record, hload, rfl⟩] at hagrees
  constructor
  · rw [Ne, hagrees.eq_none_iff]
    nofun
  · intro p hp
    rw [hp] at hagrees
    obtain ⟨p₀, hdecode, hlater⟩ := hagrees.exists_of_some
    obtain ⟨hp₀Name, hp₀Id, -⟩ := Power.entries_of_decode hdecode
    exact ⟨p₀, hdecode, hlater, hlater.name.trans (hp₀Name.trans hname), hlater.id.trans hp₀Id⟩

/-- Over a store, whatever has been asked before, a power that is found under an id bears this id,
and it is what the stored record of its name decodes to, with the progress that its scripts have
made. No power is found just if the registry keeps none of this id and the store does not name
it. -/
theorem getById_finds_stored_power_of_id (records : List Record) (c : Catalog)
    (names : List String) (ops : List Operation) (id : UInt32) :
    let store := RecordStore.ofList records
    let l := Library.ofRecords records c names
    let r := empty.after l ops
    let answer := (r.getById l id).1
    (∀ p, answer = .ok (some p) → p.id = id ∧ ∃ record p₀, store.load p.name = some record ∧
      record.name = p.name ∧ record.id = id ∧ Power.decode record = .ok p₀ ∧
      ∀ tag : UInt32, Option.Rel Entry.SameFormula p₀.entries[tag]? p.entries[tag]?) ∧
    (answer = .ok none ↔ r.isCachedId id = false ∧ store.nameOf id = none) := by
  intro store l r answer
  have hr : Consistent r := consistent_after l ops
  have hs : Sourced l r := sourced_after l ops
  have hcached : r.isCachedId id = false ↔ r.nameById[id]? = none := by
    rw [isCachedId, Std.ExtTreeMap.contains_eq_isSome_getElem?, Option.isSome_eq_false_iff,
      Option.isNone_iff_eq_none]
  rw [hcached, ← Option.or_eq_none_iff]
  cases hname : r.nameById[id]?.or (store.nameOf id) with
  | none =>
    have hanswer : answer = .ok none := congrArg Prod.fst (getById_of_no_name hname)
    rw [hanswer]
    exact ⟨nofun, iff_of_true rfl rfl⟩
  | some name =>
    have hanswer : answer = (r.get l name).1 := congrArg Prod.fst (getById_of_name hname)
    obtain ⟨record, hload, hrecordName, hrecordId⟩ := exists_record_of_name hr hs hname
    obtain ⟨hnone, hsome⟩ := get_of_stored hr hs hload hrecordName
    rw [hanswer]
    refine ⟨fun p hp => ?_, iff_of_false hnone nofun⟩
    obtain ⟨p₀, hdecode, hlater, rfl, hpId⟩ := hsome p hp
    exact ⟨hpId.trans hrecordId, record, p₀, hload, hrecordName, hrecordId, hdecode,
      hlater.entries.sameFormula⟩

/-- "Jab" and "Hook" have the id 1 until "Jab" comes with another one, and then the store has no
name for the id 1. Once "Hook" has been asked for by its name, it is found under the id. -/
theorem orphaned_hook_is_found_once_kept :
    let record (name : String) (id : UInt32) : Record := ⟨name, id, List.replicate 0xB0 0, 0, []⟩
    let records := [record "Jab" 1, record "Hook" 1, record "Jab" 2]
    let l := Library.ofRecords records Catalog.empty []
    let r := empty.after l [.get "Hook"]
    (empty.getById l 1).1 = .ok none ∧ (r.getById l 1).1 = .ok (some ⟨"Hook", 1, ∅⟩) ∧
      ∃ found p₀, (RecordStore.ofList records).load "Hook" = some found ∧ found.id = 1 ∧
        Power.decode found = .ok p₀ := by
  intro record records l r
  have hkept : (r.getById l 1).1 = .ok (some ⟨"Hook", 1, ∅⟩) := by decide +kernel
  have hnone := (getById_finds_stored_power_of_id records Catalog.empty [] [] 1).2
  have hsome := (getById_finds_stored_power_of_id records Catalog.empty [] [.get "Hook"] 1).1
  obtain ⟨-, found, p₀, hload, -, hid, hdecode, -⟩ := hsome _ hkept
  exact ⟨hnone.2 (by decide +kernel), hkept, found, p₀, hload, hid, hdecode⟩

end Registry

end PowerFormulas
