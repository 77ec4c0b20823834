import PowerFormulas.Source

/-!
# Sources that know their records by their own names

A coherent source may load a record by many names, but its own name is one of them.
-/

namespace PowerFormulas

/-- Whatever name a record is loaded by, its own name loads it too. -/
def Source.Coherent (s : Source) : Prop :=
  ∀ (name : String) (record : Record), s.load name = some record →
    s.load record.name = some record

/-- So are sources that bring names to a common form first, as those do that ignore case. -/
theorem Source.coherent_of_fold {s : Source} (fold : String → String)
    (table : String → Option Record)
    (htable : ∀ key record, table key = some record → fold record.name = key)
    (hload : ∀ name, s.load name = table (fold name)) : s.Coherent := by
  intro name record h
  rw [hload] at h ⊢
  rw [htable (fold name) record h]
  exact h

namespace RecordStore

def Named (s : RecordStore) : Prop :=
  ∀ (name : String) (record : Record), s.records[name]? = some record → record.name = name

theorem Named.insert {s : RecordStore} (h : s.Named) (record : Record) :
    (s.insert record).Named := by
  intro name record' hr
  have hrecords : (s.insert record).records = s.records.insert record.name record := rfl
  rw [hrecords, Std.ExtTreeMap.getElem?_insert] at hr
  split at hr
  · rename_i heq
    cases hr
    exact Std.LawfulEqCmp.compare_eq_iff_eq.1 heq
  · exact h name record' hr

theorem named_foldl {s : RecordStore} (h : s.Named) (records : List Record) :
    (records.foldl RecordStore.insert s).Named := by
  induction records generalizing s with
  | nil => exact h
  | cons record rest ih => exact ih (h.insert record)

theorem named_ofList (records : List Record) : (ofList records).Named :=
  named_foldl (fun name record h => by simp [empty] at h) records

theorem coherent_toSource (records : List Record) : (ofList records).toSource.Coherent :=
  Source.coherent_of_fold id (ofList records).load (named_ofList records) fun _ => rfl

end RecordStore

end PowerFormulas
