import PowerFormulas.Entry

/-!
# Sessions

A session is the entries of a power while requests for values are served. What bounds the serving is
the number of scripts that have not been evaluated: every run starts by taking one of them, and
nothing puts one back.
-/

namespace PowerFormulas

/-- The entries of a power while requests are served, and the runs made so far. -/
structure Session where
  entries : Entries
  runs : Nat
  deriving DecidableEq, Repr

/-- Scripts that have not been evaluated. -/
def Entries.unevaluated (es : Entries) : Entries :=
  es.filter fun _ e => e.progress = .unevaluated

theorem Entries.getElem?_unevaluated (es : Entries) (id : UInt32) :
    es.unevaluated[id]? = es[id]?.filter fun e => e.progress = .unevaluated :=
  Std.ExtTreeMap.getElem?_filter'

/-- A script that is in progress or done is none of the unevaluated ones. -/
theorem Entries.unevaluated_modify (es : Entries) (id : UInt32) {p : Progress}
    (hp : p ≠ .unevaluated) :
    Entries.unevaluated (es.modify id (Entry.withProgress p)) = es.unevaluated.erase id := by
  apply Std.ExtTreeMap.ext_getElem?
  intro k
  rw [Entries.getElem?_unevaluated, Std.ExtTreeMap.getElem?_modify, Std.ExtTreeMap.getElem?_erase,
    Entries.getElem?_unevaluated]
  split
  · rw [Option.filter_map]
    cases es[id]? with
    | none => rfl
    | some e => cases e <;> simp [Function.comp_def, Entry.withProgress, Entry.progress, hp]
  · rfl

namespace Session

/-- The number of scripts that have not been evaluated. -/
def pending (s : Session) : Nat := s.entries.unevaluated.size

/-- A run of the script starts. -/
def start (id : UInt32) (s : Session) : Session :=
  ⟨s.entries.modify id (Entry.withProgress .inProgress), s.runs + 1⟩

/-- The run of the script has ended with a value. -/
def finish (id : UInt32) (value : Int32) (s : Session) : Session :=
  ⟨s.entries.modify id (Entry.withProgress (.done value)), s.runs⟩

theorem pending_start {s : Session} {id : UInt32} {e : Entry} (he : s.entries[id]? = some e)
    (hp : e.progress = .unevaluated) : (s.start id).pending + 1 = s.pending := by
  have hmem : id ∈ s.entries.unevaluated := by
    rw [Std.ExtTreeMap.mem_iff_isSome_getElem?, Entries.getElem?_unevaluated, he]
    simp [hp]
  have hpos : s.entries.unevaluated.size ≠ 0 := by
    intro h
    rw [Std.ExtTreeMap.eq_empty_iff_size_eq_zero.2 h] at hmem
    exact Std.ExtTreeMap.not_mem_empty hmem
  rw [pending, pending, start, Entries.unevaluated_modify _ _ (by simp),
    Std.ExtTreeMap.size_erase, if_pos (Std.ExtTreeMap.contains_iff_mem.2 hmem)]
  omega

theorem pending_finish_le (s : Session) (id : UInt32) (value : Int32) :
    (s.finish id value).pending ≤ s.pending := by
  rw [pending, pending, finish, Entries.unevaluated_modify _ _ (by simp)]
  exact Std.ExtTreeMap.size_erase_le

end Session

end PowerFormulas
