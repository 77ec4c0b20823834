import Mathlib.Control.Monad.Basic
import PowerFormulas.Proofs.Registry.Operations

/-!
# Requests that fail

A lookup that finds no power, or one that cannot be decoded, leaves no trace in a registry but in the
count of loads, and this count shows in no later answer (`failed_requests_leave_no_trace`). A dump of
all powers that fails has looked up the names before the failing one and done nothing else.
-/

namespace PowerFormulas.Registry

inductive Answer where
  | power (found : Except Malformed (Option Power))
  | dumps (collected : Except Malformed PowerDumps)
  | value (result : Except Error (Option (Option Int32)))

/-- What the operation is answered with. -/
def answer (l : Library) : Operation → Registry → Answer
  | .get name, r => .power (r.get l name).1
  | .getById id, r => .power (r.getById l id).1
  | .dumpAll, r => .dumps (r.dumpAll l).1
  | .evaluate name q, r => .value (serveFound l q (r.get l name)).1
  | .evaluateById id q, r => .value (serveFound l q (r.getById l id)).1

/-- The registry with so many more loads on its count. -/
def counted (n : Nat) (r : Registry) : Registry := { r with loads := r.loads + n }

variable {l : Library} {r r' : Registry} {name : String} {id : UInt32}
  {found : Except Malformed (Option Power)}

/-! ### The count of loads -/

section Counted

theorem counted_zero (r : Registry) : r.counted 0 = r := rfl

theorem counted_counted (m n : Nat) (r : Registry) :
    (r.counted m).counted n = r.counted (m + n) := by
  rw [counted, counted, counted, Nat.add_assoc]

theorem loaded_eq_counted (r : Registry) : r.loaded = r.counted 1 := rfl

theorem loaded_counted (n : Nat) (r : Registry) : (r.counted n).loaded = r.loaded.counted n := by
  rw [loaded_eq_counted, loaded_eq_counted, counted_counted, counted_counted, Nat.add_comm]

theorem linked_counted (name key : String) (n : Nat) (r : Registry) :
    (r.counted n).linked name key = (r.linked name key).counted n := by
  unfold linked
  split <;> rfl

theorem added_counted (p : Power) (n : Nat) (r : Registry) :
    (r.counted n).added p = (r.added p).counted n := rfl

/-- A lookup goes the same way whatever the count. -/
theorem Got.counted (h : Got l name r found r') (n : Nat) :
    Got l name (r.counted n) found (r'.counted n) := by
  cases h with
  | cached hpower => exact .cached hpower
  | missing hmiss hdecode =>
    rw [← loaded_counted]
    exact .missing hmiss hdecode
  | failed hmiss hdecode =>
    rw [← loaded_counted]
    exact .failed hmiss hdecode
  | known hmiss hdecode hlive =>
    rw [← linked_counted, ← loaded_counted]
    exact .known hmiss hdecode hlive
  | decoded hmiss hdecode hnew =>
    rw [← linked_counted, ← added_counted, ← loaded_counted]
    exact .decoded hmiss hdecode hnew

theorem get_counted (l : Library) (name : String) (n : Nat) (r : Registry) :
    (r.counted n).get l name = ((r.get l name).1, (r.get l name).2.counted n) :=
  ((got_get l name r).counted n).eq_get

theorem getById_counted (l : Library) (id : UInt32) (n : Nat) (r : Registry) :
    (r.counted n).getById l id = ((r.getById l id).1, (r.getById l id).2.counted n) := by
  cases hname : r.nameById[id]?.or (l.source.nameOf id) with
  | none =>
    rw [getById_of_no_name hname, getById_of_no_name (r := r.counted n) hname]
  | some name =>
    rw [getById_of_name hname, getById_of_name (r := r.counted n) hname]
    exact get_counted l name n r

theorem dumpNames_counted (l : Library) (names : List String) (dumps : PowerDumps) (n : Nat)
    (r : Registry) : (r.counted n).dumpNames l names dumps =
      ((r.dumpNames l names dumps).1, (r.dumpNames l names dumps).2.counted n) := by
  induction names generalizing dumps r with
  | nil => rfl
  | cons name rest ih =>
    rw [dumpNames, dumpNames, get_counted]
    obtain ⟨found, r'⟩ := r.get l name
    rcases found with fault | p?
    · rfl
    · cases p? with
      | none => exact ih dumps r'
      | some p => exact ih _ r'

theorem serveFound_counted (l : Library) (q : Request) (n : Nat)
    (found : Except Malformed (Option Power)) (r : Registry) :
    serveFound l q (found, r.counted n) =
      ((serveFound l q (found, r)).1, (serveFound l q (found, r)).2.counted n) := by
  rcases found with fault | p?
  · rfl
  · cases p? <;> rfl

theorem perform_counted (l : Library) (op : Operation) (n : Nat) (r : Registry) :
    (r.counted n).perform l op = (r.perform l op).counted n := by
  cases op with
  | get name => rw [perform, perform, get_counted]
  | getById id => rw [perform, perform, getById_counted]
  | dumpAll => rw [perform, perform, dumpAll, dumpAll, dumpNames_counted]
  | evaluate name q => rw [perform, perform, get_counted, serveFound_counted]
  | evaluateById id q => rw [perform, perform, getById_counted, serveFound_counted]

theorem answer_counted (l : Library) (op : Operation) (n : Nat) (r : Registry) :
    (r.counted n).answer l op = r.answer l op := by
  cases op with
  | get name => rw [answer, answer, get_counted]
  | getById id => rw [answer, answer, getById_counted]
  | dumpAll => rw [answer, answer, dumpAll, dumpAll, dumpNames_counted]
  | evaluate name q => rw [answer, answer, get_counted, serveFound_counted]
  | evaluateById id q => rw [answer, answer, getById_counted, serveFound_counted]

theorem after_counted (l : Library) (ops : List Operation) (n : Nat) (r : Registry) :
    (r.counted n).after l ops = (r.after l ops).counted n := by
  induction ops generalizing r with
  | nil => rfl
  | cons op rest ih => rw [after, after, perform_counted, ih]

end Counted

/-! ### Lookups that fail -/

theorem Got.eq_counted (h : Got l name r found r') (hnone : ∀ p, found ≠ .ok (some p)) :
    r' = r.counted 1 := by
  cases h with
  | missing | failed => rfl
  | cached | known | decoded => exact absurd rfl (hnone _)

theorem get_of_not_found (h : ∀ p, (r.get l name).1 ≠ .ok (some p)) :
    (r.get l name).2 = r.counted 1 :=
  (got_get l name r).eq_counted h

theorem getById_of_not_found (h : ∀ p, (r.getById l id).1 ≠ .ok (some p)) :
    ∃ n, (r.getById l id).2 = r.counted n := by
  cases hname : r.nameById[id]?.or (l.source.nameOf id) with
  | none =>
    rw [getById_of_no_name hname]
    exact ⟨0, (counted_zero r).symm⟩
  | some name =>
    rw [getById_of_name hname] at h ⊢
    exact ⟨1, get_of_not_found h⟩

/-! ### Dumps that fail -/

/-- The dumps with that of the power of this name, if there is one. -/
def withDump (l : Library) (name : String) (p? : Option Power) (dumps : PowerDumps) : PowerDumps :=
  match p? with
  | none => dumps
  | some p => dumps.insert name (p.powerDump l.catalog)

theorem dumpNames_of_error {fault : Malformed} (h : (r.get l name).1 = .error fault)
    (rest : List String) (dumps : PowerDumps) :
    r.dumpNames l (name :: rest) dumps = (.error fault, (r.get l name).2) := by
  rw [dumpNames]
  generalize r.get l name = got at h ⊢
  obtain ⟨found, r'⟩ := got
  cases h
  rfl

theorem dumpNames_of_ok {p? : Option Power} (h : (r.get l name).1 = .ok p?)
    (rest : List String) (dumps : PowerDumps) :
    r.dumpNames l (name :: rest) dumps =
      (r.get l name).2.dumpNames l rest (withDump l name p? dumps) := by
  rw [dumpNames]
  generalize r.get l name = got at h ⊢
  obtain ⟨found, r'⟩ := got
  cases h
  cases p? <;> rfl

/-- Looked up one after the other, none of the names leads to a fault. -/
def NoneFails (l : Library) : List String → Registry → Prop
  | [], _ => True
  | name :: rest, r =>
    (∀ fault, (r.get l name).1 ≠ .error fault) ∧ NoneFails l rest (r.get l name).2

/-- The names before the first one that fails are looked up, and this one is loaded. -/
theorem exists_failed_of_dumpNames {names : List String} {dumps : PowerDumps} {fault : Malformed}
    (h : (r.dumpNames l names dumps).1 = .error fault) :
    ∃ before name rest, names = before ++ name :: rest ∧ NoneFails l before r ∧
      ((r.after l (before.map .get)).get l name).1 = .error fault ∧
      (r.dumpNames l names dumps).2 = (r.after l (before.map .get)).counted 1 := by
  induction names generalizing dumps r with
  | nil => cases h
  | cons name rest ih =>
    cases hget : (r.get l name).1 with
    | error cause =>
      have hcounted : (r.get l name).2 = r.counted 1 := by
        apply get_of_not_found
        intro p hp
        rw [hget] at hp
        cases hp
      rw [dumpNames_of_error hget] at h ⊢
      cases h
      exact ⟨[], name, rest, rfl, trivial, hget, hcounted⟩
    | ok p? =>
      rw [dumpNames_of_ok hget] at h ⊢
      obtain ⟨before, failing, behind, rfl, hbefore, hfails, hstate⟩ := ih h
      have hpasses : ∀ fault, (r.get l name).1 ≠ .error fault := by
        intro fault hfault
        rw [hget] at hfault
        cases hfault
      exact ⟨name :: before, failing, behind, rfl, ⟨hpasses, hbefore⟩, hfails, hstate⟩

/-! ### Main statement -/

/-- A lookup that finds nothing or a fault leaves a registry as it is, and so does one by id; a dump
that fails leaves it as the lookups of the names before the failing one do. In all this a load is
counted at most, which shows neither in any later answer nor in what later requests do. -/
theorem failed_requests_leave_no_trace (l : Library) (r : Registry) :
    (∀ name : String, (∀ p, (r.get l name).1 ≠ .ok (some p)) →
      (r.get l name).2 = r.counted 1) ∧
    (∀ id : UInt32, (∀ p, (r.getById l id).1 ≠ .ok (some p)) →
      ∃ n, (r.getById l id).2 = r.counted n) ∧
    (∀ fault, (r.dumpAll l).1 = .error fault →
      ∃ before name rest, l.source.names = before ++ name :: rest ∧ NoneFails l before r ∧
        ((r.after l (before.map .get)).get l name).1 = .error fault ∧
        (r.dumpAll l).2 = (r.after l (before.map .get)).counted 1) ∧
    ∀ (n : Nat) (later : List Operation),
      (r.counted n).after l later = (r.after l later).counted n ∧
      ∀ op : Operation, ((r.counted n).after l later).answer l op = (r.after l later).answer l op := by
  refine ⟨?_, ?_, ?_, ?_⟩
  · intro name h
    exact get_of_not_found h
  · intro id h
    exact getById_of_not_found h
  · intro fault h
    exact exists_failed_of_dumpNames h
  · intro n later
    refine ⟨after_counted l later n r, fun op => ?_⟩
    rw [after_counted, answer_counted]

/-- "Stub" ends before its tag maps. Asked for between two evaluations of "Jab", it shows in no answer
to what is asked later, and a dump of both stops at it with "Jab" kept. -/
theorem stub_leaves_no_trace :
    let jab : Record := ⟨"Jab", 5, List.replicate 0xB0 0, 0, []⟩
    let stub : Record := ⟨"Stub", 6, [], 0, []⟩
    let l : Library := ⟨(RecordStore.ofList [jab, stub]).toSource, Catalog.empty, []⟩
    let r := empty.after l [.evaluate "Jab" ⟨∅, .byId 1⟩]
    let fault : Malformed := .inTagMap "Stub" 8 (.regionOutside 8 16 0)
    (r.get l "Stub").1 = .error fault ∧
    (∀ (later : List Operation) (op : Operation),
      ((r.get l "Stub").2.after l later).answer l op = (r.after l later).answer l op) ∧
    (empty.dumpAll l).1 = .error fault ∧
    ∃ before name rest, ["Jab", "Stub"] = before ++ name :: rest ∧ NoneFails l before empty ∧
      (empty.dumpAll l).2 = (empty.after l (before.map .get)).counted 1 := by
  intro jab stub l r fault
  have hfails : (r.get l "Stub").1 = .error fault := by decide +kernel
  have hdump : (empty.dumpAll l).1 = .error fault := by decide +kernel
  have hnone : ∀ p, (r.get l "Stub").1 ≠ .ok (some p) := by
    intro p hp
    rw [hfails] at hp
    cases hp
  obtain ⟨hget, -, -, hlater⟩ := failed_requests_leave_no_trace l r
  obtain ⟨before, name, rest, hnames, hbefore, -, hstate⟩ :=
    (failed_requests_leave_no_trace l empty).2.2.1 fault hdump
  refine ⟨hfails, ?_, hdump, before, name, rest, ?_, hbefore, hstate⟩
  · intro later op
    rw [hget "Stub" hnone]
    exact (hlater 1 later).2 op
  · rw [← hnames]
    decide +kernel

end PowerFormulas.Registry
