import Mathlib.Logic.Relation
import PowerFormulas.Proofs.Evaluation.Requests
import PowerFormulas.Registry

/-!
# What is asked of a registry

Lookups, dumps and evaluations follow one another in any order. Whatever they are, all that happens
to a registry is that names are looked up and that kept powers serve requests (`reaches_after`); so a
property that these two steps keep is one of every registry.
-/

namespace PowerFormulas

/-- What is asked of a registry; an evaluation finds its power by name or by id. -/
inductive Operation where
  | get (name : String)
  | getById (id : UInt32)
  | dumpAll
  | evaluate (name : String) (q : Request)
  | evaluateById (id : UInt32) (q : Request)
  deriving DecidableEq, Repr

namespace Registry

/-! ### Changes to a registry -/

section Changes

def loaded (r : Registry) : Registry := { r with loads := r.loads + 1 }

/-- Remembers the name of the power that a name has led to, if it is another one. -/
def linked (name key : String) (r : Registry) : Registry :=
  if key = name then r else { r with aliases := r.aliases.insert name key }

def added (p : Power) (r : Registry) : Registry :=
  { r with
    powers := r.powers.insert p.name p
    nameById := r.nameById.insert p.id p.name }

variable {r : Registry} {name key k : String} {p live : Power} {id : UInt32}

@[simp] theorem powers_loaded (r : Registry) : r.loaded.powers = r.powers := rfl

@[simp] theorem aliases_loaded (r : Registry) : r.loaded.aliases = r.aliases := rfl

@[simp] theorem powers_linked (name key : String) (r : Registry) :
    (r.linked name key).powers = r.powers := by
  unfold linked
  split <;> rfl

@[simp] theorem nameById_linked (name key : String) (r : Registry) :
    (r.linked name key).nameById = r.nameById := by
  unfold linked
  split <;> rfl

theorem getElem?_aliases_linked :
    (r.linked name key).aliases[k]? =
      if name = k ∧ key ≠ name then some key else r.aliases[k]? := by
  unfold linked
  by_cases hkey : key = name
  · simp [hkey]
  · simp [hkey, Std.ExtTreeMap.getElem?_insert]

theorem getElem?_powers_added :
    (r.added p).powers[k]? = if p.name = k then some p else r.powers[k]? := by
  simp [added, Std.ExtTreeMap.getElem?_insert]

theorem getElem?_nameById_added :
    (r.added p).nameById[id]? = if p.id = id then some p.name else r.nameById[id]? := by
  simp [added, Std.ExtTreeMap.getElem?_insert]

@[simp] theorem aliases_added (p : Power) (r : Registry) : (r.added p).aliases = r.aliases := rfl

theorem getElem?_powers_keep {α : Type} (o : Outcome α) :
    (r.keep o).powers[k]? = if o.power.name = k then some o.power else r.powers[k]? := by
  simp [keep, Std.ExtTreeMap.getElem?_insert]

@[simp] theorem aliases_keep {α : Type} (o : Outcome α) (r : Registry) :
    (r.keep o).aliases = r.aliases := rfl

theorem adopt_of_kept (h : r.powers[p.name]? = some live) :
    r.adopt name p = (live, r.linked name p.name) := by
  unfold linked
  simp only [adopt, h]
  split <;> rfl

theorem adopt_of_new (h : r.powers[p.name]? = none) :
    r.adopt name p = (p, (r.added p).linked name p.name) := by
  unfold linked
  simp only [adopt, h]
  split <;> rfl

end Changes

/-! ### Lookups -/

/-- The ways in which a lookup by name can go. -/
inductive Got (l : Library) (name : String) (r : Registry) :
    Except Malformed (Option Power) → Registry → Prop where
  | cached {p : Power} : r.powers[r.canonical name]? = some p → Got l name r (.ok (some p)) r
  | missing : r.powers[r.canonical name]? = none → l.decode name = none →
      Got l name r (.ok none) r.loaded
  | failed {fault : Malformed} : r.powers[r.canonical name]? = none →
      l.decode name = some (.error fault) → Got l name r (.error fault) r.loaded
  | known {p live : Power} : r.powers[r.canonical name]? = none → l.decode name = some (.ok p) →
      r.powers[p.name]? = some live →
      Got l name r (.ok (some live)) (r.loaded.linked name p.name)
  | decoded {p : Power} : r.powers[r.canonical name]? = none → l.decode name = some (.ok p) →
      r.powers[p.name]? = none →
      Got l name r (.ok (some p)) ((r.loaded.added p).linked name p.name)

variable {l : Library} {name : String} {r r' : Registry} {p : Power}
  {answer : Except Malformed (Option Power)}

theorem Got.eq_get (h : Got l name r answer r') : r.get l name = (answer, r') := by
  cases h with
  | cached hpower => simp only [get, hpower]
  | missing hpower hdecode =>
    simp only [get, hpower, hdecode]
    rfl
  | failed hpower hdecode =>
    simp only [get, hpower, hdecode]
    rfl
  | known hpower hdecode hlive =>
    have hadopt : r.loaded.adopt name _ = _ := adopt_of_kept hlive
    unfold loaded at hadopt
    simp only [get, hpower, hdecode, hadopt]
    rfl
  | decoded hpower hdecode hnew =>
    have hadopt : r.loaded.adopt name _ = _ := adopt_of_new hnew
    unfold loaded at hadopt
    simp only [get, hpower, hdecode, hadopt]
    rfl

theorem exists_got (l : Library) (name : String) (r : Registry) :
    ∃ answer r', Got l name r answer r' := by
  cases hpower : r.powers[r.canonical name]? with
  | some p => exact ⟨_, _, .cached hpower⟩
  | none =>
    cases hdecode : l.decode name with
    | none => exact ⟨_, _, .missing hpower hdecode⟩
    | some decoded =>
      cases decoded with
      | error fault => exact ⟨_, _, .failed hpower hdecode⟩
      | ok p =>
        cases hlive : r.powers[p.name]? with
        | some live => exact ⟨_, _, .known hpower hdecode hlive⟩
        | none => exact ⟨_, _, .decoded hpower hdecode hlive⟩

theorem got_get (l : Library) (name : String) (r : Registry) :
    Got l name r (r.get l name).1 (r.get l name).2 := by
  obtain ⟨answer, r', h⟩ := exists_got l name r
  rw [h.eq_get]
  exact h

theorem Got.kept (h : Got l name r (.ok (some p)) r') :
    ∃ key : String, r'.powers[key]? = some p := by
  cases h with
  | cached hpower => exact ⟨_, hpower⟩
  | @known decoded _ _ _ hlive =>
    refine ⟨decoded.name, ?_⟩
    rw [powers_linked]
    exact hlive
  | decoded _ _ _ =>
    refine ⟨p.name, ?_⟩
    rw [powers_linked, getElem?_powers_added, if_pos rfl]

theorem getById_of_name {id : UInt32} (h : r.nameById[id]?.or (l.source.nameOf id) = some name) :
    r.getById l id = r.get l name := by
  simp only [getById, h]

theorem getById_of_no_name {id : UInt32} (h : r.nameById[id]?.or (l.source.nameOf id) = none) :
    r.getById l id = (.ok none, r) := by
  simp only [getById, h]

/-! ### Operations -/

/-- Serves a request to the power that a lookup has found. -/
def serveFound (l : Library) (q : Request) :
    Except Malformed (Option Power) × Registry → Except Error (Option (Option Int32)) × Registry
  | (.error fault, r) => (.error (.malformed fault), r)
  | (.ok none, r) => (.ok none, r)
  | (.ok (some p), r) =>
    let o := q.serve l.catalog l.names p
    (o.result.map some, r.keep o)

theorem evaluateFound_eq_serveFound (l : Library) (attributes : Attributes) (tag : String)
    (found : Except Malformed (Option Power) × Registry) :
    evaluateFound l attributes tag found = serveFound l ⟨attributes, .byName tag⟩ found := by
  obtain ⟨answer, r⟩ := found
  rcases answer with fault | p?
  · rfl
  · cases p? <;> rfl

def perform (l : Library) : Operation → Registry → Registry
  | .get name, r => (r.get l name).2
  | .getById id, r => (r.getById l id).2
  | .dumpAll, r => (r.dumpAll l).2
  | .evaluate name q, r => (serveFound l q (r.get l name)).2
  | .evaluateById id q, r => (serveFound l q (r.getById l id)).2

def after (l : Library) : List Operation → Registry → Registry
  | [], r => r
  | op :: rest, r => after l rest (r.perform l op)

theorem perform_evaluate (l : Library) (name : String) (attributes : Attributes) (tag : String)
    (r : Registry) : (r.evaluate l name attributes tag).2 =
      r.perform l (.evaluate name ⟨attributes, .byName tag⟩) := by
  rw [evaluate, evaluateFound_eq_serveFound]
  rfl

theorem perform_evaluateById (l : Library) (id : UInt32) (attributes : Attributes) (tag : String)
    (r : Registry) : (r.evaluateById l id attributes tag).2 =
      r.perform l (.evaluateById id ⟨attributes, .byName tag⟩) := by
  rw [evaluateById, evaluateFound_eq_serveFound]
  rfl

/-- All that happens to a registry: a name is looked up, or a kept power serves a request. -/
inductive Step (l : Library) (r : Registry) : Registry → Prop where
  | got {name : String} {answer : Except Malformed (Option Power)} {r' : Registry} :
      Got l name r answer r' → Step l r r'
  | served {key : String} {p : Power} (q : Request) : r.powers[key]? = some p →
      Step l r (r.keep (q.serve l.catalog l.names p))

def Reaches (l : Library) : Registry → Registry → Prop := Relation.ReflTransGen (Step l)

/-- What every step keeps holds of all that is reached. -/
theorem Reaches.keeps {P : Registry → Prop} (hstep : ∀ {r r' : Registry}, P r → Step l r r' → P r')
    (h : Reaches l r r') (hr : P r) : P r' := by
  induction h with
  | refl => exact hr
  | tail _ h ih => exact hstep ih h

theorem reaches_get (l : Library) (name : String) (r : Registry) :
    Reaches l r (r.get l name).2 :=
  .single (.got (got_get l name r))

theorem reaches_getById (l : Library) (id : UInt32) (r : Registry) :
    Reaches l r (r.getById l id).2 := by
  cases hname : r.nameById[id]?.or (l.source.nameOf id) with
  | none =>
    rw [getById_of_no_name hname]
    exact .refl
  | some name =>
    rw [getById_of_name hname]
    exact reaches_get l name r

theorem reaches_dumpNames (l : Library) (names : List String) (dumps : PowerDumps)
    (r : Registry) : Reaches l r (r.dumpNames l names dumps).2 := by
  induction names generalizing dumps r with
  | nil => exact .refl
  | cons name rest ih =>
    have hget := reaches_get l name r
    rw [dumpNames]
    split
    · rename_i heq
      rw [heq] at hget
      exact hget
    · rename_i heq
      rw [heq] at hget
      exact hget.trans (ih _ _)
    · rename_i heq
      rw [heq] at hget
      exact hget.trans (ih _ _)

theorem reaches_serveFound (q : Request) {found : Except Malformed (Option Power) × Registry}
    (h : Reaches l r found.2)
    (hkept : ∀ p, found.1 = .ok (some p) → ∃ key : String, found.2.powers[key]? = some p) :
    Reaches l r (serveFound l q found).2 := by
  obtain ⟨answer, r'⟩ := found
  rcases answer with fault | p?
  · exact h
  · cases p? with
    | none => exact h
    | some p =>
      obtain ⟨key, hkey⟩ := hkept p rfl
      exact h.tail (.served q hkey)

theorem kept_get {p : Power} (h : (r.get l name).1 = .ok (some p)) :
    ∃ key : String, (r.get l name).2.powers[key]? = some p := by
  have hgot := got_get l name r
  rw [h] at hgot
  exact hgot.kept

theorem kept_getById {id : UInt32} {p : Power} (h : (r.getById l id).1 = .ok (some p)) :
    ∃ key : String, (r.getById l id).2.powers[key]? = some p := by
  cases hname : r.nameById[id]?.or (l.source.nameOf id) with
  | none =>
    rw [getById_of_no_name hname] at h
    cases h
  | some name =>
    rw [getById_of_name hname] at h ⊢
    exact kept_get h

theorem reaches_perform (l : Library) (op : Operation) (r : Registry) :
    Reaches l r (r.perform l op) := by
  cases op with
  | get name => exact reaches_get l name r
  | getById id => exact reaches_getById l id r
  | dumpAll => exact reaches_dumpNames l _ _ r
  | evaluate name q => exact reaches_serveFound q (reaches_get l name r) fun _ => kept_get
  | evaluateById id q => exact reaches_serveFound q (reaches_getById l id r) fun _ => kept_getById

theorem reaches_after (l : Library) (ops : List Operation) (r : Registry) :
    Reaches l r (r.after l ops) := by
  induction ops generalizing r with
  | nil => exact .refl
  | cons op rest ih => exact (reaches_perform l op r).trans (ih _)

end Registry

end PowerFormulas
