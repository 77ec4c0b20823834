import PowerFormulas.Bytecode.Relation
import PowerFormulas.Power
import PowerFormulas.Power.Session

/-!
# Evaluating formulas

A script is run when its value is first asked for, and its program may ask for other tags of the
same power. A script is in progress while it runs; to ask for it then is an error, as its value
would depend on itself. A run that fails leaves its script in progress for good, a run that
succeeds keeps the value.

`Evaluation.valueWithin` allows a given depth of runs within runs and has no answer where that is
not enough. Each run starts with one script fewer that has not been evaluated, so the number of such
scripts at the start is always deep enough (`Evaluation.isSome_answer_valueWithin`), and
`Power.evaluate` needs no bound.
-/

namespace PowerFormulas

/-- What formulas see besides the entries of their power. -/
structure Scope where
  catalog : Catalog
  /-- The names that instructions refer to by their places. -/
  names : List String
  attributes : Attributes

namespace Scope

variable {m : Type → Type} [Monad m]

/-- The value of a tag by its human name, given the values of ids; what has no entry counts as 0. -/
def tagValue (scope : Scope) (valueOf : UInt32 → ExceptT Error m (Option Int32)) (tag : String) :
    ExceptT Error m Int32 :=
  match scope.catalog.idFor tag with
  | none => return 0
  | some id => return (← valueOf id).getD 0

/-- Runs a program, given the values of ids. -/
def runCode (scope : Scope) (valueOf : UInt32 → ExceptT Error m (Option Int32))
    (code : List UInt32) : ExceptT Error m Int32 :=
  Bytecode.run scope.names scope.attributes (scope.tagValue valueOf) code

/-- The ids of the tags that a program asks for. -/
def askedIds (scope : Scope) (code : List UInt32) : List UInt32 :=
  (Bytecode.askedTags scope.names code).filterMap scope.catalog.idFor

variable {n : Type → Type} [Monad n] [LawfulMonad m] [LawfulMonad n]
  {R : (α : Type) → ExceptT Error m α → ExceptT Error n α → Prop}
  {v : UInt32 → ExceptT Error m (Option Int32)} {w : UInt32 → ExceptT Error n (Option Int32)}

/-- Two runs of a program are related if the values of the ids that it asks for are. -/
theorem related_runCode (h : Bytecode.Respected R) (scope : Scope) (code : List UInt32)
    (hv : ∀ id ∈ scope.askedIds code, R (Option Int32) (v id) (w id)) :
    R Int32 (scope.runCode v code) (scope.runCode w code) := by
  apply h.run
  intro tag ht
  unfold tagValue
  cases hid : scope.catalog.idFor tag with
  | none => exact h.pure _
  | some id =>
    have hmem : id ∈ scope.askedIds code := List.mem_filterMap.2 ⟨tag, ht, hid⟩
    exact h.bind (hv id hmem) fun value => h.pure _

end Scope

/-- A step of an evaluation: it reads and writes the session, it can fail, and it has no answer
where it would need more runs within runs than it is allowed. A failure keeps the session. -/
abbrev Evaluation (α : Type) : Type := ExceptT Error (StateT Session Option) α

namespace Evaluation

/-- More runs within runs are needed than allowed. -/
def tooDeep {α : Type} : Evaluation α := ExceptT.mk fun _ => none

/-- What a step answers in a session, and the session that it leaves. -/
def answer {α : Type} (x : Evaluation α) (s : Session) : Option (Except Error α × Session) :=
  x.run.run s

/-- The value of a tag id: none where there is no entry. At most `depth` runs are nested. -/
def valueWithin (scope : Scope) (power : String) :
    (depth : Nat) → (id : UInt32) → Evaluation (Option Int32)
  | depth, id => do
    let s ← get
    match s.entries[id]? with
    | none => return none
    | some e =>
      match e.progress with
      | .done value => return some value
      | .inProgress => throw (.recursiveFormula power (scope.catalog.label id))
      | .unevaluated =>
        match depth with
        | 0 => tooDeep
        | depth + 1 =>
          set (s.start id)
          let value ← scope.runCode (valueWithin scope power depth) e.code
          modify (Session.finish id value)
          return some value

/-- The step answers in every session with at most `depth` unevaluated scripts, and leaves no more
of them than it found. -/
def SettlesWithin (depth : Nat) {α : Type} (x : Evaluation α) : Prop :=
  ∀ s : Session, s.pending ≤ depth →
    ∃ result s', x.answer s = some (result, s') ∧ s'.pending ≤ s.pending

variable {α β : Type} {depth : Nat}

theorem answer_pure (a : α) (s : Session) :
    (pure a : Evaluation α).answer s = some (.ok a, s) := rfl

theorem answer_throw (e : Error) (s : Session) :
    (throw e : Evaluation α).answer s = some (.error e, s) := rfl

theorem answer_get (s : Session) : (get : Evaluation Session).answer s = some (.ok s, s) := rfl

theorem answer_set (s' s : Session) : (set s' : Evaluation Unit).answer s = some (.ok (), s') := rfl

theorem answer_bind (x : Evaluation α) (f : α → Evaluation β) (s : Session) :
    (x >>= f).answer s = (x.answer s).bind fun
      | (.ok a, s) => (f a).answer s
      | (.error e, s) => some (.error e, s) := by
  simp only [answer, ExceptT.run_bind, StateT.run_bind, Option.bind_eq_bind]
  congr 1
  funext r
  obtain ⟨result, s⟩ := r
  cases result <;> rfl

theorem answer_tryCatch (x : Evaluation α) (f : Error → Evaluation α) (s : Session) :
    (tryCatch x f).answer s = (x.answer s).bind fun
      | (.ok a, s) => some (.ok a, s)
      | (.error e, s) => (f e).answer s := by
  simp only [answer, tryCatch, tryCatchThe, MonadExceptOf.tryCatch, ExceptT.tryCatch, ExceptT.run,
    ExceptT.mk, StateT.run_bind, Option.bind_eq_bind]
  congr 1
  funext r
  obtain ⟨result, s⟩ := r
  cases result <;> rfl

theorem SettlesWithin.pure (a : α) : SettlesWithin depth (pure a : Evaluation α) :=
  fun s _ => ⟨_, _, answer_pure a s, Nat.le_refl _⟩

theorem SettlesWithin.throw (e : Error) : SettlesWithin depth (throw e : Evaluation α) :=
  fun s _ => ⟨_, _, answer_throw e s, Nat.le_refl _⟩

theorem SettlesWithin.bind {x : Evaluation α} {f : α → Evaluation β} (hx : SettlesWithin depth x)
    (hf : ∀ a, SettlesWithin depth (f a)) : SettlesWithin depth (x >>= f) := by
  intro s hs
  obtain ⟨result, s₁, h₁, hle₁⟩ := hx s hs
  rw [answer_bind, h₁]
  cases result with
  | error e => exact ⟨_, _, rfl, hle₁⟩
  | ok a =>
    obtain ⟨result, s₂, h₂, hle₂⟩ := hf a s₁ (Nat.le_trans hle₁ hs)
    exact ⟨result, s₂, h₂, Nat.le_trans hle₂ hle₁⟩

theorem SettlesWithin.tryCatch {x : Evaluation α} {f : Error → Evaluation α}
    (hx : SettlesWithin depth x) (hf : ∀ e, SettlesWithin depth (f e)) :
    SettlesWithin depth (tryCatch x f) := by
  intro s hs
  obtain ⟨result, s₁, h₁, hle₁⟩ := hx s hs
  rw [answer_tryCatch, h₁]
  cases result with
  | ok a => exact ⟨_, _, rfl, hle₁⟩
  | error e =>
    obtain ⟨result, s₂, h₂, hle₂⟩ := hf e s₁ (Nat.le_trans hle₁ hs)
    exact ⟨result, s₂, h₂, Nat.le_trans hle₂ hle₁⟩

/-- The same steps are set against themselves, as only the one side matters. -/
theorem SettlesWithin.respected :
    Bytecode.Respected fun α (x _ : Evaluation α) => SettlesWithin depth x where
  pure := .pure
  throw := .throw
  bind := .bind
  orElse a hx := .tryCatch hx fun _ => .pure a

section Value

variable {scope : Scope} {power : String} {s : Session} {id : UInt32} {e : Entry}

theorem answer_valueWithin_of_absent (h : s.entries[id]? = none) :
    (valueWithin scope power depth id).answer s = some (.ok none, s) := by
  rw [valueWithin.eq_def, answer_bind]
  simp only [answer_get, Option.bind_some, h]
  rfl

theorem answer_valueWithin_of_done {value : Int32} (h : s.entries[id]? = some e)
    (hp : e.progress = .done value) :
    (valueWithin scope power depth id).answer s = some (.ok (some value), s) := by
  rw [valueWithin.eq_def, answer_bind]
  simp only [answer_get, Option.bind_some, h, hp]
  rfl

theorem answer_valueWithin_of_inProgress (h : s.entries[id]? = some e)
    (hp : e.progress = .inProgress) :
    (valueWithin scope power depth id).answer s =
      some (.error (.recursiveFormula power (scope.catalog.label id)), s) := by
  rw [valueWithin.eq_def, answer_bind]
  simp only [answer_get, Option.bind_some, h, hp]
  rfl

/-- An unevaluated script is run, and its value is kept if the run has one. -/
theorem answer_valueWithin_succ (h : s.entries[id]? = some e) (hp : e.progress = .unevaluated) :
    (valueWithin scope power (depth + 1) id).answer s =
      (answer (scope.runCode (valueWithin scope power depth) e.code) (s.start id)).map fun
        | (.ok value, s) => (.ok (some value), s.finish id value)
        | (.error e, s) => (.error e, s) := by
  rw [valueWithin.eq_def, answer_bind]
  simp only [answer_get, Option.bind_some, h, hp]
  rw [answer_bind, answer_set, Option.bind_some]
  dsimp only
  rw [answer_bind, Option.map_eq_bind]
  congr 1
  funext r
  obtain ⟨result, s⟩ := r
  cases result <;> rfl

end Value

theorem SettlesWithin.runCode {scope : Scope} {valueOf : UInt32 → Evaluation (Option Int32)}
    (h : ∀ id, SettlesWithin depth (valueOf id)) (code : List UInt32) :
    SettlesWithin depth (scope.runCode valueOf code) :=
  scope.related_runCode (w := valueOf) SettlesWithin.respected code fun id _ => h id

/-- A depth of as many runs as there are unevaluated scripts is always enough. -/
theorem settlesWithin_valueWithin (scope : Scope) (power : String) (depth : Nat) (id : UInt32) :
    SettlesWithin depth (valueWithin scope power depth id) := by
  induction depth generalizing id with
  | zero =>
    intro s hs
    cases he : s.entries[id]? with
    | none => exact ⟨_, _, answer_valueWithin_of_absent he, Nat.le_refl _⟩
    | some e =>
      cases hp : e.progress with
      | done value => exact ⟨_, _, answer_valueWithin_of_done he hp, Nat.le_refl _⟩
      | inProgress => exact ⟨_, _, answer_valueWithin_of_inProgress he hp, Nat.le_refl _⟩
      | unevaluated =>
        -- a script that is unevaluated is pending, so the depth is not zero
        have := Session.pending_start he hp
        omega
  | succ depth ih =>
    intro s hs
    cases he : s.entries[id]? with
    | none => exact ⟨_, _, answer_valueWithin_of_absent he, Nat.le_refl _⟩
    | some e =>
      cases hp : e.progress with
      | done value => exact ⟨_, _, answer_valueWithin_of_done he hp, Nat.le_refl _⟩
      | inProgress => exact ⟨_, _, answer_valueWithin_of_inProgress he hp, Nat.le_refl _⟩
      | unevaluated =>
        -- the run starts with one script fewer to evaluate, which is what one level less allows
        have hstart := Session.pending_start he hp
        have hrun : SettlesWithin depth
            (scope.runCode (valueWithin scope power depth) e.code) := .runCode ih e.code
        obtain ⟨result, s₁, h₁, hle⟩ := hrun (s.start id) (by omega)
        rw [answer_valueWithin_succ he hp, h₁]
        cases result with
        | error e => exact ⟨_, _, rfl, by omega⟩
        | ok value =>
          have := s₁.pending_finish_le id value
          exact ⟨_, _, rfl, by omega⟩

theorem isSome_answer_valueWithin (scope : Scope) (power : String) (id : UInt32) (s : Session) :
    ((valueWithin scope power s.pending id).answer s).isSome := by
  obtain ⟨result, s', h, -⟩ := settlesWithin_valueWithin scope power s.pending id s (Nat.le_refl _)
  rw [h]
  rfl

end Evaluation

/-- What came of a request: its result, the power afterwards, and the runs that it took. -/
structure Outcome (α : Type) where
  result : Except Error α
  power : Power
  runs : Nat

namespace Power

/-- The value of a tag id, none where there is no entry. -/
def evaluateId (scope : Scope) (id : UInt32) (p : Power) : Outcome (Option Int32) :=
  let s : Session := ⟨p.entries, 0⟩
  let (result, s) := ((Evaluation.valueWithin scope p.name s.pending id).answer s).get
    (Evaluation.isSome_answer_valueWithin scope p.name id s)
  ⟨result, { p with entries := s.entries }, s.runs⟩

/-- The value of a tag by its human name, none where the tag is unknown. -/
def evaluate? (scope : Scope) (tag : String) (p : Power) : Outcome (Option Int32) :=
  match scope.catalog.idFor tag with
  | none => ⟨.ok none, p, 0⟩
  | some id => p.evaluateId scope id

/-- The value of a tag by its human name, 0 where the tag is unknown. -/
def evaluate (scope : Scope) (tag : String) (p : Power) : Outcome Int32 :=
  let o := p.evaluate? scope tag
  ⟨o.result.map (·.getD 0), o.power, o.runs⟩

end Power

end PowerFormulas
