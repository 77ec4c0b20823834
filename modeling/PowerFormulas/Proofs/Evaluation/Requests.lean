import PowerFormulas.Proofs.Evaluation.Progress

/-!
# Requests to a power

A power is asked for values again and again, by name or by id and each time with other attributes.
What an answer says is what the entry of the tag then says, and no later request makes either say
something else (`answer_is_progress_for_good`).
-/

namespace PowerFormulas

/-- What is asked for: a tag by its human name, with none or with 0 for an answer where there is no
such tag, or a tag id. -/
inductive Query where
  | byName (name : String)
  | byNameOrZero (name : String)
  | byId (id : UInt32)
  deriving DecidableEq, Repr

namespace Query

/-- The tag id that the query comes down to. -/
def target (c : Catalog) : Query → Option UInt32
  | .byName name => c.idFor name
  | .byNameOrZero name => c.idFor name
  | .byId id => some id

/-- What the query shows of a value that may be missing. -/
def shown : Query → Option Int32 → Option Int32
  | .byName _, value => value
  | .byNameOrZero _, value => some (value.getD 0)
  | .byId _, value => value

def serve (scope : Scope) (p : Power) : Query → Outcome (Option Int32)
  | .byName name => p.evaluate? scope name
  | .byNameOrZero name =>
    let o := p.evaluate scope name
    ⟨o.result.map some, o.power, o.runs⟩
  | .byId id => p.evaluateId scope id

end Query

structure Request where
  attributes : Attributes
  query : Query
  deriving DecidableEq, Repr

def Request.serve (c : Catalog) (names : List String) (p : Power) (q : Request) :
    Outcome (Option Int32) :=
  q.query.serve ⟨c, names, q.attributes⟩ p

namespace Power

def after (c : Catalog) (names : List String) : List Request → Power → Power
  | [], p => p
  | q :: rest, p => after c names rest (q.serve c names p).power

/-- How far the evaluation of a tag id has come, none where there is no entry. -/
def progress? (p : Power) (id : UInt32) : Option Progress := p.entries[id]?.map Entry.progress

/-- The power as it may be later. -/
structure Later (p p' : Power) : Prop where
  name : p'.name = p.name
  id : p'.id = p.id
  entries : p.entries.Later p'.entries

theorem Later.refl (p : Power) : Later p p := ⟨rfl, rfl, .refl p.entries⟩

theorem Later.trans {p₁ p₂ p₃ : Power} (h : Later p₁ p₂) (h' : Later p₂ p₃) : Later p₁ p₃ :=
  ⟨h'.name.trans h.name, h'.id.trans h.id, h.entries.trans h'.entries⟩

/-! ### One evaluation -/

section Evaluate

variable {scope : Scope} {p : Power} {id : UInt32} {e : Entry}

def session (p : Power) : Session := ⟨p.entries, 0⟩

theorem exists_answer_evaluateId (scope : Scope) (p : Power) (id : UInt32) :
    ∃ r s', (Evaluation.valueWithin scope p.name p.session.pending id).answer p.session =
        some (r, s') ∧
      p.evaluateId scope id = ⟨r, { p with entries := s'.entries }, s'.runs⟩ := by
  have hsome := Evaluation.isSome_answer_valueWithin scope p.name id p.session
  obtain ⟨⟨r, s'⟩, h⟩ := Option.isSome_iff_exists.1 hsome
  refine ⟨r, s', h, ?_⟩
  have hget := Option.get_of_eq_some hsome h
  unfold session at hget
  simp only [evaluateId]
  rw [hget]

theorem evaluateId_of_answer {r : Except Error (Option Int32)}
    (h : ∀ depth, (Evaluation.valueWithin scope p.name depth id).answer p.session =
      some (r, p.session)) : p.evaluateId scope id = ⟨r, p, 0⟩ := by
  obtain ⟨r', s', hs', ho⟩ := exists_answer_evaluateId scope p id
  rw [h] at hs'
  cases hs'
  exact ho

theorem evaluateId_of_absent (he : p.entries[id]? = none) :
    p.evaluateId scope id = ⟨.ok none, p, 0⟩ :=
  evaluateId_of_answer fun _ => Evaluation.answer_valueWithin_of_absent he

theorem evaluateId_of_done {value : Int32} (he : p.entries[id]? = some e)
    (hp : e.progress = .done value) : p.evaluateId scope id = ⟨.ok (some value), p, 0⟩ :=
  evaluateId_of_answer fun _ => Evaluation.answer_valueWithin_of_done he hp

theorem evaluateId_of_inProgress (he : p.entries[id]? = some e) (hp : e.progress = .inProgress) :
    p.evaluateId scope id =
      ⟨.error (.recursiveFormula p.name (scope.catalog.label id)), p, 0⟩ :=
  evaluateId_of_answer fun _ => Evaluation.answer_valueWithin_of_inProgress he hp

theorem later_evaluateId (scope : Scope) (p : Power) (id : UInt32) :
    p.Later (p.evaluateId scope id).power := by
  obtain ⟨r, s', hs', ho⟩ := exists_answer_evaluateId scope p id
  have hlater := Evaluation.Advances.valueWithin scope p.name _ id _ _ _ hs'
  rw [ho]
  exact ⟨rfl, rfl, hlater.entries⟩

theorem answered_evaluateId (scope : Scope) (p : Power) (id : UInt32) :
    Evaluation.Answered (p.evaluateId scope id).result
      (p.evaluateId scope id).power.entries[id]? := by
  obtain ⟨r, s', hs', ho⟩ := exists_answer_evaluateId scope p id
  rw [ho]
  exact Evaluation.answered_of_answer_valueWithin hs'

end Evaluate

end Power

/-! ### One request -/

namespace Query

variable {scope : Scope} {p : Power} {q : Query} {i : UInt32}

theorem serve_of_target (scope : Scope) (p : Power) (hi : q.target scope.catalog = some i) :
    q.serve scope p = ⟨(p.evaluateId scope i).result.map q.shown,
      (p.evaluateId scope i).power, (p.evaluateId scope i).runs⟩ := by
  have hmap : (p.evaluateId scope i).result.map (fun value => value) =
      (p.evaluateId scope i).result := by
    cases (p.evaluateId scope i).result <;> rfl
  cases q with
  | byName name =>
    have hi : scope.catalog.idFor name = some i := hi
    have hshown : shown (.byName name) = fun value => value := rfl
    rw [hshown, hmap]
    simp only [serve, Power.evaluate?, hi]
  | byNameOrZero name =>
    have hi : scope.catalog.idFor name = some i := hi
    simp only [serve, Power.evaluate, Power.evaluate?, hi]
    cases (p.evaluateId scope i).result <;> rfl
  | byId id =>
    have hshown : shown (.byId id) = fun value => value := rfl
    cases hi
    rw [hshown, hmap]
    rfl

theorem serve_of_no_target (scope : Scope) (p : Power) (hi : q.target scope.catalog = none) :
    q.serve scope p = ⟨.ok (q.shown none), p, 0⟩ := by
  cases q with
  | byName name =>
    have hi : scope.catalog.idFor name = none := hi
    simp only [serve, Power.evaluate?, hi]
    rfl
  | byNameOrZero name =>
    have hi : scope.catalog.idFor name = none := hi
    simp only [serve, Power.evaluate, Power.evaluate?, hi]
    rfl
  | byId id => cases hi

theorem later_serve (scope : Scope) (p : Power) (q : Query) :
    p.Later (q.serve scope p).power := by
  cases hi : q.target scope.catalog with
  | none =>
    rw [serve_of_no_target scope p hi]
    exact .refl p
  | some i =>
    rw [serve_of_target scope p hi]
    exact Power.later_evaluateId scope p i

theorem shown_some (q : Query) (value : Int32) : q.shown (some value) = some value := by
  cases q <;> rfl

/-- Queries differ only in what they show where there is no entry. -/
theorem map_shown_eq_self {r : Except Error (Option Int32)} (q : Query) (hr : r ≠ .ok none) :
    r.map q.shown = r := by
  cases r with
  | error fault => rfl
  | ok value? =>
    cases value? with
    | none => exact absurd rfl hr
    | some value => rw [Except.map, shown_some]

end Query

namespace Power

variable {c : Catalog}

theorem later_after (c : Catalog) (names : List String) (qs : List Request) (p : Power) :
    p.Later (p.after c names qs) := by
  induction qs generalizing p with
  | nil => exact .refl p
  | cons q rest ih => exact (Query.later_serve _ p q.query).trans (ih _)

theorem progress?_eq_some_iff {p : Power} {i : UInt32} {progress : Progress} :
    p.progress? i = some progress ↔ ∃ e, p.entries[i]? = some e ∧ e.progress = progress := by
  rw [progress?, Option.map_eq_some_iff]

theorem progress?_eq_none_iff {p : Power} {i : UInt32} :
    p.progress? i = none ↔ p.entries[i]? = none := by
  rw [progress?, Option.map_eq_none_iff]

theorem Later.progress?_eq {p p' : Power} {i : UInt32} {progress : Progress} (h : p.Later p')
    (hp : p.progress? i = some progress) (hne : progress ≠ .unevaluated) :
    p'.progress? i = some progress := by
  obtain ⟨e, he, rfl⟩ := progress?_eq_some_iff.1 hp
  exact progress?_eq_some_iff.2 ⟨e, h.entries.eq_of_settled he hne, rfl⟩

/-- What a request finds done or in progress it answers from there, with any attributes. -/
theorem serve_of_settled (names : List String) (p : Power) {q : Request} {i : UInt32}
    (hi : q.query.target c = some i) :
    (∀ value, p.progress? i = some (.done value) →
      q.serve c names p = ⟨.ok (some value), p, 0⟩) ∧
    (p.progress? i = some .inProgress →
      q.serve c names p = ⟨.error (.recursiveFormula p.name (c.label i)), p, 0⟩) := by
  have hserve := Query.serve_of_target ⟨c, names, q.attributes⟩ p hi
  constructor
  · intro value hp
    obtain ⟨e, he, hp⟩ := progress?_eq_some_iff.1 hp
    rw [Request.serve, hserve, evaluateId_of_done he hp]
    simp only [Except.map, Query.shown_some]
  · intro hp
    obtain ⟨e, he, hp⟩ := progress?_eq_some_iff.1 hp
    rw [Request.serve, hserve, evaluateId_of_inProgress he hp]
    simp only [Except.map]

/-- The answer for an id says that there is no entry, or which value the entry has got, or that it
is in progress; whichever of these it says stays so through all that is asked later. -/
theorem answer_is_progress_for_good (c : Catalog) (names : List String) (p : Power)
    (history : List Request) (q : Request) (i : UInt32) (hi : q.query.target c = some i) :
    let before := p.after c names history
    let o := q.serve c names before
    (∃ r : Except Error (Option Int32), o.result = r.map q.query.shown ∧
      (r = .ok none ↔ o.power.progress? i = none) ∧
      (r = .ok none → o.power = before ∧ o.runs = 0) ∧
      (∀ value, r = .ok (some value) ↔ o.power.progress? i = some (.done value)) ∧
      ((∃ fault, r = .error fault) ↔ o.power.progress? i = some .inProgress)) ∧
    ∀ (later : List Request) (q' : Request), q'.query.target c = some i →
      let now := o.power.after c names later
      (∀ value, o.power.progress? i = some (.done value) →
        q'.serve c names now = ⟨.ok (some value), now, 0⟩) ∧
      (o.power.progress? i = some .inProgress →
        q'.serve c names now = ⟨.error (.recursiveFormula p.name (c.label i)), now, 0⟩) := by
  intro before o
  have hserve := Query.serve_of_target ⟨c, names, q.attributes⟩ before hi
  constructor
  · have ho : o = _ := hserve
    have hanswered := answered_evaluateId ⟨c, names, q.attributes⟩ before i
    obtain ⟨hnone, hdone, hstuck⟩ := hanswered.progress_iff
    refine ⟨(before.evaluateId ⟨c, names, q.attributes⟩ i).result, ?_, ?_, ?_, ?_, ?_⟩
    · rw [ho]
    · rw [ho]
      exact hnone
    · intro hr
      have hlater := later_evaluateId ⟨c, names, q.attributes⟩ before i
      have hafter := progress?_eq_none_iff.1 (hnone.1 hr)
      have habsent := hlater.entries.eq_none' hafter
      rw [ho, evaluateId_of_absent habsent]
      exact ⟨rfl, rfl⟩
    · rw [ho]
      exact hdone
    · rw [ho]
      exact hstuck
  · intro later q' hi' now
    have hnow : o.power.Later now := later_after c names later o.power
    have hname : now.name = p.name := by
      have hbefore := later_after c names history p
      have ho := Query.later_serve ⟨c, names, q.attributes⟩ before q.query
      exact hnow.name.trans (ho.name.trans hbefore.name)
    obtain ⟨hdone, hstuck⟩ := serve_of_settled names now hi'
    constructor
    · intro value hp
      exact hdone value (hnow.progress?_eq hp (by simp))
    · intro hp
      rw [← hname]
      exact hstuck (hnow.progress?_eq hp (by simp))

/-- "Damage" swallows the failure of "Loop", which needs "Damage": the one is done with -1, the other
stuck, and so they are found by every later request. -/
theorem answer_of_swallowed_cycle_for_good :
    let c := (Catalog.empty.rename 1 ⟨"Damage", "D"⟩).rename 2 ⟨"Loop", "L"⟩
    let names := ["Damage", "Loop"]
    let p : Power := ⟨"Fists", 4, .ofList
      [((1 : UInt32), Entry.ofScript ⟨[6, 1], ""⟩), (2, Entry.ofScript ⟨[3, 0], ""⟩)]⟩
    let o := Request.serve c names p ⟨∅, .byName "Damage"⟩
    (Query.byName "Damage").target c = some 1 ∧
    o.power.progress? 1 = some (.done (-1)) ∧ o.power.progress? 2 = some .inProgress ∧
    ∀ (later : List Request) (q' : Request), q'.query.target c = some 1 →
      q'.serve c names (o.power.after c names later) =
        ⟨.ok (some (-1)), o.power.after c names later, 0⟩ := by
  refine ⟨by decide +kernel, by decide +kernel, by decide +kernel, fun later q' hq' => ?_⟩
  refine ((answer_is_progress_for_good _ _ _ [] ⟨∅, .byName "Damage"⟩ 1 ?_).2 later q' hq').1 (-1) ?_
  · decide +kernel
  · decide +kernel

end Power

end PowerFormulas
