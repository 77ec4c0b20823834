import PowerFormulas.Proofs.Evaluation.Plain

/-!
# Scripts that have been started

A script has been started once it is no longer unevaluated, and it stays so. The runs that a
request takes are as many as the scripts that it starts (`Request.runs_add_started`), whether these
runs end, fail, or fail unnoticed within others.
-/

namespace PowerFormulas

/-- Whether the entry is a script that is in progress or done. -/
def Entry.isStarted : Entry → Bool
  | .constant _ => false
  | .script _ _ progress => progress ≠ .unevaluated

namespace Entries

def started (es : Entries) : Entries := es.filter fun _ e => e.isStarted

def bodies (es : Entries) : Std.ExtTreeMap UInt32 Script := es.filterMap fun _ e => e.body?

variable {es es' : Entries}

theorem size_started_add_unevaluated (es : Entries) :
    es.started.size + es.unevaluated.size = es.bodies.size := by
  rw [← Std.ExtTreeMap.length_toList, ← Std.ExtTreeMap.length_toList,
    ← Std.ExtTreeMap.length_toList, started, unevaluated, bodies, Std.ExtTreeMap.toList_filter,
    Std.ExtTreeMap.toList_filter, Std.ExtTreeMap.toList_filterMap, ← List.countP_eq_length_filter,
    ← List.countP_eq_length_filter, List.length_filterMap_eq_countP]
  induction es.toList with
  | nil => rfl
  | cons first rest ih =>
    obtain ⟨id, e⟩ := first
    -- a script counts on the right, and on the left in one of the two places
    have hone : (if e.isStarted then 1 else 0) + (if e.progress = .unevaluated then 1 else 0) =
        if e.body?.isSome then 1 else 0 := by
      cases e with
      | constant value => rfl
      | script body comment progress => cases progress <;> rfl
    simp only [List.countP_cons, decide_eq_true_eq, Option.isSome_map] at ih ⊢
    omega

theorem Later.bodies (h : es.Later es') : es'.bodies = es.bodies := by
  apply Std.ExtTreeMap.ext_getElem?
  intro id
  rw [Entries.bodies, Entries.bodies, Std.ExtTreeMap.getElem?_filterMap',
    Std.ExtTreeMap.getElem?_filterMap']
  cases he : es[id]? with
  | none => rw [h.eq_none he]
  | some e =>
    obtain ⟨e', he', hlater⟩ := h.exists_of_some he
    rw [he']
    cases hlater.sameFormula <;> rfl

theorem Fresh.started_eq_empty (h : es.Fresh) : es.started = ∅ := by
  apply Std.ExtTreeMap.ext_getElem?
  intro id
  rw [started, Std.ExtTreeMap.getElem?_filter', Std.ExtTreeMap.getElem?_empty,
    Option.filter_eq_none_iff]
  intro e he
  cases e with
  | constant value => simp [Entry.isStarted]
  | script body comment progress => simp [Entry.isStarted, h id body comment progress he]

end Entries

theorem Session.Later.runs_add_started {s s' : Session} (h : s.Later s') :
    s'.runs + s.entries.started.size = s.runs + s'.entries.started.size := by
  have hbefore := s.entries.size_started_add_unevaluated
  have hafter := s'.entries.size_started_add_unevaluated
  have hruns : s'.runs + s'.entries.unevaluated.size = s.runs + s.entries.unevaluated.size := h.runs
  rw [h.entries.bodies] at hafter
  omega

theorem Power.runs_add_started (scope : Scope) (p : Power) (id : UInt32) :
    (p.evaluateId scope id).runs + p.entries.started.size =
      (p.evaluateId scope id).power.entries.started.size := by
  obtain ⟨r, s', hs', ho⟩ := exists_answer_evaluateId scope p id
  have hlater := Evaluation.Advances.valueWithin scope p.name _ id _ _ _ hs'
  have hruns := hlater.runs_add_started
  have hstart : p.session.runs = 0 := rfl
  rw [hstart, Nat.zero_add] at hruns
  rw [ho]
  exact hruns

theorem Request.runs_add_started (c : Catalog) (names : List String) (p : Power) (q : Request) :
    (q.serve c names p).runs + p.entries.started.size =
      (q.serve c names p).power.entries.started.size := by
  unfold Request.serve
  cases hi : q.query.target c with
  | none =>
    rw [Query.serve_of_no_target ⟨c, names, q.attributes⟩ p hi]
    exact Nat.zero_add _
  | some i =>
    rw [Query.serve_of_target ⟨c, names, q.attributes⟩ p hi]
    exact Power.runs_add_started ⟨c, names, q.attributes⟩ p i

end PowerFormulas
