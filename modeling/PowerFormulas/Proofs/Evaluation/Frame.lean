import PowerFormulas.Proofs.Evaluation.Started

/-!
# What a request leaves alone

A request takes scripts: it starts them, and leaves them done or in progress. All else of a power
stays as it is, and every script that is taken is run once, whether its run ends, fails, or fails
unnoticed within another one (`serve_changes_only_what_it_runs`).
-/

namespace PowerFormulas

/-- An unevaluated script is left alone or taken. -/
theorem Entry.Later.eq_or_taken {e e' : Entry} (h : Later e e') (hp : e.progress = .unevaluated) :
    e' = e ∨ e' = e.withProgress .inProgress ∨ ∃ value, e' = e.withProgress (.done value) := by
  cases h with
  | same => exact .inl rfl
  | taken body comment p =>
    cases p with
    | unevaluated => exact .inl rfl
    | inProgress => exact .inr (.inl rfl)
    | done value => exact .inr (.inr ⟨value, rfl⟩)

theorem Entry.SameFormula.eq_parts {e e' : Entry} (h : SameFormula e e') :
    e'.body? = e.body? ∧ e'.comment = e.comment := by
  cases h with
  | constant value => exact ⟨rfl, rfl⟩
  | script body comment p p' => exact ⟨rfl, rfl⟩

namespace Entries

/-- The scripts that are unevaluated here and no longer so there. -/
def taken (es es' : Entries) : Entries :=
  es.unevaluated.filter fun id _ => es'[id]?.map Entry.progress ≠ some .unevaluated

variable {es es' : Entries}

theorem size_filter_add_size_filter_not (es : Entries) (p : UInt32 → Bool) :
    (es.filter fun id _ => p id).size + (es.filter fun id _ => !p id).size = es.size := by
  rw [← Std.ExtTreeMap.length_toList, ← Std.ExtTreeMap.length_toList,
    ← Std.ExtTreeMap.length_toList, Std.ExtTreeMap.toList_filter, Std.ExtTreeMap.toList_filter]
  exact (List.length_eq_length_filter_add fun x : UInt32 × Entry => p x.1).symm

/-- What is unevaluated later has been so from the start. -/
theorem Later.unevaluated_eq (h : es.Later es') :
    es'.unevaluated =
      es.unevaluated.filter fun id _ => es'[id]?.map Entry.progress = some .unevaluated := by
  apply Std.ExtTreeMap.ext_getElem?
  intro id
  rw [Std.ExtTreeMap.getElem?_filter', getElem?_unevaluated, getElem?_unevaluated]
  cases he' : es'[id]? with
  | none => rw [h.eq_none' he']; rfl
  | some e' =>
    by_cases hp : e'.progress = .unevaluated
    · rw [h.eq_of_unevaluated he' hp]
      simp [hp]
    · cases he : es[id]? with
      | none => rw [h.eq_none he] at he'; cases he'
      | some e => simp [hp]

theorem Later.size_taken_add (h : es.Later es') :
    (es.taken es').size + es'.unevaluated.size = es.unevaluated.size := by
  have hsplit := es.unevaluated.size_filter_add_size_filter_not fun id =>
    decide (es'[id]?.map Entry.progress = some .unevaluated)
  have hnot : (es.taken es').size = (es.unevaluated.filter fun id _ =>
      !decide (es'[id]?.map Entry.progress = some .unevaluated)).size := by
    simp only [taken, ne_eq, decide_not]
  rw [h.unevaluated_eq, hnot]
  omega

end Entries

namespace Request

theorem runs_add_unevaluated (c : Catalog) (names : List String) (p : Power) (q : Request) :
    (q.serve c names p).runs + (q.serve c names p).power.entries.unevaluated.size =
      p.entries.unevaluated.size := by
  have hlater : p.Later (q.serve c names p).power := Query.later_serve _ p q.query
  have hstarted := q.runs_add_started c names p
  have hbefore := p.entries.size_started_add_unevaluated
  have hafter := (q.serve c names p).power.entries.size_started_add_unevaluated
  rw [hlater.entries.bodies] at hafter
  omega

/-- Whatever comes of a request, the power keeps its name, its id and the ids of its tags; entries
keep their programs, source texts and comments, and only scripts that were unevaluated come to be in
progress or done. Of these there are as many as runs have been made. -/
theorem serve_changes_only_what_it_runs (c : Catalog) (names : List String) (p : Power)
    (q : Request) :
    let o := q.serve c names p
    o.power.name = p.name ∧ o.power.id = p.id ∧
    (∀ id, id ∈ o.power.entries ↔ id ∈ p.entries) ∧
    (∀ (id : UInt32) (e : Entry), p.entries[id]? = some e → ∃ e', o.power.entries[id]? = some e' ∧
      e'.body? = e.body? ∧ e'.comment = e.comment ∧
      (∀ value, e = .constant value → e' = .constant value) ∧
      (e.progress ≠ .unevaluated → e' = e) ∧
      (e.progress = .unevaluated →
        e' = e ∨ e' = e.withProgress .inProgress ∨ ∃ value, e' = e.withProgress (.done value))) ∧
    o.runs = (p.entries.taken o.power.entries).size := by
  intro o
  have hlater : p.Later o.power := Query.later_serve _ p q.query
  refine ⟨hlater.name, hlater.id, ?_, ?_, ?_⟩
  · intro id
    rw [Std.ExtTreeMap.mem_iff_isSome_getElem?, Std.ExtTreeMap.mem_iff_isSome_getElem?]
    cases he : p.entries[id]? with
    | none => rw [hlater.entries.eq_none he]
    | some e =>
      obtain ⟨e', he', -⟩ := hlater.entries.exists_of_some he
      rw [he']
      rfl
  · intro id e he
    obtain ⟨e', he', hl⟩ := hlater.entries.exists_of_some he
    obtain ⟨hbody, hcomment⟩ := hl.sameFormula.eq_parts
    refine ⟨e', he', hbody, hcomment, ?_, hl.eq_of_settled, hl.eq_or_taken⟩
    intro value heq
    subst heq
    exact hl.eq_of_settled (by simp [Entry.progress])
  · have hruns : o.runs + o.power.entries.unevaluated.size = p.entries.unevaluated.size :=
      q.runs_add_unevaluated c names p
    have htaken := hlater.entries.size_taken_add
    omega

/-- "Damage" swallows the failure of "Loop", so both are taken, and "Spare" is left alone. -/
example :
    let c := (Catalog.empty.rename 1 ⟨"Damage", "D"⟩).rename 2 ⟨"Loop", "L"⟩
    let p : Power := ⟨"Fists", 4, .ofList [((1 : UInt32), Entry.ofScript ⟨[6, 1], ""⟩),
      (2, Entry.ofScript ⟨[3, 0], ""⟩), (3, Entry.ofScript ⟨[1, 5], "5"⟩)]⟩
    let o := Request.serve c ["Damage", "Loop"] p ⟨∅, .byName "Damage"⟩
    (p.entries.taken o.power.entries).keys = [1, 2] ∧ o.runs = 2 := by
  decide +kernel

end Request

end PowerFormulas
