import PowerFormulas.Power.Evaluation

/-!
# How evaluations move entries

Whatever runs within runs do, and however they fail, a step of an evaluation moves an entry only from
unevaluated to in progress or done, and counts one run for every entry that it so takes
(`Advances.valueWithin`). In particular what is in progress when a run of a script starts is in
progress when it ends, so the answer for an id can be read off the entry that it leaves
(`answered_of_answer_valueWithin`).
-/

namespace PowerFormulas

/-! ### Entries -/

section Related

variable {α β : Type} {r : α → β → Prop} {a : α} {b : β}

theorem rel_some_left_iff {o : Option β} : Option.Rel r (some a) o ↔ ∃ b, o = some b ∧ r a b := by
  cases o <;> simp

theorem rel_some_right_iff {o : Option α} : Option.Rel r o (some b) ↔ ∃ a, o = some a ∧ r a b := by
  cases o <;> simp

theorem rel_none_left_iff {o : Option β} : Option.Rel r none o ↔ o = none := by
  cases o <;> simp

theorem rel_none_right_iff {o : Option α} : Option.Rel r o none ↔ o = none := by
  cases o <;> simp

end Related

namespace Entry

/-- The same constant, or the same script with the same comment. -/
inductive SameFormula : Entry → Entry → Prop where
  | constant (value : Int32) : SameFormula (.constant value) (.constant value)
  | script (body : Script) (comment : String) (p p' : Progress) :
      SameFormula (.script body comment p) (.script body comment p')

/-- The entry as it may be later. -/
inductive Later : Entry → Entry → Prop where
  | same (e : Entry) : Later e e
  | taken (body : Script) (comment : String) (p : Progress) :
      Later (.script body comment .unevaluated) (.script body comment p)

theorem Later.sameFormula {e e' : Entry} (h : Later e e') : SameFormula e e' := by
  cases h with
  | same => cases e <;> constructor
  | taken => constructor

theorem Later.trans {e₁ e₂ e₃ : Entry} (h : Later e₁ e₂) (h' : Later e₂ e₃) : Later e₁ e₃ := by
  cases h with
  | same => exact h'
  | taken body comment p =>
    cases h' with
    | same => exact .taken body comment p
    | taken _ _ p' => exact .taken body comment p'

theorem Later.eq_of_settled {e e' : Entry} (h : Later e e') (hp : e.progress ≠ .unevaluated) :
    e' = e := by
  cases h with
  | same => rfl
  | taken => exact absurd rfl hp

theorem Later.eq_of_unevaluated {e e' : Entry} (h : Later e e') (hp : e'.progress = .unevaluated) :
    e' = e := by
  cases h with
  | same => rfl
  | taken =>
    cases hp
    rfl

theorem later_withProgress {e : Entry} (hp : e.progress = .unevaluated) (p : Progress) :
    Later e (e.withProgress p) := by
  cases e with
  | constant => cases hp
  | script body comment q =>
    cases hp
    exact .taken body comment p

theorem value?_eq_none_of_unevaluated {e : Entry} (hp : e.progress = .unevaluated) :
    e.value? = none := by
  rw [value?, hp]

end Entry

namespace Entries

/-- The entries as they may be later: of the same ids, each as it may be later. -/
def Later (es es' : Entries) : Prop := ∀ id : UInt32, Option.Rel Entry.Later es[id]? es'[id]?

variable {es es' : Entries} {id : UInt32} {e : Entry}

theorem Later.refl (es : Entries) : Later es es := by
  intro id
  cases es[id]? with
  | none => exact .none
  | some e => exact .some (.same e)

theorem Later.exists_of_some (h : Later es es') (he : es[id]? = some e) :
    ∃ e', es'[id]? = some e' ∧ Entry.Later e e' := by
  have hid := h id
  rw [he] at hid
  exact rel_some_left_iff.1 hid

theorem Later.exists_of_some' (h : Later es es') (he : es'[id]? = some e) :
    ∃ e₀, es[id]? = some e₀ ∧ Entry.Later e₀ e := by
  have hid := h id
  rw [he] at hid
  exact rel_some_right_iff.1 hid

theorem Later.eq_none (h : Later es es') (he : es[id]? = none) : es'[id]? = none := by
  have hid := h id
  rw [he] at hid
  exact rel_none_left_iff.1 hid

theorem Later.eq_none' (h : Later es es') (he : es'[id]? = none) : es[id]? = none := by
  have hid := h id
  rw [he] at hid
  exact rel_none_right_iff.1 hid

theorem Later.sameFormula (h : es.Later es') (id : UInt32) :
    Option.Rel Entry.SameFormula es[id]? es'[id]? := by
  cases he : es[id]? with
  | none => exact rel_none_left_iff.2 (h.eq_none he)
  | some e =>
    obtain ⟨e', he', hlater⟩ := h.exists_of_some he
    exact rel_some_left_iff.2 ⟨e', he', hlater.sameFormula⟩

theorem Later.trans {es₁ es₂ es₃ : Entries} (h : Later es₁ es₂) (h' : Later es₂ es₃) :
    Later es₁ es₃ := by
  intro id
  cases he₁ : es₁[id]? with
  | none => exact rel_none_left_iff.2 (h'.eq_none (h.eq_none he₁))
  | some e₁ =>
    obtain ⟨e₂, he₂, hl⟩ := h.exists_of_some he₁
    obtain ⟨e₃, he₃, hl'⟩ := h'.exists_of_some he₂
    exact rel_some_left_iff.2 ⟨e₃, he₃, hl.trans hl'⟩

theorem Later.eq_of_unevaluated (h : Later es es') (he : es'[id]? = some e)
    (hp : e.progress = .unevaluated) : es[id]? = some e := by
  obtain ⟨e₀, he₀, hl⟩ := h.exists_of_some' he
  rw [he₀, hl.eq_of_unevaluated hp]

theorem Later.eq_of_settled (h : Later es es') (he : es[id]? = some e)
    (hp : e.progress ≠ .unevaluated) : es'[id]? = some e := by
  obtain ⟨e', he', hl⟩ := h.exists_of_some he
  rw [he', hl.eq_of_settled hp]

end Entries

/-! ### Sessions -/

namespace Session

/-- The session as it may be later: one run has been counted for each script that has been taken. -/
structure Later (s s' : Session) : Prop where
  entries : s.entries.Later s'.entries
  runs : s'.runs + s'.pending = s.runs + s.pending

variable {s s₁ s' : Session} {id : UInt32} {e : Entry}

theorem Later.refl (s : Session) : Later s s := ⟨.refl s.entries, rfl⟩

theorem Later.trans {s₁ s₂ s₃ : Session} (h : Later s₁ s₂) (h' : Later s₂ s₃) : Later s₁ s₃ :=
  ⟨h.entries.trans h'.entries, h'.runs.trans h.runs⟩

theorem getElem?_start (s : Session) (id k : UInt32) :
    (s.start id).entries[k]? =
      if id = k then s.entries[k]?.map (Entry.withProgress .inProgress) else s.entries[k]? :=
  Entries.getElem?_modify ..

theorem getElem?_finish (s : Session) (id k : UInt32) (value : Int32) :
    (s.finish id value).entries[k]? =
      if id = k then s.entries[k]?.map (Entry.withProgress (.done value)) else s.entries[k]? :=
  Entries.getElem?_modify ..

theorem later_start (he : s.entries[id]? = some e) (hp : e.progress = .unevaluated) :
    s.Later (s.start id) := by
  constructor
  · intro k
    rw [getElem?_start]
    by_cases hk : id = k
    · subst hk
      rw [if_pos rfl, he]
      exact .some (Entry.later_withProgress hp _)
    · rw [if_neg hk]
      exact Entries.Later.refl s.entries k
  · have hpending := pending_start he hp
    have hruns : (s.start id).runs = s.runs + 1 := rfl
    omega

theorem getElem?_start_self (he : s.entries[id]? = some e) (hp : e.progress = .unevaluated) :
    ∃ e', (s.start id).entries[id]? = some e' ∧ e'.progress = .inProgress := by
  refine ⟨e.withProgress .inProgress, ?_, ?_⟩
  · rw [getElem?_start, if_pos rfl, he]
    rfl
  · exact Entry.progress_withProgress (Entry.value?_eq_none_of_unevaluated hp) _

theorem getElem?_finish_self (he : s.entries[id]? = some e) (hp : e.progress = .inProgress)
    (value : Int32) :
    ∃ e', (s.finish id value).entries[id]? = some e' ∧ e'.progress = .done value := by
  refine ⟨e.withProgress (.done value), ?_, ?_⟩
  · rw [getElem?_finish, if_pos rfl, he]
    rfl
  · exact Entry.progress_withProgress (by rw [Entry.value?, hp]) _

theorem pending_finish (he : s.entries[id]? = some e) (hp : e.progress ≠ .unevaluated)
    (value : Int32) : (s.finish id value).pending = s.pending := by
  have hmem : s.entries.unevaluated.contains id = false := by
    rw [Std.ExtTreeMap.contains_eq_isSome_getElem?, Entries.getElem?_unevaluated, he]
    simp [hp]
  rw [pending, pending, finish, Entries.unevaluated_modify _ _ (by simp),
    Std.ExtTreeMap.size_erase, hmem]
  rfl

/-- A run keeps its own script in progress, so that it can be finished in the end. -/
theorem later_finish (he : s.entries[id]? = some e) (hp : e.progress = .unevaluated)
    (h : (s.start id).Later s₁) (value : Int32) : s.Later (s₁.finish id value) := by
  -- the script is in progress from its start on, and nothing that runs in between moves it
  obtain ⟨e', he', hp'⟩ := getElem?_start_self he hp
  have hne : e'.progress ≠ .unevaluated := by simp [hp']
  have he₁ : s₁.entries[id]? = some e' := h.entries.eq_of_settled he' hne
  have hall : s.Later s₁ := (later_start he hp).trans h
  constructor
  · intro k
    rw [getElem?_finish]
    by_cases hk : id = k
    · subst hk
      obtain ⟨e₂, he₂, hl⟩ := hall.entries.exists_of_some he
      rw [if_pos rfl, he₂, he]
      cases hl with
      | same => exact .some (Entry.later_withProgress hp _)
      | taken body comment p => exact .some (.taken body comment _)
    · rw [if_neg hk]
      exact hall.entries k
  · have hpending := pending_finish he₁ hne value
    have hruns : (s₁.finish id value).runs = s₁.runs := rfl
    have hall := hall.runs
    omega

end Session

/-! ### Steps of an evaluation -/

namespace Evaluation

variable {α β : Type} {scope : Scope} {power : String} {depth : Nat} {id : UInt32} {s s' : Session}

/-- How the value of an id comes about: there is none, or it is there, or its script is under way,
or it is run and fails or ends. -/
inductive Served (scope : Scope) (power : String) (depth : Nat) (id : UInt32) (s : Session) :
    Except Error (Option Int32) → Session → Prop where
  | absent : s.entries[id]? = none → Served scope power depth id s (.ok none) s
  | done {e : Entry} {value : Int32} : s.entries[id]? = some e → e.progress = .done value →
      Served scope power depth id s (.ok (some value)) s
  | inProgress {e : Entry} : s.entries[id]? = some e → e.progress = .inProgress →
      Served scope power depth id s
        (.error (.recursiveFormula power (scope.catalog.label id))) s
  | failed {e : Entry} {d : Nat} {fault : Error} {s₁ : Session} : s.entries[id]? = some e →
      e.progress = .unevaluated → depth = d + 1 →
      answer (scope.runCode (valueWithin scope power d) e.code) (s.start id) =
        some (.error fault, s₁) →
      Served scope power depth id s (.error fault) s₁
  | finished {e : Entry} {d : Nat} {value : Int32} {s₁ : Session} : s.entries[id]? = some e →
      e.progress = .unevaluated → depth = d + 1 →
      answer (scope.runCode (valueWithin scope power d) e.code) (s.start id) =
        some (.ok value, s₁) →
      Served scope power depth id s (.ok (some value)) (s₁.finish id value)

theorem answer_valueWithin_zero {e : Entry} (h : s.entries[id]? = some e)
    (hp : e.progress = .unevaluated) : (valueWithin scope power 0 id).answer s = none := by
  rw [valueWithin.eq_def, answer_bind]
  simp only [answer_get, Option.bind_some, h, hp]
  rfl

theorem served_of_answer {r : Except Error (Option Int32)}
    (h : (valueWithin scope power depth id).answer s = some (r, s')) :
    Served scope power depth id s r s' := by
  cases he : s.entries[id]? with
  | none =>
    rw [answer_valueWithin_of_absent he] at h
    cases h
    exact .absent he
  | some e =>
    cases hp : e.progress with
    | done value =>
      rw [answer_valueWithin_of_done he hp] at h
      cases h
      exact .done he hp
    | inProgress =>
      rw [answer_valueWithin_of_inProgress he hp] at h
      cases h
      exact .inProgress he hp
    | unevaluated =>
      cases depth with
      | zero =>
        rw [answer_valueWithin_zero he hp] at h
        cases h
      | succ d =>
        rw [answer_valueWithin_succ he hp] at h
        obtain ⟨⟨result, s₁⟩, hrun, heq⟩ := Option.map_eq_some_iff.1 h
        cases result with
        | error fault =>
          cases heq
          exact .failed he hp rfl hrun
        | ok value =>
          cases heq
          exact .finished he hp rfl hrun

/-- The step, if it answers, leaves a later session. -/
def Advances (x : Evaluation α) : Prop :=
  ∀ (s : Session) (r : Except Error α) (s' : Session), x.answer s = some (r, s') → s.Later s'

theorem Advances.pure (a : α) : Advances (pure a : Evaluation α) := by
  intro s r s' h
  rw [answer_pure] at h
  cases h
  exact .refl s

theorem Advances.throw (e : Error) : Advances (throw e : Evaluation α) := by
  intro s r s' h
  rw [answer_throw] at h
  cases h
  exact .refl s

theorem Advances.bind {x : Evaluation α} {f : α → Evaluation β} (hx : Advances x)
    (hf : ∀ a, Advances (f a)) : Advances (x >>= f) := by
  intro s r s' h
  rw [answer_bind] at h
  obtain ⟨⟨result, s₁⟩, h₁, h₂⟩ := Option.bind_eq_some_iff.1 h
  cases result with
  | error e =>
    cases h₂
    exact hx s _ _ h₁
  | ok a => exact (hx s _ _ h₁).trans (hf a s₁ _ _ h₂)

theorem Advances.tryCatch {x : Evaluation α} {f : Error → Evaluation α} (hx : Advances x)
    (hf : ∀ e, Advances (f e)) : Advances (tryCatch x f) := by
  intro s r s' h
  rw [answer_tryCatch] at h
  obtain ⟨⟨result, s₁⟩, h₁, h₂⟩ := Option.bind_eq_some_iff.1 h
  cases result with
  | ok a =>
    cases h₂
    exact hx s _ _ h₁
  | error e => exact (hx s _ _ h₁).trans (hf e s₁ _ _ h₂)

theorem Advances.respected : Bytecode.Respected fun α (x _ : Evaluation α) => Advances x where
  pure := .pure
  throw := .throw
  bind := .bind
  orElse a hx := .tryCatch hx fun _ => .pure a

theorem Advances.runCode {valueOf : UInt32 → Evaluation (Option Int32)}
    (h : ∀ id, Advances (valueOf id)) (code : List UInt32) :
    Advances (scope.runCode valueOf code) :=
  scope.related_runCode (w := valueOf) Advances.respected code fun id _ => h id

theorem Advances.valueWithin (scope : Scope) (power : String) (depth : Nat) (id : UInt32) :
    Advances (valueWithin scope power depth id) := by
  induction depth generalizing id with
  | zero =>
    intro s r s' h
    cases served_of_answer h with
    | absent | done | inProgress => exact .refl s
    | failed _ _ hd | finished _ _ hd => cases hd
  | succ depth ih =>
    intro s r s' h
    cases served_of_answer h with
    | absent | done | inProgress => exact .refl s
    | failed he hp hd hrun =>
      cases hd
      exact (Session.later_start he hp).trans (Advances.runCode ih _ _ _ _ hrun)
    | finished he hp hd hrun =>
      cases hd
      exact Session.later_finish he hp (Advances.runCode ih _ _ _ _ hrun) _

/-- Whatever a run asks for, it leaves its own script in progress. -/
theorem inProgress_of_run {e : Entry} {r : Except Error Int32} (he : s.entries[id]? = some e)
    (hp : e.progress = .unevaluated)
    (hrun : answer (scope.runCode (valueWithin scope power depth) e.code) (s.start id) =
      some (r, s')) :
    (s.start id).Later s' ∧ ∃ e', s'.entries[id]? = some e' ∧ e'.progress = .inProgress := by
  obtain ⟨e', he', hp'⟩ := Session.getElem?_start_self he hp
  have hlater := Advances.runCode (Advances.valueWithin scope power depth) _ _ _ _ hrun
  exact ⟨hlater, e', hlater.entries.eq_of_settled he' (by simp [hp']), hp'⟩

/-- How an answer for an id goes with the entry that is left of the id. -/
inductive Answered : Except Error (Option Int32) → Option Entry → Prop where
  | absent : Answered (.ok none) none
  | done {e : Entry} {value : Int32} : e.progress = .done value → Answered (.ok (some value)) (some e)
  | stuck {e : Entry} {fault : Error} : e.progress = .inProgress → Answered (.error fault) (some e)

theorem Answered.progress_iff {r : Except Error (Option Int32)} {o : Option Entry}
    (h : Answered r o) :
    (r = .ok none ↔ o.map Entry.progress = none) ∧
    (∀ value, r = .ok (some value) ↔ o.map Entry.progress = some (.done value)) ∧
    ((∃ fault, r = .error fault) ↔ o.map Entry.progress = some .inProgress) := by
  cases h with
  | absent => simp
  | done hp => simp [hp]
  | stuck hp => simp [hp]

theorem answered_of_answer_valueWithin {r : Except Error (Option Int32)}
    (h : (valueWithin scope power depth id).answer s = some (r, s')) :
    Answered r s'.entries[id]? := by
  cases served_of_answer h with
  | absent he => exact he ▸ .absent
  | done he hp => exact he ▸ .done hp
  | inProgress he hp => exact he ▸ .stuck hp
  | failed he hp hd hrun =>
    obtain ⟨-, e', he', hp'⟩ := inProgress_of_run he hp hrun
    exact he' ▸ .stuck hp'
  | finished he hp hd hrun =>
    obtain ⟨-, e', he', hp'⟩ := inProgress_of_run he hp hrun
    obtain ⟨e₂, he₂, hp₂⟩ := Session.getElem?_finish_self he' hp' _
    exact he₂ ▸ .done hp₂

end Evaluation

end PowerFormulas
