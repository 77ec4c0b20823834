import PowerFormulas.Proofs.Evaluation.Plain

/-!
# Kept values are plain values

Where no formula needs itself, a power that keeps values and failures answers every request as if it
were the first one and nothing were kept (`serve_yields_plain_value`).

An evaluation with kept entries is followed beside a plain one. What is kept, a value or a failure, is
what plain evaluation comes to; only the scripts that are running are exempt. None of these is asked
for again, as each of them stands above what is being evaluated.
-/

namespace PowerFormulas

/-- Both results are this value, or both are faults. -/
inductive SameValue {α : Type} : Except Error α → Except Error α → Prop where
  | ok (a : α) : SameValue (.ok a) (.ok a)
  | error (fault fault' : Error) : SameValue (.error fault) (.error fault')

namespace SameValue

variable {α : Type} {x y : Except Error α}

theorem eq_ok_iff (h : SameValue x y) (a : α) : x = .ok a ↔ y = .ok a := by
  cases h <;> simp

theorem exists_error_iff (h : SameValue x y) :
    (∃ fault, x = .error fault) ↔ ∃ fault, y = .error fault := by
  cases h <;> simp

end SameValue

namespace Entries

/-- Of the ids that are not running, what is kept in `es'` is what plain evaluation of `es` comes
to. -/
structure Faithful (scope : Scope) (es : Entries) (running : UInt32 → Prop) (es' : Entries) :
    Prop where
  later : es.Later es'
  done {id : UInt32} {e : Entry} {value : Int32} : ¬ running id → es'[id]? = some e →
    e.progress = .done value → es.Yields scope id (.ok (some value))
  failed {id : UInt32} {e : Entry} : ¬ running id → es'[id]? = some e →
    e.progress = .inProgress → ∃ fault, es.Yields scope id (.error fault)

variable {scope : Scope} {es es' es₁ : Entries} {running : UInt32 → Prop} {id : UInt32} {e : Entry}

theorem Fresh.faithful (h : es.Fresh) : es.Faithful scope (fun _ => False) es := by
  refine ⟨.refl es, ?_, ?_⟩
  · intro id e value _ he hp
    cases e with
    | constant v =>
      cases hp
      exact ⟨1, plainWithin_of_constant he⟩
    | script body comment p =>
      cases h id body comment p he
      cases hp
  · intro id e _ he hp
    cases e with
    | constant v => cases hp
    | script body comment p =>
      cases h id body comment p he
      cases hp

/-- While a script runs it is exempt; of the others nothing changes when it starts. -/
theorem Faithful.start (h : es.Faithful scope running es') (hlater : es.Later es₁)
    (hsame : ∀ k, k ≠ id → es₁[k]? = es'[k]?) :
    es.Faithful scope (fun k => running k ∨ k = id) es₁ := by
  refine ⟨hlater, ?_, ?_⟩
  · intro k e value hk he hp
    rw [not_or] at hk
    rw [hsame k hk.2] at he
    exact h.done hk.1 he hp
  · intro k e hk he hp
    rw [not_or] at hk
    rw [hsame k hk.2] at he
    exact h.failed hk.1 he hp

/-- When a script has run, what is kept of it must be what plain evaluation comes to. -/
theorem Faithful.stop (h : es.Faithful scope (fun k => running k ∨ k = id) es')
    (hlater : es.Later es₁) (hsame : ∀ k, k ≠ id → es₁[k]? = es'[k]?) (he : es₁[id]? = some e)
    (hdone : ∀ value, e.progress = .done value → es.Yields scope id (.ok (some value)))
    (hfailed : e.progress = .inProgress → ∃ fault, es.Yields scope id (.error fault)) :
    es.Faithful scope running es₁ := by
  refine ⟨hlater, ?_, ?_⟩
  · intro k e' value hk he' hp
    by_cases hid : k = id
    · subst hid
      rw [he] at he'
      cases he'
      exact hdone value hp
    · rw [hsame k hid] at he'
      exact h.done (by simp [hk, hid]) he' hp
  · intro k e' hk he' hp
    by_cases hid : k = id
    · subst hid
      rw [he] at he'
      cases he'
      exact hfailed hp
    · rw [hsame k hid] at he'
      exact h.failed (by simp [hk, hid]) he' hp

end Entries

namespace Evaluation

variable {α β : Type} {scope : Scope} {es : Entries} {running : UInt32 → Prop}

/-- From a faithful session the step leaves a faithful one, and its result is that of the plain
computation. -/
def Tracks (scope : Scope) (es : Entries) (running : UInt32 → Prop) (x : Evaluation α)
    (y : ExceptT Error Option α) : Prop :=
  ∀ (s : Session) (r : Except Error α) (s' : Session), es.Faithful scope running s.entries →
    x.answer s = some (r, s') →
    es.Faithful scope running s'.entries ∧ ∃ r', y.run = some r' ∧ SameValue r r'

theorem Tracks.pure (a : α) : Tracks scope es running (pure a) (pure a) := by
  intro s r s' hs h
  rw [answer_pure] at h
  cases h
  exact ⟨hs, .ok a, rfl, .ok a⟩

theorem Tracks.throw (e : Error) : Tracks (α := α) scope es running (throw e) (throw e) := by
  intro s r s' hs h
  rw [answer_throw] at h
  cases h
  exact ⟨hs, .error e, rfl, .error e e⟩

theorem Tracks.bind {x : Evaluation α} {y : ExceptT Error Option α} {f : α → Evaluation β}
    {g : α → ExceptT Error Option β} (hx : Tracks scope es running x y)
    (hf : ∀ a, Tracks scope es running (f a) (g a)) :
    Tracks scope es running (x >>= f) (y >>= g) := by
  intro s r s' hs h
  rw [answer_bind] at h
  obtain ⟨⟨result, s₁⟩, h₁, h₂⟩ := Option.bind_eq_some_iff.1 h
  obtain ⟨hs₁, r₁, hy, hsame⟩ := hx s result s₁ hs h₁
  cases hsame with
  | ok a =>
    obtain ⟨hs', r', hg, hsame⟩ := hf a s₁ r s' hs₁ h₂
    exact ⟨hs', r', Entries.run_bind_eq_some_iff.2 (.inl ⟨a, hy, hg⟩), hsame⟩
  | error fault fault' =>
    cases h₂
    exact ⟨hs₁, _, Entries.run_bind_eq_some_iff.2 (.inr ⟨fault', hy, rfl⟩), .error fault fault'⟩

theorem Tracks.orElse {x : Evaluation α} {y : ExceptT Error Option α} (a : α)
    (hx : Tracks scope es running x y) :
    Tracks scope es running (tryCatch x fun _ => Pure.pure a)
      (tryCatch y fun _ => Pure.pure a) := by
  intro s r s' hs h
  rw [answer_tryCatch] at h
  obtain ⟨⟨result, s₁⟩, h₁, h₂⟩ := Option.bind_eq_some_iff.1 h
  obtain ⟨hs₁, r₁, hy, hsame⟩ := hx s result s₁ hs h₁
  cases hsame with
  | ok b =>
    cases h₂
    exact ⟨hs₁, _, Entries.run_orElse_eq_some_iff.2 (.inl ⟨b, hy, rfl⟩), .ok b⟩
  | error fault fault' =>
    have h₂ : (Pure.pure a : Evaluation α).answer s₁ = some (r, s') := h₂
    rw [answer_pure] at h₂
    cases h₂
    exact ⟨hs₁, _, Entries.run_orElse_eq_some_iff.2 (.inr ⟨fault', hy, rfl⟩), .ok a⟩

theorem Tracks.respected :
    Bytecode.Respected fun α (x : Evaluation α) y => Tracks scope es running x y where
  pure := .pure
  throw := .throw
  bind := .bind
  orElse := .orElse

variable {power : String} {rank : UInt32 → Nat} {depth d : Nat} {id : UInt32}

/-- A run of a script is tracked while the script counts as running, given that the ids that it asks
for are. -/
theorem faithful_of_run {s s₁ : Session} {e : Entry} {r : Except Error Int32}
    (hs : es.Faithful scope running s.entries) (he : s.entries[id]? = some e)
    (hp : e.progress = .unevaluated)
    (hasked : ∀ b ∈ scope.askedIds e.code, Tracks scope es (fun k => running k ∨ k = id)
      (valueWithin scope power d b) (es.plainWithin scope depth b))
    (hrun : answer (scope.runCode (valueWithin scope power d) e.code) (s.start id) =
      some (r, s₁)) :
    es.Faithful scope (fun k => running k ∨ k = id) s₁.entries ∧
      ∃ r', (scope.runCode (es.plainWithin scope depth) e.code).run = some r' ∧ SameValue r r' := by
  have hlater := hs.later.trans (Session.later_start he hp).entries
  have hstart : es.Faithful scope (fun k => running k ∨ k = id) (s.start id).entries := by
    apply hs.start hlater
    intro k hk
    rw [Session.getElem?_start, if_neg (Ne.symm hk)]
  exact scope.related_runCode Tracks.respected e.code hasked _ _ _ hstart hrun

/-- A script whose run has failed stays in progress, which stands for its failure from then on. -/
theorem faithful_of_failed {s₁ : Session} {e : Entry} {fault : Error}
    (hs₁ : es.Faithful scope (fun k => running k ∨ k = id) s₁.entries)
    (he : s₁.entries[id]? = some e) (hp : e.progress = .inProgress)
    (hplain : es.Yields scope id (.error fault)) : es.Faithful scope running s₁.entries := by
  refine hs₁.stop hs₁.later (fun _ _ => rfl) he ?_ ?_
  · intro value hdone
    rw [hp] at hdone
    cases hdone
  · intro _
    exact ⟨fault, hplain⟩

theorem faithful_of_finished {s₁ : Session} {e : Entry} {value : Int32}
    (hs₁ : es.Faithful scope (fun k => running k ∨ k = id) s₁.entries)
    (hlater : es.Later (s₁.finish id value).entries) (he : s₁.entries[id]? = some e)
    (hp : e.progress = .inProgress) (hplain : es.Yields scope id (.ok (some value))) :
    es.Faithful scope running (s₁.finish id value).entries := by
  obtain ⟨e', he', hp'⟩ := Session.getElem?_finish_self he hp value
  refine hs₁.stop hlater (fun k hk => ?_) he' ?_ ?_
  · rw [Session.getElem?_finish, if_neg (Ne.symm hk)]
  · intro value' hdone
    rw [hp'] at hdone
    cases hdone
    exact hplain
  · intro hstuck
    rw [hp'] at hstuck
    cases hstuck

/-- What is asked for stands below all that is running, so it is answered as by plain evaluation. -/
theorem tracks_valueWithin (power : String) (d : Nat)
    (hrank : ∀ a b, es.Refers scope a b → rank b < rank a) (hdepth : rank id < depth)
    (hbelow : ∀ k, running k → rank id < rank k) :
    Tracks scope es running (valueWithin scope power d id) (es.plainWithin scope depth id) := by
  induction depth generalizing id d running with
  | zero => omega
  | succ depth ih =>
    intro s r s' hs h
    have hidle : ¬ running id := by
      intro hid
      have := hbelow id hid
      omega
    obtain ⟨r₀, hr₀⟩ := Entries.exists_plainWithin hrank hdepth
    -- what this script asks for stands below it, and so below all that is running, itself included
    have hasked : ∀ e, es[id]? = some e → ∀ d', ∀ b ∈ scope.askedIds e.code,
        Tracks scope es (fun k => running k ∨ k = id) (valueWithin scope power d' b)
          (es.plainWithin scope depth b) := by
      intro e he d' b hb
      have hlt := hrank id b ⟨e, he, hb⟩
      apply ih
      · omega
      · rintro k (hk | rfl)
        · have := hbelow k hk
          omega
        · exact hlt
    cases served_of_answer h with
    | absent he => exact ⟨hs, _, Entries.plainWithin_of_absent (hs.later.eq_none' he), .ok none⟩
    | done he hp =>
      have heq := (hs.done hidle he hp).unique ⟨_, hr₀⟩
      subst heq
      exact ⟨hs, _, hr₀, .ok _⟩
    | inProgress he hp =>
      obtain ⟨fault, hfault⟩ := hs.failed hidle he hp
      have heq := hfault.unique ⟨_, hr₀⟩
      subst heq
      exact ⟨hs, _, hr₀, .error _ _⟩
    | @failed e d' fault s₁ he hp hd hrun =>
      have hes := hs.later.eq_of_unevaluated he hp
      obtain ⟨hs₁, r', hr', hsame⟩ := faithful_of_run hs he hp (hasked e hes d') hrun
      rcases hsame with _ | ⟨_, fault'⟩
      have hplain := Entries.plainWithin_of_run hes hp hr'
      obtain ⟨-, e', he', hp'⟩ := inProgress_of_run he hp hrun
      exact ⟨faithful_of_failed hs₁ he' hp' ⟨_, hplain⟩, _, hplain, .error fault fault'⟩
    | @finished e d' value s₁ he hp hd hrun =>
      have hes := hs.later.eq_of_unevaluated he hp
      obtain ⟨hs₁, r', hr', hsame⟩ := faithful_of_run hs he hp (hasked e hes d') hrun
      rcases hsame with _ | _
      have hplain := Entries.plainWithin_of_run hes hp hr'
      obtain ⟨hlater, e', he', hp'⟩ := inProgress_of_run he hp hrun
      have hall := hs.later.trans (Session.later_finish he hp hlater value).entries
      exact ⟨faithful_of_finished hs₁ hall he' hp' ⟨_, hplain⟩, _, hplain, .ok (some value)⟩

end Evaluation

namespace Power

variable {scope : Scope} {es : Entries} {rank : UInt32 → Nat} {p : Power}

theorem faithful_evaluateId (hrank : ∀ a b, es.Refers scope a b → rank b < rank a)
    (hp : es.Faithful scope (fun _ => False) p.entries) (id : UInt32) :
    es.Faithful scope (fun _ => False) (p.evaluateId scope id).power.entries ∧
      ∃ r, es.Yields scope id r ∧ SameValue (p.evaluateId scope id).result r := by
  obtain ⟨r, s', hs', ho⟩ := exists_answer_evaluateId scope p id
  have htracks := Evaluation.tracks_valueWithin p.name p.session.pending hrank
    (Nat.lt_succ_self (rank id)) fun _ hk => False.elim hk
  obtain ⟨hfaithful, r', hr', hsame⟩ := htracks p.session r s' hp hs'
  rw [ho]
  exact ⟨hfaithful, r', ⟨_, hr'⟩, hsame⟩

theorem faithful_after (hrank : ∀ a b, es.Refers scope a b → rank b < rank a)
    (hp : es.Faithful scope (fun _ => False) p.entries) (history : List Query) :
    es.Faithful scope (fun _ => False) (p.after scope.catalog scope.names
      (history.map (Request.mk scope.attributes))).entries := by
  induction history generalizing p with
  | nil => exact hp
  | cons q rest ih =>
    apply ih
    cases hi : q.target scope.catalog with
    | none =>
      have hserve := Query.serve_of_no_target scope p hi
      rw [Request.serve, hserve]
      exact hp
    | some i =>
      have hserve := Query.serve_of_target scope p hi
      rw [Request.serve, hserve]
      exact (faithful_evaluateId hrank hp i).1

/-- Where no formula needs itself, whatever has been asked before with the same attributes, an entry
has the value that it has when nothing is kept, and fails if it then fails. -/
theorem serve_yields_plain_value (scope : Scope) (p : Power) (hfresh : p.entries.Fresh)
    (hacyclic : p.entries.Acyclic scope) (history : List Query) (q : Query) (i : UInt32)
    (hi : q.target scope.catalog = some i) (hmem : i ∈ p.entries) :
    let now := p.after scope.catalog scope.names (history.map (Request.mk scope.attributes))
    let o := q.serve scope now
    (∃ r, p.entries.Yields scope i r) ∧
    (∀ value, o.result = .ok (some value) ↔ p.entries.Yields scope i (.ok (some value))) ∧
    ((∃ fault, o.result = .error fault) ↔ ∃ fault, p.entries.Yields scope i (.error fault)) := by
  intro now o
  obtain ⟨rank, hrank⟩ := Entries.exists_rank hacyclic
  have hnow := faithful_after hrank hfresh.faithful history
  obtain ⟨-, r, hr, hsame⟩ := faithful_evaluateId hrank hnow i
  have hsome : (now.evaluateId scope i).result ≠ .ok none := by
    intro hnone
    have hprogress := (answered_evaluateId scope now i).progress_iff.1.1 hnone
    have hafter := (later_evaluateId scope now i).entries.eq_none' (progress?_eq_none_iff.1 hprogress)
    have hbefore := hnow.later.eq_none' hafter
    rw [Std.ExtTreeMap.mem_iff_isSome_getElem?, hbefore] at hmem
    cases hmem
  have ho : o.result = (now.evaluateId scope i).result := by
    have hserve : o = _ := Query.serve_of_target scope now hi
    rw [hserve]
    exact Query.map_shown_eq_self q hsome
  have hyields : ∀ r', p.entries.Yields scope i r' ↔ r = r' := by
    intro r'
    exact ⟨hr.unique, fun h => h ▸ hr⟩
  refine ⟨⟨r, hr⟩, fun value => ?_, ?_⟩
  · rw [ho, hyields]
    exact hsame.eq_ok_iff (some value)
  · simp only [ho, hyields]
    exact hsame.exists_error_iff

/-- "Half" swallows the failure of "Bad" and "Total" asks for "Half" twice: whatever is asked first,
"Total" is worth 16. -/
theorem serve_yields_sixteen :
    let scope : Scope := ⟨((Catalog.empty.rename 1 ⟨"Bad", "B"⟩).rename 2 ⟨"Half", "H"⟩).rename 3
      ⟨"Total", "T"⟩, ["Bad", "Half"], ∅⟩
    let p : Power := ⟨"Fists", 4, .ofList [((1 : UInt32), Entry.ofScript ⟨[8], ""⟩),
      (2, Entry.ofScript ⟨[6, 0, 1, 5, 4], ""⟩), (3, Entry.ofScript ⟨[3, 1, 3, 1, 5], ""⟩)]⟩
    p.entries.Fresh ∧ p.entries.Acyclic scope ∧ ∀ history : List Query,
      ((Query.byName "Total").serve scope (p.after scope.catalog scope.names
        (history.map (Request.mk scope.attributes)))).result = .ok (some 16) := by
  intro scope p
  have hentries : ∀ (a : UInt32) (e : Entry), p.entries[a]? = some e → e.progress = .unevaluated ∧
      ∀ b ∈ scope.askedIds e.code, b.toNat < a.toNat := by
    intro a e he
    have hmem := Std.ExtTreeMap.mem_toList_iff_getElem?_eq_some.2 he
    -- a test of the list, as the ids below are too many to go through
    have hall : ∀ x ∈ p.entries.toList, x.2.progress = .unevaluated ∧
        (scope.askedIds x.2.code).all (fun b => b.toNat < x.1.toNat) = true := by
      decide +kernel
    obtain ⟨hp, hasked⟩ := hall (a, e) hmem
    exact ⟨hp, fun b hb => of_decide_eq_true (List.all_eq_true.1 hasked b hb)⟩
  have hfresh : p.entries.Fresh := fun a body comment progress he => (hentries a _ he).1
  have hacyclic : p.entries.Acyclic scope :=
    Entries.acyclic_of_rank fun a b ⟨e, he, hb⟩ => (hentries a e he).2 b hb
  refine ⟨hfresh, hacyclic, fun history => ?_⟩
  refine ((serve_yields_plain_value scope p hfresh hacyclic history (.byName "Total") 3 ?_ ?_).2.1
    16).2 ⟨3, ?_⟩
  · decide +kernel
  · decide +kernel
  · decide +kernel

end Power

end PowerFormulas
