import PowerFormulas.Proofs.Evaluation.Plain

/-!
# What an evaluation depends on

What a request for a tag comes to rests on the tags that its formula refers to, directly or by way
of other formulas. Nothing else is touched, and nothing else makes a difference
(`serve_depends_on_references`).

Two evaluations are followed side by side, in powers that agree on these tags and differ at will on
all others. They ask for the same ids one after another, as each id that is asked for is one of
those tags again.
-/

namespace PowerFormulas

namespace Entry

/-- The same program and source text, or none in both, and the same progress. -/
structure Alike (e e' : Entry) : Prop where
  body : e'.body? = e.body?
  progress : e'.progress = e.progress

variable {e e' : Entry}

theorem Alike.refl (e : Entry) : Alike e e := ⟨rfl, rfl⟩

theorem Alike.code (h : Alike e e') : e'.code = e.code := by
  have hcode : ∀ e : Entry, e.code = (e.body?.map Script.code).getD [] := by
    intro e
    cases e <;> rfl
  rw [hcode, hcode, h.body]

theorem Alike.withProgress (h : Alike e e') (p : Progress) :
    Alike (e.withProgress p) (e'.withProgress p) := by
  refine ⟨by rw [body?_withProgress, body?_withProgress, h.body], ?_⟩
  cases e with
  | constant value =>
    cases e' with
    | constant value' => exact h.progress
    | script body comment progress => cases h.body
  | script body comment progress =>
    cases e' with
    | constant value => cases h.body
    | script body' comment' progress' => rfl

end Entry

/-- The ids that an id refers to, directly or by way of other entries; it is one of them itself. -/
def Entries.Closure (scope : Scope) (es : Entries) : UInt32 → UInt32 → Prop :=
  Relation.ReflTransGen (es.Refers scope)

/-- Ids that refer to none but each other hold the closures of all of them. -/
theorem Entries.Closure.mem {scope : Scope} {es : Entries} {i k : UInt32} {ids : List UInt32}
    (h : es.Closure scope i k) (hi : i ∈ ids)
    (hids : (ids.flatMap fun a => (es[a]?.map fun e => scope.askedIds e.code).getD []) ⊆ ids) :
    k ∈ ids := by
  induction h with
  | refl => exact hi
  | @tail a b _ hab ih =>
    obtain ⟨e, he, hb⟩ := hab
    refine hids (List.mem_flatMap.2 ⟨a, ih, ?_⟩)
    rw [he]
    exact hb

/-! ### Two sessions side by side -/

/-- Two sessions that have made the same number of runs and have alike entries for the ids of
`near`. The first one goes back to `es`. -/
structure Session.Together (es : Entries) (near : UInt32 → Prop) (s t : Session) : Prop where
  later : es.Later s.entries
  runs : t.runs = s.runs
  alike {k : UInt32} : near k → Option.Rel Entry.Alike s.entries[k]? t.entries[k]?

/-- The run of the script has ended, be it with a value or with a fault. -/
def Session.ended (id : UInt32) (result : Except Error Int32) (s : Session) : Session :=
  match result with
  | .ok value => s.finish id value
  | .error _ => s

namespace Session.Together

variable {es : Entries} {near : UInt32 → Prop} {s t s₁ t₁ : Session} {id : UInt32} {e : Entry}

theorem absent (h : Together es near s t) (hid : near id) (he : s.entries[id]? = none) :
    t.entries[id]? = none := by
  have hid := h.alike hid
  rw [he] at hid
  exact rel_none_left_iff.1 hid

theorem exists_alike (h : Together es near s t) (hid : near id) (he : s.entries[id]? = some e) :
    ∃ e', t.entries[id]? = some e' ∧ e.Alike e' := by
  have hid := h.alike hid
  rw [he] at hid
  exact rel_some_left_iff.1 hid

theorem alike_modify (h : Together es near s t) {k : UInt32} (hk : near k) (id : UInt32)
    (p : Progress) : Option.Rel Entry.Alike
      (if id = k then s.entries[k]?.map (Entry.withProgress p) else s.entries[k]?)
      (if id = k then t.entries[k]?.map (Entry.withProgress p) else t.entries[k]?) := by
  split
  · cases he : s.entries[k]? with
    | none =>
      rw [h.absent hk he]
      exact .none
    | some e =>
      obtain ⟨e', he', halike⟩ := h.exists_alike hk he
      rw [he']
      exact .some (halike.withProgress p)
  · exact h.alike hk

theorem start (h : Together es near s t) (he : s.entries[id]? = some e)
    (hp : e.progress = .unevaluated) : Together es near (s.start id) (t.start id) where
  later := h.later.trans (later_start he hp).entries
  runs := congrArg (· + 1) h.runs
  alike hk := by
    rw [getElem?_start, getElem?_start]
    exact h.alike_modify hk id _

theorem finish (h : Together es near s t) (value : Int32)
    (hlater : es.Later (s.finish id value).entries) :
    Together es near (s.finish id value) (t.finish id value) where
  later := hlater
  runs := h.runs
  alike hk := by
    rw [getElem?_finish, getElem?_finish]
    exact h.alike_modify hk id _

end Session.Together

namespace Evaluation

variable {α β : Type} {scope : Scope} {power : String} {es : Entries} {near : UInt32 → Prop}
  {depth depth' : Nat} {id : UInt32} {s s' : Session}

/-- From sessions that go together the two steps come to one result and leave sessions that go
together; of the ids that are not near, the first step changes no entry. -/
def Local (es : Entries) (near : UInt32 → Prop) (x y : Evaluation α) : Prop :=
  ∀ (s t : Session) (r r' : Except Error α) (s' t' : Session), s.Together es near t →
    x.answer s = some (r, s') → y.answer t = some (r', t') →
    r' = r ∧ s'.Together es near t' ∧ ∀ k : UInt32, ¬ near k → s'.entries[k]? = s.entries[k]?

namespace Local

theorem pure (a : α) : Local es near (pure a) (pure a) := by
  intro s t r r' s' t' hst hs ht
  rw [answer_pure] at hs ht
  cases hs
  cases ht
  exact ⟨rfl, hst, fun _ _ => rfl⟩

theorem throw (fault : Error) : Local (α := α) es near (throw fault) (throw fault) := by
  intro s t r r' s' t' hst hs ht
  rw [answer_throw] at hs ht
  cases hs
  cases ht
  exact ⟨rfl, hst, fun _ _ => rfl⟩

theorem bind {x y : Evaluation α} {f g : α → Evaluation β} (hxy : Local es near x y)
    (hfg : ∀ a, Local es near (f a) (g a)) : Local es near (x >>= f) (y >>= g) := by
  intro s t r r' s' t' hst hs ht
  rw [answer_bind] at hs ht
  obtain ⟨⟨result, s₁⟩, hs₁, hs₂⟩ := Option.bind_eq_some_iff.1 hs
  obtain ⟨⟨result', t₁⟩, ht₁, ht₂⟩ := Option.bind_eq_some_iff.1 ht
  obtain ⟨rfl, hst₁, hframe⟩ := hxy s t _ _ s₁ t₁ hst hs₁ ht₁
  cases result' with
  | error fault =>
    cases hs₂
    cases ht₂
    exact ⟨rfl, hst₁, hframe⟩
  | ok a =>
    obtain ⟨hr, hst', hframe'⟩ := hfg a s₁ t₁ r r' s' t' hst₁ hs₂ ht₂
    exact ⟨hr, hst', fun k hk => (hframe' k hk).trans (hframe k hk)⟩

theorem orElse {x y : Evaluation α} (a : α) (hxy : Local es near x y) :
    Local es near (tryCatch x fun _ => Pure.pure a) (tryCatch y fun _ => Pure.pure a) := by
  intro s t r r' s' t' hst hs ht
  rw [answer_tryCatch] at hs ht
  obtain ⟨⟨result, s₁⟩, hs₁, hs₂⟩ := Option.bind_eq_some_iff.1 hs
  obtain ⟨⟨result', t₁⟩, ht₁, ht₂⟩ := Option.bind_eq_some_iff.1 ht
  obtain ⟨rfl, hst₁, hframe⟩ := hxy s t _ _ s₁ t₁ hst hs₁ ht₁
  cases result' with
  | error fault =>
    have hs₂ : (Pure.pure a : Evaluation α).answer s₁ = some (r, s') := hs₂
    have ht₂ : (Pure.pure a : Evaluation α).answer t₁ = some (r', t') := ht₂
    rw [answer_pure] at hs₂ ht₂
    cases hs₂
    cases ht₂
    exact ⟨rfl, hst₁, hframe⟩
  | ok b =>
    cases hs₂
    cases ht₂
    exact ⟨rfl, hst₁, hframe⟩

theorem respected (es : Entries) (near : UInt32 → Prop) :
    Bytecode.Respected fun α (x y : Evaluation α) => Local es near x y where
  pure := .pure
  throw := .throw
  bind := .bind
  orElse := .orElse

end Local

/-- An answer for a script that has not been evaluated comes from a run of it. -/
theorem exists_run_of_unevaluated {e : Entry} {r : Except Error (Option Int32)}
    (he : s.entries[id]? = some e) (hp : e.progress = .unevaluated)
    (h : (valueWithin scope power depth id).answer s = some (r, s')) :
    ∃ d result s₁, depth = d + 1 ∧
      answer (scope.runCode (valueWithin scope power d) e.code) (s.start id) = some (result, s₁) ∧
      r = result.map some ∧ s' = s₁.ended id result := by
  cases depth with
  | zero =>
    rw [answer_valueWithin_zero he hp] at h
    cases h
  | succ d =>
    rw [answer_valueWithin_succ he hp] at h
    obtain ⟨⟨result, s₁⟩, hrun, heq⟩ := Option.map_eq_some_iff.1 h
    refine ⟨d, result, s₁, rfl, hrun, ?_⟩
    cases result <;> cases heq <;> exact ⟨rfl, rfl⟩

theorem getElem?_start_of_not_near {k : UInt32} (hid : near id) (hk : ¬ near k) (s : Session) :
    (s.start id).entries[k]? = s.entries[k]? := by
  rw [Session.getElem?_start, if_neg]
  rintro rfl
  exact hk hid

theorem getElem?_finish_of_not_near {k : UInt32} (hid : near id) (hk : ¬ near k) (value : Int32)
    (s : Session) : (s.finish id value).entries[k]? = s.entries[k]? := by
  rw [Session.getElem?_finish, if_neg]
  rintro rfl
  exact hk hid

/-- Runs of one program that go together are kept in the same way when they end. -/
theorem local_of_runs {t s₁ t₁ : Session} {e : Entry} {d d' : Nat}
    {result result' : Except Error Int32}
    (hst : s.Together es near t) (hid : near id) (he : s.entries[id]? = some e)
    (hp : e.progress = .unevaluated)
    (hcode : Local es near (scope.runCode (valueWithin scope power d) e.code)
      (scope.runCode (valueWithin scope power d') e.code))
    (hs : answer (scope.runCode (valueWithin scope power d) e.code) (s.start id) =
      some (result, s₁))
    (ht : answer (scope.runCode (valueWithin scope power d') e.code) (t.start id) =
      some (result', t₁)) :
    result' = result ∧ (s₁.ended id result).Together es near (t₁.ended id result) ∧
      ∀ k : UInt32, ¬ near k → (s₁.ended id result).entries[k]? = s.entries[k]? := by
  obtain ⟨rfl, hst₁, hframe⟩ := hcode _ _ _ _ _ _ (hst.start he hp) hs ht
  have hframe₁ : ∀ k : UInt32, ¬ near k → s₁.entries[k]? = s.entries[k]? := by
    intro k hk
    rw [hframe k hk, getElem?_start_of_not_near hid hk]
  cases result' with
  | error fault => exact ⟨rfl, hst₁, hframe₁⟩
  | ok value =>
    obtain ⟨hlater, -⟩ := inProgress_of_run he hp hs
    have hall := hst.later.trans (Session.later_finish he hp hlater value).entries
    refine ⟨rfl, hst₁.finish value hall, fun k hk => ?_⟩
    exact (getElem?_finish_of_not_near hid hk value s₁).trans (hframe₁ k hk)

/-- Whatever the bounds of the two evaluations are, one goes as the other, as long as what is near
refers only to what is near. -/
theorem local_valueWithin (hnear : ∀ a b, near a → es.Refers scope a b → near b)
    (hid : near id) : Local es near (valueWithin scope power depth id)
      (valueWithin scope power depth' id) := by
  induction depth using Nat.strongRecOn generalizing depth' id with
  | ind depth ih =>
    intro s t r r' s' t' hst hs ht
    cases he : s.entries[id]? with
    | none =>
      rw [answer_valueWithin_of_absent he] at hs
      rw [answer_valueWithin_of_absent (hst.absent hid he)] at ht
      cases hs
      cases ht
      exact ⟨rfl, hst, fun _ _ => rfl⟩
    | some e =>
      obtain ⟨e', he', halike⟩ := hst.exists_alike hid he
      have hp' := halike.progress
      cases hp : e.progress with
      | done value =>
        rw [answer_valueWithin_of_done he hp] at hs
        rw [answer_valueWithin_of_done he' (hp'.trans hp)] at ht
        cases hs
        cases ht
        exact ⟨rfl, hst, fun _ _ => rfl⟩
      | inProgress =>
        rw [answer_valueWithin_of_inProgress he hp] at hs
        rw [answer_valueWithin_of_inProgress he' (hp'.trans hp)] at ht
        cases hs
        cases ht
        exact ⟨rfl, hst, fun _ _ => rfl⟩
      | unevaluated =>
        obtain ⟨d, result, s₁, rfl, hrun, rfl, rfl⟩ := exists_run_of_unevaluated he hp hs
        obtain ⟨d', result', t₁, rfl, hrun', rfl, rfl⟩ :=
          exists_run_of_unevaluated he' (hp'.trans hp) ht
        rw [halike.code] at hrun'
        -- the program is that of the start, and what it asks for is near again
        have hes := hst.later.eq_of_unevaluated he hp
        have hasked : ∀ b ∈ scope.askedIds e.code,
            Local es near (valueWithin scope power d b) (valueWithin scope power d' b) :=
          fun b hb => ih d (Nat.lt_succ_self d) (hnear id b hid ⟨e, hes, hb⟩)
        have hcode := scope.related_runCode (Local.respected es near) e.code hasked
        obtain ⟨rfl, hended⟩ := local_of_runs hst hid he hp hcode hrun hrun'
        exact ⟨rfl, hended⟩

end Evaluation

namespace Power

/-- Two powers that agree on what the id refers to come to the same. -/
theorem local_evaluateId (scope : Scope) {p p' : Power} (i : UInt32) (hname : p'.name = p.name)
    (halike : ∀ k, p.entries.Closure scope i k →
      Option.Rel Entry.Alike p.entries[k]? p'.entries[k]?) :
    (p'.evaluateId scope i).result = (p.evaluateId scope i).result ∧
    (p'.evaluateId scope i).runs = (p.evaluateId scope i).runs ∧
    (∀ k, p.entries.Closure scope i k → Option.Rel Entry.Alike
      (p.evaluateId scope i).power.entries[k]? (p'.evaluateId scope i).power.entries[k]?) ∧
    ∀ k, ¬ p.entries.Closure scope i k →
      (p.evaluateId scope i).power.entries[k]? = p.entries[k]? := by
  obtain ⟨r, s', hs', ho⟩ := exists_answer_evaluateId scope p i
  obtain ⟨r', t', ht', ho'⟩ := exists_answer_evaluateId scope p' i
  rw [hname] at ht'
  have htogether : p.session.Together p.entries (p.entries.Closure scope i) p'.session :=
    ⟨.refl p.entries, rfl, fun hk => halike _ hk⟩
  have hlocal : Evaluation.Local p.entries (p.entries.Closure scope i)
      (Evaluation.valueWithin scope p.name p.session.pending i)
      (Evaluation.valueWithin scope p.name p'.session.pending i) :=
    Evaluation.local_valueWithin (fun _ _ ha hab => ha.tail hab) .refl
  obtain ⟨hresult, hst, hframe⟩ := hlocal _ _ _ _ _ _ htogether hs' ht'
  rw [ho, ho']
  exact ⟨hresult, hst.runs, fun _ hk => hst.alike hk, hframe⟩

/-- A request changes no entry but those that its tag refers to, directly or by way of others. Of a
power of the same name that agrees on these, whatever else it holds, the request gets the same
result with the same number of runs, and it leaves them as it does in the first power. -/
theorem serve_depends_on_references (c : Catalog) (names : List String) (p : Power) (q : Request)
    (i : UInt32) (hi : q.query.target c = some i) :
    let near := p.entries.Closure ⟨c, names, q.attributes⟩ i
    let o := q.serve c names p
    (∀ k, ¬ near k → o.power.entries[k]? = p.entries[k]?) ∧
    ∀ p' : Power, p'.name = p.name →
      (∀ k, near k → Option.Rel Entry.Alike p.entries[k]? p'.entries[k]?) →
      let o' := q.serve c names p'
      o'.result = o.result ∧ o'.runs = o.runs ∧
        ∀ k, near k → Option.Rel Entry.Alike o.power.entries[k]? o'.power.entries[k]? := by
  intro near o
  have hserve : ∀ p : Power, q.serve c names p = _ :=
    fun p => Query.serve_of_target ⟨c, names, q.attributes⟩ p hi
  constructor
  · have hsame : ∀ k, near k → Option.Rel Entry.Alike p.entries[k]? p.entries[k]? := by
      intro k _
      cases p.entries[k]? with
      | none => exact .none
      | some e => exact .some (.refl e)
    rw [show o = _ from hserve p]
    exact (local_evaluateId _ i rfl hsame).2.2.2
  · intro p' hname halike o'
    obtain ⟨hresult, hruns, hstates, -⟩ := local_evaluateId _ i hname halike
    rw [show o = _ from hserve p, show o' = _ from hserve p']
    exact ⟨congrArg (Except.map q.query.shown) hresult, hruns, hstates⟩

/-- "Damage" is "Base" and five more. What the tags 3 and 4 hold makes no difference to it, and
neither do comments. -/
theorem damage_rests_on_base :
    let c := (Catalog.empty.rename 1 ⟨"Damage", "D"⟩).rename 2 ⟨"Base", "B"⟩
    let damage (comment : String) : Entry := .script ⟨[3, 0, 1, 5, 4], ""⟩ comment .unevaluated
    let base : Entry := .ofScript ⟨[1, 3], ""⟩
    let p : Power := ⟨"Fists", 4, .ofList
      [((1 : UInt32), damage ""), (2, base), (3, .constant 9)]⟩
    let p' : Power := ⟨"Fists", 5, .ofList
      [((1 : UInt32), damage "low"), (2, base), (3, .ofScript ⟨[8], ""⟩), (4, .constant 1)]⟩
    let q : Request := ⟨∅, .byName "Damage"⟩
    let o := q.serve c ["Base"] p
    let o' := q.serve c ["Base"] p'
    o.result = .ok (some 8) ∧ o'.result = .ok (some 8) ∧ o'.runs = o.runs ∧
      Option.Rel Entry.Alike o.power.entries[(2 : UInt32)]? o'.power.entries[(2 : UInt32)]? ∧
      o.power.entries[(3 : UInt32)]? = p.entries[(3 : UInt32)]? := by
  intro c damage base p p' q o o'
  have hclosure : ∀ k, p.entries.Closure ⟨c, ["Base"], ∅⟩ 1 k → k ∈ [(1 : UInt32), 2] :=
    fun k hk => hk.mem (by decide) (by decide +kernel)
  have hnear : ∀ k, p.entries.Closure ⟨c, ["Base"], ∅⟩ 1 k →
      Option.Rel Entry.Alike p.entries[k]? p'.entries[k]? := by
    intro k hk
    have hone : p.entries[(1 : UInt32)]? = some (damage "") ∧
        p'.entries[(1 : UInt32)]? = some (damage "low") := by decide +kernel
    have htwo : p.entries[(2 : UInt32)]? = some base ∧
        p'.entries[(2 : UInt32)]? = some base := by decide +kernel
    rcases List.mem_pair.1 (hclosure k hk) with rfl | rfl
    · rw [hone.1, hone.2]
      exact .some ⟨rfl, rfl⟩
    · rw [htwo.1, htwo.2]
      exact .some (.refl base)
  have hi : q.query.target c = some 1 := by decide +kernel
  have hbase : p.entries.Refers ⟨c, ["Base"], ∅⟩ 1 2 :=
    ⟨damage "", by decide +kernel, by decide +kernel⟩
  have hresult : o.result = .ok (some 8) := by decide +kernel
  obtain ⟨hframe, hsame⟩ := serve_depends_on_references c ["Base"] p q 1 hi
  obtain ⟨hresult', hruns, hstates⟩ := hsame p' rfl hnear
  exact ⟨hresult, hresult'.trans hresult, hruns, hstates 2 (.single hbase),
    hframe 3 fun h => absurd (hclosure 3 h) (by decide)⟩

end Power

end PowerFormulas
