import PowerFormulas.Proofs.Registry.Reachability
import PowerFormulas.Proofs.Registry.Runs
import PowerFormulas.Proofs.Registry.Tables

/-!
# Names and ids that have been found

A name that has led to a power leads to this power for good, and an id that has led to a power is
never loaded for again, whatever powers and aliases come in between (`found_stays_found`). For a
name becomes an alias only while it leads to no kept power, and an id is only ever given to a kept
one.

What an evaluation has made of the power that it found is what is found next
(`evaluation_is_kept`).
-/

namespace PowerFormulas.Registry

variable {l : Library} {r r' : Registry} {name key : String} {p : Power} {id : UInt32}
  {answer : Except Malformed (Option Power)}

/-! ### Names -/

theorem canonical_linked (h : r.aliases[name]? = none) :
    (r.linked name key).canonical name = key := by
  by_cases hkey : key = name
  · have halias : (r.linked name key).aliases[name]? = none := by
      rw [getElem?_aliases_linked, if_neg fun hnew => hnew.2 hkey]
      exact h
    rw [canonical_eq_self halias, hkey]
  · have halias : (r.linked name key).aliases[name]? = some key := by
      rw [getElem?_aliases_linked, if_pos ⟨rfl, hkey⟩]
    exact canonical_eq_of_alias halias

/-- The power that a lookup finds is kept under its own name, and there the name leads from then. -/
theorem Got.leads (hr : Consistent r) (h : Got l name r (.ok (some p)) r') :
    r'.canonical name = p.name ∧ r'.powers[p.name]? = some p := by
  cases h with
  | cached hpower =>
    have hname := hr.kept_name hpower
    refine ⟨hname.symm, ?_⟩
    rw [hname]
    exact hpower
  | known hmiss hdecode hlive =>
    have hname := hr.kept_name hlive
    refine ⟨?_, ?_⟩
    · rw [canonical_linked (r := r.loaded) (hr.of_miss hmiss).1, hname]
    · rw [powers_linked, hname]
      exact hlive
  | decoded hmiss hdecode hnew =>
    refine ⟨canonical_linked (hr.of_miss hmiss).1, ?_⟩
    rw [powers_linked, getElem?_powers_added, if_pos rfl]

theorem aliases_step (h : r.isCached name = true) (hstep : Step l r r') :
    r'.aliases[name]? = r.aliases[name]? := by
  -- only a name that needs loading can become an alias
  have hlinked : ∀ {r₀ : Registry} {n key : String}, r₀.aliases = r.aliases →
      r.powers[r.canonical n]? = none → (r₀.linked n key).aliases[name]? = r.aliases[name]? := by
    intro r₀ n key hsame hmiss
    have hne : n ≠ name := by
      intro heq
      rw [heq] at hmiss
      rw [isCached_eq_false_of_miss hmiss] at h
      cases h
    rw [getElem?_aliases_linked, if_neg fun hnew => hne hnew.1, hsame]
  cases hstep with
  | got hgot =>
    cases hgot with
    | cached | missing | failed => rfl
    | known hmiss | decoded hmiss => exact hlinked rfl hmiss
  | served => rfl

theorem canonical_step (h : r.isCached name = true) (hstep : Step l r r') :
    r'.canonical name = r.canonical name := by
  rw [canonical, canonical, Std.ExtTreeMap.getD_eq_getD_getElem?,
    Std.ExtTreeMap.getD_eq_getD_getElem?, aliases_step h hstep]

theorem isCached_step (hr : Consistent r) (h : r.isCached name = true) (hstep : Step l r r') :
    r'.isCached name = true := by
  obtain ⟨p, hp⟩ := isCached_iff.1 h
  obtain ⟨p', hp', -⟩ := later_step hr hp hstep
  rw [← canonical_step h hstep] at hp'
  exact isCached_of_powers hp'

/-- A cached name leads to the same place after everything that is asked later. -/
theorem leads_after (hr : Consistent r) (h : r.isCached name = true) (ops : List Operation) :
    (r.after l ops).isCached name = true ∧ (r.after l ops).canonical name = r.canonical name := by
  have hall := (reaches_after l ops r).keeps
    (P := fun r' => Consistent r' ∧ r'.isCached name = true ∧ r'.canonical name = r.canonical name)
    (fun ⟨hr', h', hsame⟩ hstep =>
      ⟨hr'.step hstep, isCached_step hr' h' hstep, (canonical_step h' hstep).trans hsame⟩)
    ⟨hr, h, rfl⟩
  exact hall.2

theorem get_after_of_found (hr : Consistent r) (h : (r.get l name).1 = .ok (some p))
    (ops : List Operation) :
    let now := (r.get l name).2.after l ops
    ∃ p', now.get l name = (.ok (some p'), now) ∧ now.powers[p.name]? = some p' ∧ p.Later p' := by
  intro now
  have hgot := got_get l name r
  rw [h] at hgot
  obtain ⟨hleads, hkept⟩ := hgot.leads hr
  have hfound : Consistent (r.get l name).2 := hr.step (.got hgot)
  obtain ⟨p', hp', hlater⟩ := later_after (l := l) hfound hkept ops
  have hcached : (r.get l name).2.isCached name = true := by
    rw [← hleads] at hkept
    exact isCached_of_powers hkept
  have hnow : now.canonical name = p.name := (leads_after hfound hcached ops).2.trans hleads
  have hpower : now.powers[now.canonical name]? = some p' := by
    rw [hnow]
    exact hp'
  exact ⟨p', (Got.cached hpower).eq_get, hp', hlater⟩

/-! ### Ids -/

/-- The name by which the power of an id is looked up is cached. -/
def AnswersId (l : Library) (id : UInt32) (r : Registry) : Prop :=
  ∃ name : String, r.nameById[id]?.or (l.source.nameOf id) = some name ∧ r.isCached name = true

theorem AnswersId.getById_eq (h : AnswersId l id r) :
    ∃ p, r.getById l id = (.ok (some p), r) := by
  obtain ⟨name, hname, hcached⟩ := h
  rw [getById_of_name hname]
  exact get_of_cached l hcached

/-- An id that is known leads to a kept power, so only the name that the source gives is in doubt. -/
theorem answersId_of_unknown (hr : Consistent r) (h : r.nameById[id]? = none →
    ∃ name, l.source.nameOf id = some name ∧ r.isCached name = true) : AnswersId l id r := by
  cases hid : r.nameById[id]? with
  | none =>
    obtain ⟨name, hname, hcached⟩ := h hid
    refine ⟨name, ?_, hcached⟩
    rw [hid]
    exact hname
  | some key =>
    obtain ⟨p, hp, -⟩ := hr.id_leads hid
    refine ⟨key, ?_, hr.isCached_of_kept hp⟩
    rw [hid]
    rfl

theorem nameById_eq_none_of_step (hstep : Step l r r') (h : r'.nameById[id]? = none) :
    r.nameById[id]? = none := by
  cases hstep with
  | got hgot =>
    cases hgot with
    | cached | missing | failed => exact h
    | known =>
      rw [nameById_linked] at h
      exact h
    | decoded =>
      rw [nameById_linked, getElem?_nameById_added] at h
      split at h
      · cases h
      · exact h
  | served => exact h

theorem AnswersId.step (hr : Consistent r) (h : AnswersId l id r) (hstep : Step l r r') :
    AnswersId l id r' := by
  apply answersId_of_unknown (hr.step hstep)
  intro hid
  obtain ⟨name, hname, hcached⟩ := h
  rw [nameById_eq_none_of_step hstep hid] at hname
  exact ⟨name, hname, isCached_step hr hcached hstep⟩

theorem answersId_of_found (hr : Consistent r) (h : (r.getById l id).1 = .ok (some p)) :
    AnswersId l id (r.getById l id).2 := by
  cases hname : r.nameById[id]?.or (l.source.nameOf id) with
  | none =>
    rw [getById_of_no_name hname] at h
    cases h
  | some name =>
    rw [getById_of_name hname] at h ⊢
    have hgot := got_get l name r
    rw [h] at hgot
    have hstep : Step l r (r.get l name).2 := .got hgot
    obtain ⟨hleads, hkept⟩ := hgot.leads hr
    apply answersId_of_unknown (hr.step hstep)
    intro hid
    rw [nameById_eq_none_of_step hstep hid] at hname
    rw [← hleads] at hkept
    exact ⟨name, hname, isCached_of_powers hkept⟩

theorem getById_after_of_found (hr : Consistent r) (h : (r.getById l id).1 = .ok (some p))
    (ops : List Operation) :
    let now := (r.getById l id).2.after l ops
    ∃ p', now.getById l id = (.ok (some p'), now) := by
  intro now
  have hfound : Consistent (r.getById l id).2 := (reaches_getById l id r).keeps Consistent.step hr
  have hall := (reaches_after l ops (r.getById l id).2).keeps
    (P := fun r' => Consistent r' ∧ AnswersId l id r')
    (fun ⟨hr', h'⟩ hstep => ⟨hr'.step hstep, h'.step hr' hstep⟩)
    ⟨hfound, answersId_of_found hr h⟩
  exact hall.2.getById_eq

/-! ### Evaluations -/

/-- Two registries that differ in one kept power at most, and in their counts. -/
structure SameBut (key? : Option String) (r r' : Registry) : Prop where
  nameById : r'.nameById = r.nameById
  aliases : r'.aliases = r.aliases
  powers (key : String) : key? ≠ some key → r'.powers[key]? = r.powers[key]?

/-- The name of the power that a lookup has found. -/
def foundName (answer : Except Malformed (Option Power)) : Option String :=
  match answer with
  | .ok (some p) => some p.name
  | _ => none

theorem sameBut_serveFound (l : Library) (q : Request)
    (found : Except Malformed (Option Power) × Registry) :
    SameBut (foundName found.1) found.2 (serveFound l q found).2 := by
  obtain ⟨answer, r⟩ := found
  have hsame : SameBut (foundName answer) r r := ⟨rfl, rfl, fun _ _ => rfl⟩
  rcases answer with fault | p?
  · exact hsame
  · cases p? with
    | none => exact hsame
    | some p =>
      have hname : (q.serve l.catalog l.names p).power.name = p.name :=
        (Query.later_serve _ p q.query).name
      refine ⟨rfl, rfl, ?_⟩
      intro key hkey
      have hne : p.name ≠ key := fun heq => hkey (congrArg some heq)
      show (r.keep (q.serve l.catalog l.names p)).powers[key]? = r.powers[key]?
      rw [getElem?_powers_keep, hname, if_neg hne]

/-- The power that has been served is kept in the place of the one that was found. -/
theorem serveFound_of_found (l : Library) (q : Request)
    {found : Except Malformed (Option Power) × Registry} (h : found.1 = .ok (some p)) :
    let o := q.serve l.catalog l.names p
    (serveFound l q found).1 = o.result.map some ∧
      (serveFound l q found).2.powers[p.name]? = some o.power ∧
      (serveFound l q found).2.runs = found.2.runs + o.runs := by
  obtain ⟨_, r⟩ := found
  cases h
  intro o
  have hname : o.power.name = p.name := (Query.later_serve _ p q.query).name
  refine ⟨rfl, ?_, rfl⟩
  change (r.keep o).powers[p.name]? = some o.power
  rw [getElem?_powers_keep, if_pos hname]

/-- An evaluation answers as the power that its lookup finds. It keeps this power as it has left it,
with as many runs counted as it took, and there the name leads from then. -/
theorem evaluation_is_kept (l : Library) (ops : List Operation) (q : Request) :
    let r := empty.after l ops
    (∀ (name : String) (p : Power), (r.get l name).1 = .ok (some p) →
      let o := q.serve l.catalog l.names p
      let now := r.perform l (.evaluate name q)
      (serveFound l q (r.get l name)).1 = o.result.map some ∧
      now.powers[p.name]? = some o.power ∧ now.runs = r.runs + o.runs ∧
      now.get l name = (.ok (some o.power), now)) ∧
    ∀ (id : UInt32) (p : Power), (r.getById l id).1 = .ok (some p) →
      let o := q.serve l.catalog l.names p
      let now := r.perform l (.evaluateById id q)
      (serveFound l q (r.getById l id)).1 = o.result.map some ∧
      now.powers[p.name]? = some o.power ∧ now.runs = r.runs + o.runs := by
  intro r
  have hr : Consistent r := consistent_after l ops
  constructor
  · intro name p hp o now
    obtain ⟨hresult, hkept, hruns⟩ := serveFound_of_found l q hp
    refine ⟨hresult, hkept, ?_, ?_⟩
    · rw [← (spares_get l name r).runs]
      exact hruns
    · have hgot := got_get l name r
      rw [hp] at hgot
      have hsame : now.aliases = (r.get l name).2.aliases :=
        (sameBut_serveFound l q (r.get l name)).aliases
      have hleads : now.canonical name = p.name := by
        rw [canonical, hsame]
        exact (hgot.leads hr).1
      have hkept : now.powers[now.canonical name]? = some o.power := hleads ▸ hkept
      exact (Got.cached hkept).eq_get
  · intro id p hp o now
    obtain ⟨hresult, hkept, hruns⟩ := serveFound_of_found l q hp
    refine ⟨hresult, hkept, ?_⟩
    rw [← (spares_getById l id r).runs]
    exact hruns

/-! ### Main statement -/

/-- Over any source and after whatever has been asked: the power that a name has led to is kept under
its own name, and after whatever is asked later the name leads to the same power, as far as it has
come, with nothing loaded. An id that has led to a power leads to one without loading ever after.
Lookups leave the kept powers as they are, and an evaluation changes only the power that it is made
on. -/
theorem found_stays_found (l : Library) (ops : List Operation) :
    let r := empty.after l ops
    (∀ (name : String) (p : Power), (r.get l name).1 = .ok (some p) →
      (r.get l name).2.powers[p.name]? = some p ∧
      ∀ later : List Operation,
        let now := (r.get l name).2.after l later
        ∃ p', now.get l name = (.ok (some p'), now) ∧ now.powers[p.name]? = some p' ∧
          p.Later p') ∧
    (∀ (id : UInt32) (p : Power), (r.getById l id).1 = .ok (some p) →
      ∀ later : List Operation,
        let now := (r.getById l id).2.after l later
        ∃ p', now.getById l id = (.ok (some p'), now)) ∧
    (∀ op : Operation, op.isLookup = true → ∀ (key : String) (p : Power),
      r.powers[key]? = some p → (r.perform l op).powers[key]? = some p) ∧
    (∀ (name : String) (q : Request),
      SameBut (foundName (r.get l name).1) (r.get l name).2 (r.perform l (.evaluate name q))) ∧
    ∀ (id : UInt32) (q : Request), SameBut (foundName (r.getById l id).1) (r.getById l id).2
      (r.perform l (.evaluateById id q)) := by
  intro r
  have hr : Consistent r := consistent_after l ops
  refine ⟨?_, ?_, ?_, ?_, ?_⟩
  · intro name p hp
    have hgot := got_get l name r
    rw [hp] at hgot
    exact ⟨(hgot.leads hr).2, get_after_of_found hr hp⟩
  · intro id p hp
    exact getById_after_of_found hr hp
  · intro op hop key p hp
    exact (spares_perform hop r).powers hp
  · intro name q
    exact sameBut_serveFound l q (r.get l name)
  · intro id q
    exact sameBut_serveFound l q (r.getById l id)

/-- "Jab" leads to "Hook". It still does, with nothing loaded, when the power that is named "Jab"
has come in under another name and its id has been asked for; and the script that "Hook" has run
meanwhile is found done. -/
theorem jab_leads_to_hook_for_good :
    let map : List UInt32 := [1, 4, 1, 0, 0, 0, 0, 0, 0, 0, 8, 1, 7]
    let jab : Record := ⟨"Jab", 5, List.replicate 0xB0 0, 0, []⟩
    let hook : Record := ⟨"Hook", 6, List.replicate 8 0 ++ [0xB0, 52].flatMap Bytes.ofWord ++
      List.replicate 0xA0 0 ++ map.flatMap Bytes.ofWord, 0, []⟩
    let store := RecordStore.ofList [jab, hook]
    let l : Library := ⟨store.toSource.withAliases (.ofList [("Jab", "Hook"), ("Left Jab", "Jab")]),
      Catalog.empty, []⟩
    let later : List Operation :=
      [.get "Left Jab", .evaluate "Jab" ⟨∅, .byId 1⟩, .getById 5]
    let power (progress : Progress) : Power :=
      ⟨"Hook", 6, .ofList [((1 : UInt32), Entry.script ⟨[1, 7], ""⟩ "" progress)]⟩
    let now := (empty.get l "Jab").2.after l later
    (empty.get l "Jab").1 = .ok (some (power .unevaluated)) ∧
      now.powers["Jab"]? = some ⟨"Jab", 5, ∅⟩ ∧
      now.get l "Jab" = (.ok (some (power (.done 7))), now) ∧
      (power .unevaluated).Later (power (.done 7)) := by
  intro map jab hook store l later power now
  have hfound : (empty.get l "Jab").1 = .ok (some (power .unevaluated)) := by decide +kernel
  have hhook : now.powers["Hook"]? = some (power (.done 7)) := by decide +kernel
  obtain ⟨p, hp, hkept, hlater⟩ := ((found_stays_found l []).1 "Jab" _ hfound).2 later
  cases hkept.symm.trans hhook
  exact ⟨hfound, by decide +kernel, hp, hlater⟩

end PowerFormulas.Registry
