import Mathlib.Control.Monad.Basic
import PowerFormulas.Proofs.Registry.Invariants

/-!
# Which kept powers answer to their own name and id

Aliases come before the names of kept powers. So a kept power is out of reach as soon as its own name
has become an alias, and this takes a source in which a name leads to a record whose own name leads
to another one (`Library.Shadows`). Over any other source every kept power is found under its name
and under its id, whatever is asked in whatever order (`kept_answer_iff_not_shadows`).
-/

namespace PowerFormulas

/-- A name leads to a record of another name, and that name to a record of a third one. -/
def Library.Shadows (l : Library) : Prop :=
  ∃ (name : String) (p q : Power), l.decode name = some (.ok p) ∧ p.name ≠ name ∧
    l.decode p.name = some (.ok q) ∧ q.name ≠ p.name ∧ q.name ≠ name

namespace Registry

/-- No alias is the name of a kept power. -/
def Unshadowed (r : Registry) : Prop :=
  ∀ name key : String, r.aliases[name]? = some key → r.powers[name]? = none

variable {l : Library} {r r' : Registry} {name key : String} {p q : Power}

theorem getElem?_aliases_eq_none (h : r.Unshadowed) (hp : r.powers[key]? = some p) :
    r.aliases[key]? = none := by
  cases halias : r.aliases[key]? with
  | none => rfl
  | some k =>
    rw [h key k halias] at hp
    cases hp

theorem canonical_eq_self (h : r.aliases[name]? = none) : r.canonical name = name := by
  rw [canonical, Std.ExtTreeMap.getD_eq_getD_getElem?, h]
  rfl

theorem canonical_eq_of_alias (h : r.aliases[name]? = some key) : r.canonical name = key := by
  rw [canonical, Std.ExtTreeMap.getD_eq_getD_getElem?, h]
  rfl

/-! ### Where no name is shadowed -/

theorem get_eq_of_kept (h : r.Unshadowed) (hp : r.powers[key]? = some p) :
    r.get l key = (.ok (some p), r) := by
  have hcanonical := canonical_eq_self (getElem?_aliases_eq_none h hp)
  apply Got.eq_get
  apply Got.cached
  rw [hcanonical]
  exact hp

theorem Unshadowed.linked (h : r.Unshadowed) (hname : key ≠ name → r.powers[name]? = none) :
    (r.linked name key).Unshadowed := by
  intro n k hk
  rw [powers_linked]
  rw [getElem?_aliases_linked] at hk
  split at hk
  · rename_i hnew
    rw [← hnew.1]
    exact hname hnew.2
  · exact h n k hk

theorem Unshadowed.added (h : r.Unshadowed) (hp : r.aliases[p.name]? = none) :
    (r.added p).Unshadowed := by
  intro n k hk
  rw [aliases_added] at hk
  have hne : p.name ≠ n := by
    rintro rfl
    rw [hp] at hk
    cases hk
  rw [getElem?_powers_added, if_neg hne]
  exact h n k hk

theorem Unshadowed.keep {α : Type} {o : Outcome α} (h : r.Unshadowed)
    (hp : r.powers[o.power.name]? = some p) : (r.keep o).Unshadowed := by
  intro n k hk
  rw [aliases_keep] at hk
  have hnone := h n k hk
  have hne : o.power.name ≠ n := by
    rintro rfl
    rw [hp] at hnone
    cases hnone
  rw [getElem?_powers_keep, if_neg hne]
  exact hnone

/-- The name of a power that is taken in is no alias, unless the source leads on from it. -/
theorem aliases_of_decoded (hl : ¬ l.Shadows) (hr : Consistent r) (hs : Sourced l r)
    (hmiss : r.powers[r.canonical name]? = none) (hp : l.decode name = some (.ok p)) :
    r.aliases[p.name]? = none := by
  obtain ⟨hname, hpower⟩ := hr.of_miss hmiss
  cases halias : r.aliases[p.name]? with
  | none => rfl
  | some key =>
    -- an alias of this name was made when it decoded to a third power
    exfalso
    apply hl
    obtain ⟨q, hq, rfl⟩ := hs.alias_from halias
    obtain ⟨hne, kept, hkept⟩ := hr.alias_leads halias
    refine ⟨name, p, q, hp, ?_, hq, hne.symm, ?_⟩
    · intro heq
      rw [heq, hname] at halias
      cases halias
    · intro heq
      rw [heq, hpower] at hkept
      cases hkept

theorem Unshadowed.step (hl : ¬ l.Shadows) (hr : Consistent r) (hs : Sourced l r)
    (h : r.Unshadowed) (hstep : Step l r r') : r'.Unshadowed := by
  have hloaded : r.loaded.Unshadowed := h
  cases hstep with
  | got hgot =>
    cases hgot with
    | cached => exact h
    | missing => exact hloaded
    | failed => exact hloaded
    | known hmiss _ _ => exact hloaded.linked fun _ => (hr.of_miss hmiss).2
    | decoded hmiss hdecode _ =>
      have halias := aliases_of_decoded hl hr hs hmiss hdecode
      refine Unshadowed.linked (Unshadowed.added hloaded halias) fun hne => ?_
      rw [getElem?_powers_added, if_neg hne]
      exact (hr.of_miss hmiss).2
  | @served _ p q hp =>
    have hname := (Query.later_serve ⟨l.catalog, l.names, q.attributes⟩ p q.query).name
    rw [← hr.kept_name hp, ← hname] at hp
    exact h.keep hp

theorem unshadowed_after (hl : ¬ l.Shadows) (ops : List Operation) :
    (empty.after l ops).Unshadowed := by
  have hall := (reaches_after l ops empty).keeps
    (P := fun r => Consistent r ∧ Sourced l r ∧ r.Unshadowed)
    (fun ⟨hr, hs, h⟩ hstep => ⟨hr.step hstep, hs.step hstep, h.step hl hr hs hstep⟩)
    ⟨.empty, .empty l, fun _ _ h => by simp [empty] at h⟩
  exact hall.2.2

theorem getById_of_cached (hr : Consistent r) (h : r.Unshadowed) {id : UInt32}
    (hid : r.isCachedId id = true) : ∃ p, r.getById l id = (.ok (some p), r) ∧ p.id = id := by
  rw [isCachedId, Std.ExtTreeMap.contains_eq_isSome_getElem?] at hid
  obtain ⟨key, hkey⟩ := Option.isSome_iff_exists.1 hid
  obtain ⟨p, hp, rfl⟩ := hr.id_leads hkey
  refine ⟨p, ?_, rfl⟩
  have hname : r.nameById[p.id]?.or (l.source.nameOf p.id) = some key := by
    rw [hkey]
    rfl
  rw [getById_of_name hname]
  exact get_eq_of_kept h hp

/-! ### Where a name is shadowed -/

/-- First the middle name is asked for and becomes an alias, then the first name brings in the power
of the middle name. -/
theorem shadowed_after (hp : l.decode name = some (.ok p)) (hpname : p.name ≠ name)
    (hq : l.decode p.name = some (.ok q)) (hqp : q.name ≠ p.name) (hqname : q.name ≠ name) :
    let r := empty.after l [.get p.name, .get name]
    r.powers[p.name]? = some p ∧ (r.get l p.name).1 = .ok (some q) := by
  intro r
  -- after the first lookup only the third power is kept, and the middle name is its alias
  let r₁ := (empty.loaded.added q).linked p.name q.name
  have h₁ : empty.get l p.name = (.ok (some q), r₁) := by
    apply Got.eq_get
    exact .decoded (by simp [empty]) hq (by simp [empty])
  have hpowers : ∀ k : String, r₁.powers[k]? = if q.name = k then some q else none := by
    intro k
    rw [powers_linked, getElem?_powers_added]
    simp [empty]
  have haliases : ∀ k : String, r₁.aliases[k]? = if p.name = k then some q.name else none := by
    intro k
    rw [getElem?_aliases_linked]
    simp [empty, hqp]
  -- so the first name needs loading, and the middle power is new
  have h₂ : r₁.get l name = (.ok (some p), (r₁.loaded.added p).linked name p.name) := by
    apply Got.eq_get
    refine .decoded ?_ hp ?_
    · rw [canonical_eq_self (by rw [haliases, if_neg hpname]), hpowers, if_neg hqname]
    · rw [hpowers, if_neg hqp]
  have hr : r = (r₁.loaded.added p).linked name p.name := by
    simp only [r, after, perform, h₁, h₂]
  constructor
  · rw [hr, powers_linked, getElem?_powers_added, if_pos rfl]
  · have halias : r.aliases[p.name]? = some q.name := by
      rw [hr, getElem?_aliases_linked, if_neg (fun h => hpname h.1.symm), aliases_added,
        aliases_loaded, haliases, if_pos rfl]
    have hcached : r.powers[q.name]? = some q := by
      rw [hr, powers_linked, getElem?_powers_added, if_neg hqp.symm, powers_loaded, hpowers,
        if_pos rfl]
    have hgot : Got l p.name r (.ok (some q)) r := by
      apply Got.cached
      rw [canonical_eq_of_alias halias]
      exact hcached
    rw [hgot.eq_get]

/-- Every kept power answers to its own name, and every id that is kept leads to a power of this id,
whatever has been asked before, just if the source shadows no name. -/
theorem kept_answer_iff_not_shadows (l : Library) :
    (∀ ops : List Operation, let r := empty.after l ops
      (∀ (key : String) (p : Power), r.powers[key]? = some p →
        (r.get l p.name).1 = .ok (some p)) ∧
      ∀ id, r.isCachedId id = true → ∃ p, (r.getById l id).1 = .ok (some p) ∧ p.id = id) ↔
    ¬ l.Shadows := by
  constructor
  · rintro hall ⟨name, p, q, hp, hpname, hq, hqp, hqname⟩
    obtain ⟨hkept, hget⟩ := shadowed_after hp hpname hq hqp hqname
    have hown := (hall [.get p.name, .get name]).1 p.name p hkept
    rw [hget] at hown
    cases hown
    exact hqp rfl
  · intro hl ops r
    have hr := consistent_after l ops
    have h := unshadowed_after hl ops
    constructor
    · intro key p hp
      rw [hr.kept_name hp, get_eq_of_kept h hp]
    · intro id hid
      obtain ⟨p, hget, hp⟩ := getById_of_cached (l := l) hr h hid
      refine ⟨p, ?_, hp⟩
      rw [hget]

/-- "Jab" is a record of its own, but whoever asks for "Jab" is led to "Hook". Once both are kept,
neither its name nor its id leads to "Jab". -/
theorem jab_is_out_of_reach :
    let record (name : String) (id : UInt32) : Record := ⟨name, id, List.replicate 0xB0 0, 0, []⟩
    let store := RecordStore.ofList [record "Jab" 5, record "Hook" 6]
    let l : Library := ⟨store.toSource.withAliases (.ofList [("Jab", "Hook"), ("Left Jab", "Jab")]),
      Catalog.empty, []⟩
    let r := empty.after l [.get "Jab", .get "Left Jab"]
    r.powers["Jab"]? = some ⟨"Jab", 5, ∅⟩ ∧ (r.get l "Jab").1 = .ok (some ⟨"Hook", 6, ∅⟩) ∧
      r.isCachedId 5 = true ∧ (r.getById l 5).1 = .ok (some ⟨"Hook", 6, ∅⟩) := by
  intro record store l r
  decide +kernel

end Registry

end PowerFormulas
