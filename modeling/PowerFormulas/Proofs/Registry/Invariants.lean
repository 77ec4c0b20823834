import PowerFormulas.Proofs.Registry.Operations

/-!
# What holds of every registry

The three tables of a registry agree (`consistent_after`), and what stands in them has come from the
source (`sourced_after`): each kept power is a later form of one that some name decodes to, and each
alias leads to the name of the power that it decodes to.
-/

namespace PowerFormulas.Registry

structure Consistent (r : Registry) : Prop where
  kept_name {key : String} {p : Power} : r.powers[key]? = some p → p.name = key
  id_leads {id : UInt32} {key : String} : r.nameById[id]? = some key →
    ∃ p, r.powers[key]? = some p ∧ p.id = id
  kept_id {key : String} {p : Power} : r.powers[key]? = some p →
    ∃ key' : String, r.nameById[p.id]? = some key'
  alias_leads {name key : String} : r.aliases[name]? = some key →
    name ≠ key ∧ ∃ p, r.powers[key]? = some p

/-- What stands in the tables is what names decode to. -/
structure Sourced (l : Library) (r : Registry) : Prop where
  kept_from {key : String} {p : Power} : r.powers[key]? = some p →
    ∃ name p₀, l.decode name = some (.ok p₀) ∧ p₀.Later p
  alias_from {name key : String} : r.aliases[name]? = some key →
    ∃ p₀, l.decode name = some (.ok p₀) ∧ p₀.name = key

variable {l : Library} {r r' : Registry} {name key : String} {p live : Power}

/-! ### The tables agree -/

namespace Consistent

theorem empty : Consistent empty := by
  constructor <;> simp [Registry.empty]

/-- A name that needs loading is neither an alias nor the name of a kept power. -/
theorem of_miss (h : Consistent r) (hmiss : r.powers[r.canonical name]? = none) :
    r.aliases[name]? = none ∧ r.powers[name]? = none := by
  rw [canonical, Std.ExtTreeMap.getD_eq_getD_getElem?] at hmiss
  cases halias : r.aliases[name]? with
  | none =>
    rw [halias] at hmiss
    exact ⟨rfl, hmiss⟩
  | some key =>
    rw [halias] at hmiss
    obtain ⟨-, p, hp⟩ := h.alias_leads halias
    rw [Option.getD_some, hp] at hmiss
    cases hmiss

theorem loaded (h : Consistent r) : Consistent r.loaded := by
  constructor
  · exact h.kept_name
  · exact h.id_leads
  · exact h.kept_id
  · exact h.alias_leads

theorem linked (h : Consistent r) (hp : r.powers[key]? = some p) (name : String) :
    Consistent (r.linked name key) := by
  constructor
  · rw [powers_linked]
    exact h.kept_name
  · rw [powers_linked, nameById_linked]
    exact h.id_leads
  · rw [powers_linked, nameById_linked]
    exact h.kept_id
  · intro n k hk
    rw [powers_linked]
    rw [getElem?_aliases_linked] at hk
    split at hk
    · rename_i hnew
      cases hk
      obtain ⟨rfl, hne⟩ := hnew
      exact ⟨hne.symm, p, hp⟩
    · exact h.alias_leads hk

theorem added (h : Consistent r) (hp : r.powers[p.name]? = none) : Consistent (r.added p) := by
  -- the name is new, so no kept power gives way
  have hold : ∀ {k : String} {q : Power}, r.powers[k]? = some q →
      (r.added p).powers[k]? = some q := by
    intro k q hq
    have hne : p.name ≠ k := by
      rintro rfl
      rw [hp] at hq
      cases hq
    rw [getElem?_powers_added, if_neg hne]
    exact hq
  constructor
  · intro k q hq
    rw [getElem?_powers_added] at hq
    split at hq
    · cases hq
      assumption
    · exact h.kept_name hq
  · intro i k hk
    rw [getElem?_nameById_added] at hk
    split at hk
    · cases hk
      refine ⟨p, ?_, by assumption⟩
      rw [getElem?_powers_added, if_pos rfl]
    · obtain ⟨q, hq, hid⟩ := h.id_leads hk
      exact ⟨q, hold hq, hid⟩
  · intro k q hq
    rw [getElem?_nameById_added]
    split
    · exact ⟨p.name, rfl⟩
    · rename_i hid
      rw [getElem?_powers_added] at hq
      split at hq
      · cases hq
        exact absurd rfl hid
      · exact h.kept_id hq
  · intro n k hk
    obtain ⟨hne, q, hq⟩ := h.alias_leads hk
    exact ⟨hne, q, hold hq⟩

theorem keep {α : Type} {o : Outcome α} (h : Consistent r) (hp : r.powers[key]? = some p)
    (ho : p.Later o.power) : Consistent (r.keep o) := by
  have hname : o.power.name = key := ho.name.trans (h.kept_name hp)
  have hkeys : ∀ {k : String}, (∃ q, r.powers[k]? = some q) →
      ∃ q, (r.keep o).powers[k]? = some q := by
    rintro k ⟨q, hq⟩
    rw [getElem?_powers_keep]
    split
    · exact ⟨_, rfl⟩
    · exact ⟨q, hq⟩
  constructor
  · intro k q hq
    rw [getElem?_powers_keep] at hq
    split at hq
    · cases hq
      assumption
    · exact h.kept_name hq
  · intro i k hk
    obtain ⟨q, hq, hid⟩ := h.id_leads hk
    rw [getElem?_powers_keep]
    split
    · rename_i hk
      rw [← hk, hname, hp] at hq
      cases hq
      exact ⟨_, rfl, ho.id.trans hid⟩
    · exact ⟨q, hq, hid⟩
  · intro k q hq
    rw [getElem?_powers_keep] at hq
    split at hq
    · cases hq
      rw [ho.id]
      exact h.kept_id hp
    · exact h.kept_id hq
  · intro n k hk
    obtain ⟨hne, hkept⟩ := h.alias_leads hk
    exact ⟨hne, hkeys hkept⟩

theorem step (h : Consistent r) (hstep : Step l r r') : Consistent r' := by
  cases hstep with
  | got hgot =>
    cases hgot with
    | cached => exact h
    | missing => exact h.loaded
    | failed => exact h.loaded
    | known _ _ hlive => exact h.loaded.linked hlive _
    | @decoded p _ _ hnew =>
      have hp : (r.loaded.added p).powers[p.name]? = some p := by
        rw [getElem?_powers_added, if_pos rfl]
      exact (h.loaded.added hnew).linked hp _
  | served q hp => exact h.keep hp (Query.later_serve _ _ q.query)

end Consistent

theorem consistent_after (l : Library) (ops : List Operation) : Consistent (empty.after l ops) :=
  (reaches_after l ops empty).keeps Consistent.step .empty

/-! ### What has come from the source -/

namespace Sourced

theorem empty (l : Library) : Sourced l Registry.empty := by
  constructor <;> simp [Registry.empty]

theorem linked (h : Sourced l r) (hp : l.decode name = some (.ok p)) :
    Sourced l (r.linked name p.name) := by
  constructor
  · rw [powers_linked]
    exact h.kept_from
  · intro n k hk
    rw [getElem?_aliases_linked] at hk
    split at hk
    · rename_i hnew
      cases hk
      obtain ⟨rfl, -⟩ := hnew
      exact ⟨p, hp, rfl⟩
    · exact h.alias_from hk

theorem added (h : Sourced l r) (hp : l.decode name = some (.ok p)) : Sourced l (r.added p) := by
  constructor
  · intro k q hq
    rw [getElem?_powers_added] at hq
    split at hq
    · cases hq
      exact ⟨name, p, hp, .refl p⟩
    · exact h.kept_from hq
  · exact h.alias_from

theorem keep {α : Type} {o : Outcome α} (h : Sourced l r) (hp : r.powers[key]? = some p)
    (ho : p.Later o.power) : Sourced l (r.keep o) := by
  constructor
  · intro k q hq
    rw [getElem?_powers_keep] at hq
    split at hq
    · cases hq
      obtain ⟨n, p₀, hn, hlater⟩ := h.kept_from hp
      exact ⟨n, p₀, hn, hlater.trans ho⟩
    · exact h.kept_from hq
  · exact h.alias_from

theorem step (h : Sourced l r) (hstep : Step l r r') : Sourced l r' := by
  have hloaded : Sourced l r.loaded := ⟨h.kept_from, h.alias_from⟩
  cases hstep with
  | got hgot =>
    cases hgot with
    | cached => exact h
    | missing => exact hloaded
    | failed => exact hloaded
    | known _ hdecode _ => exact hloaded.linked hdecode
    | decoded _ hdecode _ => exact (hloaded.added hdecode).linked hdecode
  | served q hp => exact h.keep hp (Query.later_serve _ _ q.query)

end Sourced

theorem sourced_after (l : Library) (ops : List Operation) : Sourced l (empty.after l ops) :=
  (reaches_after l ops empty).keeps Sourced.step (.empty l)

end PowerFormulas.Registry
