import PowerFormulas.Proofs.Registry.Invariants

/-!
# The tables of a registry

Whatever has been asked of a registry, its three tables agree. So whether a request needs loading can
be told beforehand, a known id leads to a kept power, and the number of kept powers only grows
(`tables_agree_after`).
-/

namespace PowerFormulas.Registry

variable {l : Library} {r r' : Registry} {name key : String} {p : Power} {id : UInt32}
  {answer : Except Malformed (Option Power)}

/-! ### Loading -/

@[simp] theorem loads_linked (name key : String) (r : Registry) :
    (r.linked name key).loads = r.loads := by
  unfold linked
  split <;> rfl

theorem isCached_iff : r.isCached name = true ↔ ∃ p, r.powers[r.canonical name]? = some p := by
  rw [isCached, Std.ExtTreeMap.contains_eq_isSome_getElem?, Option.isSome_iff_exists]

theorem isCached_of_powers (h : r.powers[r.canonical name]? = some p) : r.isCached name = true :=
  isCached_iff.2 ⟨p, h⟩

theorem isCached_eq_false_of_miss (h : r.powers[r.canonical name]? = none) :
    r.isCached name = false := by
  rw [isCached, Std.ExtTreeMap.contains_eq_isSome_getElem?, h]
  rfl

theorem get_of_cached (l : Library) (h : r.isCached name = true) :
    ∃ p, r.get l name = (.ok (some p), r) := by
  obtain ⟨p, hp⟩ := isCached_iff.1 h
  exact ⟨p, (Got.cached hp).eq_get⟩

/-- Only what is not cached is loaded, and once. -/
theorem Got.loads_eq (h : Got l name r answer r') :
    r'.loads = if r.isCached name then r.loads else r.loads + 1 := by
  cases h with
  | cached hp => rw [if_pos (isCached_of_powers hp)]
  | missing hmiss | failed hmiss =>
    rw [isCached_eq_false_of_miss hmiss]
    rfl
  | known hmiss | decoded hmiss =>
    rw [isCached_eq_false_of_miss hmiss, loads_linked]
    rfl

theorem isCached_iff_loads_eq (l : Library) (name : String) (r : Registry) :
    r.isCached name = true ↔
      ∃ p, (r.get l name).1 = .ok (some p) ∧ (r.get l name).2.loads = r.loads := by
  constructor
  · intro h
    obtain ⟨p, hget⟩ := get_of_cached l h
    rw [hget]
    exact ⟨p, rfl, rfl⟩
  · intro h
    obtain ⟨p, -, hloads⟩ := h
    rw [(got_get l name r).loads_eq] at hloads
    cases hcached : r.isCached name with
    | true => rfl
    | false =>
      rw [hcached, if_neg Bool.false_ne_true] at hloads
      omega

/-- A kept power's name needs no loading, even where it has become an alias. -/
theorem Consistent.isCached_of_kept (h : Consistent r) (hp : r.powers[key]? = some p) :
    r.isCached key = true := by
  rw [isCached_iff, canonical, Std.ExtTreeMap.getD_eq_getD_getElem?]
  cases halias : r.aliases[key]? with
  | none => exact ⟨p, hp⟩
  | some other => exact (h.alias_leads halias).2

theorem Consistent.getById_of_isCachedId (h : Consistent r) (l : Library)
    (hid : r.isCachedId id = true) : ∃ p, r.getById l id = (.ok (some p), r) := by
  rw [isCachedId, Std.ExtTreeMap.contains_eq_isSome_getElem?] at hid
  obtain ⟨key, hkey⟩ := Option.isSome_iff_exists.1 hid
  obtain ⟨p, hp, -⟩ := h.id_leads hkey
  have hname : r.nameById[id]?.or (l.source.nameOf id) = some key := by
    rw [hkey]
    rfl
  rw [getById_of_name hname]
  exact get_of_cached l (h.isCached_of_kept hp)

/-! ### The number of kept powers -/

theorem size_step (h : Step l r r') : r.size ≤ r'.size := by
  have hlinked : ∀ name key : String, ∀ r : Registry, (r.linked name key).size = r.size := by
    intro name key r
    rw [size, powers_linked, size]
  cases h with
  | got hgot =>
    cases hgot with
    | cached | missing | failed => exact Nat.le_refl _
    | known =>
      rw [hlinked]
      exact Nat.le_refl _
    | decoded =>
      rw [hlinked]
      exact Std.ExtTreeMap.size_le_size_insert
  | served => exact Std.ExtTreeMap.size_le_size_insert

theorem size_le_after (l : Library) (ops : List Operation) (r : Registry) :
    r.size ≤ (r.after l ops).size :=
  (reaches_after l ops r).keeps (P := fun r' => r.size ≤ r'.size)
    (fun h hstep => Nat.le_trans h (size_step hstep)) (Nat.le_refl _)

/-- Powers are kept under their own names, ids and aliases lead to kept powers, and no kept power lacks
its id. So a name is cached just if its power can be had without loading, a known id leads to a power
without loading, and no power is ever given up. -/
theorem tables_agree_after (l : Library) (ops : List Operation) :
    let r := empty.after l ops
    (∀ (key : String) (p : Power), r.powers[key]? = some p → p.name = key) ∧
    (∀ (id : UInt32) (key : String), r.nameById[id]? = some key →
      ∃ p, r.powers[key]? = some p ∧ p.id = id) ∧
    (∀ (key : String) (p : Power), r.powers[key]? = some p → p.id ∈ r.nameById) ∧
    (∀ name key : String, r.aliases[name]? = some key → name ≠ key ∧ key ∈ r.powers) ∧
    (∀ name : String, r.isCached name = true ↔
      ∃ p, (r.get l name).1 = .ok (some p) ∧ (r.get l name).2.loads = r.loads) ∧
    (∀ id : UInt32, r.isCachedId id = true →
      ∃ p, (r.getById l id).1 = .ok (some p) ∧ (r.getById l id).2.loads = r.loads) ∧
    ∀ later : List Operation, r.size ≤ (r.after l later).size := by
  intro r
  have hr : Consistent r := consistent_after l ops
  refine ⟨fun _ _ => hr.kept_name, fun _ _ => hr.id_leads, ?_, ?_, ?_, ?_, ?_⟩
  · intro key p hp
    rw [Std.ExtTreeMap.mem_iff_isSome_getElem?]
    exact Option.isSome_iff_exists.2 (hr.kept_id hp)
  · intro name key halias
    obtain ⟨hne, hkept⟩ := hr.alias_leads halias
    rw [Std.ExtTreeMap.mem_iff_isSome_getElem?]
    exact ⟨hne, Option.isSome_iff_exists.2 hkept⟩
  · intro name
    exact isCached_iff_loads_eq l name r
  · intro id hid
    obtain ⟨p, hget⟩ := hr.getById_of_isCachedId l hid
    rw [hget]
    exact ⟨p, rfl, rfl⟩
  · intro later
    exact size_le_after l later r

end PowerFormulas.Registry
