import Mathlib.Data.Finset.Card
import Mathlib.Data.String.Basic
import PowerFormulas.Catalog
import PowerFormulas.Entry

/-!
# Catalogs that have been loaded

Definitions are taken in by their keys' order, and several keys may denote one id. A catalog that has
been loaded has for each id what the last of its definitions says, and human names and ids belong to
each other in pairs (`load_pairs_last_definitions`): a definition that renames an id frees the name
that the id had, and no other.
-/

namespace PowerFormulas.Catalog

variable {c c' : Catalog} {id : UInt32} {tag : TagDef} {policy : BadIdPolicy}
  {list : List (String × TagDef)}

def Paired (c : Catalog) : Prop :=
  ∀ (name : String) (id : UInt32), c.idFor name = some id ↔ c.nameFor id = some name

/-! ### One definition -/

theorem getElem?_tags_rename (c : Catalog) (id k : UInt32) (tag : TagDef) :
    (c.rename id tag).tags[k]? = if id = k then some tag else c.tags[k]? := by
  simp [rename, Std.ExtTreeMap.getElem?_insert]

theorem nameFor_rename (c : Catalog) (id k : UInt32) (tag : TagDef) :
    (c.rename id tag).nameFor k = if id = k then some tag.name else c.nameFor k := by
  rw [nameFor, getElem?_tags_rename, nameFor]
  split <;> rfl

theorem idFor_rename (c : Catalog) (id : UInt32) (tag : TagDef) (name : String) :
    (c.rename id tag).idFor name =
      if tag.name = name then some id
      else if c.nameFor id = some name then none else c.idFor name := by
  unfold idFor rename
  cases hold : c.nameFor id with
  | none => simp [Std.ExtTreeMap.getElem?_insert]
  | some old => simp [Std.ExtTreeMap.getElem?_insert, Std.ExtTreeMap.getElem?_erase]

theorem paired_empty : Paired empty := by
  intro name id
  simp [idFor, nameFor, empty]

theorem Paired.rename (h : c.Paired) (hfree : ∀ first, c.idFor tag.name = some first → first = id) :
    (c.rename id tag).Paired := by
  intro name k
  rw [idFor_rename, nameFor_rename]
  by_cases hname : tag.name = name
  · subst hname
    by_cases hk : id = k
    · simp [hk]
    · -- no other id has the name, as it would then not be free
      have hother : c.nameFor k ≠ some tag.name := fun hn => hk (hfree k ((h _ _).2 hn)).symm
      simp [hk, hother]
  · by_cases hk : id = k
    · subst hk
      have hold : c.nameFor id ≠ some name → c.idFor name ≠ some id := fun hn hi => hn ((h _ _).1 hi)
      by_cases hn : c.nameFor id = some name
      · simp [hname, hn]
      · simp [hname, hn, hold hn]
    · by_cases hn : c.nameFor id = some name
      · -- the name that is freed belongs to this id alone
        have hother : c.nameFor k ≠ some name := by
          intro hkn
          have hid := (h _ _).2 hn
          rw [(h _ _).2 hkn] at hid
          exact hk (Option.some_inj.1 hid).symm
        simp [hname, hk, hn, hother]
      · simp [hname, hk, hn, h name k]

theorem define_eq_ok_iff : c.define id tag = .ok c' ↔
    (∀ first, c.idFor tag.name = some first → first = id) ∧ c' = c.rename id tag := by
  unfold define
  cases hfirst : c.idFor tag.name with
  | none => simp [eq_comm]
  | some first =>
    by_cases h : first = id
    · simp [h, eq_comm]
    · simp [h]

/-! ### All definitions -/

/-- The ways in which definitions can be taken in without a fault. -/
inductive Defined : Catalog → List (String × TagDef) → Catalog → Prop where
  | nil (c : Catalog) : Defined c [] c
  | renamed {c c' : Catalog} {key : String} {id : UInt32} {tag : TagDef}
      {rest : List (String × TagDef)} : keyId? key = some id →
      (∀ first, c.idFor tag.name = some first → first = id) →
      Defined (c.rename id tag) rest c' → Defined c ((key, tag) :: rest) c'
  | skipped {c c' : Catalog} {key : String} {tag : TagDef} {rest : List (String × TagDef)} :
      keyId? key = none → Defined c rest c' → Defined c ((key, tag) :: rest) c'

theorem defined_of_defineAll (h : c.defineAll policy list = .ok c') : Defined c list c' := by
  induction list generalizing c with
  | nil =>
    cases h
    exact .nil _
  | cons first rest ih =>
    obtain ⟨key, tag⟩ := first
    unfold defineAll at h
    cases hkey : keyId? key with
    | some id =>
      simp only [hkey] at h
      cases hdefine : c.define id tag with
      | error fault =>
        rw [hdefine] at h
        cases h
      | ok c₁ =>
        rw [hdefine] at h
        obtain ⟨hfree, rfl⟩ := define_eq_ok_iff.1 hdefine
        exact .renamed hkey hfree (ih h)
    | none =>
      cases policy with
      | skip =>
        simp only [hkey] at h
        exact .skipped hkey (ih h)
      | abort =>
        simp only [hkey] at h
        cases h

theorem Defined.paired (h : Defined c list c') (hc : c.Paired) : c'.Paired := by
  induction h with
  | nil => exact hc
  | renamed _ hfree _ ih => exact ih (hc.rename hfree)
  | skipped _ _ ih => exact ih hc

def last? (list : List (String × TagDef)) (id : UInt32) : Option TagDef :=
  (list.reverse.find? fun d => keyId? d.1 = some id).map Prod.snd

theorem Defined.getElem?_tags (h : Defined c list c') (id : UInt32) :
    c'.tags[id]? = (last? list id).or c.tags[id]? := by
  induction h with
  | nil => rfl
  | @renamed c c' key k tag rest hkey _ _ ih =>
    rw [ih, getElem?_tags_rename, last?, last?, List.reverse_cons, List.find?_append]
    cases rest.reverse.find? fun d => keyId? d.1 = some id with
    | some d => rfl
    | none => by_cases hk : k = id <;> simp [hkey, hk]
  | @skipped c c' key tag rest hkey _ ih =>
    rw [ih, last?, last?, List.reverse_cons, List.find?_append]
    simp [hkey]

/-! ### Definitions in the order of their keys -/

/-- Of the definitions whose keys denote the id, the one with the greatest key. -/
def IsLast (definitions : TagDefinitions) (id : UInt32) (tag : TagDef) : Prop :=
  ∃ key, definitions[key]? = some tag ∧ keyId? key = some id ∧
    ∀ other ∈ definitions, keyId? other = some id → other ≤ key

variable {definitions : TagDefinitions} {key : String}

theorem mem_definitions_iff : key ∈ definitions ↔ ∃ tag, (key, tag) ∈ definitions.toList := by
  rw [Std.ExtTreeMap.mem_iff_isSome_getElem?, Option.isSome_iff_exists]
  simp only [Std.ExtTreeMap.mem_toList_iff_getElem?_eq_some]

theorem isLast_of_last? (h : last? definitions.toList id = some tag) :
    IsLast definitions id tag := by
  obtain ⟨⟨key, tag⟩, hfound, rfl⟩ := Option.map_eq_some_iff.1 h
  obtain ⟨hkey, behind, before, hlist, hbehind⟩ := List.find?_eq_some_iff_append.1 hfound
  have hmem : ∀ {d : String × TagDef},
      d ∈ definitions.toList ↔ d ∈ behind ++ (key, tag) :: before := by
    intro d
    rw [← hlist, List.mem_reverse]
  refine ⟨key, ?_, of_decide_eq_true hkey, ?_⟩
  · rw [← Std.ExtTreeMap.mem_toList_iff_getElem?_eq_some, hmem]
    exact List.mem_append_right _ List.mem_cons_self
  · intro other hother hid
    obtain ⟨tag', hother⟩ := mem_definitions_iff.1 hother
    rcases List.mem_append.1 (hmem.1 hother) with hlater | hrest
    · -- what comes later does not denote the id
      have hnot := hbehind _ hlater
      simp [hid] at hnot
    · rcases List.mem_cons.1 hrest with heq | hearlier
      · cases heq
        exact String.le_refl _
      · have hsorted : definitions.toList.reverse.Pairwise fun a b => compare b.1 a.1 = .lt :=
          List.pairwise_reverse.2 Std.ExtTreeMap.ordered_keys_toList
        rw [hlist] at hsorted
        have hlt := List.rel_of_pairwise_cons (List.pairwise_append.1 hsorted).2.1 hearlier
        exact le_of_lt (compareOfLessAndEq_eq_lt.1 hlt)

theorem isSome_last?_iff :
    (last? definitions.toList id).isSome ↔ ∃ key ∈ definitions, keyId? key = some id := by
  rw [last?, Option.isSome_map, List.find?_isSome]
  simp only [List.mem_reverse, decide_eq_true_eq, mem_definitions_iff]
  constructor
  · intro h
    obtain ⟨⟨key, tag⟩, hmem, hid⟩ := h
    exact ⟨key, ⟨tag, hmem⟩, hid⟩
  · intro h
    obtain ⟨key, ⟨tag, hmem⟩, hid⟩ := h
    exact ⟨(key, tag), hmem, hid⟩

theorem IsLast.unique {tag' : TagDef} (h : IsLast definitions id tag)
    (h' : IsLast definitions id tag') : tag = tag' := by
  obtain ⟨key, hkey, hid, hlast⟩ := h
  obtain ⟨key', hkey', hid', hlast'⟩ := h'
  obtain ⟨hmem, -⟩ := getElem?_eq_some_iff.1 hkey
  obtain ⟨hmem', -⟩ := getElem?_eq_some_iff.1 hkey'
  obtain rfl := String.le_antisymm (hlast' key hmem hid) (hlast key' hmem' hid')
  rw [hkey] at hkey'
  exact Option.some_inj.1 hkey'

theorem last?_eq_some_iff : last? definitions.toList id = some tag ↔ IsLast definitions id tag := by
  constructor
  · exact isLast_of_last?
  · intro h
    have hlast := h
    obtain ⟨key, hkey, hid, -⟩ := hlast
    obtain ⟨hmem, -⟩ := getElem?_eq_some_iff.1 hkey
    obtain ⟨tag', htag'⟩ := Option.isSome_iff_exists.1 (isSome_last?_iff.2 ⟨key, hmem, hid⟩)
    rw [htag', h.unique (isLast_of_last? htag')]

/-! ### The whole catalog -/

theorem not_blank_of_mem_padDigits {width n : Nat} {char : Char}
    (h : char ∈ Text.padDigits 10 width n) : Text.isBlank char = false := by
  obtain ⟨d, hd, rfl⟩ := Text.exists_digitChar_of_mem_padDigits (by decide) h
  exact (by decide : ∀ d : Fin 10, Text.isBlank (Nat.digitChar d) = false) ⟨d, hd⟩

/-- Leading zeros and blanks at the ends make no other id. -/
theorem keyId?_padDigits {before behind : List Char} (hbefore : ∀ char ∈ before, Text.isBlank char)
    (hbehind : ∀ char ∈ behind, Text.isBlank char) (width : Nat) (id : UInt32) :
    keyId? (String.ofList (before ++ Text.padDigits 10 width id.toNat ++ behind)) = some id := by
  rw [keyId?, String.toList_ofList, Text.trim_append hbefore hbehind (Text.padDigits_ne_nil _ _ _)
    fun _ => not_blank_of_mem_padDigits, Text.readWord_padDigits (by decide) (by decide)]
  rfl

theorem exists_defined_of_load {balance : List BalanceRow}
    (h : load policy definitions balance = .ok c) :
    ∃ c₀, Defined empty definitions.toList c₀ ∧ c = { c₀ with
      defaults := .ofList (balance.map fun row => (row.family, row.parameters)) } := by
  unfold load at h
  cases hdefine : empty.defineAll policy definitions.toList with
  | error fault =>
    rw [hdefine] at h
    cases h
  | ok c₀ =>
    rw [hdefine] at h
    cases h
    exact ⟨c₀, defined_of_defineAll hdefine, rfl⟩

theorem getElem?_tags_of_defined (h : Defined empty definitions.toList c) (id : UInt32) :
    c.tags[id]? = last? definitions.toList id := by
  have hnone : empty.tags[id]? = none := Std.ExtTreeMap.getElem?_empty
  rw [h.getElem?_tags id, hnone, Option.or_none]

theorem size_of_defined (h : Defined empty definitions.toList c) :
    c.size = (definitions.keys.filterMap keyId?).toFinset.card := by
  have hkeys : c.tags.keys.toFinset = (definitions.keys.filterMap keyId?).toFinset := by
    ext id
    rw [List.mem_toFinset, Std.ExtTreeMap.mem_keys, Std.ExtTreeMap.mem_iff_isSome_getElem?,
      getElem?_tags_of_defined h, isSome_last?_iff, List.mem_toFinset, List.mem_filterMap]
    simp only [Std.ExtTreeMap.mem_keys]
  rw [size, ← Std.ExtTreeMap.length_keys, ← hkeys,
    List.toFinset_card_of_nodup Std.ExtTreeMap.nodup_keys]

theorem lookup_map_eq_find? (rows : List BalanceRow) (family : String) :
    (rows.map fun row => (row.family, row.parameters)).lookup family =
      (rows.find? fun row => row.family = family).map BalanceRow.parameters := by
  induction rows with
  | nil => rfl
  | cons row rest ih =>
    rw [List.map_cons, List.lookup_cons, List.find?_cons, ih]
    by_cases h : row.family = family
    · simp [h]
    · have hne : (family == row.family) = false := beq_eq_false_iff_ne.2 (Ne.symm h)
      simp [h, hne]

theorem parametersFor_of_balance {balance : List BalanceRow} (h : c.defaults =
    .ofList (balance.map fun row => (row.family, row.parameters))) (family : String) :
    c.parametersFor family =
      (balance.reverse.find? fun row => row.family = family).map BalanceRow.parameters := by
  rw [parametersFor, h, getElem?_ofList, ← List.map_reverse, lookup_map_eq_find?]

/-- In a loaded catalog human names and ids are paired off. An id has names just if the key of a
definition denotes it, and these are the names of the last such definition; as for formula families,
the last balance row counts. -/
theorem load_pairs_last_definitions (policy : BadIdPolicy) (definitions : TagDefinitions)
    (balance : List BalanceRow) (c : Catalog) (h : load policy definitions balance = .ok c) :
    (∀ (name : String) (id : UInt32), c.idFor name = some id ↔ c.nameFor id = some name) ∧
    (∀ id, (c.nameFor id).isSome ↔ ∃ key ∈ definitions, keyId? key = some id) ∧
    (∀ id, (c.rawNameFor id).isSome ↔ ∃ key ∈ definitions, keyId? key = some id) ∧
    (∀ id name, c.nameFor id = some name ↔ ∃ tag, IsLast definitions id tag ∧ tag.name = name) ∧
    (∀ id raw, c.rawNameFor id = some raw ↔ ∃ tag, IsLast definitions id tag ∧ tag.raw = raw) ∧
    (∀ (before behind : List Char) (width : Nat) (id : UInt32),
      (∀ char ∈ before, Text.isBlank char) → (∀ char ∈ behind, Text.isBlank char) →
      keyId? (String.ofList (before ++ Text.padDigits 10 width id.toNat ++ behind)) = some id) ∧
    c.size = (definitions.keys.filterMap keyId?).toFinset.card ∧
    ∀ (family : String) (slot : Nat), c.parameterFor family slot =
      if slot < 76 then
        (balance.reverse.find? fun row => row.family = family).bind (·.parameters[slot]?)
      else none := by
  obtain ⟨c₀, hdefined, rfl⟩ := exists_defined_of_load h
  have htags := getElem?_tags_of_defined hdefined
  have hsize := size_of_defined hdefined
  refine ⟨hdefined.paired paired_empty, ?_, ?_, ?_, ?_, ?_, hsize, ?_⟩
  · intro id
    rw [nameFor, htags, Option.isSome_map, isSome_last?_iff]
  · intro id
    rw [rawNameFor, htags, Option.isSome_map, isSome_last?_iff]
  · intro id name
    rw [nameFor, htags, Option.map_eq_some_iff]
    simp only [last?_eq_some_iff]
  · intro id raw
    rw [rawNameFor, htags, Option.map_eq_some_iff]
    simp only [last?_eq_some_iff]
  · intro before behind width id hbefore hbehind
    exact keyId?_padDigits hbefore hbehind width id
  · intro family slot
    rw [parameterFor, parametersFor_of_balance rfl]
    by_cases hslot : slot < 76
    · rw [if_pos hslot]
      cases balance.reverse.find? fun row => row.family = family <;> rfl
    · rw [if_neg hslot]
      cases balance.reverse.find? fun row => row.family = family with
      | none => rfl
      | some row => exact Vector.getElem?_eq_none (Nat.le_of_not_lt hslot)

/-- The id 7 is spelled twice, so it is "Bite" in the end, and "Damage" is free for the id 8. -/
theorem renamed_damage_is_free_for_another_id :
    let definitions : TagDefinitions := .ofList [("007", TagDef.mk "Damage" "D"),
      ("7 ", TagDef.mk "Bite" "B"), ("8", TagDef.mk "Damage" "E"), ("eight", TagDef.mk "Claw" "C")]
    let balance : List BalanceRow := [⟨"Fire", .replicate 76 1⟩, ⟨"Cold", .replicate 76 2⟩,
      ⟨"Fire", .replicate 76 3⟩]
    ∃ c, load .skip definitions balance = .ok c ∧ c.nameFor 7 = some "Bite" ∧
      c.idFor "Damage" = some 8 ∧ c.rawNameFor 8 = some "E" ∧ c.size = 2 ∧
      c.parameterFor "Fire" 75 = some 3 ∧ c.parameterFor "Fire" 76 = none := by
  intro definitions balance
  let c : Catalog :=
    { ((empty.rename 7 ⟨"Damage", "D"⟩).rename 7 ⟨"Bite", "B"⟩).rename 8 ⟨"Damage", "E"⟩ with
      defaults := .ofList (balance.map fun row => (row.family, row.parameters)) }
  have hload : load .skip definitions balance = .ok c := by decide +kernel
  obtain ⟨hpaired, -, -, -, -, -, hsize, hparameter⟩ :=
    load_pairs_last_definitions .skip definitions balance c hload
  refine ⟨c, hload, (hpaired "Bite" 7).1 ?_, (hpaired "Damage" 8).2 ?_, ?_, ?_, ?_, ?_⟩
  · decide +kernel
  · decide +kernel
  · decide +kernel
  · rw [hsize]
    decide +kernel
  · rw [hparameter]
    decide +kernel
  · rw [hparameter]
    rfl

end PowerFormulas.Catalog
