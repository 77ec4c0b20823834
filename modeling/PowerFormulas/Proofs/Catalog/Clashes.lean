import PowerFormulas.Proofs.Catalog.Loading

/-!
# Human names that clash

While definitions are taken in, an id has the human name that the last of its definitions so far
gives it. A definition that gives this name to another id is refused, and if all keys denote ids
nothing else is (`load_refuses_names_in_use`). A name that an id has had and lost is free, so two
definitions can give one name to two ids and be taken in (`lost_damage_is_not_refused`).
-/

namespace PowerFormulas

/-- The definitions whose keys come before this one. -/
def TagDefinitions.before (definitions : TagDefinitions) (key : String) : TagDefinitions :=
  definitions.filter fun other _ => other < key

namespace Catalog

variable {c c' : Catalog} {id first second : UInt32} {tag : TagDef} {policy : BadIdPolicy}
  {list earlier later : List (String × TagDef)} {definitions : TagDefinitions}
  {key key' name : String} {fault : Error}

/-! ### The definition that is refused -/

theorem define_eq_error_iff : c.define id tag = .error fault ↔
    ∃ first, c.idFor tag.name = some first ∧ first ≠ id ∧
      fault = .duplicateName tag.name first id := by
  unfold define
  cases hfirst : c.idFor tag.name with
  | none => simp
  | some first =>
    by_cases h : first = id
    · simp [h]
    · simp [h, eq_comm (a := fault)]

theorem exists_refused (h : c.defineAll policy list = .error (.duplicateName name first second)) :
    ∃ earlier key tag later c', list = earlier ++ (key, tag) :: later ∧ Defined c earlier c' ∧
      keyId? key = some second ∧ tag.name = name ∧ c'.idFor name = some first ∧
      first ≠ second := by
  induction list generalizing c with
  | nil => cases h
  | cons d rest ih =>
    obtain ⟨key, tag⟩ := d
    unfold defineAll at h
    cases hkey : keyId? key with
    | some id =>
      simp only [hkey] at h
      cases hdefine : c.define id tag with
      | error fault =>
        rw [hdefine] at h
        obtain ⟨found, hfound, hne, rfl⟩ := define_eq_error_iff.1 hdefine
        cases h
        exact ⟨[], key, tag, rest, c, rfl, .nil c, hkey, rfl, hfound, hne⟩
      | ok c₁ =>
        rw [hdefine] at h
        obtain ⟨hfree, rfl⟩ := define_eq_ok_iff.1 hdefine
        obtain ⟨earlier, key', tag', later, c', rfl, hdefined, hrefused⟩ := ih h
        exact ⟨(key, tag) :: earlier, key', tag', later, c', rfl, .renamed hkey hfree hdefined,
          hrefused⟩
    | none =>
      cases policy with
      | skip =>
        simp only [hkey] at h
        obtain ⟨earlier, key', tag', later, c', rfl, hdefined, hrefused⟩ := ih h
        exact ⟨(key, tag) :: earlier, key', tag', later, c', rfl, .skipped hkey hdefined, hrefused⟩
      | abort =>
        simp only [hkey] at h
        cases h

/-- What has been taken in has been free at its place. -/
theorem Defined.free (h : Defined c (earlier ++ (key, tag) :: later) c')
    (hkey : keyId? key = some id) :
    ∃ c₁, Defined c earlier c₁ ∧ ∀ first, c₁.idFor tag.name = some first → first = id := by
  induction earlier generalizing c with
  | nil =>
    refine ⟨c, .nil c, ?_⟩
    cases h with
    | renamed hid hfree =>
      rw [hkey] at hid
      cases hid
      exact hfree
    | skipped hid =>
      rw [hkey] at hid
      cases hid
  | cons d rest ih =>
    cases h with
    | renamed hid hfree hrest =>
      obtain ⟨c₁, hdefined, hlast⟩ := ih hrest
      exact ⟨c₁, .renamed hid hfree hdefined, hlast⟩
    | skipped hid hrest =>
      obtain ⟨c₁, hdefined, hlast⟩ := ih hrest
      exact ⟨c₁, .skipped hid hdefined, hlast⟩

theorem duplicate_of_error (hkeys : ∀ d ∈ list, (keyId? d.1).isSome)
    (h : c.defineAll policy list = .error fault) :
    ∃ name first second, fault = .duplicateName name first second := by
  induction list generalizing c with
  | nil => cases h
  | cons d rest ih =>
    obtain ⟨key, tag⟩ := d
    obtain ⟨hkey, hrest⟩ := List.forall_mem_cons.1 hkeys
    obtain ⟨id, hid⟩ := Option.isSome_iff_exists.1 hkey
    unfold defineAll at h
    simp only [hid] at h
    cases hdefine : c.define id tag with
    | error fault' =>
      rw [hdefine] at h
      cases h
      obtain ⟨found, -, -, rfl⟩ := define_eq_error_iff.1 hdefine
      exact ⟨tag.name, found, id, rfl⟩
    | ok c₁ =>
      rw [hdefine] at h
      exact ih hrest h

/-! ### The definitions before a key -/

theorem getElem?_before_eq_some_iff :
    (definitions.before key)[key']? = some tag ↔ definitions[key']? = some tag ∧ key' < key := by
  rw [TagDefinitions.before, Std.ExtTreeMap.getElem?_filter', Option.filter_eq_some_iff]
  simp

theorem mem_before_iff : key' ∈ definitions.before key ↔ key' ∈ definitions ∧ key' < key := by
  simp only [Std.ExtTreeMap.mem_iff_isSome_getElem?, Option.isSome_iff_exists,
    getElem?_before_eq_some_iff, exists_and_right]

theorem toList_before (h : definitions.toList = earlier ++ (key, tag) :: later) :
    (definitions.before key).toList = earlier := by
  have hsorted : definitions.toList.Pairwise fun a b => compare a.1 b.1 = .lt :=
    Std.ExtTreeMap.ordered_keys_toList
  have hlt : ∀ {a b : String}, compare a b = .lt → a < b := fun h => compareOfLessAndEq_eq_lt.1 h
  rw [h] at hsorted
  obtain ⟨-, hbehind, hbefore⟩ := List.pairwise_append.1 hsorted
  have hearlier : ∀ d ∈ earlier, decide (d.1 < key) = true := fun d hd =>
    decide_eq_true (hlt (hbefore d hd _ List.mem_cons_self))
  have hlater : ∀ d ∈ (key, tag) :: later, ¬ decide (d.1 < key) = true := by
    intro d hd
    rw [decide_eq_true_eq]
    rcases List.mem_cons.1 hd with rfl | hd
    · exact lt_irrefl key
    · exact lt_asymm (hlt (List.rel_of_pairwise_cons hbehind hd))
  rw [TagDefinitions.before, Std.ExtTreeMap.toList_filter, h, List.filter_append,
    List.filter_eq_self.2 hearlier, List.filter_eq_nil_iff.2 hlater, List.append_nil]

/-! ### Clashes -/

def Gives (definitions : TagDefinitions) (key : String) (id : UInt32) (name : String) : Prop :=
  ∃ tag, definitions[key]? = some tag ∧ keyId? key = some id ∧ tag.name = name

/-- The later definition gives its id the human name that the other id has at that point. -/
structure Clash (definitions : TagDefinitions) (key key' name : String) (first second : UInt32) :
    Prop where
  earlier : Gives definitions key first name
  later : Gives definitions key' second name
  lt : key < key'
  ne : first ≠ second
  last : ∀ other ∈ definitions, keyId? other = some first → other < key' → other ≤ key

theorem exists_clash_iff : (∃ key, Clash definitions key key' name first second) ↔
    Gives definitions key' second name ∧ first ≠ second ∧
      ∃ tag, IsLast (definitions.before key') first tag ∧ tag.name = name := by
  constructor
  · rintro ⟨key, ⟨tag, htag, hkey, hname⟩, hlater, hlt, hne, hlast⟩
    refine ⟨hlater, hne, tag, ⟨key, getElem?_before_eq_some_iff.2 ⟨htag, hlt⟩, hkey, ?_⟩, hname⟩
    intro other hother hid
    obtain ⟨hmem, hother⟩ := mem_before_iff.1 hother
    exact hlast other hmem hid hother
  · rintro ⟨hlater, hne, tag, ⟨key, htag, hkey, hlast⟩, hname⟩
    obtain ⟨htag, hlt⟩ := getElem?_before_eq_some_iff.1 htag
    refine ⟨key, ⟨tag, htag, hkey, hname⟩, hlater, hlt, hne, ?_⟩
    intro other hmem hid hother
    exact hlast other (mem_before_iff.2 ⟨hmem, hother⟩) hid

/-- The name that is in use when a definition comes is that of the last one before it. -/
theorem idFor_of_defined_before (hlist : definitions.toList = earlier ++ (key, tag) :: later)
    (h : Defined empty earlier c) (name : String) (id : UInt32) :
    c.idFor name = some id ↔ ∃ tag, IsLast (definitions.before key) id tag ∧ tag.name = name := by
  rw [← toList_before hlist] at h
  rw [h.paired paired_empty, nameFor, getElem?_tags_of_defined h, Option.map_eq_some_iff]
  simp only [last?_eq_some_iff]

theorem exists_clash_of_error
    (h : empty.defineAll policy definitions.toList = .error (.duplicateName name first second)) :
    ∃ key key', Clash definitions key key' name first second := by
  obtain ⟨earlier, key', tag, later, c, hlist, hdefined, hkey, rfl, hused, hne⟩ := exists_refused h
  have htag : definitions[key']? = some tag := by
    rw [← Std.ExtTreeMap.mem_toList_iff_getElem?_eq_some, hlist]
    exact List.mem_append_right _ List.mem_cons_self
  have hused := (idFor_of_defined_before hlist hdefined _ _).1 hused
  obtain ⟨key, hclash⟩ := exists_clash_iff.2 ⟨⟨tag, htag, hkey, rfl⟩, hne, hused⟩
  exact ⟨key, key', hclash⟩

theorem Clash.not_defined (h : Clash definitions key key' name first second) :
    ¬ Defined empty definitions.toList c := by
  intro hdefined
  obtain ⟨⟨tag', htag', hkey', rfl⟩, hne, hused⟩ := exists_clash_iff.1 ⟨key, h⟩
  obtain ⟨earlier, later, hlist⟩ :=
    List.append_of_mem (Std.ExtTreeMap.mem_toList_iff_getElem?_eq_some.2 htag')
  rw [hlist] at hdefined
  obtain ⟨c₁, hearlier, hfree⟩ := hdefined.free hkey'
  exact hne (hfree first ((idFor_of_defined_before hlist hearlier _ _).2 hused))

theorem exists_clash_of_gives
    (hone : ∀ key key' id name name', Gives definitions key id name →
      Gives definitions key' id name' → name = name')
    (h : Gives definitions key first name) (h' : Gives definitions key' second name)
    (hlt : key < key') (hne : first ≠ second) :
    ∃ key key', Clash definitions key key' name first second := by
  obtain ⟨tag, htag, hkey, hname⟩ := h
  have hmem : key ∈ definitions.before key' := by
    rw [Std.ExtTreeMap.mem_iff_isSome_getElem?, getElem?_before_eq_some_iff.2 ⟨htag, hlt⟩]
    rfl
  obtain ⟨last, hlast⟩ := Option.isSome_iff_exists.1 (isSome_last?_iff.2 ⟨key, hmem, hkey⟩)
  have hlast := last?_eq_some_iff.1 hlast
  have hsame : last.name = name := by
    obtain ⟨key₁, hkey₁, hid, -⟩ := hlast
    have hkey₁ := (getElem?_before_eq_some_iff.1 hkey₁).1
    exact hone key₁ key first _ _ ⟨last, hkey₁, hid, rfl⟩ ⟨tag, htag, hkey, hname⟩
  obtain ⟨key₁, hclash⟩ := exists_clash_iff.2 ⟨h', hne, last, hlast, hsame⟩
  exact ⟨key₁, key', hclash⟩

/-- Where an id has one name only, there is a clash just if two ids have one name. -/
theorem exists_clash_iff_gives
    (hone : ∀ key key' id name name', Gives definitions key id name →
      Gives definitions key' id name' → name = name') :
    (∃ key key' name first second, Clash definitions key key' name first second) ↔
      ∃ key key' name first second, Gives definitions key first name ∧
        Gives definitions key' second name ∧ first ≠ second := by
  constructor
  · rintro ⟨key, key', name, first, second, hclash⟩
    exact ⟨key, key', name, first, second, hclash.earlier, hclash.later, hclash.ne⟩
  · rintro ⟨key, key', name, first, second, h, h', hne⟩
    rcases lt_trichotomy key key' with hlt | rfl | hgt
    · obtain ⟨key₁, key₂, hclash⟩ := exists_clash_of_gives hone h h' hlt hne
      exact ⟨key₁, key₂, name, first, second, hclash⟩
    · obtain ⟨-, -, hid, -⟩ := h
      obtain ⟨-, -, hid', -⟩ := h'
      rw [hid] at hid'
      exact absurd (Option.some_inj.1 hid') hne
    · obtain ⟨key₁, key₂, hclash⟩ := exists_clash_of_gives hone h' h hgt hne.symm
      exact ⟨key₁, key₂, name, second, first, hclash⟩

/-! ### Main statement -/

theorem load_eq_error_iff {balance : List BalanceRow} :
    load policy definitions balance = .error fault ↔
      empty.defineAll policy definitions.toList = .error fault := by
  unfold load
  cases empty.defineAll policy definitions.toList with
  | error fault' => exact Iff.rfl
  | ok c => exact ⟨nofun, nofun⟩

/-- Where all keys denote ids, there is a fault just if there is a clash. -/
theorem exists_duplicate_iff_exists_clash {balance : List BalanceRow}
    (hkeys : ∀ key ∈ definitions, (keyId? key).isSome) :
    (∃ name first second,
        load policy definitions balance = .error (.duplicateName name first second)) ↔
      ∃ key key' name first second, Clash definitions key key' name first second := by
  constructor
  · rintro ⟨name, first, second, h⟩
    obtain ⟨key, key', hclash⟩ := exists_clash_of_error (load_eq_error_iff.1 h)
    exact ⟨key, key', name, first, second, hclash⟩
  · rintro ⟨key, key', name, first, second, hclash⟩
    cases hload : load policy definitions balance with
    | ok c =>
      obtain ⟨c₀, hdefined, -⟩ := exists_defined_of_load hload
      exact absurd hdefined hclash.not_defined
    | error fault =>
      have hlist : ∀ d ∈ definitions.toList, (keyId? d.1).isSome := fun d hd =>
        hkeys d.1 (mem_definitions_iff.2 ⟨d.2, hd⟩)
      obtain ⟨name, first, second, rfl⟩ := duplicate_of_error hlist (load_eq_error_iff.1 hload)
      exact ⟨name, first, second, rfl⟩

/-- If all keys denote ids, definitions are refused just if one of them gives an id the human name
that another id has from the last of its definitions before; the fault names two such ids, in the
order of their definitions. In particular, where no id is given two names, one name for two ids is
always refused. -/
theorem load_refuses_names_in_use (policy : BadIdPolicy) (definitions : TagDefinitions)
    (balance : List BalanceRow) (hkeys : ∀ key ∈ definitions, (keyId? key).isSome) :
    ((∃ name first second,
        load policy definitions balance = .error (.duplicateName name first second)) ↔
      ∃ key key' name first second, Clash definitions key key' name first second) ∧
    (∀ name first second,
      load policy definitions balance = .error (.duplicateName name first second) →
        ∃ key key', Clash definitions key key' name first second) ∧
    ((∀ key key' id name name', Gives definitions key id name → Gives definitions key' id name' →
        name = name') →
      ((∃ name first second,
          load policy definitions balance = .error (.duplicateName name first second)) ↔
        ∃ key key' name first second, Gives definitions key first name ∧
          Gives definitions key' second name ∧ first ≠ second)) := by
  refine ⟨exists_duplicate_iff_exists_clash hkeys, ?_, fun hone => ?_⟩
  · intro name first second h
    exact exists_clash_of_error (load_eq_error_iff.1 h)
  · rw [exists_duplicate_iff_exists_clash hkeys, exists_clash_iff_gives hone]

/-- The names that the id 7 has and has lost come up again, in this order; the first one that is in
use is refused. -/
theorem bite_is_refused_for_a_second_id :
    let definitions : TagDefinitions := .ofList [("007", TagDef.mk "Damage" "D"),
      ("7", TagDef.mk "Bite" "B"), ("8", TagDef.mk "Damage" "E"), ("9", TagDef.mk "Bite" "C")]
    load .abort definitions [] = .error (.duplicateName "Bite" 7 9) ∧
      ∃ key key', Clash definitions key key' "Bite" 7 9 := by
  intro definitions
  have hkeys : ∀ key ∈ definitions, (keyId? key).isSome := by
    intro key hkey
    have hall : ∀ key ∈ definitions.keys, (keyId? key).isSome := by decide +kernel
    exact hall key (Std.ExtTreeMap.mem_keys.2 hkey)
  have hload : load .abort definitions [] = .error (.duplicateName "Bite" 7 9) := by
    decide +kernel
  have hreported := (load_refuses_names_in_use .abort definitions [] hkeys).2.1
  exact ⟨hload, hreported "Bite" 7 9 hload⟩

/-- The ids 7 and 8 both get the name "Damage", which is not refused: before the second one comes,
the id 7 has been given another name. -/
theorem lost_damage_is_not_refused :
    let definitions : TagDefinitions := .ofList [("007", TagDef.mk "Damage" "D"),
      ("7", TagDef.mk "Bite" "B"), ("8", TagDef.mk "Damage" "E")]
    (∀ key ∈ definitions.keys, (keyId? key).isSome) ∧
      Gives definitions "007" 7 "Damage" ∧ Gives definitions "8" 8 "Damage" ∧
      ∃ c, load .abort definitions [] = .ok c := by
  intro definitions
  have hload : (load .abort definitions []).toOption.isSome = true := by decide +kernel
  refine ⟨?_, ⟨⟨"Damage", "D"⟩, ?_, ?_, rfl⟩, ⟨⟨"Damage", "E"⟩, ?_, ?_, rfl⟩, ?_⟩
  · decide +kernel
  · decide +kernel
  · decide +kernel
  · decide +kernel
  · decide +kernel
  · cases h : load .abort definitions [] with
    | ok c => exact ⟨c, rfl⟩
    | error fault =>
      rw [h] at hload
      cases hload

end Catalog

end PowerFormulas
