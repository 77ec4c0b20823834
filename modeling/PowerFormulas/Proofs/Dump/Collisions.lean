import Mathlib.Data.Finset.Card
import Std.Data.String.ToNat
import PowerFormulas.Dump
import PowerFormulas.Proofs.Catalog.Loading

/-!
# Tags that share a key

Output has one item for each key, so a tag is lost where another one takes its key. A dump loses
tags just if two of them have one raw name or one is named like the id of another that has no name;
of formulas by human names, which belong to one id each, only the latter can happen
(`output_keeps_tags_iff`).
-/

namespace PowerFormulas

namespace Entries

variable {β : Type} {label : UInt32 → String} {view : Entry → β} {nameOf : UInt32 → Option String}
  {es : Entries} {id : UInt32} {e : Entry}

/-- What there is to see of each entry, under its label. -/
def labelled (label : UInt32 → String) (view : Entry → β) (es : Entries) :
    Std.ExtTreeMap String β :=
  .ofList (es.toList.map fun (id, e) => (label id, view e))

/-- Two ids have one name, or one is named like another id that has no name. -/
def Collide (nameOf : UInt32 → Option String) (es : Entries) : Prop :=
  ∃ a ∈ es, ∃ b ∈ es, a ≠ b ∧ ∃ name, nameOf a = some name ∧
    (nameOf b = some name ∨ nameOf b = none ∧ toString b = name)

theorem mem_labelled_iff {key : String} :
    key ∈ labelled label view es ↔ ∃ id ∈ es, label id = key := by
  rw [labelled, Std.ExtTreeMap.mem_ofList, List.contains_iff_mem, List.map_map]
  simp only [← Std.ExtTreeMap.mem_keys, ← Std.ExtTreeMap.map_fst_toList_eq_keys, List.mem_map,
    Function.comp_apply, exists_exists_and_eq_and]

theorem size_labelled (label : UInt32 → String) (view : Entry → β) (es : Entries) :
    (labelled label view es).size = (es.keys.toFinset.image label).card := by
  have hkeys : (labelled label view es).keys.toFinset = es.keys.toFinset.image label := by
    ext key
    simp only [List.mem_toFinset, Std.ExtTreeMap.mem_keys, Finset.mem_image, mem_labelled_iff]
  rw [← hkeys, List.toFinset_card_of_nodup Std.ExtTreeMap.nodup_keys, Std.ExtTreeMap.length_keys]

theorem size_labelled_eq_iff : (labelled label view es).size = es.size ↔
    ∀ a ∈ es, ∀ b ∈ es, label a = label b → a = b := by
  have hsize : es.size = es.keys.toFinset.card := by
    rw [List.toFinset_card_of_nodup Std.ExtTreeMap.nodup_keys, Std.ExtTreeMap.length_keys]
  rw [size_labelled, hsize, Finset.card_image_iff]
  simp only [Set.InjOn, Finset.mem_coe, List.mem_toFinset, Std.ExtTreeMap.mem_keys]

theorem getElem?_labelled (view : Entry → β)
    (hlabel : ∀ a ∈ es, ∀ b ∈ es, label a = label b → a = b) (he : es[id]? = some e) :
    (labelled label view es)[label id]? = some (view e) := by
  have hmem : ∀ {d : UInt32 × Entry}, d ∈ es.toList → d.1 ∈ es := by
    intro d hd
    rw [Std.ExtTreeMap.mem_iff_isSome_getElem?, Std.ExtTreeMap.mem_toList_iff_getElem?_eq_some.1 hd]
    rfl
  have hapart : (es.toList.map fun (id, e) => (label id, view e)).Pairwise
      fun a b => ¬ compare a.1 b.1 = .eq := by
    rw [List.pairwise_map]
    refine Std.ExtTreeMap.distinct_keys_toList.imp_of_mem ?_
    intro a b ha hb hne heq
    have hsame := hlabel _ (hmem ha) _ (hmem hb) (Std.LawfulEqCmp.compare_eq_iff_eq.1 heq)
    exact hne (Std.LawfulEqCmp.compare_eq_iff_eq.2 hsame)
  refine Std.ExtTreeMap.getElem?_ofList_of_mem Std.ReflCmp.compare_self hapart ?_
  exact List.mem_map.2 ⟨(id, e), Std.ExtTreeMap.mem_toList_iff_getElem?_eq_some.2 he, rfl⟩

/-- Ids have labels of their own just if they do not collide. -/
theorem apart_iff_not_collide :
    (∀ a ∈ es, ∀ b ∈ es,
      (nameOf a).getD (toString a) = (nameOf b).getD (toString b) → a = b) ↔
        ¬ Collide nameOf es := by
  constructor
  · rintro hapart ⟨a, ha, b, hb, hne, name, hname, hother⟩
    refine hne (hapart a ha b hb ?_)
    rcases hother with hother | ⟨hother, hdecimal⟩
    · rw [hname, hother]
      rfl
    · rw [hname, hother, Option.getD_some, Option.getD_none, hdecimal]
  · intro hcollide a ha b hb hlabel
    by_contra hne
    apply hcollide
    cases hnameA : nameOf a with
    | some name =>
      rw [hnameA, Option.getD_some] at hlabel
      refine ⟨a, ha, b, hb, hne, name, hnameA, ?_⟩
      cases hnameB : nameOf b with
      | some name' => exact .inl (by rw [hlabel, hnameB, Option.getD_some])
      | none => exact .inr ⟨rfl, by rw [hlabel, hnameB, Option.getD_none]⟩
    | none =>
      rw [hnameA, Option.getD_none] at hlabel
      cases hnameB : nameOf b with
      | some name' =>
        rw [hnameB, Option.getD_some] at hlabel
        exact ⟨b, hb, a, ha, Ne.symm hne, name', hnameB, .inr ⟨hnameA, hlabel⟩⟩
      | none =>
        -- two ids without names are told apart by their numerals
        rw [hnameB, Option.getD_none] at hlabel
        exact absurd (UInt32.toNat.inj (Nat.repr_injective hlabel)) hne

/-- One item for each entry, each showing its own entry. -/
theorem labelled_keeps_iff (nameOf : UInt32 → Option String) (view : Entry → β) (es : Entries) :
    let table := labelled (fun id => (nameOf id).getD (toString id)) view es
    (table.size = es.size ↔ ¬ Collide nameOf es) ∧
      (¬ Collide nameOf es → ∀ (id : UInt32) (e : Entry), es[id]? = some e →
        table[(nameOf id).getD (toString id)]? = some (view e)) := by
  intro table
  refine ⟨size_labelled_eq_iff.trans apart_iff_not_collide, ?_⟩
  intro hcollide id e he
  exact getElem?_labelled view (apart_iff_not_collide.2 hcollide) he

end Entries

namespace Catalog

variable {c : Catalog} {es : Entries}

/-- Where human names and ids are paired off, no two ids share a name. -/
theorem Paired.collide_iff (h : c.Paired) : es.Collide c.nameFor ↔
    ∃ a ∈ es, ∃ b ∈ es, c.nameFor a = some (toString b) ∧ c.nameFor b = none := by
  constructor
  · rintro ⟨a, ha, b, hb, hne, name, hname, hother | ⟨hother, rfl⟩⟩
    · rw [← h] at hname hother
      rw [hname] at hother
      exact absurd (Option.some_inj.1 hother) hne
    · exact ⟨a, ha, b, hb, hname, hother⟩
  · rintro ⟨a, ha, b, hb, hname, hother⟩
    refine ⟨a, ha, b, hb, ?_, toString b, hname, .inr ⟨hother, rfl⟩⟩
    rintro rfl
    rw [hname] at hother
    cases hother

/-- A dump has as many items as the power has entries just if no two tags share a raw name and none
has the decimal id of one without a raw name as its own; then each item shows its entry. With human
names it is the same, but that no two tags can share one. -/
theorem output_keeps_tags_iff (policy : BadIdPolicy) (definitions : TagDefinitions)
    (balance : List BalanceRow) (c : Catalog) (h : load policy definitions balance = .ok c)
    (p : Power) :
    ((p.dump c).size = p.entries.size ↔ ¬ p.entries.Collide c.rawNameFor) ∧
    (¬ p.entries.Collide c.rawNameFor → ∀ (id : UInt32) (e : Entry), p.entries[id]? = some e →
      (p.dump c)[c.rawLabel id]? = some (TagDump.ofEntry e)) ∧
    ((p.formulas c).size = p.entries.size ↔
      ¬ ∃ a ∈ p.entries, ∃ b ∈ p.entries,
        c.nameFor a = some (toString b) ∧ c.nameFor b = none) ∧
    ((¬ ∃ a ∈ p.entries, ∃ b ∈ p.entries,
        c.nameFor a = some (toString b) ∧ c.nameFor b = none) →
      ∀ (id : UInt32) (e : Entry), p.entries[id]? = some e →
        (p.formulas c)[c.label id]? = some (Power.formulaText e)) := by
  have hpaired : c.Paired := by
    obtain ⟨c₀, hdefined, rfl⟩ := exists_defined_of_load h
    exact hdefined.paired paired_empty
  obtain ⟨hdump, hleaf⟩ := p.entries.labelled_keeps_iff c.rawNameFor TagDump.ofEntry
  obtain ⟨hformulas, hline⟩ := p.entries.labelled_keeps_iff c.nameFor Power.formulaText
  rw [hpaired.collide_iff] at hformulas hline
  exact ⟨hdump, hleaf, hformulas, hline⟩

/-- A constant, a stuck script and a tag without names, each under a key of its own. -/
theorem claw_and_bite_are_kept :
    let definitions : TagDefinitions := .ofList [("7", TagDef.mk "Claw" "C"),
      ("8", TagDef.mk "Bite" "B")]
    let p : Power := ⟨"Fists", 4, .ofList [((7 : UInt32), Entry.constant 1),
      (8, .script ⟨[3, 0], "Claw * 2"⟩ "" .inProgress), (9, .constant (-1))]⟩
    ∃ c, load .abort definitions [] = .ok c ∧
      (p.dump c)[c.rawLabel 9]? = some (.value 0xFFFFFFFF) ∧
      (p.formulas c)[c.label 8]? = some "Claw * 2" := by
  intro definitions p
  let c := (empty.rename 7 ⟨"Claw", "C"⟩).rename 8 ⟨"Bite", "B"⟩
  have hload : load .abort definitions [] = .ok c := by decide +kernel
  obtain ⟨hdump, hleaf, hformulas, hline⟩ :=
    output_keeps_tags_iff .abort definitions [] c hload p
  have hkeys : (p.dump c).size = p.entries.size := by decide +kernel
  have hlabels : (p.formulas c).size = p.entries.size := by decide +kernel
  refine ⟨c, hload, hleaf (hdump.1 hkeys) 9 (.constant (-1)) ?_,
    hline (hformulas.1 hlabels) 8 (.script ⟨[3, 0], "Claw * 2"⟩ "" .inProgress) ?_⟩
  · decide +kernel
  · decide +kernel

/-- The ids 7 and 8 have one raw name, and the id 7 is named like the id 9, which has no name. Of
three tags two are dumped, and two are among the formulas. -/
theorem slot_is_dumped_once :
    let definitions : TagDefinitions := .ofList [("7", TagDef.mk "9" "Slot"),
      ("8", TagDef.mk "Claw" "Slot")]
    let p : Power := ⟨"Fists", 4, .ofList [((7 : UInt32), Entry.constant 1), (8, .constant 2),
      (9, .constant 3)]⟩
    ∃ c, load .abort definitions [] = .ok c ∧ p.entries.size = 3 ∧
      (p.dump c).toList = [("9", .value 3), ("Slot", .value 2)] ∧
      (p.formulas c).toList = [("9", "3"), ("Claw", "2")] := by
  intro definitions p
  refine ⟨(empty.rename 7 ⟨"9", "Slot"⟩).rename 8 ⟨"Claw", "Slot"⟩, ?_, ?_, ?_, ?_⟩
  · decide +kernel
  · decide +kernel
  · decide +kernel
  · decide +kernel

end Catalog

end PowerFormulas
