import PowerFormulas.Proofs.Record.Bounds
import PowerFormulas.Proofs.Record.RoundTrip

/-!
# What a decoded record contains

The bytes of a record say what its tag maps are (`Holds.unique`). Under each tag id a decoded record
has the last entry of all maps for it, and this is a constant or an unevaluated script. The texts
go from the slots to the ids. No two slots have the same id (`slotId_injOn`), so the comment of a
script is the text of the one slot with its id, if there is one, and nothing is left of entries that
stood under the id before (`decode_gives_last_entries_with_slot_texts`).
-/

namespace PowerFormulas

theorem Bytes.StandsAt.unique {bytes a b : List UInt8} {offset : Nat} (ha : StandsAt bytes offset a)
    (hb : StandsAt bytes offset b) (hlength : a.length = b.length) : a = b := by
  apply List.ext_getElem?
  intro i
  by_cases hi : i < a.length
  · rw [← ha.getElem? i hi, hb.getElem? i (hlength ▸ hi)]
  · rw [List.getElem?_eq_none (by omega), List.getElem?_eq_none (by omega)]

/-- A tag map is told from what stands behind it. -/
theorem TagMap.IsTagMap.unique {a b rest rest' : List UInt8} {as bs : List (UInt32 × Entry)}
    (ha : IsTagMap a as) (hb : IsTagMap b bs) (h : a ++ rest = b ++ rest') : as = bs := by
  have hread := congrArg (fun bytes => (read bytes).entries) h
  rwa [read_of_isTagMap ha, read_of_isTagMap hb] at hread

namespace Record

open Bytes (ofWord StandsAt)

variable {r : Record} {offset : Nat} {details : List String} {id : UInt32}

/-! ### The maps of a record -/

theorem descriptor_unique {start size start' size' : UInt32}
    (h : StandsAt r.data (r.base + offset) (ofWord start ++ ofWord size))
    (h' : StandsAt r.data (r.base + offset) (ofWord start' ++ ofWord size')) :
    start = start' ∧ size = size' := by
  have hwords := congrArg Bytes.words (h.unique h' rfl)
  rw [Bytes.words_ofWord_append, Bytes.words_ofWord_append] at hwords
  obtain ⟨hstart, hsize⟩ := List.cons.inj hwords
  have hsizes : ∀ w : UInt32, Bytes.words (ofWord w) = [w] := fun w => by
    rw [← List.append_nil (ofWord w), Bytes.words_ofWord_append]
    rfl
  rw [hsizes, hsizes] at hsize
  exact ⟨hstart, List.head_eq_of_cons_eq hsize⟩

theorem Holds.unique {as bs : List (UInt32 × Entry)} (ha : r.Holds offset as)
    (hb : r.Holds offset bs) : as = bs := by
  cases ha with
  | absent _ hdescriptor =>
    cases hb with
    | absent => rfl
    | present hsize hdescriptor' =>
      obtain ⟨-, hzero⟩ := descriptor_unique hdescriptor hdescriptor'
      exact absurd hzero.symm hsize
  | present hsize hdescriptor hstands hlength hmap =>
    cases hb with
    | absent _ hdescriptor' =>
      obtain ⟨-, hzero⟩ := descriptor_unique hdescriptor hdescriptor'
      exact absurd hzero hsize
    | present _ hdescriptor' hstands' hlength' hmap' =>
      obtain ⟨rfl, rfl⟩ := descriptor_unique hdescriptor hdescriptor'
      exact hmap.unique hmap' (hstands.unique hstands' (hlength.trans hlength'.symm))

theorem Holds.exists_written {entries : List (UInt32 × Entry)} {entry : UInt32 × Entry}
    (h : r.Holds offset entries) (hentry : entry ∈ entries) :
    ∃ part, TagMap.WrittenEntry part entry := by
  cases h with
  | absent => cases hentry
  | present _ _ _ _ hmap =>
    obtain ⟨_, _, -, hbody, -⟩ := hmap
    exact hbody.exists_written hentry

/-! ### The ids of slots -/

theorem exactSlotId_injective : Function.Injective exactSlotId := by
  intro a b h
  simp only [exactSlotId] at h
  omega

theorem slotId_injOn (h : ∀ last, details.length = last + 1 → exactSlotId last < UInt32.size)
    {a b : Nat} (ha : a < details.length) (hb : b < details.length) (hid : slotId a = slotId b) :
    a = b := by
  have hnat := congrArg UInt32.toNat hid
  rw [slotId_eq, slotId_eq, UInt32.toNat_ofNat_of_lt' (exactSlotId_lt h ha),
    UInt32.toNat_ofNat_of_lt' (exactSlotId_lt h hb)] at hnat
  exact exactSlotId_injective hnat

/-- The text is that of each slot with the id. Without such a slot it is empty. -/
structure IsSlotText (details : List String) (id : UInt32) (text : String) : Prop where
  eq_of_slot : ∀ (slot : Nat) (detail : String), details[slot]? = some detail → slotId slot = id →
    text = detail
  eq_empty : (∀ slot < details.length, slotId slot ≠ id) → text = ""

/-- The entry that decoding gives for the id in place of one that a tag map has. A script gets the
text of its slot. A constant stays as it is, which is done and without a comment. -/
inductive Annotated (details : List String) (id : UInt32) : Entry → Entry → Prop where
  | constant (value : Int32) : Annotated details id (.constant value) (.constant value)
  | script (body : Script) {comment : String} : IsSlotText details id comment →
      Annotated details id (.ofScript body) (.script body comment .unevaluated)

theorem isSlotText_of_slot
    (hdetails : ∀ last, details.length = last + 1 → exactSlotId last < UInt32.size) {slot : Nat}
    {text : String} (hslot : details[slot]? = some text) (hid : slotId slot = id) :
    IsSlotText details id text := by
  obtain ⟨hlt, -⟩ := List.getElem?_eq_some_iff.1 hslot
  refine ⟨fun other detail hother hotherId => ?_, fun hfree => absurd hid (hfree slot hlt)⟩
  obtain ⟨hotherLt, -⟩ := List.getElem?_eq_some_iff.1 hother
  obtain rfl := slotId_injOn hdetails hlt hotherLt (hid.trans hotherId.symm)
  exact Option.some.inj (hslot.symm.trans hother)

theorem annotated_of_written
    (hdetails : ∀ last, details.length = last + 1 → exactSlotId last < UInt32.size)
    {part : List UInt8} {e : Entry} (h : TagMap.WrittenEntry part (id, e)) :
    Annotated details id e (annotateAt details.zipIdx id e) := by
  rcases annotateAt_cases details.zipIdx id e with
    ⟨hsame, hnone⟩ | ⟨text, slot, hmem, hid, htext⟩
  · rw [hsame]
    have htext : IsSlotText details id "" := by
      refine ⟨fun slot detail hslot hid => absurd hid ?_, fun _ => rfl⟩
      exact hnone (detail, slot) (List.mem_zipIdx_iff_getElem?.2 hslot)
    cases h with
    | constant => exact .constant _
    | script => exact .script _ htext
  · rw [htext]
    have hslot := List.mem_zipIdx_iff_getElem?.1 hmem
    cases h with
    | constant => exact .constant _
    | script => exact .script _ (isSlotText_of_slot hdetails hslot hid)

/-! ### Main statement -/

/-- In a decoded record the entry under each tag id comes from the last one that the tag maps have
for it, maps taken in the order of their descriptors. All scripts are unevaluated. No two slots have
the same id, and the comment of a script is the text of the slot with its id, or else empty. -/
theorem decode_gives_last_entries_with_slot_texts (r : Record) (es : Entries)
    (hdetails : ∀ last, r.details.length = last + 1 → exactSlotId last < UInt32.size)
    (hdecode : r.decode = .ok es) :
    (∃ maps, (∀ maps', List.Forall₂ r.Holds tagMapOffsets maps' ↔ maps' = maps) ∧
      ∀ id, Option.Rel (Annotated r.details id) (maps.flatten.reverse.lookup id) es[id]?) ∧
    ∀ a < r.details.length, ∀ b < r.details.length, slotId a = slotId b → a = b := by
  obtain ⟨maps, hmaps, rfl⟩ := decode_eq_ok_iff.1 hdecode
  have hholds : List.Forall₂ r.Holds tagMapOffsets maps := hmaps.imp fun _ _ => holds_of_tagMap
  have hunique : Relator.RightUnique r.Holds := fun _ _ _ => Holds.unique
  have hmaps_iff : ∀ maps', List.Forall₂ r.Holds tagMapOffsets maps' ↔ maps' = maps :=
    fun maps' => ⟨fun h => hunique.forall₂ h hholds, fun h => h ▸ hholds⟩
  refine ⟨⟨maps, hmaps_iff, fun id => ?_⟩, fun a ha b hb => slotId_injOn hdetails ha hb⟩
  rw [getElem?_annotate, getElem?_ofList]
  cases hlast : maps.flatten.reverse.lookup id with
  | none => exact .none
  | some e =>
    obtain ⟨before, behind, hsplit, -⟩ := List.lookup_eq_some_iff.1 hlast
    have hmem : (id, e) ∈ maps.flatten := by
      rw [← List.mem_reverse, hsplit]
      exact List.mem_append_right _ List.mem_cons_self
    obtain ⟨entries, hentries, hentry⟩ := List.mem_flatten.1 hmem
    obtain ⟨offset, hoffset⟩ := exists_rel_of_mem hholds hentries
    obtain ⟨part, hpart⟩ := hoffset.exists_written hentry
    exact .some (annotated_of_written hdetails hpart)

/-- Scripts under the ids of the first two slots, and a later map with a constant under the first
id. -/
def overwrittenScript : Layout where
  header := []
  maps :=
    [(⟨0, by decide⟩, [.script 0x41100 (.replicate 5 0) 0 ⟨"low", by decide⟩ [1],
      .script 0x41200 (.replicate 5 0) 0 ⟨"high", by decide⟩ [2]]),
    (⟨4, by decide⟩, [.constant ⟨7, by decide⟩ 0x41100 5])]
  distinct := by decide
  header_lt := by decide
  fits := by
    refine ⟨?_, ?_, ?_, ?_, trivial⟩ <;> decide

theorem overwritten_script_leaves_no_comment :
    let details := ["first", "second", "third"]
    let r := overwrittenScript.record "Jab" 5 details
    ∃ es maps, r.decode = .ok es ∧ List.Forall₂ r.Holds tagMapOffsets maps ∧
      Option.Rel (Annotated details 0x41100) (maps.flatten.reverse.lookup 0x41100)
        (some (.constant 5)) ∧
      Option.Rel (Annotated details 0x41200) (maps.flatten.reverse.lookup 0x41200)
        (some (.script ⟨[2], "high"⟩ "second" .unevaluated)) ∧
      ∀ a < 3, ∀ b < 3, slotId a = slotId b → a = b := by
  intro details r
  let es : Entries := annotate details (.ofList overwrittenScript.written)
  have hdecode : r.decode = .ok es := overwrittenScript.decode_record "Jab" 5 details
  have hdetails : ∀ last, details.length = last + 1 → exactSlotId last < UInt32.size := by
    intro last hlast
    obtain rfl : 2 = last := Nat.succ.inj hlast
    decide
  have hconstant : es[(0x41100 : UInt32)]? = some (.constant 5) := by decide +kernel
  have hscript : es[(0x41200 : UInt32)]? =
      some (.script ⟨[2], "high"⟩ "second" .unevaluated) := by decide +kernel
  obtain ⟨⟨maps, hmaps, hlast⟩, hslots⟩ :=
    decode_gives_last_entries_with_slot_texts r es hdetails hdecode
  exact ⟨es, maps, hdecode, (hmaps maps).2 rfl, hconstant ▸ hlast 0x41100,
    hscript ▸ hlast 0x41200, hslots⟩

end Record

end PowerFormulas
