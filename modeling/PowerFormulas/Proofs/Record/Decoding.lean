import PowerFormulas.Proofs.TagMap.Grammar
import PowerFormulas.Record

/-!
# What a record decodes to

A record decodes just if each of its eleven tag maps does, and it then holds their entries, the last
one of each tag id, with comments (`decode_eq_ok_iff`). Comments are all that the texts of the slots
change (`exists_getElem?_annotate`), so no script of a decoded record has been evaluated.
-/

namespace PowerFormulas

/-! ### Comments -/

namespace Entry

theorem annotate_comment (e : Entry) : e.annotate e.comment = e := by
  cases e <;> rfl

theorem annotate_annotate (e : Entry) (a b : String) : (e.annotate a).annotate b = e.annotate b := by
  cases e <;> rfl

end Entry

namespace Record

variable {r : Record} {offset : Nat} {entries : List (UInt32 × Entry)} {es : Entries}

/-- The entry of the id once the texts of the slots have come to their ids, one after another. -/
def annotateAt (slots : List (String × Nat)) (id : UInt32) (e : Entry) : Entry :=
  slots.foldl (fun e (text, slot) => if slotId slot = id then e.annotate text else e) e

theorem annotateAt_cons (text : String) (slot : Nat) (slots : List (String × Nat)) (id : UInt32)
    (e : Entry) : annotateAt ((text, slot) :: slots) id e =
      annotateAt slots id (if slotId slot = id then e.annotate text else e) := rfl

theorem getElem?_foldl_modify_slotId (slots : List (String × Nat)) (es : Entries) (id : UInt32) :
    (slots.foldl (fun es (text, slot) => es.modify (slotId slot) (Entry.annotate text)) es)[id]? =
      es[id]?.map (annotateAt slots id) := by
  induction slots generalizing es with
  | nil => exact Option.map_id'.symm
  | cons first rest ih =>
    obtain ⟨text, slot⟩ := first
    rw [List.foldl_cons, ih, Entries.getElem?_modify]
    by_cases h : slotId slot = id
    · rw [if_pos h, Option.map_map]
      congr 1
      funext e
      rw [annotateAt_cons, if_pos h, Function.comp_apply]
    · rw [if_neg h]
      congr 1
      funext e
      rw [annotateAt_cons, if_neg h]

theorem getElem?_annotate (details : List String) (es : Entries) (id : UInt32) :
    (annotate details es)[id]? = es[id]?.map (annotateAt details.zipIdx id) :=
  getElem?_foldl_modify_slotId details.zipIdx es id

/-- Of the texts for the id the last one stays, and without one the entry is as it was. -/
theorem annotateAt_cases (slots : List (String × Nat)) (id : UInt32) (e : Entry) :
    (annotateAt slots id e = e ∧ ∀ d ∈ slots, slotId d.2 ≠ id) ∨
    ∃ text slot, (text, slot) ∈ slots ∧ slotId slot = id ∧
      annotateAt slots id e = e.annotate text := by
  induction slots generalizing e with
  | nil => exact .inl ⟨rfl, nofun⟩
  | cons first rest ih =>
    obtain ⟨text, slot⟩ := first
    rw [annotateAt_cons]
    by_cases h : slotId slot = id
    · rw [if_pos h]
      right
      rcases ih (e.annotate text) with ⟨hsame, -⟩ | ⟨last, lastSlot, hmem, hid, hlast⟩
      · exact ⟨text, slot, List.mem_cons_self, h, hsame⟩
      · rw [Entry.annotate_annotate] at hlast
        exact ⟨last, lastSlot, List.mem_cons_of_mem _ hmem, hid, hlast⟩
    · rw [if_neg h]
      rcases ih e with ⟨hsame, hnone⟩ | ⟨last, lastSlot, hmem, hid, hlast⟩
      · exact .inl ⟨hsame, List.forall_mem_cons.2 ⟨h, hnone⟩⟩
      · exact .inr ⟨last, lastSlot, List.mem_cons_of_mem _ hmem, hid, hlast⟩

theorem exists_getElem?_annotate (details : List String) (es : Entries) (id : UInt32) :
    ∃ text, (annotate details es)[id]? = es[id]?.map (Entry.annotate text) := by
  rw [getElem?_annotate]
  cases es[id]? with
  | none => exact ⟨"", rfl⟩
  | some e =>
    rcases annotateAt_cases details.zipIdx id e with ⟨hsame, -⟩ | ⟨text, -, -, -, htext⟩
    · exact ⟨e.comment, congrArg some (hsame.trans e.annotate_comment.symm)⟩
    · exact ⟨text, congrArg some htext⟩

/-! ### Maps -/

theorem tagMap_eq_ok_iff :
    r.tagMap offset = .ok entries ↔
      r.tagMapRegion offset = .ok none ∧ entries = [] ∨
      ∃ part rest, r.tagMapRegion offset = .ok (some (part ++ rest)) ∧
        TagMap.IsTagMap part entries := by
  rw [tagMap, bind_eq_ok_iff]
  constructor
  · rintro ⟨_ | bytes, hregion, h⟩
    · cases h
      exact .inl ⟨hregion, rfl⟩
    · obtain ⟨words, hread, heq⟩ := bind_eq_ok_iff.1 h
      cases heq
      obtain ⟨part, rest, rfl, hmap, -⟩ := TagMap.exists_isTagMap_of_read hread
      exact .inr ⟨part, rest, hregion, hmap⟩
  · rintro (⟨hregion, rfl⟩ | ⟨part, rest, hregion, hmap⟩)
    · exact ⟨none, hregion, rfl⟩
    · refine ⟨some (part ++ rest), hregion, ?_⟩
      simp only [TagMap.read_of_isTagMap hmap]
      rfl

theorem decode_eq_ok_iff :
    r.decode = .ok es ↔ ∃ maps : List (List (UInt32 × Entry)),
      List.Forall₂ (fun offset entries => r.tagMap offset = .ok entries) tagMapOffsets maps ∧
      es = annotate r.details (.ofList maps.flatten) := by
  simp only [decode, bind_eq_ok_iff, mapM_eq_ok_iff, mapError_eq_ok_iff]
  constructor
  · rintro ⟨maps, hmaps, heq⟩
    exact ⟨maps, hmaps, (Except.ok.inj heq).symm⟩
  · rintro ⟨maps, hmaps, rfl⟩
    exact ⟨maps, hmaps, rfl⟩

theorem exists_entries_of_decode (h : r.decode = .ok es) (hoffset : offset ∈ tagMapOffsets) :
    ∃ entries, r.tagMap offset = .ok entries := by
  obtain ⟨maps, hmaps, -⟩ := decode_eq_ok_iff.1 h
  exact exists_rel_of_mem hmaps.flip hoffset

end Record

end PowerFormulas
