import PowerFormulas.Proofs.Record.Layout

/-!
# What is laid out is decoded

A record decodes to what was laid out in it: under each tag id stands the last entry written for it,
maps taken in the order of their slots and entries in the order of their map
(`Layout.decode_record_gives_last_written`). The order in which the maps were put does not count.
-/

namespace PowerFormulas.Record.Layout

open TagMap (Line)

variable (l : Layout)

def written : List (UInt32 × Entry) :=
  (List.finRange tagMapOffsets.length).flatMap fun slot => (l.lines slot).map Line.entry

/-- The last entry written for the tag id. -/
def lastWritten (id : UInt32) : Option Entry := l.written.reverse.lookup id

theorem decode_record (name : String) (id : UInt32) (details : List String) :
    (l.record name id details).decode = .ok (annotate details (.ofList l.written)) := by
  have hoffsets : (List.finRange tagMapOffsets.length).map (fun slot => tagMapOffsets[slot]) =
      tagMapOffsets := List.map_getElem_finRange tagMapOffsets
  have hmaps : List.Forall₂
      (fun offset entries => (l.record name id details).tagMap offset = .ok entries)
      ((List.finRange tagMapOffsets.length).map fun slot => tagMapOffsets[slot])
      ((List.finRange tagMapOffsets.length).map fun slot => (l.lines slot).map Line.entry) := by
    rw [List.forall₂_map_left_iff, List.forall₂_map_right_iff, List.forall₂_same]
    intro slot _
    exact l.tagMap_record name id details slot
  rw [hoffsets] at hmaps
  refine decode_eq_ok_iff.2 ⟨_, hmaps, ?_⟩
  rw [written, List.flatMap_def]
  rfl

/-- Decoding succeeds, and what it finds under each tag id is the last entry written for it. The
texts of the script slots change the comments and nothing else. -/
theorem decode_record_gives_last_written (name : String) (id : UInt32) (details : List String) :
    ∃ es, (l.record name id details).decode = .ok (annotate details es) ∧
      ∀ tag, es[tag]? = l.lastWritten tag ∧
        ∃ text, (annotate details es)[tag]? = (l.lastWritten tag).map (Entry.annotate text) := by
  refine ⟨_, l.decode_record name id details, fun tag => ?_⟩
  have hlast : (Std.ExtTreeMap.ofList l.written : Entries)[tag]? = l.lastWritten tag :=
    getElem?_ofList l.written tag
  obtain ⟨text, htext⟩ := exists_getElem?_annotate details (.ofList l.written) tag
  exact ⟨hlast, text, by rw [htext, hlast]⟩

/-- Two maps, the one of the later slot put first; both have an entry for the tag id 3. -/
def twoMaps : Layout where
  header := [1, 0, 0, 0, 0, 0]
  maps :=
    [(⟨8, by decide⟩, [.constant ⟨9, by decide⟩ 3 (-5),
      .script 7 (.replicate 5 1) 2 ⟨"Ärger", by decide⟩ [1, 2, 3]]),
    (⟨2, by decide⟩, [.script 3 (.replicate 5 0) 0 ⟨"", by decide⟩ [],
      .constant ⟨0, by decide⟩ 4 6])]
  distinct := by decide
  header_lt := by decide
  fits := by
    refine ⟨?_, ?_, ?_, ?_, trivial⟩ <;> decide

theorem twoMaps_decodes : ∃ es, (twoMaps.record "Kick" 12 []).decode = .ok es ∧
    es[(3 : UInt32)]? = some (.constant (-5)) ∧ es[(4 : UInt32)]? = some (.constant 6) ∧
    es[(7 : UInt32)]? = some (.ofScript ⟨[1, 2, 3], "Ärger"⟩) ∧ es[(8 : UInt32)]? = none := by
  obtain ⟨es, hdecode, hlast⟩ := twoMaps.decode_record_gives_last_written "Kick" 12 []
  have hfound (tag : UInt32) : es[tag]? = twoMaps.lastWritten tag := (hlast tag).1
  refine ⟨es, hdecode, ?_, ?_, ?_, ?_⟩ <;> rw [hfound] <;> rfl

end PowerFormulas.Record.Layout
