import Mathlib.Control.Monad.Basic
import PowerFormulas.Proofs.Dump.RoundTrip
import PowerFormulas.Proofs.Json.Documents

/-!
# The language of dumps

A text is read as dumped tags just if it is a document that is an object of leaves, those of a name
that comes again included. Of the leaves that have one name the last one counts
(`parse_accepts_documents_of_leaves`).
-/

namespace PowerFormulas

open Json (Value IsDocument)
open Json.Value (text natural ofMembers)

/-- The values that stand for a dumped tag: a number of 32 bits, or two or three strings of which
the second one is a program. -/
inductive IsLeaf : Value → TagDump → Prop where
  | value {n : Nat} : n < UInt32.size → IsLeaf (natural n) (.value (UInt32.ofNat n))
  | script {source code : String} {words : List UInt32} : HexWords.read code = .ok words →
      IsLeaf (.array [text source, text code]) (.script ⟨source, words, ""⟩)
  | commented {source code comment : String} {words : List UInt32} :
      HexWords.read code = .ok words →
      IsLeaf (.array [text source, text code, text comment]) (.script ⟨source, words, comment⟩)

variable {v : Value} {tag : TagDump} {members : List (String × Value)}

theorem HexWords.toOption_read_eq_some_iff {code : String} {words : List UInt32} :
    (read code).toOption = some words ↔ read code = .ok words := by
  cases hread : read code with
  | error => exact ⟨nofun, nofun⟩
  | ok found => exact ⟨fun h => congrArg Except.ok (Option.some.inj h), fun h => by cases h; rfl⟩

theorem ScriptDump.ofJson?_eq_some_iff {s : ScriptDump} :
    ofJson? v = some s ↔ IsLeaf v (.script s) := by
  refine ⟨fun h => ?_, fun h => ?_⟩
  · unfold ofJson? at h
    split at h
    · rename_i comment
      simp only [Option.bind_eq_bind, Option.bind_eq_some_iff, Json.text?_eq_some_iff] at h
      obtain ⟨source, rfl, code, rfl, h⟩ := h
      split at h
      · simp only [Option.bind_some, Option.bind_eq_some_iff,
          HexWords.toOption_read_eq_some_iff] at h
        obtain ⟨words, hwords, h⟩ := h
        cases h
        exact .script hwords
      · simp only [Option.bind_eq_some_iff, Json.text?_eq_some_iff,
          HexWords.toOption_read_eq_some_iff] at h
        obtain ⟨comment, rfl, words, hwords, h⟩ := h
        cases h
        exact .commented hwords
      · cases h
    · cases h
  · cases h with
    | script hwords | commented hwords =>
      simp only [ofJson?, Json.text?_text, hwords, Option.bind_eq_bind, Option.bind_some]
      rfl

/-- No script is a number, so it does not matter which of the two is tried first. -/
theorem TagDump.ofJson?_eq_some_iff : ofJson? v = some tag ↔ IsLeaf v tag := by
  unfold ofJson?
  split
  · rename_i bits hbits
    rw [Json.word?_eq_some_iff] at hbits
    rw [hbits]
    refine ⟨fun h => ?_, fun h => ?_⟩
    · cases h
      have hleaf := IsLeaf.value bits.toNat_lt
      rwa [UInt32.ofNat_toNat] at hleaf
    · cases h with
      | value => rw [UInt32.ofNat_toNat]
  · rename_i hword
    rw [Option.map_eq_some_iff]
    refine ⟨fun h => ?_, fun h => ?_⟩
    · obtain ⟨s, hs, rfl⟩ := h
      exact ScriptDump.ofJson?_eq_some_iff.1 hs
    · cases h with
      | value hn =>
        rw [natural, Value.word?, if_pos hn] at hword
        cases hword
      | script hwords => exact ⟨_, ScriptDump.ofJson?_eq_some_iff.2 (.script hwords), rfl⟩
      | commented hwords => exact ⟨_, ScriptDump.ofJson?_eq_some_iff.2 (.commented hwords), rfl⟩

namespace TagDumps

variable {content : String} {tags : TagDumps}

/-- Only an object whose names all are texts is a table. -/
theorem parse_eq_ok_iff : parse content = .ok tags ↔ ∃ members,
    IsDocument content (ofMembers members) ∧ ofJson? (ofMembers members) = some tags := by
  have hread : parse content = .ok tags ↔ ∃ v, IsDocument content v ∧ ofJson? v = some tags := by
    simp only [← Value.read?_eq_some_iff, ← Option.bind_eq_some_iff, parse, Option.bind_eq_bind]
    cases (Value.read? content).bind ofJson? with
    | none => simp only [reduceCtorEq]
    | some found => rw [Except.ok.injEq, Option.some.injEq]
  rw [hread]
  refine ⟨fun h => ?_, fun h => ?_⟩
  · obtain ⟨v, hv, htags⟩ := h
    have hmembers := htags
    simp only [ofJson?, Value.table?, Option.bind_eq_bind, Option.bind_eq_some_iff] at hmembers
    obtain ⟨members, hmembers, -⟩ := hmembers
    rw [Json.members?_eq_some_iff] at hmembers
    rw [hmembers] at hv htags
    exact ⟨members, hv, htags⟩
  · obtain ⟨members, hv, htags⟩ := h
    exact ⟨_, hv, htags⟩

/-- What is said of a document is said of the members that are read. -/
theorem ofJson?_of_parse (hdocument : IsDocument content (ofMembers members))
    (h : parse content = .ok tags) : ofJson? (ofMembers members) = some tags := by
  obtain ⟨found, hfound, htags⟩ := parse_eq_ok_iff.1 h
  rw [← Value.read?_eq_some_iff] at hdocument hfound
  rw [hdocument] at hfound
  rw [Option.some.inj hfound]
  exact htags

theorem getElem?_of_parse (hdocument : IsDocument content (ofMembers members))
    (h : parse content = .ok tags) (key : String) (tag : TagDump) : tags[key]? = some tag ↔
      ∃ before v behind, members = before ++ (key, v) :: behind ∧
        (∀ member ∈ behind, member.1 ≠ key) ∧ IsLeaf v tag := by
  rw [Json.getElem?_of_table? (ofJson?_of_parse hdocument h), Option.bind_eq_some_iff]
  simp only [List.lookup_eq_some_iff, TagDump.ofJson?_eq_some_iff]
  refine ⟨fun h => ?_, fun h => ?_⟩
  · obtain ⟨v, ⟨behind, before, hsplit, hbehind⟩, hleaf⟩ := h
    refine ⟨before.reverse, v, behind.reverse, ?_, ?_, hleaf⟩
    · have hmembers := congrArg List.reverse hsplit
      simpa using hmembers
    · intro member hmember
      exact (bne_iff_ne.1 (hbehind member (List.mem_reverse.1 hmember))).symm
  · obtain ⟨before, v, behind, rfl, hbehind, hleaf⟩ := h
    refine ⟨v, ⟨behind.reverse, before.reverse, by simp, ?_⟩, hleaf⟩
    intro member hmember
    exact bne_iff_ne.2 (hbehind member (List.mem_reverse.1 hmember)).symm

/-- A text is read as dumped tags just if it is one document and an object of leaves, those of a
name that comes again included. Each name then has the leaf that it comes with last. What is read
is read again from its own text. -/
theorem parse_accepts_documents_of_leaves (content : String) :
    ((∃ tags, parse content = .ok tags) ↔
      ∃ members, IsDocument content (ofMembers members) ∧
        ∀ member ∈ members, ∃ tag, IsLeaf member.2 tag) ∧
    (∀ (members : List (String × Value)) (tags : TagDumps),
      IsDocument content (ofMembers members) → parse content = .ok tags →
      ∀ (key : String) (tag : TagDump), tags[key]? = some tag ↔
        ∃ before v behind, members = before ++ (key, v) :: behind ∧
          (∀ member ∈ behind, member.1 ≠ key) ∧ IsLeaf v tag) ∧
    ∀ tags, parse content = .ok tags → parse tags.toJson.write = .ok tags := by
  refine ⟨?_, fun members tags => getElem?_of_parse, fun tags _ => parse_write tags⟩
  have hleaves : ∀ members : List (String × Value),
      (∃ tags, ofJson? (ofMembers members) = some tags) ↔
        ∀ member ∈ members, ∃ tag, IsLeaf member.2 tag := by
    intro members
    simp only [ofJson?, Json.exists_table?_ofMembers_iff, TagDump.ofJson?_eq_some_iff]
  simp only [parse_eq_ok_iff, ← hleaves]
  refine ⟨fun h => ?_, fun h => ?_⟩
  · obtain ⟨tags, members, hdocument, htags⟩ := h
    exact ⟨members, hdocument, tags, htags⟩
  · obtain ⟨members, hdocument, tags, htags⟩ := h
    exact ⟨tags, members, hdocument, htags⟩

/-- An escape, words of few digits, and a name that comes again with a leaf of another kind. -/
theorem last_leaf_of_c_is_read :
    let content :=
      " \x7b\"C\": 7 ,\"B\":[\"a\\u0062\", \"+A, 00b\"],\n\"C\":[\"\",\"\",\"note\"]\x7d"
    let members := [("C", natural 7), ("B", .array [text "ab", text "+A, 00b"]),
      ("C", .array [text "", text "", text "note"])]
    ∃ tags, parse content = .ok tags ∧ IsDocument content (ofMembers members) ∧
      tags["C"]? = some (.script ⟨"", [], "note"⟩) ∧
      tags["B"]? = some (.script ⟨"ab", [10, 11], ""⟩) ∧
      parse tags.toJson.write = .ok tags := by
  intro content members
  obtain ⟨haccepts, hlast, hagain⟩ := parse_accepts_documents_of_leaves content
  have htokens : Json.tokens? content.toList = some (ofMembers members).tokens := by
    decide +kernel
  have hdocument : IsDocument content (ofMembers members) := by
    rw [← Value.read?_eq_some_iff, Value.read?, htokens]
    exact Json.ofTokens?_eq_some_iff.2 rfl
  have hnone : HexWords.read "" = .ok [] := by decide +kernel
  have hwords : HexWords.read "+A, 00b" = .ok [10, 11] := by decide +kernel
  have hcommented : IsLeaf (.array [text "", text "", text "note"]) (.script ⟨"", [], "note"⟩) :=
    .commented hnone
  have hscript : IsLeaf (.array [text "ab", text "+A, 00b"]) (.script ⟨"ab", [10, 11], ""⟩) :=
    .script hwords
  have hleaves : ∀ member ∈ members, ∃ tag, IsLeaf member.2 tag := by
    simp only [members, List.forall_mem_cons]
    exact ⟨⟨_, .value (by decide)⟩, ⟨_, hscript⟩, ⟨_, hcommented⟩, List.forall_mem_nil _⟩
  obtain ⟨tags, htags⟩ := haccepts.2 ⟨members, hdocument, hleaves⟩
  refine ⟨tags, htags, hdocument, ?_, ?_, hagain tags htags⟩
  · exact (hlast members tags hdocument htags "C" _).2
      ⟨[_, _], _, [], rfl, List.forall_mem_nil _, hcommented⟩
  · exact (hlast members tags hdocument htags "B" _).2
      ⟨[_], _, _, rfl, by decide +kernel, hscript⟩

end TagDumps

end PowerFormulas
