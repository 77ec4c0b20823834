import PowerFormulas.Catalog.Document
import PowerFormulas.Proofs.Json.Shapes
import PowerFormulas.Registry

/-!
# Dumps and definitions are read back

Dumped tags and powers and tag definitions can be read from their compact text again, as they were
(`documents_are_read_back`). Of a script that is dumped this keeps all but its progress, whatever
stands in its source text and its comment.
-/

namespace PowerFormulas

open Json (Value RoundTrips)

/-! ### Dumped tags -/

theorem ScriptDump.roundTrips : RoundTrips toJson ofJson? where
  canonical s := by
    apply Json.isCanonical_array
    intro item hitem
    rw [List.mem_cons, List.mem_cons] at hitem
    rcases hitem with rfl | rfl | hitem
    · exact Json.isCanonical_text _
    · exact Json.isCanonical_text _
    · split at hitem
      · cases hitem
      · rw [List.mem_singleton] at hitem
        rw [hitem]
        exact Json.isCanonical_text _
  read_write s := by
    obtain ⟨source, code, comment⟩ := s
    have hcode : (HexWords.read (HexWords.write code)).toOption = some code := by
      rw [HexWords.read_write]
      rfl
    by_cases hcomment : comment.isEmpty = true
    · have hempty : comment = "" := String.isEmpty_iff.1 hcomment
      simp only [toJson, ofJson?, Json.text?_text, Option.bind_eq_bind, Option.bind_some, hcode,
        hempty]
      rfl
    · simp only [toJson, ofJson?, hcomment, Json.text?_text, Option.bind_eq_bind, Option.bind_some,
        hcode]
      rfl

/-- A value is a number and a script is an array, so neither is taken for the other. -/
theorem TagDump.roundTrips : RoundTrips toJson ofJson? where
  canonical tag := by
    cases tag with
    | value bits => exact Json.isCanonical_natural _
    | script s => exact ScriptDump.roundTrips.canonical s
  read_write tag := by
    cases tag with
    | value bits =>
      rw [toJson, ofJson?, Json.word?_natural]
    | script s =>
      have hword : s.toJson.word? = none := rfl
      rw [toJson, ofJson?, hword]
      simp only [ScriptDump.roundTrips.read_write, Option.map_some]

theorem TagDumps.roundTrips : RoundTrips TagDumps.toJson TagDumps.ofJson? :=
  TagDump.roundTrips.table

theorem TagDumps.parse_write (tags : TagDumps) : TagDumps.parse tags.toJson.write = .ok tags := by
  rw [parse, TagDumps.roundTrips.read?_write]

/-! ### Dumped powers -/

theorem PowerDump.roundTrips : RoundTrips toJson ofJson? where
  canonical p :=
    Json.isCanonical_pair (Json.isCanonical_natural _) (TagDumps.roundTrips.canonical p.tags)
  read_write p := by
    rw [toJson, ofJson?, Json.fields?_ofMembers (by decide)]
    simp only [Option.bind_eq_bind, Option.bind_some, Json.word?_natural,
      TagDumps.roundTrips.read_write]
    rfl

theorem PowerDumps.roundTrips : RoundTrips PowerDumps.toJson PowerDumps.ofJson? :=
  PowerDump.roundTrips.table

/-! ### Tag definitions -/

theorem TagDef.roundTrips : RoundTrips toJson ofJson? where
  canonical _ := Json.isCanonical_pair (Json.isCanonical_text _) (Json.isCanonical_text _)
  read_write tag := by
    rw [toJson, ofJson?, Json.fields?_ofMembers (by decide)]
    simp only [Option.bind_eq_bind, Option.bind_some, Json.text?_text]
    rfl

theorem TagDefinitions.roundTrips : RoundTrips TagDefinitions.toJson TagDefinitions.ofJson? :=
  TagDef.roundTrips.table

theorem TagDefinitions.parse_write (definitions : TagDefinitions) :
    TagDefinitions.parse definitions.toJson.write = .ok definitions := by
  rw [parse, TagDefinitions.roundTrips.read?_write]

/-! ### Scripts in dumps -/

theorem TagDump.ofEntry_script {body : Script} {comment : String} {progress : Progress}
    (h : ∀ value, progress ≠ .done value) :
    ofEntry (.script body comment progress) =
      .script ⟨body.source, body.code, comment⟩ := by
  cases progress with
  | unevaluated | inProgress => rfl
  | done value => exact absurd rfl (h value)

namespace Power

variable {c : Catalog} {p : Power} {id : UInt32} {e : Entry}

/-- Of tags that share a raw name the one with the greatest id is dumped. -/
theorem getElem?_dump (he : p.entries[id]? = some e)
    (hlast : ∀ other, id < other → other ∈ p.entries → c.rawLabel other ≠ c.rawLabel id) :
    (p.dump c)[c.rawLabel id]? = some (TagDump.ofEntry e) := by
  have hmem : (id, e) ∈ p.entries.toList := Std.ExtTreeMap.mem_toList_iff_getElem?_eq_some.2 he
  obtain ⟨before, behind, hsplit⟩ := List.append_of_mem hmem
  have hordered : (p.entries.toList).Pairwise fun a b => compare a.1 b.1 = .lt :=
    Std.ExtTreeMap.ordered_keys_toList
  rw [hsplit, List.pairwise_append, List.pairwise_cons] at hordered
  rw [dump, getElem?_ofList, List.lookup_eq_some_iff, hsplit, List.map_append, List.map_cons,
    List.reverse_append, List.reverse_cons, List.append_assoc]
  refine ⟨_, _, rfl, ?_⟩
  -- what comes behind in the list has a greater id, so it is another name
  intro pair hpair
  obtain ⟨⟨other, e'⟩, hother, rfl⟩ := List.mem_map.1 (List.mem_reverse.1 hpair)
  have hlt : id < other := compareOfLessAndEq_eq_lt.1 (hordered.2.1.1 _ hother)
  have hkept : other ∈ p.entries := by
    have hall : (other, e') ∈ p.entries.toList := by
      rw [hsplit]
      exact List.mem_append_right _ (List.mem_cons_of_mem _ hother)
    rw [Std.ExtTreeMap.mem_iff_isSome_getElem?,
      Std.ExtTreeMap.mem_toList_iff_getElem?_eq_some.1 hall]
    rfl
  exact bne_iff_ne.2 (hlast other hlt hkept).symm

end Power

/-! ### Main statement -/

/-- Dumped tags, dumped powers and tag definitions are read from their compact text as they were.
So a dump keeps the source text, the program and the comment of each script that has no value yet,
and a dump of all powers that a registry gives keeps everything in it. -/
theorem documents_are_read_back :
    (∀ tags : TagDumps, TagDumps.parse tags.toJson.write = .ok tags) ∧
    (∀ powers : PowerDumps,
      Value.read? powers.toJson.write >>= PowerDumps.ofJson? = some powers) ∧
    (∀ definitions : TagDefinitions,
      TagDefinitions.parse definitions.toJson.write = .ok definitions) ∧
    (∀ (c : Catalog) (p : Power), ∃ tags, TagDumps.parse (p.dump c).toJson.write = .ok tags ∧
      tags = p.dump c ∧
      ∀ (id : UInt32) (body : Script) (comment : String) (progress : Progress),
        p.entries[id]? = some (.script body comment progress) →
        (∀ value, progress ≠ .done value) →
        (∀ other, id < other → other ∈ p.entries → c.rawLabel other ≠ c.rawLabel id) →
        tags[c.rawLabel id]? = some (.script ⟨body.source, body.code, comment⟩)) ∧
    ∀ (l : Library) (r : Registry) (powers : PowerDumps), (r.dumpAll l).1 = .ok powers →
      Value.read? powers.toJson.write >>= PowerDumps.ofJson? = some powers := by
  refine ⟨TagDumps.parse_write, PowerDumps.roundTrips.read?_write, TagDefinitions.parse_write, ?_,
    fun l r powers _ => PowerDumps.roundTrips.read?_write powers⟩
  intro c p
  refine ⟨_, TagDumps.parse_write _, rfl, ?_⟩
  intro id body comment progress he hprogress hlast
  rw [Power.getElem?_dump he hlast, TagDump.ofEntry_script hprogress]

/-- A stuck script with all kinds of characters in its text, beside a value. -/
theorem quoted_script_is_read_back :
    let body : Script := ⟨[1, 0xFFFFFFFF], "\"\\\n\x01é😀"⟩
    let p : Power := ⟨"Jab", 5,
      .ofList [((7 : UInt32), Entry.script body "" .inProgress), (9, .constant (-1))]⟩
    ∃ tags, TagDumps.parse (p.dump .empty).toJson.write = .ok tags ∧ tags = p.dump .empty ∧
      tags["7"]? = some (.script ⟨body.source, body.code, ""⟩) := by
  intro body p
  obtain ⟨tags, hparse, htags, hscripts⟩ := documents_are_read_back.2.2.2.1 .empty p
  refine ⟨tags, hparse, htags, ?_⟩
  have hscript : p.entries[(7 : UInt32)]? = some (.script body "" .inProgress) := by decide +kernel
  have hlast : ∀ other, (7 : UInt32) < other → other ∈ p.entries →
      Catalog.empty.rawLabel other ≠ Catalog.empty.rawLabel 7 := by
    intro other hlt hmem
    have hother : other = 7 ∨ other = 9 := by
      simpa [p, Std.ExtTreeMap.mem_ofList] using hmem
    rcases hother with rfl | rfl
    · exact absurd hlt (by decide)
    · decide +kernel
  have hlabel : Catalog.empty.rawLabel 7 = "7" := by decide +kernel
  rw [← hlabel]
  exact hscripts 7 body "" .inProgress hscript nofun hlast

end PowerFormulas
