import PowerFormulas.Proofs.Cursor.Passage
import PowerFormulas.TagMap

/-!
# The grammar of tag maps

What a tag map may look like in bytes, said without a reader: `WrittenEntry` for one entry,
`WrittenEntries` for a row of them, `IsTagMap` for the count and its entries. The reader accepts
what starts with a tag map and nothing else, gives its entries in order, counts its words, and looks
at nothing behind it (`read_accepts_exactly_tag_maps`).
-/

namespace PowerFormulas.TagMap

open Bytes (ofWord)

/-- The bytes of one entry. -/
inductive WrittenEntry : List UInt8 → UInt32 × Entry → Prop where
  | constant {kind : UInt32} (hkind : kind ≠ scriptKind) (id : UInt32) (value : Int32) :
      WrittenEntry (ofWord kind ++ ofWord id ++ ofWord value.toUInt32) (id, .constant value)
  | script (id textLength codeLength : UInt32) {head mid text : List UInt8} {code : List UInt32}
      (hhead : head.length = 4 * 5) (hmid : mid.length = 4 * 1)
      (htext : text.length = 4 * wordsFor textLength) (hcode : code.length = wordsFor codeLength) :
      WrittenEntry
        (ofWord scriptKind ++ ofWord id ++ (head ++ ofWord textLength ++ mid ++ ofWord codeLength ++
          text ++ code.flatMap ofWord))
        (id, .ofScript ⟨code, sourceText (text.take textLength.toNat)⟩)

inductive WrittenEntries : List UInt8 → List (UInt32 × Entry) → Prop where
  | nil : WrittenEntries [] []
  | cons {part rest : List UInt8} {entry : UInt32 × Entry} {entries : List (UInt32 × Entry)} :
      WrittenEntry part entry → WrittenEntries rest entries →
      WrittenEntries (part ++ rest) (entry :: entries)

/-- The bytes of a tag map: the number of its entries, and the entries. -/
def IsTagMap (bytes : List UInt8) (entries : List (UInt32 × Entry)) : Prop :=
  ∃ (count : UInt32) (body : List UInt8), bytes = ofWord count ++ body ∧
    WrittenEntries body entries ∧ entries.length = count.toNat

variable {c c' : Cursor} {e : Entry} {entry : UInt32 × Entry} {entries : List (UInt32 × Entry)}
  {bytes part rest : List UInt8}

/-! ### Whole words -/

theorem WrittenEntry.length_mod (h : WrittenEntry part entry) : part.length % 4 = 0 := by
  cases h with
  | constant => simp only [List.length_append, Bytes.length_ofWord]
  | script id textLength codeLength hhead hmid htext hcode =>
    simp only [List.length_append, Bytes.length_ofWord, Bytes.length_flatMap_ofWord]
    omega

theorem WrittenEntries.length_mod (h : WrittenEntries part entries) : part.length % 4 = 0 := by
  induction h with
  | nil => rfl
  | cons h _ ih =>
    have := h.length_mod
    rw [List.length_append]
    omega

theorem IsTagMap.length_mod (h : IsTagMap part entries) : part.length % 4 = 0 := by
  obtain ⟨count, body, rfl, hbody, -⟩ := h
  have := hbody.length_mod
  rw [List.length_append, Bytes.length_ofWord]
  omega

/-! ### What can be written -/

theorem WrittenEntry.eq_unevaluated {id : UInt32} {body : Script} {comment : String} {p : Progress}
    (h : WrittenEntry part (id, .script body comment p)) : p = .unevaluated := by
  cases h
  rfl

theorem WrittenEntries.exists_written (h : WrittenEntries part entries) (hentry : entry ∈ entries) :
    ∃ part, WrittenEntry part entry := by
  induction h with
  | nil => cases hentry
  | cons h _ ih =>
    rcases List.mem_cons.1 hentry with rfl | hentry
    · exact ⟨_, h⟩
    · exact ih hentry

/-! ### One entry -/

theorem readConstant_eq_ok_iff :
    readConstant c = .ok (e, c') ↔
      ∃ value : Int32, e = .constant value ∧ c.Passes (ofWord value.toUInt32) c' := by
  simp only [readConstant, bind_eq_ok_iff, Prod.exists, Cursor.int_eq_ok_iff]
  constructor
  · rintro ⟨value, c₁, h, heq⟩
    cases heq
    exact ⟨value, rfl, h⟩
  · rintro ⟨value, rfl, h⟩
    exact ⟨value, c', h, rfl⟩

theorem readScript_eq_ok_iff :
    readScript c = .ok (e, c') ↔
      ∃ (textLength codeLength : UInt32) (head mid text : List UInt8) (code : List UInt32),
        head.length = 4 * 5 ∧ mid.length = 4 * 1 ∧ text.length = 4 * wordsFor textLength ∧
        code.length = wordsFor codeLength ∧
        e = .ofScript ⟨code, sourceText (text.take textLength.toNat)⟩ ∧
        c.Passes (head ++ ofWord textLength ++ mid ++ ofWord codeLength ++ text ++
          code.flatMap ofWord) c' := by
  have hfive : 5 * wordBytes < addressSpace := by decide
  have hone : 1 * wordBytes < addressSpace := by decide
  simp only [readScript, bind_eq_ok_iff, Prod.exists, Cursor.skip_eq_ok_iff hfive,
    Cursor.skip_eq_ok_iff hone, Cursor.word_eq_ok_iff,
    Cursor.take_eq_ok_iff_passes (Cursor.wordsFor_mul_lt _),
    Cursor.words_eq_ok_iff (Cursor.wordsFor_mul_lt _), Cursor.passes_append]
  constructor
  · rintro ⟨c₁, ⟨head, hhead, h₁⟩, textLength, c₂, h₂, c₃, ⟨mid, hmid, h₃⟩, codeLength, c₄, h₄,
      text, c₅, ⟨htext, h₅⟩, code, c₆, ⟨hcode, h₆⟩, heq⟩
    cases heq
    exact ⟨textLength, codeLength, head, mid, text, code, hhead, hmid, htext, hcode, rfl,
      c₅, ⟨c₄, ⟨c₃, ⟨c₂, ⟨c₁, h₁, h₂⟩, h₃⟩, h₄⟩, h₅⟩, h₆⟩
  · rintro ⟨textLength, codeLength, head, mid, text, code, hhead, hmid, htext, hcode, rfl,
      c₅, ⟨c₄, ⟨c₃, ⟨c₂, ⟨c₁, h₁, h₂⟩, h₃⟩, h₄⟩, h₅⟩, h₆⟩
    exact ⟨c₁, ⟨head, hhead, h₁⟩, textLength, c₂, h₂, c₃, ⟨mid, hmid, h₃⟩, codeLength, c₄, h₄,
      text, c₅, ⟨htext, h₅⟩, code, c', ⟨hcode, h₆⟩, rfl⟩

theorem readEntry_eq_ok_iff :
    readEntry c = .ok (entry, c') ↔ ∃ part, WrittenEntry part entry ∧ c.Passes part c' := by
  simp only [readEntry, bind_eq_ok_iff, Prod.exists, Cursor.word_eq_ok_iff]
  constructor
  · rintro ⟨kind, c₁, h₁, id, c₂, h₂, hentry⟩
    split at hentry
    · rename_i hkind
      obtain ⟨⟨e, c₃⟩, hread, heq⟩ := bind_eq_ok_iff.1 hentry
      cases heq
      obtain ⟨textLength, codeLength, head, mid, text, code, hhead, hmid, htext, hcode, rfl, h₃⟩ :=
        readScript_eq_ok_iff.1 hread
      rw [show kind = scriptKind from hkind] at h₁
      refine ⟨_, .script id textLength codeLength hhead hmid htext hcode, ?_⟩
      exact Cursor.passes_append.2 ⟨c₂, Cursor.passes_append.2 ⟨c₁, h₁, h₂⟩, h₃⟩
    · rename_i hkind
      obtain ⟨⟨e, c₃⟩, hread, heq⟩ := bind_eq_ok_iff.1 hentry
      cases heq
      obtain ⟨value, rfl, h₃⟩ := readConstant_eq_ok_iff.1 hread
      refine ⟨_, .constant hkind id value, ?_⟩
      exact Cursor.passes_append.2 ⟨c₂, Cursor.passes_append.2 ⟨c₁, h₁, h₂⟩, h₃⟩
  · rintro ⟨part, hpart, h⟩
    cases hpart with
    | @constant kind hkind id value =>
      obtain ⟨c₂, h₁₂, h₃⟩ := Cursor.passes_append.1 h
      obtain ⟨c₁, h₁, h₂⟩ := Cursor.passes_append.1 h₁₂
      refine ⟨kind, c₁, h₁, id, c₂, h₂, ?_⟩
      rw [if_neg hkind]
      exact bind_eq_ok_iff.2 ⟨_, readConstant_eq_ok_iff.2 ⟨value, rfl, h₃⟩, rfl⟩
    | script id textLength codeLength hhead hmid htext hcode =>
      obtain ⟨c₂, h₁₂, h₃⟩ := Cursor.passes_append.1 h
      obtain ⟨c₁, h₁, h₂⟩ := Cursor.passes_append.1 h₁₂
      refine ⟨scriptKind, c₁, h₁, id, c₂, h₂, ?_⟩
      rw [if_pos rfl]
      refine bind_eq_ok_iff.2 ⟨_, readScript_eq_ok_iff.2 ?_, rfl⟩
      exact ⟨textLength, codeLength, _, _, _, _, hhead, hmid, htext, hcode, rfl, h₃⟩

/-! ### Entries in a row -/

theorem readEntries_eq_ok_iff {count : Nat} :
    readEntries count c = (entries, .ok c') ↔
      entries.length = count ∧ ∃ part, WrittenEntries part entries ∧ c.Passes part c' := by
  induction count generalizing c entries with
  | zero =>
    constructor
    · intro h
      cases h
      exact ⟨rfl, [], .nil, Cursor.passes_nil.2 rfl⟩
    · rintro ⟨hlength, part, hpart, h⟩
      cases hpart with
      | nil =>
        rw [Cursor.passes_nil.1 h]
        rfl
      | cons => cases hlength
  | succ count ih =>
    rw [readEntries]
    constructor
    · intro h
      split at h
      · cases h
      · rename_i entry c₁ hentry
        obtain ⟨part, hpart, h₁⟩ := readEntry_eq_ok_iff.1 hentry
        obtain ⟨rfl, hlast⟩ := Prod.mk.inj h
        obtain ⟨hlength, rest, hrest, h₂⟩ := ih.1 (Prod.ext rfl hlast)
        refine ⟨?_, part ++ rest, .cons hpart hrest, Cursor.passes_append.2 ⟨c₁, h₁, h₂⟩⟩
        rw [List.length_cons, hlength]
    · rintro ⟨hlength, part, hpart, h⟩
      cases hpart with
      | nil => cases hlength
      | cons hentry hrest =>
        obtain ⟨c₁, h₁, h₂⟩ := Cursor.passes_append.1 h
        rw [readEntry_eq_ok_iff.2 ⟨_, hentry, h₁⟩]
        have hmore := ih.2 ⟨Nat.succ.inj hlength, _, hrest, h₂⟩
        simp only [hmore]

/-! ### The whole map -/

theorem read_of_isTagMap (h : IsTagMap part entries) (rest : List UInt8) :
    read (part ++ rest) = ⟨entries, .ok (part.length / 4)⟩ := by
  obtain ⟨count, body, rfl, hbody, hlength⟩ := h
  have hstart : (Cursor.start (ofWord count ++ body ++ rest)).Passes (ofWord count)
      ⟨4, body ++ rest⟩ := ⟨List.append_assoc _ _ _, rfl⟩
  have hentries : readEntries count.toNat ⟨4, body ++ rest⟩ =
      (entries, .ok ⟨4 + body.length, rest⟩) :=
    readEntries_eq_ok_iff.2 ⟨hlength, body, hbody, Cursor.passes_self_append 4 body rest⟩
  rw [read, Cursor.word_eq_ok_iff.2 hstart]
  simp only [hentries, Except.map, Cursor.wordsRead, wordBytes, List.length_append,
    Bytes.length_ofWord]

theorem exists_isTagMap_of_read {words : Nat} (h : (read bytes).outcome = .ok words) :
    ∃ part rest, bytes = part ++ rest ∧ IsTagMap part (read bytes).entries ∧
      part.length = 4 * words := by
  cases hword : (Cursor.start bytes).word with
  | error fault =>
    rw [read, hword] at h
    cases h
  | ok found =>
    obtain ⟨count, c⟩ := found
    have hcount := Cursor.word_eq_ok_iff.1 hword
    cases hread : readEntries count.toNat c with
    | mk entries last =>
      have heq : read bytes = ⟨entries, last.map Cursor.wordsRead⟩ := by
        rw [read, hword]
        simp only [hread]
      rw [heq] at h ⊢
      cases last with
      | error fault => cases h
      | ok c' =>
        obtain ⟨hlength, body, hbody, hpasses⟩ := readEntries_eq_ok_iff.1 hread
        have hmap : IsTagMap (ofWord count ++ body) entries := ⟨count, body, rfl, hbody, hlength⟩
        have hall := Cursor.passes_append.2 ⟨c, hcount, hpasses⟩
        refine ⟨ofWord count ++ body, c'.rest, hall.rest, hmap, ?_⟩
        -- the cursor has come as far as the map is long, which is a number of whole words
        have hposition : c'.position = (ofWord count ++ body).length := by
          have h := hall.position
          rwa [show (Cursor.start bytes).position = 0 from rfl, Nat.zero_add] at h
        have hwords : c'.position / 4 = words := Except.ok.inj h
        have hmod := hmap.length_mod
        omega

/-! ### Main statement -/

/-- Reading succeeds, with this number of words and these entries added in their order, just if the
bytes start with a tag map of so many words and such entries. Then nothing behind that map matters,
and nothing shorter than it is accepted. -/
theorem read_accepts_exactly_tag_maps (bytes : List UInt8) (out out' : Entries) (words : Nat) :
    ((read bytes).outcome = .ok words ∧ (read bytes).addTo out = out' ↔
      ∃ part rest entries, bytes = part ++ rest ∧ IsTagMap part entries ∧
        part.length = 4 * words ∧
        out' = entries.foldl (fun out (id, e) => out.insert id e) out) ∧
    ((read bytes).outcome = .ok words →
      (∀ behind, read (bytes.take (4 * words) ++ behind) = read bytes) ∧
      (∀ more, read (bytes ++ more) = read bytes) ∧
      ∀ n < 4 * words, ∃ fault, (read (bytes.take n)).outcome = .error fault) := by
  constructor
  · constructor
    · rintro ⟨hread, rfl⟩
      obtain ⟨part, rest, hbytes, hmap, hlength⟩ := exists_isTagMap_of_read hread
      exact ⟨part, rest, _, hbytes, hmap, hlength, Std.ExtTreeMap.insertMany_list_eq_foldl⟩
    · rintro ⟨part, rest, entries, rfl, hmap, hlength, rfl⟩
      have hwords : part.length / 4 = words := by omega
      rw [read_of_isTagMap hmap rest, hwords]
      exact ⟨rfl, Std.ExtTreeMap.insertMany_list_eq_foldl⟩
  · intro hread
    obtain ⟨part, rest, hbytes, hmap, hlength⟩ := exists_isTagMap_of_read hread
    have hall : ∀ behind, read (part ++ behind) = read bytes := by
      intro behind
      rw [hbytes, read_of_isTagMap hmap behind, read_of_isTagMap hmap rest]
    refine ⟨?_, ?_, ?_⟩
    · intro behind
      rw [hbytes, ← hlength, List.take_left, hall, hbytes]
    · intro more
      rw [hbytes, List.append_assoc, hall, hbytes]
    · intro n hn
      cases hcut : (read (bytes.take n)).outcome with
      | error fault => exact ⟨fault, rfl⟩
      | ok words' =>
        -- the shorter bytes would start with a map, and so would all bytes, with the same count
        exfalso
        obtain ⟨part', rest', hbytes', hmap', hlength'⟩ := exists_isTagMap_of_read hcut
        have hsame : (read bytes).outcome = .ok (part'.length / 4) := by
          rw [← List.take_append_drop n bytes, hbytes', List.append_assoc,
            read_of_isTagMap hmap']
        rw [hsame] at hread
        have hwords : part'.length / 4 = words := Except.ok.inj hread
        have hle := congrArg List.length hbytes'
        rw [List.length_take, List.length_append] at hle
        omega

/-- A constant and a script, and one word that belongs to neither. -/
def constantAndScript : List UInt8 :=
  [2, 9, 3, 42, 4, 7, 0, 0, 0, 0, 0, 5, 0, 4, 0x54534554, 0, 0xAAAABBBB, 0xDEADBEEF].flatMap ofWord

theorem constantAndScript_is_read_to_its_end :
    (read constantAndScript).outcome = .ok 17 ∧
    (read constantAndScript).addTo ∅ =
      (Std.ExtTreeMap.insert ∅ 3 (.constant 42)).insert 7 (.ofScript ⟨[0xAAAABBBB], "TEST"⟩) ∧
    (∀ more, read (constantAndScript ++ more) = read constantAndScript) ∧
    ∀ n < 68, ∃ fault, (read (constantAndScript.take n)).outcome = .error fault := by
  have haccepts := read_accepts_exactly_tag_maps constantAndScript ∅
    ((Std.ExtTreeMap.insert ∅ 3 (.constant 42)).insert 7 (.ofScript ⟨[0xAAAABBBB], "TEST"⟩)) 17
  have hconstant := WrittenEntry.constant (show (9 : UInt32) ≠ scriptKind by decide) 3 42
  have hscript := @WrittenEntry.script 7 5 4 (List.replicate 20 0) (ofWord 0)
    ([0x54534554, 0].flatMap ofWord) [0xAAAABBBB] rfl rfl rfl rfl
  have hmap := WrittenEntries.cons hconstant (.cons hscript .nil)
  obtain ⟨houtcome, hentries⟩ :=
    haccepts.1.2 ⟨_, ofWord 0xDEADBEEF, _, rfl, ⟨2, _, rfl, hmap, rfl⟩, rfl, rfl⟩
  have hrest := haccepts.2 houtcome
  exact ⟨houtcome, hentries, hrest.2.1, hrest.2.2⟩

end PowerFormulas.TagMap
