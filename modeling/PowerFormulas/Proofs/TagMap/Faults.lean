import PowerFormulas.Proofs.Cursor.Overrun
import PowerFormulas.Proofs.TagMap.Grammar

/-!
# Tag maps that break off

Reading fails where the count is cut off, or where the entries that are complete are fewer than it
says (`BreaksOff`). The fault is that the bytes end too early, at the entry that is not complete or
within it. The entries before it are kept, and nothing else (`failed_read_keeps_complete_entries`).
The same is left by a reader that adds each entry to a table as soon as it has read it (`fill`).
-/

namespace PowerFormulas.TagMap

open Bytes (ofWord)
open Cursor (Reads)

/-- The bytes hold these entries of a tag map and no further one, although it should have more; what
should be the next one, or the count, starts at the offset. -/
inductive BreaksOff : List UInt8 → Nat → List (UInt32 × Entry) → Prop where
  | count {bytes : List UInt8} : bytes.length < wordBytes → BreaksOff bytes 0 []
  | entry {count : UInt32} {part rest : List UInt8} {entries : List (UInt32 × Entry)} :
      WrittenEntries part entries → entries.length < count.toNat →
      (∀ next behind entry, rest = next ++ behind → ¬ WrittenEntry next entry) →
      BreaksOff (ofWord count ++ part ++ rest) (wordBytes + part.length) entries

/-- Reading with a table at hand, which keeps what has been added when a fault ends the reading. -/
abbrev Filling := ExceptT Malformed (StateM Entries)

def fillEntries : Nat → Cursor → Filling Cursor
  | 0, c => return c
  | count + 1, c => do
    let ((id, e), c) ← readEntry c
    modify fun out => out.insert id e
    fillEntries count c

def fill (bytes : List UInt8) : Filling Nat := do
  let (count, c) ← (Cursor.start bytes).word
  Cursor.wordsRead <$> fillEntries count.toNat c

variable {c c' : Cursor} {entries : List (UInt32 × Entry)} {bytes : List UInt8} {fault : Malformed}
  {count offset : Nat}

/-! ### One entry -/

theorem reads_readScript (c : Cursor) : Reads Prod.snd c (readScript c) := by
  refine (Cursor.reads_skip (by decide) c).bind fun c₁ => ?_
  refine (Cursor.reads_word c₁).bind fun textLength => ?_
  refine (Cursor.reads_skip (by decide) textLength.2).bind fun c₃ => ?_
  refine (Cursor.reads_word c₃).bind fun codeLength => ?_
  refine (Cursor.reads_take (Cursor.wordsFor_mul_lt _) codeLength.2).bind fun text => ?_
  refine (Cursor.reads_words (Cursor.wordsFor_mul_lt _) text.2).bind fun code => ?_
  exact .ok rfl (Nat.le_refl _)

theorem reads_readConstant (c : Cursor) : Reads Prod.snd c (readConstant c) :=
  (Cursor.reads_int c).bind fun _ => .ok rfl (Nat.le_refl _)

theorem reads_readEntry (c : Cursor) : Reads Prod.snd c (readEntry c) := by
  refine (Cursor.reads_word c).bind fun kind => ?_
  refine (Cursor.reads_word kind.2).bind fun id => ?_
  dsimp only
  split
  · exact (reads_readScript id.2).bind fun _ => .ok rfl (Nat.le_refl _)
  · exact (reads_readConstant id.2).bind fun _ => .ok rfl (Nat.le_refl _)

theorem exists_readEntry_eq_error_iff : (∃ fault, readEntry c = .error fault) ↔
    ∀ next behind entry, c.rest = next ++ behind → ¬ WrittenEntry next entry := by
  constructor
  · intro h next behind entry hrest hnext
    obtain ⟨fault, hfault⟩ := h
    obtain ⟨position, rest⟩ := c
    subst hrest
    rw [readEntry_eq_ok_iff.2 ⟨next, hnext, Cursor.passes_self_append position next behind⟩]
      at hfault
    cases hfault
  · intro h
    cases hread : readEntry c with
    | error fault => exact ⟨fault, rfl⟩
    | ok found =>
      obtain ⟨entry, c'⟩ := found
      obtain ⟨part, hpart, hpasses⟩ := readEntry_eq_ok_iff.1 hread
      exact absurd hpart (h part c'.rest entry hpasses.rest)

/-! ### Entries in a row -/

theorem readEntries_eq_error_iff : readEntries count c = (entries, .error fault) ↔
    entries.length < count ∧ ∃ part c', WrittenEntries part entries ∧ c.Passes part c' ∧
      readEntry c' = .error fault := by
  induction count generalizing c entries with
  | zero => simp [readEntries]
  | succ count ih =>
    rw [readEntries]
    constructor
    · intro h
      cases hread : readEntry c with
      | error fault' =>
        rw [hread] at h
        cases h
        exact ⟨Nat.succ_pos count, [], c, .nil, Cursor.passes_nil.2 rfl, hread⟩
      | ok found =>
        obtain ⟨entry, c₁⟩ := found
        rw [hread] at h
        obtain ⟨rfl, hlast⟩ := Prod.mk.inj h
        obtain ⟨part, hpart, hpasses⟩ := readEntry_eq_ok_iff.1 hread
        obtain ⟨hlength, rest, c', hrest, hpasses', hfault⟩ := ih.1 (Prod.ext rfl hlast)
        exact ⟨Nat.succ_lt_succ hlength, part ++ rest, c', .cons hpart hrest,
          Cursor.passes_append.2 ⟨c₁, hpasses, hpasses'⟩, hfault⟩
    · intro h
      obtain ⟨hlength, part, c', hpart, hpasses, hfault⟩ := h
      cases hpart with
      | nil =>
        rw [Cursor.passes_nil.1 hpasses] at hfault
        rw [hfault]
      | cons hentry hrest =>
        obtain ⟨c₁, hpasses, hpasses'⟩ := Cursor.passes_append.1 hpasses
        rw [readEntry_eq_ok_iff.2 ⟨_, hentry, hpasses⟩]
        have hmore := ih.2 ⟨Nat.lt_of_succ_lt_succ hlength, _, c', hrest, hpasses', hfault⟩
        simp only [hmore]

/-! ### The whole map -/

theorem passes_ofWord_start (count : UInt32) (rest : List UInt8) :
    (Cursor.start (ofWord count ++ rest)).Passes (ofWord count) ⟨wordBytes, rest⟩ := ⟨rfl, rfl⟩

theorem BreaksOff.read_eq (h : BreaksOff bytes offset entries) :
    ∃ wanted position, offset ≤ position ∧ bytes.length < position + wanted ∧
      read bytes = ⟨entries, .error (.readPastEnd wanted position bytes.length)⟩ := by
  cases h with
  | count hlength =>
    refine ⟨wordBytes, 0, Nat.le_refl 0, by omega, ?_⟩
    have hword : (Cursor.start bytes).word = .error (.readPastEnd wordBytes 0 bytes.length) := by
      have hsize : (Cursor.start bytes).size = bytes.length := Nat.zero_add _
      rw [Cursor.word, Cursor.takeBytes_eq_error_iff.2 ⟨hlength, rfl⟩, hsize]
      rfl
    rw [read, hword]
  | @entry count part rest _ hpart hlength hnext =>
    let c : Cursor := ⟨wordBytes + part.length, rest⟩
    obtain ⟨fault, hfault⟩ := (exists_readEntry_eq_error_iff (c := c)).2 hnext
    have hentries : readEntries count.toNat ⟨wordBytes, part ++ rest⟩ = (entries, .error fault) :=
      readEntries_eq_error_iff.2 ⟨hlength, part, c, hpart,
        Cursor.passes_self_append wordBytes part rest, hfault⟩
    have hread : read (ofWord count ++ part ++ rest) = ⟨entries, .error fault⟩ := by
      rw [List.append_assoc, read, Cursor.word_eq_ok_iff.2 (passes_ofWord_start count _)]
      simp only [hentries, Except.map]
    have hsize : c.size = (ofWord count ++ part ++ rest).length := by
      simp only [List.length_append, Bytes.length_ofWord]
      rfl
    have hreads := reads_readEntry c
    rw [hfault] at hreads
    cases hreads with
    | @overrun wanted position hle hlt =>
      rw [hsize] at hread hlt
      exact ⟨wanted, position, hle, hlt, hread⟩

theorem exists_breaksOff (h : (read bytes).outcome = .error fault) :
    ∃ offset, BreaksOff bytes offset (read bytes).entries := by
  cases hword : (Cursor.start bytes).word with
  | error fault' =>
    have hshort : bytes.length < wordBytes := by
      cases htake : (Cursor.start bytes).takeBytes wordBytes with
      | error _ => exact (Cursor.takeBytes_eq_error_iff.1 htake).1
      | ok taken =>
        rw [Cursor.word, htake] at hword
        cases hword
    rw [read, hword]
    exact ⟨0, .count hshort⟩
  | ok found =>
    obtain ⟨count, c⟩ := found
    have hcount := Cursor.word_eq_ok_iff.1 hword
    cases hread : readEntries count.toNat c with
    | mk entries last =>
      have heq : read bytes = ⟨entries, last.map Cursor.wordsRead⟩ := by
        rw [read, hword]
        simp only [hread]
      rw [heq] at h ⊢
      cases last with
      | ok c' => cases h
      | error fault' =>
        obtain ⟨hlength, part, c', hpart, hpasses, hfault⟩ := readEntries_eq_error_iff.1 hread
        have hbytes : bytes = ofWord count ++ part ++ c'.rest :=
          (Cursor.passes_append.2 ⟨c, hcount, hpasses⟩).rest
        rw [hbytes]
        exact ⟨_, .entry hpart hlength (exists_readEntry_eq_error_iff.1 ⟨fault', hfault⟩)⟩

/-! ### Reading into a table -/

theorem run_fillEntries (count : Nat) (c : Cursor) (out : Entries) :
    (fillEntries count c).run.run out =
      ((readEntries count c).2, out.insertMany (readEntries count c).1) := by
  induction count generalizing c out with
  | zero => exact congrArg (Prod.mk _) Std.ExtTreeMap.insertMany_nil.symm
  | succ count ih =>
    rw [readEntries]
    cases hread : readEntry c with
    | error fault =>
      rw [fillEntries, hread]
      exact congrArg (Prod.mk _) Std.ExtTreeMap.insertMany_nil.symm
    | ok found =>
      obtain ⟨⟨id, e⟩, c'⟩ := found
      rw [fillEntries, hread]
      exact (ih c' (out.insert id e)).trans
        (congrArg (Prod.mk _) Std.ExtTreeMap.insertMany_cons.symm)

theorem run_fill (bytes : List UInt8) (out : Entries) :
    (fill bytes).run.run out = ((read bytes).outcome, (read bytes).addTo out) := by
  rw [fill, read]
  cases (Cursor.start bytes).word with
  | error fault => exact congrArg (Prod.mk _) Std.ExtTreeMap.insertMany_nil.symm
  | ok found =>
    obtain ⟨count, c⟩ := found
    change (Cursor.wordsRead <$> fillEntries count.toNat c).run.run out = _
    rw [ExceptT.run_map, StateT.run_map, run_fillEntries]
    rfl

/-! ### Main statement -/

/-- Reading fails and leaves this table just if the bytes break off and the table has got the
complete entries before, in their order. The fault lies in the entry that comes next, or in the
count: more bytes are wanted there than are left. Adding each entry when it is read makes no
difference. -/
theorem failed_read_keeps_complete_entries (bytes : List UInt8) (out out' : Entries) :
    ((∃ fault, (read bytes).outcome = .error fault) ∧ (read bytes).addTo out = out' ↔
      ∃ offset entries, BreaksOff bytes offset entries ∧
        out' = entries.foldl (fun out (id, e) => out.insert id e) out) ∧
    (∀ fault offset entries, (read bytes).outcome = .error fault →
      BreaksOff bytes offset entries → ∃ wanted position,
        fault = .readPastEnd wanted position bytes.length ∧ offset ≤ position ∧
          bytes.length < position + wanted) ∧
    (fill bytes).run.run out = ((read bytes).outcome, (read bytes).addTo out) := by
  have hadd : (read bytes).addTo out =
      (read bytes).entries.foldl (fun out (id, e) => out.insert id e) out :=
    Std.ExtTreeMap.insertMany_list_eq_foldl
  refine ⟨⟨fun h => ?_, fun h => ?_⟩, ?_, run_fill bytes out⟩
  · obtain ⟨⟨fault, hfault⟩, rfl⟩ := h
    obtain ⟨offset, hbreaks⟩ := exists_breaksOff hfault
    exact ⟨offset, _, hbreaks, hadd⟩
  · obtain ⟨offset, entries, hbreaks, rfl⟩ := h
    obtain ⟨wanted, position, _, _, hread⟩ := hbreaks.read_eq
    rw [hadd, hread]
    exact ⟨⟨_, rfl⟩, rfl⟩
  · intro fault offset entries hfault hbreaks
    obtain ⟨wanted, position, hle, hlt, hread⟩ := hbreaks.read_eq
    rw [hread] at hfault
    cases hfault
    exact ⟨wanted, position, rfl, hle, hlt⟩

/-- The script ends within its reserved words. -/
theorem cut_script_leaves_the_constant :
    let bytes := constantAndScript.take 40
    (read bytes).outcome = .error (.readPastEnd 20 24 40) ∧
      ∃ offset entries, BreaksOff bytes offset entries ∧ offset ≤ 24 ∧
        entries.foldl (fun out (id, e) => out.insert id e) ∅ =
          (Std.ExtTreeMap.insert ∅ 3 (.constant 42) : Entries) := by
  intro bytes
  have hfault : (read bytes).outcome = .error (.readPastEnd 20 24 40) := rfl
  have hadd : (read bytes).addTo ∅ = Std.ExtTreeMap.insert ∅ 3 (.constant 42) := rfl
  obtain ⟨hkeeps, hwhere, -⟩ := failed_read_keeps_complete_entries bytes ∅ _
  obtain ⟨offset, entries, hbreaks, hout⟩ := hkeeps.1 ⟨⟨_, hfault⟩, hadd⟩
  obtain ⟨wanted, position, heq, hle, -⟩ := hwhere _ offset entries hfault hbreaks
  cases heq
  exact ⟨hfault, offset, entries, hbreaks, hle, hout.symm⟩

end PowerFormulas.TagMap
