import PowerFormulas.HexWords
import PowerFormulas.Proofs.Text.Numerals

/-!
# The language of programs in text form

A text is read as a program if it is empty, or if each piece between commas is a hexadecimal numeral
of a word, blanks around it aside; a fault names the first piece that is none. Of all texts that are
read as one program, just one consists of groups of eight lowercase digits, and it is the one that is
written (`read_accepts_hexadecimal_words`).
-/

namespace PowerFormulas.HexWords

open Text (trim isBlank IsDigit SpellsNumeral)

variable {piece : List Char} {w : UInt32} {words : List UInt32} {text : String}

/-- What may stand between commas: a numeral of the word, with blanks before and behind it. -/
inductive SpellsWord : List Char → UInt32 → Prop where
  | numeral {before digits behind : List Char} {w : UInt32} : (∀ c ∈ before, isBlank c) →
      (∀ c ∈ behind, isBlank c) → SpellsNumeral 16 digits w.toNat →
      SpellsWord (before ++ digits ++ behind) w

/-- Groups of eight lowercase digits with commas between them; there may be no group at all. -/
def IsGrouped (text : String) : Prop :=
  ∃ groups : List (List Char), text = String.ofList ([','].intercalate groups) ∧
    ∀ group ∈ groups, group.length = 8 ∧ ∀ c ∈ group, ∃ d < 16, c = Nat.digitChar d

/-! ### Pieces -/

theorem exists_blanks_trim (piece : List Char) : ∃ before behind,
    piece = before ++ trim piece ++ behind ∧ (∀ c ∈ before, isBlank c) ∧
      ∀ c ∈ behind, isBlank c := by
  let rest := piece.dropWhile isBlank
  have hblank : ∀ cs : List Char, ∀ c ∈ cs.takeWhile isBlank, isBlank c := fun _ =>
    List.all_eq_true.1 List.all_takeWhile
  have hrest : trim piece ++ (rest.reverse.takeWhile isBlank).reverse = rest := by
    rw [trim, ← List.reverse_append, List.takeWhile_append_dropWhile, List.reverse_reverse]
  refine ⟨piece.takeWhile isBlank, (rest.reverse.takeWhile isBlank).reverse, ?_,
    hblank piece, fun c hc => hblank _ c (List.mem_reverse.1 hc)⟩
  rw [List.append_assoc, hrest, List.takeWhile_append_dropWhile]

theorem not_blank_of_isDigit {c : Char} {d : Nat} (h : IsDigit 16 c d) :
    isBlank c = false ∧ c ≠ ',' := by
  rcases h.2 with rfl | rfl
  · exact not_blank_of_lower ⟨d, h.1, rfl⟩
  · exact (by decide : ∀ d : Fin 16,
      isBlank (Nat.digitChar d).toUpper = false ∧ (Nat.digitChar d).toUpper ≠ ',') ⟨d, h.1⟩

/-- Neither the sign nor a digit is a blank or a comma. -/
theorem not_blank_of_spellsNumeral {cs : List Char} {n : Nat} (h : SpellsNumeral 16 cs n) :
    cs ≠ [] ∧ ∀ c ∈ cs, isBlank c = false ∧ c ≠ ',' := by
  cases h with
  | @digits sign digits values hsign hne hvalues =>
    refine ⟨List.append_ne_nil_of_right_ne_nil sign hne, List.forall_mem_append.2 ⟨?_, ?_⟩⟩
    · rcases hsign with rfl | rfl
      · exact List.forall_mem_nil _
      · exact List.forall_mem_singleton.2 (by decide)
    · intro c hc
      obtain ⟨d, hd⟩ := exists_rel_of_mem hvalues.flip hc
      exact not_blank_of_isDigit hd

theorem readWord_eq_ok_iff : readWord piece = .ok w ↔ SpellsWord piece w := by
  rw [readWord, mapError_eq_ok_iff, Text.readWord_eq_ok_iff (by decide) (by decide)]
  constructor
  · intro h
    obtain ⟨before, behind, hpiece, hbefore, hbehind⟩ := exists_blanks_trim piece
    rw [hpiece]
    exact .numeral hbefore hbehind h
  · intro h
    cases h with
    | numeral hbefore hbehind hdigits =>
      obtain ⟨hne, hclear⟩ := not_blank_of_spellsNumeral hdigits
      rw [Text.trim_append hbefore hbehind hne fun c hc => (hclear c hc).1]
      exact hdigits

theorem not_spellsWord_nil : ¬ SpellsWord [] w := by
  intro h
  have hread := readWord_eq_ok_iff.2 h
  rw [readWord, Text.trim_nil, mapError_eq_ok_iff] at hread
  cases hread

/-! ### Texts -/

theorem read_eq_mapM (h : text ≠ "") : read text = (text.toList.splitOn ',').mapM readWord := by
  rw [read, if_neg (by simpa using h)]

theorem read_eq_ok_iff : read text = .ok words ↔
    text = "" ∧ words = [] ∨ List.Forall₂ SpellsWord (text.toList.splitOn ',') words := by
  by_cases hempty : text = ""
  · subst hempty
    constructor
    · intro h
      cases h
      exact .inl ⟨rfl, rfl⟩
    · intro h
      rcases h with ⟨_, rfl⟩ | h
      · rfl
      · -- the empty text has one piece, which is empty
        rw [String.toList_empty, List.splitOn_nil] at h
        cases h with
        | cons hword _ => exact absurd hword not_spellsWord_nil
  · rw [read_eq_mapM hempty, mapM_eq_ok_iff]
    simp only [readWord_eq_ok_iff, hempty, false_and, false_or]

theorem exists_refused_piece (h : ∀ words, read text ≠ .ok words) :
    ∃ before piece behind cause, text.toList.splitOn ',' = before ++ piece :: behind ∧
      (∀ earlier ∈ before, ∃ w, SpellsWord earlier w) ∧ (∀ w, ¬ SpellsWord piece w) ∧
      read text = .error (.bytecodeWord (String.ofList piece) cause) := by
  have hne : text ≠ "" := by
    rintro rfl
    exact h [] rfl
  obtain ⟨fault, hfault⟩ : ∃ fault, read text = .error fault := by
    cases hread : read text with
    | ok words => exact absurd hread (h words)
    | error fault => exact ⟨fault, rfl⟩
  rw [hfault]
  rw [read_eq_mapM hne] at hfault
  obtain ⟨before, piece, behind, hsplit, hbefore, hpiece⟩ := exists_error_of_mapM hfault
  simp only [readWord_eq_ok_iff] at hbefore
  have hnone : ∀ w, ¬ SpellsWord piece w := by
    intro w hw
    rw [readWord_eq_ok_iff.2 hw] at hpiece
    cases hpiece
  rw [readWord] at hpiece
  cases hword : Text.readWord 16 (trim piece) with
  | ok w =>
    rw [hword] at hpiece
    cases hpiece
  | error cause =>
    rw [hword] at hpiece
    cases hpiece
    exact ⟨before, piece, behind, cause, hsplit, hbefore, hnone, rfl⟩

/-! ### Groups of eight digits -/

theorem length_writeWord (w : UInt32) : (writeWord w).length = 8 :=
  Text.length_padDigits (by decide) (by decide) w.toNat_lt

theorem isGrouped_write (words : List UInt32) : IsGrouped (write words) := by
  refine ⟨words.map writeWord, rfl, ?_⟩
  intro group hgroup
  obtain ⟨w, _, rfl⟩ := List.mem_map.1 hgroup
  exact ⟨length_writeWord w, fun c => lower_of_mem_writeWord⟩

theorem eq_writeWord {group : List Char} (hlength : group.length = 8)
    (hlower : ∀ c ∈ group, ∃ d < 16, c = Nat.digitChar d) (h : readWord group = .ok w) :
    group = writeWord w := by
  have htrim : ∀ cs : List Char, (∀ c ∈ cs, ∃ d < 16, c = Nat.digitChar d) → trim cs = cs :=
    fun cs hcs => Text.trim_eq_self
      (fun c hc => (not_blank_of_lower (hcs c (List.mem_of_mem_head? hc))).1)
      (fun c hc => (not_blank_of_lower (hcs c (List.mem_of_mem_getLast? hc))).1)
  have hwrite := readWord_writeWord w
  rw [readWord, mapError_eq_ok_iff, htrim group hlower] at h
  rw [readWord, mapError_eq_ok_iff, htrim _ fun c => lower_of_mem_writeWord] at hwrite
  exact Text.eq_of_readWord_eq (by decide) (by decide) hlower (fun c => lower_of_mem_writeWord)
    (hlength.trans (length_writeWord w).symm) h hwrite

theorem eq_map_writeWord {groups : List (List Char)}
    (h : List.Forall₂ (fun group w => readWord group = .ok w) groups words)
    (hgroups : ∀ group ∈ groups, group.length = 8 ∧ ∀ c ∈ group, ∃ d < 16, c = Nat.digitChar d) :
    groups = words.map writeWord := by
  induction h with
  | nil => rfl
  | cons hword _ ih =>
    obtain ⟨⟨hlength, hlower⟩, hrest⟩ := List.forall_mem_cons.1 hgroups
    rw [List.map_cons, ← eq_writeWord hlength hlower hword, ← ih hrest]

theorem eq_write_of_isGrouped (hgrouped : IsGrouped text) (h : read text = .ok words) :
    text = write words := by
  by_cases hempty : text = ""
  · subst hempty
    cases h
    rfl
  · obtain ⟨groups, rfl, hgroups⟩ := hgrouped
    have hne : groups ≠ [] := by
      rintro rfl
      exact hempty rfl
    have hcomma : ∀ group ∈ groups, ',' ∉ group := fun group hgroup hmem =>
      (not_blank_of_lower ((hgroups group hgroup).2 ',' hmem)).2 rfl
    rw [read_eq_mapM hempty, String.toList_ofList, List.splitOn_intercalate _ hcomma hne,
      mapM_eq_ok_iff] at h
    rw [write, ← eq_map_writeWord h hgroups]

/-! ### Main statement -/

/-- Programs are read back from their texts. The texts that are read are the empty one and those of
which each piece between commas spells a word, and it is these words that are read. Of the texts in
groups of eight lowercase digits that are read as a program, there is only the one that is written.
The fault of any other text names its first piece that spells no word. -/
theorem read_accepts_hexadecimal_words :
    (∀ words, read (write words) = .ok words) ∧
    (∀ text words, read text = .ok words ↔
      text = "" ∧ words = [] ∨ List.Forall₂ SpellsWord (text.toList.splitOn ',') words) ∧
    (∀ words text, IsGrouped text ∧ read text = .ok words ↔ text = write words) ∧
    ∀ text, (∀ words, read text ≠ .ok words) → ∃ before piece behind cause,
      text.toList.splitOn ',' = before ++ piece :: behind ∧
      (∀ earlier ∈ before, ∃ w, SpellsWord earlier w) ∧ (∀ w, ¬ SpellsWord piece w) ∧
      read text = .error (.bytecodeWord (String.ofList piece) cause) := by
  refine ⟨read_write, fun _ _ => read_eq_ok_iff, fun words text => ⟨fun h => ?_, fun h => ?_⟩,
    fun _ => exists_refused_piece⟩
  · exact eq_write_of_isGrouped h.1 h.2
  · rw [h]
    exact ⟨isGrouped_write words, read_write words⟩

/-- A text of blanks is not the empty program. -/
example : read " " = .error (.bytecodeWord " " .empty) := by decide +kernel

/-- A program in another spelling than the one that is written, and a text whose second piece is no
numeral. -/
theorem odd_spelling_is_read :
    read " +a,00000000B" = .ok [10, 11] ∧ ¬ IsGrouped " +a,00000000B" ∧
      ∃ piece cause, (∀ w, ¬ SpellsWord piece w) ∧
        read "1,+,y" = .error (.bytecodeWord (String.ofList piece) cause) := by
  obtain ⟨-, -, hgrouped, hfault⟩ := read_accepts_hexadecimal_words
  have hread : read " +a,00000000B" = .ok [10, 11] := by decide +kernel
  have hrefused : read "1,+,y" = .error (.bytecodeWord "+" .invalidDigit) := by decide +kernel
  obtain ⟨_, piece, _, cause, -, -, hnone, herror⟩ := hfault "1,+,y" fun words h => by
    rw [hrefused] at h
    cases h
  refine ⟨hread, fun h => ?_, piece, cause, hnone, herror⟩
  exact absurd ((hgrouped [10, 11] _).1 ⟨h, hread⟩) (by decide +kernel)

end PowerFormulas.HexWords
