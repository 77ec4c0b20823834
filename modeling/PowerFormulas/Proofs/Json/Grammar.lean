import PowerFormulas.Json.Spelling

/-!
# How scalars are spelled

The rules by which characters spell a scalar, without a reader: numbers by their parts, and strings
by their pieces. A scalar is read just where it is spelled (`scalar?_of_spells`,
`exists_spells_of_scalar?`), and so is a token (`token?_of_spells`, `exists_spells_of_token?`).
-/

namespace PowerFormulas.Json

/-! ### Numbers -/

def Digits (cs : List Char) : Prop := cs ≠ [] ∧ ∀ c ∈ cs, c.isDigit

inductive WholePart : List Char → Prop where
  | zero : WholePart ['0']
  | digits {c : Char} {cs : List Char} : c ≠ '0' → Digits (c :: cs) → WholePart (c :: cs)

inductive FractionPart : List Char → Prop where
  | absent : FractionPart []
  | present {cs : List Char} : Digits cs → FractionPart ('.' :: cs)

inductive ExponentPart : List Char → Prop where
  | absent : ExponentPart []
  | present {e : Char} {sign cs : List Char} : e = 'e' ∨ e = 'E' →
      sign = [] ∨ sign = ['+'] ∨ sign = ['-'] → Digits cs → ExponentPart (e :: (sign ++ cs))

/-- A number that has no sign, no fraction and no exponent is the natural number of its digits. -/
inductive SpellsNumber : List Char → Scalar → Prop where
  | natural {whole : List Char} : WholePart whole →
      SpellsNumber whole (.natural (Nat.ofDigitChars 10 whole 0))
  | other {sign whole fraction exponent : List Char} : sign = [] ∨ sign = ['-'] →
      WholePart whole → FractionPart fraction → ExponentPart exponent →
      sign ++ (fraction ++ exponent) ≠ [] →
      SpellsNumber (sign ++ (whole ++ (fraction ++ exponent)))
        (.number (String.ofList (sign ++ (whole ++ (fraction ++ exponent)))))

theorem areDigits_iff {cs : List Char} : areDigits cs = true ↔ Digits cs := by
  simp [areDigits, Digits]

theorem isWhole_iff {cs : List Char} (h : ∀ c ∈ cs, c.isDigit) :
    isWhole cs = true ↔ WholePart cs := by
  cases cs with
  | nil => exact ⟨nofun, nofun⟩
  | cons c cs =>
    refine ⟨fun hwhole => ?_, fun hwhole => ?_⟩
    · by_cases hc : c = '0'
      · have hnil : cs = [] := by simpa [isWhole, hc] using hwhole
        rw [hc, hnil]
        exact .zero
      · exact .digits hc ⟨List.cons_ne_nil c cs, h⟩
    · cases hwhole with
      | zero => rfl
      | digits hc _ => simp [isWhole, hc]

theorem Digits.head {c : Char} {cs : List Char} (h : Digits (c :: cs)) : c.isDigit :=
  h.2 c List.mem_cons_self

theorem isExponent_iff {cs : List Char} : isExponent cs = true ↔ ExponentPart cs := by
  refine ⟨fun h => ?_, fun h => ?_⟩
  · unfold isExponent at h
    split at h
    · exact .absent
    · cases h
    · rename_i e sign rest
      rw [Bool.and_eq_true, Bool.or_eq_true, decide_eq_true_eq, decide_eq_true_eq] at h
      obtain ⟨he, hrest⟩ := h
      split at hrest
      · rename_i hsign
        have hsign : sign = '+' ∨ sign = '-' := by simpa using hsign
        have hlist : [sign] = [] ∨ [sign] = ['+'] ∨ [sign] = ['-'] := by
          rcases hsign with rfl | rfl
          · exact .inr (.inl rfl)
          · exact .inr (.inr rfl)
        exact .present he hlist (areDigits_iff.1 hrest)
      · rw [← List.nil_append (sign :: rest)]
        exact .present he (.inl rfl) (areDigits_iff.1 hrest)
  · cases h with
    | absent => rfl
    | @present e sign cs he hsign hcs =>
      have hdigits := areDigits_iff.2 hcs
      obtain ⟨c, rest, rfl⟩ := List.exists_cons_of_ne_nil hcs.1
      have hplus : c ≠ '+' := by
        rintro rfl
        exact absurd hcs.head (by decide)
      have hminus : c ≠ '-' := by
        rintro rfl
        exact absurd hcs.head (by decide)
      rcases hsign with rfl | rfl | rfl <;> simp [isExponent, he, hdigits, hplus, hminus]

theorem ExponentPart.head {cs : List Char} (h : ExponentPart cs) :
    ∀ c ∈ cs.head?, c.isDigit = false ∧ c ≠ '.' := by
  intro c hc
  cases h with
  | absent => cases hc
  | present he =>
    cases hc
    rcases he with rfl | rfl <;> decide

theorem isFraction_eq_isExponent {cs : List Char} (h : ∀ c ∈ cs.head?, c ≠ '.') :
    isFraction cs = isExponent cs := by
  unfold isFraction
  split
  · exact absurd rfl (h '.' rfl)
  · rfl

theorem isFraction_iff {cs : List Char} : isFraction cs = true ↔
    ∃ fraction exponent, cs = fraction ++ exponent ∧ FractionPart fraction ∧
      ExponentPart exponent := by
  refine ⟨fun h => ?_, fun h => ?_⟩
  · by_cases hpoint : ∀ c ∈ cs.head?, c ≠ '.'
    · rw [isFraction_eq_isExponent hpoint] at h
      exact ⟨[], cs, rfl, .absent, isExponent_iff.1 h⟩
    · obtain ⟨c, hc, rfl⟩ : ∃ c ∈ cs.head?, c = '.' := by simpa using hpoint
      obtain ⟨rest, rfl⟩ := List.head?_eq_some_iff.1 hc
      simp only [isFraction, Bool.and_eq_true, Bool.not_eq_true', List.isEmpty_eq_false_iff] at h
      obtain ⟨hne, hexponent⟩ := h
      refine ⟨'.' :: rest.takeWhile Char.isDigit, rest.dropWhile Char.isDigit, ?_, ?_,
        isExponent_iff.1 hexponent⟩
      · rw [List.cons_append, List.takeWhile_append_dropWhile]
      · exact .present ⟨hne, List.all_eq_true.1 List.all_takeWhile⟩
  · obtain ⟨fraction, exponent, rfl, hfraction, hexponent⟩ := h
    cases hfraction with
    | absent =>
      rw [List.nil_append, isFraction_eq_isExponent fun c hc => (hexponent.head c hc).2]
      exact isExponent_iff.2 hexponent
    | present hdigits =>
      obtain ⟨htake, hdrop⟩ :=
        takeWhile_append hdigits.2 fun c hc => (hexponent.head c hc).1
      simp [isFraction, htake, hdrop, hdigits.1, isExponent_iff.2 hexponent]

theorem WholePart.isDigit {cs : List Char} (h : WholePart cs) : ∀ c ∈ cs, c.isDigit := by
  cases h with
  | zero => exact List.forall_mem_singleton.2 rfl
  | digits _ hdigits => exact hdigits.2

theorem WholePart.ne_nil {cs : List Char} (h : WholePart cs) : cs ≠ [] := by
  cases h <;> exact List.cons_ne_nil _ _

theorem FractionPart.head {fraction exponent : List Char} (hfraction : FractionPart fraction)
    (hexponent : ExponentPart exponent) :
    ∀ c ∈ (fraction ++ exponent).head?, c.isDigit = false := by
  intro c hc
  cases hfraction with
  | absent => exact (hexponent.head c hc).1
  | present =>
    cases hc
    decide

/-- A number is its sign, its whole part, and the rest. -/
theorem number?_of_parts {sign whole rest : List Char} (hsign : sign = [] ∨ sign = ['-'])
    (hwhole : WholePart whole) (hrest : ∀ c ∈ rest.head?, c.isDigit = false) :
    number? (sign ++ (whole ++ rest)) =
      if isFraction rest = true then
        some (if sign ++ rest = [] then .natural (Nat.ofDigitChars 10 whole 0)
          else .number (String.ofList (sign ++ (whole ++ rest))))
      else none := by
  have hhead : (whole ++ rest).head? ≠ some '-' := by
    intro h
    obtain ⟨c, cs, rfl⟩ := List.exists_cons_of_ne_nil hwhole.ne_nil
    cases h
    exact absurd (hwhole.isDigit '-' List.mem_cons_self) (by decide)
  have hmagnitude : (if (sign ++ (whole ++ rest)).head? = some '-'
      then (sign ++ (whole ++ rest)).drop 1 else sign ++ (whole ++ rest)) = whole ++ rest := by
    rcases hsign with rfl | rfl
    · rw [List.nil_append, if_neg hhead]
    · rfl
  obtain ⟨htake, hdrop⟩ := takeWhile_append hwhole.isDigit hrest
  have hsame : sign ++ (whole ++ rest) = whole ↔ sign ++ rest = [] := by
    refine ⟨fun h => ?_, fun h => ?_⟩
    · have hlength := congrArg List.length h
      simp only [List.length_append] at hlength
      rw [← List.length_eq_zero_iff, List.length_append]
      omega
    · obtain ⟨rfl, rfl⟩ := List.append_eq_nil_iff.1 h
      rw [List.nil_append, List.append_nil]
  simp only [number?, hmagnitude, htake, hdrop, (isWhole_iff hwhole.isDigit).2 hwhole,
    Bool.true_and, hsame]

theorem number?_eq_some_iff {cs : List Char} {s : Scalar} :
    number? cs = some s ↔ SpellsNumber cs s := by
  refine ⟨fun h => ?_, fun h => ?_⟩
  · -- the parts are those that reading splits the characters into
    let magnitude := if cs.head? = some '-' then cs.drop 1 else cs
    let whole := magnitude.takeWhile Char.isDigit
    let rest := magnitude.dropWhile Char.isDigit
    have hparts : ∃ sign, (sign = [] ∨ sign = ['-']) ∧ cs = sign ++ (whole ++ rest) := by
      have hmagnitude : whole ++ rest = magnitude := List.takeWhile_append_dropWhile
      rw [hmagnitude]
      by_cases hminus : cs.head? = some '-'
      · obtain ⟨more, rfl⟩ := List.head?_eq_some_iff.1 hminus
        exact ⟨['-'], .inr rfl, rfl⟩
      · refine ⟨[], .inl rfl, ?_⟩
        simp only [magnitude, if_neg hminus, List.nil_append]
    obtain ⟨sign, hsign, hcs⟩ := hparts
    have hdigits : ∀ c ∈ whole, c.isDigit := List.all_eq_true.1 List.all_takeWhile
    have hrest : ∀ c ∈ rest.head?, c.isDigit = false := by
      intro c hc
      have hnot := List.head?_dropWhile_not Char.isDigit magnitude
      rw [show (magnitude.dropWhile Char.isDigit).head? = some c from hc] at hnot
      exact hnot
    have hread : isWhole whole = true := by
      have hparts := h
      simp only [number?, Option.ite_none_right_eq_some, Bool.and_eq_true] at hparts
      exact hparts.1.1
    have hwhole := (isWhole_iff hdigits).1 hread
    rw [hcs, number?_of_parts hsign hwhole hrest, Option.ite_none_right_eq_some] at h
    obtain ⟨hfraction, hs⟩ := h
    rw [hcs, ← Option.some.inj hs]
    by_cases hnil : sign ++ rest = []
    · obtain ⟨hsign, hrest⟩ := List.append_eq_nil_iff.1 hnil
      rw [if_pos hnil, hsign, hrest, List.nil_append, List.append_nil]
      exact .natural hwhole
    · rw [if_neg hnil]
      obtain ⟨fraction, exponent, hsplit, hfraction, hexponent⟩ := isFraction_iff.1 hfraction
      rw [hsplit] at hnil ⊢
      exact .other hsign hwhole hfraction hexponent hnil
  · cases h with
    | natural hwhole =>
      have hend : ∀ c ∈ ([] : List Char).head?, c.isDigit = false := by
        intro c hc
        cases hc
      have hread : number? ([] ++ (cs ++ [])) = _ := number?_of_parts (.inl rfl) hwhole hend
      rw [List.nil_append, List.append_nil] at hread
      rw [hread]
      rfl
    | other hsign hwhole hfraction hexponent hne =>
      have hread := isFraction_iff.2 ⟨_, _, rfl, hfraction, hexponent⟩
      rw [number?_of_parts hsign hwhole (hfraction.head hexponent), if_pos hread, if_neg hne]

/-- A natural number is written in the one way in which it is spelled. -/
theorem spellsNumber_toDigits (n : Nat) : SpellsNumber (Nat.toDigits 10 n) (.natural n) := by
  have hwhole : WholePart (Nat.toDigits 10 n) :=
    (isWhole_iff fun _ hc => isDigit_of_mem_toDigits hc).1 (isWhole_toDigits n)
  have hnumber := SpellsNumber.natural hwhole
  rwa [Nat.ofDigitChars_toDigits (by decide) (by decide)] at hnumber

theorem Digits.isNumberChar {cs : List Char} (h : ∀ c ∈ cs, c.isDigit) :
    ∀ c ∈ cs, isNumberChar c := by
  intro c hc
  simp [Json.isNumberChar, h c hc]

theorem FractionPart.isNumberChar {cs : List Char} (h : FractionPart cs) :
    ∀ c ∈ cs, isNumberChar c := by
  cases h with
  | absent => nofun
  | present hdigits => exact List.forall_mem_cons.2 ⟨rfl, Digits.isNumberChar hdigits.2⟩

theorem ExponentPart.isNumberChar {cs : List Char} (h : ExponentPart cs) :
    ∀ c ∈ cs, isNumberChar c := by
  cases h with
  | absent => nofun
  | present he hsign hdigits =>
    have hmore := Digits.isNumberChar hdigits.2
    refine List.forall_mem_cons.2 ⟨?_, List.forall_mem_append.2 ⟨?_, hmore⟩⟩
    · rcases he with rfl | rfl <;> rfl
    · rcases hsign with rfl | rfl | rfl
      · exact List.forall_mem_nil _
      · exact List.forall_mem_singleton.2 rfl
      · exact List.forall_mem_singleton.2 rfl

theorem SpellsNumber.isNumberChar {cs : List Char} {s : Scalar} (h : SpellsNumber cs s) :
    cs ≠ [] ∧ ∀ c ∈ cs, isNumberChar c := by
  cases h with
  | natural hwhole => exact ⟨hwhole.ne_nil, Digits.isNumberChar hwhole.isDigit⟩
  | @other sign whole _ _ hsign hwhole hfraction hexponent _ =>
    have hminus : ∀ c ∈ sign, Json.isNumberChar c := by
      rcases hsign with rfl | rfl
      · exact List.forall_mem_nil _
      · exact List.forall_mem_singleton.2 rfl
    refine ⟨?_, List.forall_mem_append.2 ⟨hminus, List.forall_mem_append.2
      ⟨Digits.isNumberChar hwhole.isDigit, List.forall_mem_append.2
        ⟨hfraction.isNumberChar, hexponent.isNumberChar⟩⟩⟩⟩
    intro hnil
    exact hwhole.ne_nil (List.append_eq_nil_iff.1 (List.append_eq_nil_iff.1 hnil).2).1

/-! ### Strings -/

namespace Quoted

/-- The characters between the quotes spell the pieces. -/
inductive Spells : List Char → List Piece → Prop where
  | nil : Spells [] []
  | plain {c : Char} {cs : List Char} {pieces : List Piece} : c ≠ '"' → c ≠ '\\' → ¬ c < ' ' →
      Spells cs pieces → Spells (c :: cs) (.char c :: pieces)
  | escape {e c : Char} {cs : List Char} {pieces : List Piece} : escaped? e = some c →
      Spells cs pieces → Spells ('\\' :: e :: cs) (.char c :: pieces)
  | unit {a b c d : Char} {value : Nat} {cs : List Char} {pieces : List Piece} :
      unit? a b c d = some value → Spells cs pieces →
      Spells ('\\' :: 'u' :: a :: b :: c :: d :: cs) (.unit value :: pieces)

/-- The pieces make up the text: each unit is a character of the basic plane or half of a pair. -/
inductive MakesUp : List Piece → List Char → Prop where
  | nil : MakesUp [] []
  | char {c : Char} {pieces : List Piece} {text : List Char} : MakesUp pieces text →
      MakesUp (.char c :: pieces) (c :: text)
  | unit {value : Nat} {pieces : List Piece} {text : List Char} : isHigh value = false →
      isLow value = false → MakesUp pieces text →
      MakesUp (.unit value :: pieces) (Char.ofNat value :: text)
  | pair {high low : Nat} {pieces : List Piece} {text : List Char} : isHigh high = true →
      isLow low = true → MakesUp pieces text →
      MakesUp (.unit high :: .unit low :: pieces)
        (Char.ofNat (0x10000 + (high - 0xD800) * 0x400 + (low - 0xDC00)) :: text)

theorem Spells.read_append {cs : List Char} {pieces : List Piece} (h : Spells cs pieces)
    (rest : List Char) : read (cs ++ '"' :: rest) = some (pieces, rest) := by
  induction h with
  | nil => rw [List.nil_append, read]
  | plain hquote hslash hplain _ ih =>
    rw [List.cons_append, read.eq_5 _ _ (by simp [hquote]) (by simp [hslash]) (by simp [hslash]),
      if_neg hplain, ih]
    rfl
  | @escape e c cs pieces he _ ih =>
    have hu : e ≠ 'u' := by
      rintro rfl
      cases he
    rw [List.cons_append, List.cons_append, read.eq_4 _ _ (by simp [hu]), he, ih]
    rfl
  | unit hvalue _ ih =>
    simp only [List.cons_append, read, hvalue, ih]
    rfl

theorem exists_spells_of_read {cs rest : List Char} {pieces : List Piece}
    (h : read cs = some (pieces, rest)) :
    ∃ body, cs = body ++ '"' :: rest ∧ Spells body pieces := by
  fun_induction read cs generalizing pieces rest with
  | case1 => cases h
  | case2 rest =>
    cases h
    exact ⟨[], rfl, .nil⟩
  | case3 a b c d rest ih =>
    simp only [Option.bind_eq_bind, Option.bind_eq_some_iff] at h
    obtain ⟨value, hvalue, ⟨more, behind⟩, hmore, h⟩ := h
    cases h
    obtain ⟨body, rfl, hbody⟩ := ih hmore
    exact ⟨'\\' :: 'u' :: a :: b :: c :: d :: body, rfl, .unit hvalue hbody⟩
  | case4 e rest _ ih =>
    simp only [Option.bind_eq_bind, Option.bind_eq_some_iff] at h
    obtain ⟨c, hc, ⟨more, behind⟩, hmore, h⟩ := h
    cases h
    obtain ⟨body, rfl, hbody⟩ := ih hmore
    exact ⟨'\\' :: e :: body, rfl, .escape hc hbody⟩
  | case5 => cases h
  | case6 c rest hquote _ hslash hplain ih =>
    simp only [Option.bind_eq_bind, Option.bind_eq_some_iff] at h
    obtain ⟨⟨more, behind⟩, hmore, h⟩ := h
    cases h
    obtain ⟨body, rfl, hbody⟩ := ih hmore
    refine ⟨c :: body, rfl, .plain hquote ?_ hplain hbody⟩
    -- a backslash is never the last character, so it starts an escape
    intro hc
    cases body with
    | nil => exact hslash _ _ hc rfl
    | cons e body => exact hslash _ _ hc rfl

theorem text?_unit_cons {value : Nat} (hhigh : isHigh value = false) (hlow : isLow value = false)
    (pieces : List Piece) :
    text? (.unit value :: pieces) = (Char.ofNat value :: ·) <$> text? pieces := by
  cases pieces with
  | nil => simp [text?, hhigh, hlow]
  | cons piece pieces => cases piece <;> simp [text?, hhigh, hlow]

theorem MakesUp.text?_eq {pieces : List Piece} {text : List Char} (h : MakesUp pieces text) :
    text? pieces = some text := by
  induction h with
  | nil => rfl
  | char _ ih => rw [text?, ih]; rfl
  | pair hhigh hlow _ ih =>
    rw [text?, hhigh, hlow, ih]
    rfl
  | unit hhigh hlow _ ih =>
    rw [text?_unit_cons hhigh hlow, ih]
    rfl

theorem makesUp_of_text? {pieces : List Piece} {text : List Char}
    (h : text? pieces = some text) : MakesUp pieces text := by
  fun_induction text? pieces generalizing text with
  | case1 =>
    cases h
    exact .nil
  | case2 c pieces ih =>
    obtain ⟨text, htext, rfl⟩ := Option.map_eq_some_iff.1 h
    exact .char (ih htext)
  | case3 high low pieces hpair ih =>
    obtain ⟨text, htext, rfl⟩ := Option.map_eq_some_iff.1 h
    obtain ⟨hhigh, hlow⟩ := Bool.and_eq_true_iff.1 hpair
    exact .pair hhigh hlow (ih htext)
  | case4 => cases h
  | case5 high low pieces _ halone ih =>
    obtain ⟨text, htext, rfl⟩ := Option.map_eq_some_iff.1 h
    rw [Bool.or_eq_true, not_or, Bool.not_eq_true, Bool.not_eq_true] at halone
    exact .unit halone.1 halone.2 (ih htext)
  | case6 => cases h
  | case7 value pieces _ halone ih =>
    obtain ⟨text, htext, rfl⟩ := Option.map_eq_some_iff.1 h
    rw [Bool.or_eq_true, not_or, Bool.not_eq_true, Bool.not_eq_true] at halone
    exact .unit halone.1 halone.2 (ih htext)

end Quoted

/-! ### Scalars and tokens -/

/-- A string with half of a surrogate pair is well formed and has no text. -/
inductive SpellsScalar : List Char → Scalar → Prop where
  | null : SpellsScalar "null".toList .null
  | isTrue : SpellsScalar "true".toList (.bool true)
  | isFalse : SpellsScalar "false".toList (.bool false)
  | number {cs : List Char} {s : Scalar} : SpellsNumber cs s → SpellsScalar cs s
  | text {cs text : List Char} {pieces : List Quoted.Piece} : Quoted.Spells cs pieces →
      Quoted.MakesUp pieces text →
      SpellsScalar ('"' :: (cs ++ ['"'])) (.text (some (String.ofList text)))
  | noText {cs : List Char} {pieces : List Quoted.Piece} : Quoted.Spells cs pieces →
      (∀ text, ¬ Quoted.MakesUp pieces text) →
      SpellsScalar ('"' :: (cs ++ ['"'])) (.text none)

theorem scalar?_of_read {cs rest : List Char} {pieces : List Quoted.Piece}
    (h : Quoted.read cs = some (pieces, rest)) :
    scalar? ('"' :: cs) = some (.text ((Quoted.text? pieces).map String.ofList), rest) := by
  simp only [scalar?, List.head?_cons, if_true, List.drop_one, List.tail_cons, h]
  rfl

/-- A scalar is read where it is spelled, up to where it can end. -/
theorem scalar?_of_spells {cs rest : List Char} {s : Scalar} (h : SpellsScalar cs s)
    (hrest : EndsScalar rest) : scalar? (cs ++ rest) = some (s, rest) := by
  cases h with
  | null | isTrue | isFalse => rfl
  | number hnumber =>
    obtain ⟨hne, hchars⟩ := hnumber.isNumberChar
    exact scalar?_of_number? hne hchars (number?_eq_some_iff.2 hnumber) hrest
  | text hspells htext =>
    have hread := scalar?_of_read (hspells.read_append rest)
    rw [htext.text?_eq] at hread
    rw [List.cons_append, List.append_assoc]
    exact hread
  | @noText _ pieces hspells hnone =>
    have hread := scalar?_of_read (hspells.read_append rest)
    have htext : Quoted.text? pieces = none := by
      cases htext : Quoted.text? pieces with
      | none => rfl
      | some text => exact absurd (Quoted.makesUp_of_text? htext) (hnone text)
    rw [htext] at hread
    rw [List.cons_append, List.append_assoc]
    exact hread

theorem exists_spells_of_word? {cs rest : List Char} {s : Scalar} (h : word? cs = some (s, rest)) :
    ∃ spelled, cs = spelled ++ rest ∧ SpellsScalar spelled s := by
  unfold word? at h
  split at h
  · cases h
    exact ⟨_, rfl, .null⟩
  · cases h
    exact ⟨_, rfl, .isTrue⟩
  · cases h
    exact ⟨_, rfl, .isFalse⟩
  · cases h

theorem exists_spells_of_scalar? {cs rest : List Char} {s : Scalar}
    (h : scalar? cs = some (s, rest)) :
    ∃ spelled, cs = spelled ++ rest ∧ SpellsScalar spelled s := by
  by_cases hquote : cs.head? = some '"'
  · obtain ⟨more, rfl⟩ := List.head?_eq_some_iff.1 hquote
    cases hread : Quoted.read more with
    | none => simp [scalar?, hread] at h
    | some found =>
      obtain ⟨pieces, behind⟩ := found
      rw [scalar?_of_read hread] at h
      cases h
      obtain ⟨body, rfl, hbody⟩ := Quoted.exists_spells_of_read hread
      refine ⟨'"' :: (body ++ ['"']), by simp, ?_⟩
      cases htext : Quoted.text? pieces with
      | some text => exact .text hbody (Quoted.makesUp_of_text? htext)
      | none =>
        refine .noText hbody fun text hmakes => ?_
        rw [hmakes.text?_eq] at htext
        cases htext
  · rw [scalar?, if_neg hquote] at h
    split at h
    · rename_i found hword
      cases h
      exact exists_spells_of_word? hword
    · simp only [Option.bind_eq_bind, Option.bind_eq_some_iff] at h
      obtain ⟨s, hs, h⟩ := h
      cases h
      exact ⟨cs.takeWhile isNumberChar, List.takeWhile_append_dropWhile.symm,
        .number (number?_eq_some_iff.1 hs)⟩

theorem SpellsScalar.head {cs : List Char} {s : Scalar} (h : SpellsScalar cs s) :
    ∃ c rest, cs = c :: rest ∧ mark? c = none ∧ isSpace c = false := by
  cases h with
  | null | isTrue | isFalse => exact ⟨_, _, rfl, rfl, rfl⟩
  | text | noText => exact ⟨_, _, rfl, rfl, rfl⟩
  | number hnumber =>
    obtain ⟨hne, hchars⟩ := hnumber.isNumberChar
    obtain ⟨c, rest, rfl⟩ := List.exists_cons_of_ne_nil hne
    have hc := hchars c List.mem_cons_self
    exact ⟨c, rest, rfl, mark?_of_isNumberChar hc, isSpace_of_isNumberChar hc⟩

/-- A mark is spelled as it is written. -/
def SpellsToken (cs : List Char) : Token → Prop
  | .scalar s => SpellsScalar cs s
  | mark => cs = mark.write

theorem SpellsToken.head {cs : List Char} {t : Token} (h : SpellsToken cs t) :
    ∃ c rest, cs = c :: rest ∧ isSpace c = false := by
  cases t with
  | scalar s =>
    obtain ⟨c, rest, hcs, -, hspace⟩ := SpellsScalar.head h
    exact ⟨c, rest, hcs, hspace⟩
  | openArray | closeArray | openObject | closeObject | comma | colon => exact ⟨_, _, h, rfl⟩

theorem token?_of_spells {cs rest : List Char} {t : Token} (h : SpellsToken cs t)
    (hrest : t.IsMark ∨ EndsScalar rest) : token? (cs ++ rest) = some (t, rest) := by
  cases t with
  | scalar s =>
    have hread := scalar?_of_spells h (hrest.resolve_left id)
    obtain ⟨c, more, rfl, hmark, -⟩ := SpellsScalar.head h
    rw [List.cons_append] at hread ⊢
    rw [token?, hmark]
    simp only [hread]
    rfl
  | openArray | closeArray | openObject | closeObject | comma | colon =>
    cases h
    rfl

theorem exists_spells_of_token? {cs rest : List Char} {t : Token}
    (h : token? cs = some (t, rest)) :
    ∃ spelled, cs = spelled ++ rest ∧ SpellsToken spelled t := by
  cases cs with
  | nil => cases h
  | cons c cs =>
    rw [token?] at h
    split at h
    · rename_i mark hmark
      cases h
      refine ⟨[c], rfl, ?_⟩
      unfold mark? at hmark
      split at hmark <;> cases hmark <;> rfl
    · simp only [Option.bind_eq_bind, Option.bind_eq_some_iff] at h
      obtain ⟨⟨s, behind⟩, hs, h⟩ := h
      cases h
      exact exists_spells_of_scalar? hs

end PowerFormulas.Json
