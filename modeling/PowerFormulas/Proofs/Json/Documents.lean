import Mathlib.Data.List.TakeWhile
import PowerFormulas.Proofs.Json.Grammar

/-!
# JSON documents

A document is one value with blank characters around it, and blank characters may stand around every
item, name and member value in it. Reading a text accepts exactly the documents, each as the value
that it spells (`Value.read?_eq_some_iff`). The compact text of a value that can be written is one
of them (`Value.read?_write`), and every value that has been read can be written
(`Value.read?_write_of_read?`).

Between the characters and the value stand the tokens: characters are *laid out* as tokens where
each token is spelled with blanks before it. A document is what is laid out as the tokens of a
value, and that is what the tokens are read from.
-/

namespace PowerFormulas.Json

def Spaces (cs : List Char) : Prop := ∀ c ∈ cs, isSpace c

mutual

/-- A value with blanks around it. -/
inductive IsElement : List Char → Value → Prop where
  | padded {before cs behind : List Char} {v : Value} : Spaces before → IsValue cs v →
      Spaces behind → IsElement (before ++ (cs ++ behind)) v

inductive IsValue : List Char → Value → Prop where
  | scalar {cs : List Char} {s : Scalar} : SpellsScalar cs s → IsValue cs (.scalar s)
  | array {cs : List Char} {items : List Value} : IsItems cs items →
      IsValue ('[' :: (cs ++ [']'])) (.array items)
  | object {cs : List Char} {members : List (Option String × Value)} : IsMembers cs members →
      IsValue ('{' :: (cs ++ ['}'])) (.object members)

/-- What stands between the brackets of an array. -/
inductive IsItems : List Char → List Value → Prop where
  | none {cs : List Char} : Spaces cs → IsItems cs []
  | one {cs : List Char} {v : Value} : IsElement cs v → IsItems cs [v]
  | more {cs rest : List Char} {v next : Value} {items : List Value} : IsElement cs v →
      IsItems rest (next :: items) → IsItems (cs ++ ',' :: rest) (v :: next :: items)

/-- A name is a string with blanks around it. -/
inductive IsMember : List Char → Option String → Value → Prop where
  | named {label cs : List Char} {name : Option String} {v : Value} :
      IsElement label (.scalar (.text name)) → IsElement cs v → IsMember (label ++ ':' :: cs) name v

/-- What stands between the braces of an object. -/
inductive IsMembers : List Char → List (Option String × Value) → Prop where
  | none {cs : List Char} : Spaces cs → IsMembers cs []
  | one {cs : List Char} {name : Option String} {v : Value} : IsMember cs name v →
      IsMembers cs [(name, v)]
  | more {cs rest : List Char} {name : Option String} {v : Value}
      {next : Option String × Value} {members : List (Option String × Value)} :
      IsMember cs name v → IsMembers rest (next :: members) →
      IsMembers (cs ++ ',' :: rest) ((name, v) :: next :: members)

end

/-- The text is one document and spells the value. -/
def IsDocument (text : String) (v : Value) : Prop := IsElement text.toList v

/-! ### Characters laid out as tokens -/

/-- Nothing is said here of where a token ends. -/
inductive Laid : List Char → List Token → Prop where
  | nil {cs : List Char} : Spaces cs → Laid cs []
  | cons {before cs rest : List Char} {t : Token} {tokens : List Token} : Spaces before →
      SpellsToken cs t → Laid rest tokens → Laid (before ++ (cs ++ rest)) (t :: tokens)

variable {cs : List Char} {tokens more : List Token} {t mark : Token}

theorem spaces_nil : Spaces [] := by
  intro c hc
  cases hc

theorem Spaces.append {before behind : List Char} (h : Spaces before) (h' : Spaces behind) :
    Spaces (before ++ behind) := List.forall_mem_append.2 ⟨h, h'⟩

theorem laid_nil_iff : Laid cs [] ↔ Spaces cs := by
  refine ⟨fun h => ?_, .nil⟩
  cases h with
  | nil hcs => exact hcs

theorem laid_cons_iff : Laid cs (t :: tokens) ↔ ∃ before spelled rest,
    cs = before ++ (spelled ++ rest) ∧ Spaces before ∧ SpellsToken spelled t ∧
      Laid rest tokens := by
  refine ⟨fun h => ?_, fun h => ?_⟩
  · cases h with
    | cons hbefore hspelled hrest => exact ⟨_, _, _, rfl, hbefore, hspelled, hrest⟩
  · obtain ⟨before, spelled, rest, rfl, hbefore, hspelled, hrest⟩ := h
    exact .cons hbefore hspelled hrest

theorem Laid.spaces_append {before : List Char} (hbefore : Spaces before) (h : Laid cs tokens) :
    Laid (before ++ cs) tokens := by
  cases h with
  | nil hcs => exact .nil (hbefore.append hcs)
  | cons hspaces hspelled hrest =>
    rw [← List.append_assoc]
    exact .cons (hbefore.append hspaces) hspelled hrest

theorem Laid.append {behind : List Char} (h : Laid cs tokens) (h' : Laid behind more) :
    Laid (cs ++ behind) (tokens ++ more) := by
  induction h with
  | nil hcs => exact h'.spaces_append hcs
  | cons hspaces hspelled _ ih =>
    rw [List.append_assoc, List.append_assoc]
    exact .cons hspaces hspelled ih

/-- What is laid out can be split between any two tokens. -/
theorem exists_laid_of_append (h : Laid cs (tokens ++ more)) :
    ∃ before behind, cs = before ++ behind ∧ Laid before tokens ∧ Laid behind more := by
  induction tokens generalizing cs with
  | nil => exact ⟨[], cs, rfl, .nil spaces_nil, h⟩
  | cons t tokens ih =>
    obtain ⟨spaces, spelled, rest, rfl, hspaces, hspelled, hrest⟩ := laid_cons_iff.1 h
    obtain ⟨before, behind, rfl, hbefore, hbehind⟩ := ih hrest
    refine ⟨spaces ++ (spelled ++ before), behind, ?_, .cons hspaces hspelled hbefore, hbehind⟩
    rw [List.append_assoc, List.append_assoc]

theorem spellsToken_mark_iff (hmark : mark.IsMark) : SpellsToken cs mark ↔ cs = mark.write := by
  cases mark with
  | scalar s => exact hmark.elim
  | _ => rfl

/-- What is laid out can be split at a mark, which takes up one character. -/
theorem laid_append_mark_iff (hmark : mark.IsMark) : Laid cs (tokens ++ mark :: more) ↔
    ∃ before behind, cs = before ++ (mark.write ++ behind) ∧ Laid before tokens ∧
      Laid behind more := by
  refine ⟨fun h => ?_, fun h => ?_⟩
  · obtain ⟨before, rest, rfl, hbefore, hrest⟩ := exists_laid_of_append h
    obtain ⟨spaces, spelled, behind, rfl, hspaces, hspelled, hbehind⟩ := laid_cons_iff.1 hrest
    rw [(spellsToken_mark_iff hmark).1 hspelled]
    have hpadded : Laid (before ++ spaces) (tokens ++ []) := hbefore.append (.nil hspaces)
    rw [List.append_nil] at hpadded
    exact ⟨before ++ spaces, behind, (List.append_assoc _ _ _).symm, hpadded, hbehind⟩
  · obtain ⟨before, behind, rfl, hbefore, hbehind⟩ := h
    have hspelled : SpellsToken mark.write mark := (spellsToken_mark_iff hmark).2 rfl
    exact hbefore.append (.cons spaces_nil hspelled hbehind)

theorem laid_bracketed_iff {openMark closeMark : Token} (hopen : openMark.IsMark)
    (hclose : closeMark.IsMark) : Laid cs (openMark :: tokens ++ [closeMark]) ↔
      ∃ before spelled behind, cs = before ++ (spelled ++ behind) ∧ Spaces before ∧
        (∃ inner, spelled = openMark.write ++ (inner ++ closeMark.write) ∧ Laid inner tokens) ∧
        Spaces behind := by
  refine ⟨fun h => ?_, fun h => ?_⟩
  · have hopened : Laid cs ([] ++ openMark :: (tokens ++ [closeMark])) := h
    obtain ⟨before, rest, rfl, hbefore, hrest⟩ := (laid_append_mark_iff hopen).1 hopened
    obtain ⟨inner, behind, rfl, hinner, hbehind⟩ := (laid_append_mark_iff hclose).1 hrest
    refine ⟨before, openMark.write ++ (inner ++ closeMark.write), behind, ?_,
      laid_nil_iff.1 hbefore, ⟨inner, rfl, hinner⟩, laid_nil_iff.1 hbehind⟩
    simp only [List.append_assoc]
  · obtain ⟨before, _, behind, rfl, hbefore, ⟨inner, rfl, hinner⟩, hbehind⟩ := h
    have hrest : Laid (inner ++ (closeMark.write ++ behind)) (tokens ++ [closeMark]) :=
      (laid_append_mark_iff hclose).2 ⟨inner, behind, rfl, hinner, .nil hbehind⟩
    simp only [List.append_assoc]
    exact .cons hbefore ((spellsToken_mark_iff hopen).2 rfl) hrest

/-! ### Documents are what is laid out as the tokens of a value -/

theorem isElement_iff {v : Value} : IsElement cs v ↔ ∃ before spelled behind,
    cs = before ++ (spelled ++ behind) ∧ Spaces before ∧ IsValue spelled v ∧ Spaces behind := by
  refine ⟨fun h => ?_, fun h => ?_⟩
  · cases h with
    | padded hbefore hvalue hbehind => exact ⟨_, _, _, rfl, hbefore, hvalue, hbehind⟩
  · obtain ⟨before, spelled, behind, rfl, hbefore, hvalue, hbehind⟩ := h
    exact .padded hbefore hvalue hbehind

theorem isValue_scalar_iff {s : Scalar} : IsValue cs (.scalar s) ↔ SpellsScalar cs s := by
  refine ⟨fun h => ?_, .scalar⟩
  cases h with
  | scalar hs => exact hs

theorem isValue_array_iff {items : List Value} : IsValue cs (.array items) ↔
    ∃ inner, cs = ['['] ++ (inner ++ [']']) ∧ IsItems inner items := by
  refine ⟨fun h => ?_, fun h => ?_⟩
  · cases h with
    | array hitems => exact ⟨_, rfl, hitems⟩
  · obtain ⟨inner, rfl, hitems⟩ := h
    exact .array hitems

theorem isValue_object_iff {members : List (Option String × Value)} :
    IsValue cs (.object members) ↔
      ∃ inner, cs = ['{'] ++ (inner ++ ['}']) ∧ IsMembers inner members := by
  refine ⟨fun h => ?_, fun h => ?_⟩
  · cases h with
    | object hmembers => exact ⟨_, rfl, hmembers⟩
  · obtain ⟨inner, rfl, hmembers⟩ := h
    exact .object hmembers

theorem isItems_nil_iff : IsItems cs [] ↔ Spaces cs := by
  refine ⟨fun h => ?_, .none⟩
  cases h with
  | none hcs => exact hcs

theorem isItems_singleton_iff {v : Value} : IsItems cs [v] ↔ IsElement cs v := by
  refine ⟨fun h => ?_, .one⟩
  cases h with
  | one hv => exact hv

theorem isItems_cons_cons_iff {v next : Value} {items : List Value} :
    IsItems cs (v :: next :: items) ↔ ∃ item rest, cs = item ++ ([','] ++ rest) ∧
      IsElement item v ∧ IsItems rest (next :: items) := by
  refine ⟨fun h => ?_, fun h => ?_⟩
  · cases h with
    | more hv hrest => exact ⟨_, _, rfl, hv, hrest⟩
  · obtain ⟨item, rest, rfl, hv, hrest⟩ := h
    exact .more hv hrest

theorem isMember_iff {name : Option String} {v : Value} : IsMember cs name v ↔
    ∃ label rest, cs = label ++ ([':'] ++ rest) ∧ IsElement label (.scalar (.text name)) ∧
      IsElement rest v := by
  refine ⟨fun h => ?_, fun h => ?_⟩
  · cases h with
    | named hlabel hv => exact ⟨_, _, rfl, hlabel, hv⟩
  · obtain ⟨label, rest, rfl, hlabel, hv⟩ := h
    exact .named hlabel hv

theorem isMembers_nil_iff : IsMembers cs [] ↔ Spaces cs := by
  refine ⟨fun h => ?_, .none⟩
  cases h with
  | none hcs => exact hcs

theorem isMembers_singleton_iff {name : Option String} {v : Value} :
    IsMembers cs [(name, v)] ↔ IsMember cs name v := by
  refine ⟨fun h => ?_, .one⟩
  cases h with
  | one hmember => exact hmember

theorem isMembers_cons_cons_iff {name : Option String} {v : Value}
    {next : Option String × Value} {members : List (Option String × Value)} :
    IsMembers cs ((name, v) :: next :: members) ↔ ∃ member rest,
      cs = member ++ ([','] ++ rest) ∧ IsMember member name v ∧
      IsMembers rest (next :: members) := by
  refine ⟨fun h => ?_, fun h => ?_⟩
  · cases h with
    | more hmember hrest => exact ⟨_, _, rfl, hmember, hrest⟩
  · obtain ⟨member, rest, rfl, hmember, hrest⟩ := h
    exact .more hmember hrest

theorem isElement_scalar_iff_laid {s : Scalar} :
    IsElement cs (.scalar s) ↔ Laid cs [.scalar s] := by
  rw [isElement_iff, laid_cons_iff]
  simp only [isValue_scalar_iff, laid_nil_iff]
  rfl

/-- A member is laid out as its name, a colon, and its value. -/
theorem isMember_iff_laid {name : Option String} {v : Value}
    (hv : ∀ cs, IsElement cs v ↔ Laid cs v.tokens) :
    IsMember cs name v ↔ Laid cs (.scalar (.text name) :: .colon :: v.tokens) := by
  have hlaid : Laid cs ([.scalar (.text name)] ++ .colon :: v.tokens) ↔ _ :=
    laid_append_mark_iff (show Token.colon.IsMark from trivial)
  refine isMember_iff.trans (Iff.trans ?_ hlaid.symm)
  simp only [isElement_scalar_iff_laid, hv]
  rfl

mutual

theorem isElement_iff_laid (v : Value) (cs : List Char) : IsElement cs v ↔ Laid cs v.tokens :=
  match v with
  | .scalar s => isElement_scalar_iff_laid
  | .array items => by
    have hopen : Token.openArray.IsMark := trivial
    have hclose : Token.closeArray.IsMark := trivial
    rw [Value.tokens, laid_bracketed_iff hopen hclose, isElement_iff]
    simp only [isValue_array_iff, isItems_iff_laid items]
    rfl
  | .object members => by
    have hopen : Token.openObject.IsMark := trivial
    have hclose : Token.closeObject.IsMark := trivial
    rw [Value.tokens, laid_bracketed_iff hopen hclose, isElement_iff]
    simp only [isValue_object_iff, isMembers_iff_laid members]
    rfl
termination_by structural v

theorem isItems_iff_laid (items : List Value) (cs : List Char) :
    IsItems cs items ↔ Laid cs (itemTokens items) :=
  match items with
  | [] => isItems_nil_iff.trans laid_nil_iff.symm
  | [v] => isItems_singleton_iff.trans (isElement_iff_laid v cs)
  | v :: next :: items => by
    have hcomma : Token.comma.IsMark := trivial
    rw [itemTokens, laid_append_mark_iff hcomma, isItems_cons_cons_iff]
    simp only [isElement_iff_laid v, isItems_iff_laid (next :: items)]
    rfl
termination_by structural items

theorem isMembers_iff_laid (members : List (Option String × Value)) (cs : List Char) :
    IsMembers cs members ↔ Laid cs (memberTokens members) :=
  match members with
  | [] => isMembers_nil_iff.trans laid_nil_iff.symm
  | [(name, v)] => isMembers_singleton_iff.trans (isMember_iff_laid (isElement_iff_laid v))
  | (name, v) :: next :: members => by
    have hcomma : Token.comma.IsMark := trivial
    rw [memberTokens, laid_append_mark_iff hcomma, isMembers_cons_cons_iff]
    simp only [isMember_iff_laid (isElement_iff_laid v), isMembers_iff_laid (next :: members)]
    rfl
termination_by structural members

end

/-! ### Tokens are read where they are laid out -/

theorem laid_of_tokensWithin {count : Nat} (h : tokensWithin count cs = some tokens) :
    Laid cs tokens := by
  fun_induction tokensWithin count cs generalizing tokens with
  | case1 cs count hblank =>
    cases h
    exact .nil (List.dropWhile_eq_nil_iff.1 hblank)
  | case2 => cases h
  | case3 cs count c rest hrest ih =>
    simp only [Option.bind_eq_bind, Option.bind_eq_some_iff] at h
    obtain ⟨⟨t, behind⟩, ht, tokens, htokens, h⟩ := h
    cases h
    obtain ⟨spelled, hspelled, ht⟩ := exists_spells_of_token? ht
    have hspaces : Spaces (cs.takeWhile isSpace) := List.all_eq_true.1 List.all_takeWhile
    have hcs : cs.takeWhile isSpace ++ cs.dropWhile isSpace = cs := List.takeWhile_append_dropWhile
    rw [← hcs, hrest, hspelled]
    exact .cons hspaces ht (ih _ htokens)

theorem Spaces.endsScalar_append {before rest : List Char} (h : Spaces before)
    (hrest : EndsScalar rest) : EndsScalar (before ++ rest) := by
  cases before with
  | nil => exact hrest
  | cons space before =>
    intro c hc
    cases hc
    have hspace := h space List.mem_cons_self
    rw [← Bool.not_eq_true]
    intro hnumber
    rw [isSpace_of_isNumberChar hnumber] at hspace
    cases hspace

/-- A scalar ends where a blank, a mark or nothing follows. -/
theorem Laid.endsScalar (h : Laid cs tokens) (hmark : ∀ t ∈ tokens.head?, t.IsMark) :
    EndsScalar cs := by
  cases h with
  | nil hcs =>
    have hend : EndsScalar (cs ++ []) := hcs.endsScalar_append nofun
    rwa [List.append_nil] at hend
  | cons hbefore hspelled _ =>
    have ht := hmark _ rfl
    rw [(spellsToken_mark_iff ht).1 hspelled]
    exact hbefore.endsScalar_append (endsScalar_of_isMark ht _)

theorem tokensWithin_of_laid (h : Laid cs tokens) (hsep : Separated tokens) {count : Nat}
    (hcount : tokens.length ≤ count) : tokensWithin count cs = some tokens := by
  induction h generalizing count with
  | nil hcs =>
    rw [tokensWithin.eq_def, List.dropWhile_eq_nil_iff.2 hcs]
  | @cons before spelled rest t tokens hbefore hspelled hrest ih =>
    obtain ⟨count, rfl⟩ : ∃ n, count = n + 1 :=
      ⟨count - 1, by rw [List.length_cons] at hcount; omega⟩
    have hend : t.IsMark ∨ EndsScalar rest := by
      cases tokens with
      | nil =>
        refine .inr (hrest.endsScalar ?_)
        intro t ht
        cases ht
      | cons next tokens =>
        refine hsep.1.imp_right fun hnext => hrest.endsScalar ?_
        intro t ht
        cases ht
        exact hnext
    have hread := token?_of_spells hspelled hend
    have hmore := ih hsep.tail (Nat.le_of_succ_le_succ hcount)
    obtain ⟨c, cs, rfl, hc⟩ := hspelled.head
    have hdrop : (before ++ (c :: cs ++ rest)).dropWhile isSpace = c :: (cs ++ rest) := by
      rw [List.dropWhile_append_of_pos hbefore, List.cons_append,
        List.dropWhile_cons_of_neg (by rw [hc]; exact Bool.false_ne_true)]
    rw [tokensWithin.eq_def, hdrop]
    rw [List.cons_append] at hread
    simp only [hread, hmore, Option.bind_eq_bind, Option.bind_some]
    rfl

theorem Laid.length_le (h : Laid cs tokens) : tokens.length ≤ cs.length := by
  induction h with
  | nil => exact Nat.zero_le _
  | cons _ hspelled _ ih =>
    obtain ⟨c, cs, rfl, -⟩ := hspelled.head
    simp only [List.length_append, List.length_cons]
    omega

theorem tokens?_eq_some_iff (hsep : Separated tokens) :
    tokens? cs = some tokens ↔ Laid cs tokens :=
  ⟨laid_of_tokensWithin, fun h => tokensWithin_of_laid h hsep h.length_le⟩

/-- A text is read as a value just if it is a document that spells the value. -/
theorem Value.read?_eq_some_iff {text : String} {v : Value} :
    read? text = some v ↔ IsDocument text v := by
  have hread : read? text = some v ↔ tokens? text.toList = some v.tokens := by
    simp only [read?, Option.bind_eq_bind, Option.bind_eq_some_iff, ofTokens?_eq_some_iff,
      exists_eq_right]
  rw [hread, tokens?_eq_some_iff (separated_tokens v), IsDocument, isElement_iff_laid]

/-! ### Compact text -/

theorem spells_flatMap_escape (text : List Char) :
    Quoted.Spells (text.flatMap Quoted.escape) (text.map .ofChar) := by
  obtain ⟨body, hbody, hspells⟩ :=
    Quoted.exists_spells_of_read (Quoted.read_flatMap_escape text [])
  rw [List.append_cancel_right hbody]
  exact hspells

/-- Half of a surrogate pair, for a string that has no text. -/
theorem spellsScalar_noText : SpellsScalar (Scalar.text none).write (.text none) := by
  have hunit : Quoted.unit? 'd' '8' '0' '0' = some 0xD800 := rfl
  refine .noText (.unit hunit .nil) fun text htext => ?_
  have hnone := htext.text?_eq
  cases hnone

theorem spellsScalar_write {s : Scalar} (hs : s.IsCanonical) : SpellsScalar s.write s := by
  cases s with
  | null => exact .null
  | bool b =>
    cases b with
    | false => exact .isFalse
    | true => exact .isTrue
  | natural n => exact .number (spellsNumber_toDigits n)
  | number written => exact .number (number?_eq_some_iff.1 hs.2)
  | text content =>
    cases content with
    | none => exact spellsScalar_noText
    | some content =>
      have htext := Quoted.makesUp_of_text? (Quoted.text?_map_ofChar content.toList)
      have hspells := SpellsScalar.text (spells_flatMap_escape content.toList) htext
      rwa [String.ofList_toList] at hspells

theorem spellsToken_write (ht : t.IsCanonical) : SpellsToken t.write t := by
  cases t with
  | scalar s => exact spellsScalar_write ht
  | _ => rfl

theorem laid_write (h : ∀ t ∈ tokens, t.IsCanonical) :
    Laid (tokens.flatMap Token.write) tokens := by
  induction tokens with
  | nil => exact .nil spaces_nil
  | cons t tokens ih =>
    obtain ⟨ht, hmore⟩ := List.forall_mem_cons.1 h
    exact .cons spaces_nil (spellsToken_write ht) (ih hmore)

/-- A value is read back from its compact text. -/
theorem Value.read?_write (v : Value) (h : ∀ t ∈ v.tokens, t.IsCanonical) :
    read? v.write = some v := by
  rw [read?_eq_some_iff, IsDocument, write, String.toList_ofList, isElement_iff_laid]
  exact laid_write h

theorem SpellsScalar.isCanonical {s : Scalar} (h : SpellsScalar cs s) : s.IsCanonical := by
  cases h with
  | number hnumber =>
    obtain ⟨-, hchars⟩ := hnumber.isNumberChar
    have hread := number?_eq_some_iff.2 hnumber
    cases hnumber with
    | natural => trivial
    | other =>
      refine ⟨?_, ?_⟩
      · rwa [String.toList_ofList]
      · rwa [String.toList_ofList]
  | _ => trivial

theorem Laid.isCanonical (h : Laid cs tokens) : ∀ t ∈ tokens, t.IsCanonical := by
  induction h with
  | nil => exact List.forall_mem_nil _
  | @cons _ _ _ t _ _ hspelled _ ih =>
    refine List.forall_mem_cons.2 ⟨?_, ih⟩
    cases t with
    | scalar s => exact SpellsScalar.isCanonical hspelled
    | _ => trivial

/-- What has been read can be written, and is read from its compact text again. -/
theorem Value.read?_write_of_read? {text : String} {v : Value} (h : read? text = some v) :
    read? v.write = some v := by
  rw [read?_eq_some_iff, IsDocument, isElement_iff_laid] at h
  exact v.read?_write h.isCanonical

end PowerFormulas.Json
