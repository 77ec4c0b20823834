import PowerFormulas.Json.Reading

/-!
# Tokens one after another

Where a number is read it ends only before a character of no number. So a row of tokens can be taken
apart again if no scalar in it is next to another one, as it is with the tokens of a value
(`separated_tokens`).
-/

namespace PowerFormulas.Json

/-! ### Scalars -/

theorem head?_toDigits {n : Nat} (h : n ≠ 0) : (Nat.toDigits 10 n).head? ≠ some '0' := by
  induction n using Nat.strongRecOn with
  | ind n ih =>
    by_cases hn : n < 10
    · simp [Nat.toDigits_of_lt_base hn, h]
    · rw [Nat.toDigits_of_base_le (by omega) (by omega), List.head?_append,
        Option.or_of_isSome (by simp [Nat.toDigits_ne_nil])]
      exact ih (n / 10) (by omega) (by omega)

theorem isWhole_toDigits (n : Nat) : isWhole (Nat.toDigits 10 n) = true := by
  by_cases h : n = 0
  · subst h
    rfl
  · simp [isWhole, head?_toDigits h, Nat.toDigits_ne_nil]

theorem isDigit_of_mem_toDigits {n : Nat} {c : Char} (h : c ∈ Nat.toDigits 10 n) : c.isDigit :=
  Nat.isDigit_of_mem_toDigits (by omega) (by omega) h

/-- Where a scalar can end: at the end of the text or before a character of no number. -/
def EndsScalar (rest : List Char) : Prop := ∀ c ∈ rest.head?, isNumberChar c = false

theorem word?_of_isNumberChar {c : Char} (h : isNumberChar c) (cs : List Char) :
    word? (c :: cs) = none := by
  unfold word?
  split <;> simp_all [isNumberChar]

theorem mark?_of_isNumberChar {c : Char} (h : isNumberChar c) : mark? c = none := by
  unfold mark?
  split <;> simp_all [isNumberChar]

theorem isSpace_of_isNumberChar {c : Char} (hc : isNumberChar c) : isSpace c = false := by
  cases h : isSpace c with
  | false => rfl
  | true =>
    simp only [isSpace, Bool.or_eq_true, decide_eq_true_eq] at h
    rcases h with ((rfl | rfl) | rfl) | rfl <;> simp [isNumberChar] at hc

/-- The characters of a class end where one of another class follows. -/
theorem takeWhile_append {p : Char → Bool} {cs rest : List Char} (hcs : ∀ c ∈ cs, p c)
    (hrest : ∀ c ∈ rest.head?, p c = false) :
    (cs ++ rest).takeWhile p = cs ∧ (cs ++ rest).dropWhile p = rest := by
  rw [List.takeWhile_append_of_pos hcs, List.dropWhile_append_of_pos hcs]
  cases rest with
  | nil => simp
  | cons c rest => simp [hrest c rfl]

/-- A number is read from all the characters of numbers that there are. -/
theorem scalar?_of_number? {cs rest : List Char} {s : Scalar} (hne : cs ≠ [])
    (hcs : ∀ c ∈ cs, isNumberChar c) (hs : number? cs = some s) (hrest : EndsScalar rest) :
    scalar? (cs ++ rest) = some (s, rest) := by
  obtain ⟨htake, hdrop⟩ := takeWhile_append hcs hrest
  obtain ⟨c, cs, rfl⟩ := List.exists_cons_of_ne_nil hne
  have hc := hcs c (by simp)
  have hquote : c ≠ '"' := by rintro rfl; simp [isNumberChar] at hc
  rw [scalar?, htake, hdrop]
  simp only [List.cons_append, List.head?_cons, Option.some.injEq, hquote, if_false,
    word?_of_isNumberChar hc, hs]
  rfl

/-- A scalar whose characters, as written, are read as the same scalar. -/
def Scalar.IsCanonical : Scalar → Prop
  | .number written =>
    (∀ c ∈ written.toList, isNumberChar c) ∧ number? written.toList = some (.number written)
  | _ => True

/-! ### Tokens -/

def Token.IsMark : Token → Prop
  | .scalar _ => False
  | _ => True

def Token.IsCanonical : Token → Prop
  | .scalar s => s.IsCanonical
  | _ => True

/-- Of two neighbours at most one is a scalar. -/
def Separated : List Token → Prop
  | a :: b :: rest => (a.IsMark ∨ b.IsMark) ∧ Separated (b :: rest)
  | _ => True

theorem Separated.tail {t : Token} {tokens : List Token} (h : Separated (t :: tokens)) :
    Separated tokens := by
  cases tokens with
  | nil => trivial
  | cons next tokens => exact h.2

theorem endsScalar_of_isMark {t : Token} (ht : t.IsMark) (rest : List Char) :
    EndsScalar (t.write ++ rest) := by
  cases t with
  | scalar s => exact ht.elim
  | _ => intro c hc; cases hc; rfl

/-! ### Values -/

theorem separated_cons {t : Token} (ht : t.IsMark) {rest : List Token} (hrest : Separated rest) :
    Separated (t :: rest) := by
  cases rest with
  | nil => trivial
  | cons next rest => exact ⟨.inl ht, hrest⟩

/-- Tokens that may follow a value: none, or a mark first. -/
def FollowsValue (rest : List Token) : Prop := Separated rest ∧ ∀ t ∈ rest.head?, t.IsMark

theorem followsValue_cons {t : Token} (ht : t.IsMark) {rest : List Token}
    (hrest : Separated rest) : FollowsValue (t :: rest) :=
  ⟨separated_cons ht hrest, fun _ h => by cases h; exact ht⟩

mutual

theorem separated_tokens_append (v : Value) {rest : List Token} (hrest : FollowsValue rest) :
    Separated (v.tokens ++ rest) :=
  match v with
  | .scalar s => by
    cases rest with
    | nil => trivial
    | cons next rest => exact ⟨.inr (hrest.2 next rfl), hrest.1⟩
  | .array items => by
    simpa [Value.tokens] using separated_cons (t := .openArray) trivial
      (separated_itemTokens_append items (followsValue_cons (t := .closeArray) trivial hrest.1))
  | .object members => by
    simpa [Value.tokens] using separated_cons (t := .openObject) trivial
      (separated_memberTokens_append members
        (followsValue_cons (t := .closeObject) trivial hrest.1))
termination_by structural v

theorem separated_itemTokens_append (items : List Value) {rest : List Token}
    (hrest : FollowsValue rest) : Separated (itemTokens items ++ rest) :=
  match items with
  | [] => hrest.1
  | [item] => separated_tokens_append item hrest
  | item :: next :: items => by
    have h := separated_itemTokens_append (next :: items) hrest
    simpa [itemTokens] using
      separated_tokens_append item (followsValue_cons (t := .comma) trivial h)
termination_by structural items

theorem separated_memberTokens_append (members : List (Option String × Value)) {rest : List Token}
    (hrest : FollowsValue rest) : Separated (memberTokens members ++ rest) :=
  match members with
  | [] => hrest.1
  | [(name, v)] => by
    have h := separated_cons (t := .colon) trivial (separated_tokens_append v hrest)
    exact ⟨.inr trivial, h⟩
  | (name, v) :: next :: members => by
    have hmore := separated_memberTokens_append (next :: members) hrest
    have hv := separated_tokens_append v (followsValue_cons (t := .comma) trivial hmore)
    have h : Separated (.scalar (.text name) :: .colon :: _) :=
      ⟨.inr trivial, separated_cons (t := .colon) trivial hv⟩
    simpa [memberTokens] using h
termination_by structural members

end

theorem separated_tokens (v : Value) : Separated v.tokens := by
  have h : Separated (v.tokens ++ []) := separated_tokens_append v ⟨trivial, by simp⟩
  simpa using h

end PowerFormulas.Json
