import PowerFormulas.Json.Token

/-!
# JSON values

A value as a tree, and the tokens that it is written with. Members of objects keep their order and
may repeat a name; what that means is for the reader of the value to decide.
-/

namespace PowerFormulas.Json

inductive Value where
  | scalar (s : Scalar)
  | array (items : List Value)
  /-- A name is a string, so it may have no text. -/
  | object (members : List (Option String × Value))

mutual

/-- The tokens of a value. -/
def Value.tokens : Value → List Token
  | .scalar s => [.scalar s]
  | .array items => .openArray :: itemTokens items ++ [.closeArray]
  | .object members => .openObject :: memberTokens members ++ [.closeObject]

/-- The tokens between the brackets of an array. -/
def itemTokens : List Value → List Token
  | [] => []
  | [item] => item.tokens
  | item :: next :: rest => item.tokens ++ .comma :: itemTokens (next :: rest)

/-- The tokens between the braces of an object. -/
def memberTokens : List (Option String × Value) → List Token
  | [] => []
  | [(name, value)] => .scalar (.text name) :: .colon :: value.tokens
  | (name, value) :: next :: rest =>
    .scalar (.text name) :: .colon :: value.tokens ++ .comma :: memberTokens (next :: rest)

end

/-- The compact text of a value: its tokens with nothing between them. -/
def Value.write (v : Value) : String := String.ofList (v.tokens.flatMap Token.write)

theorem itemTokens_append_singleton (items : List Value) (v : Value) :
    itemTokens (items ++ [v]) = (items.flatMap fun v => v.tokens ++ [.comma]) ++ v.tokens := by
  induction items with
  | nil => simp [itemTokens]
  | cons item items ih =>
    cases items with
    | nil => simp [itemTokens]
    | cons next rest =>
      rw [List.cons_append] at ih
      simp [itemTokens, ih]

theorem memberTokens_append_singleton (members : List (Option String × Value))
    (name : Option String) (v : Value) :
    memberTokens (members ++ [(name, v)]) =
      (members.flatMap fun (name, v) => .scalar (.text name) :: .colon :: v.tokens ++ [.comma]) ++
        .scalar (.text name) :: .colon :: v.tokens := by
  induction members with
  | nil => simp [memberTokens]
  | cons member members ih =>
    cases members with
    | nil => simp [memberTokens]
    | cons next rest =>
      rw [List.cons_append] at ih
      simp [memberTokens, ih]

/-- No value starts with the end of an array. -/
theorem exists_head_tokens (v : Value) : ∃ t rest, v.tokens = t :: rest ∧ t ≠ .closeArray := by
  cases v with
  | scalar s => exact ⟨_, _, rfl, by simp⟩
  | array items => exact ⟨_, _, rfl, by simp⟩
  | object members => exact ⟨_, _, rfl, by simp⟩

/-- Members start with a name and a colon. -/
theorem exists_head_memberTokens (name : Option String) (v : Value)
    (members : List (Option String × Value)) :
    ∃ more, memberTokens ((name, v) :: members) = .scalar (.text name) :: .colon :: more := by
  cases members <;> simp [memberTokens]

end PowerFormulas.Json
