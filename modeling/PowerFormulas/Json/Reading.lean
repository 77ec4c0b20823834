import PowerFormulas.Json.Value

/-!
# Reading JSON values

Reading goes through the tokens once and keeps the containers that are open on a stack, so nesting
is bounded by nothing but the length of the text.

Main statement: reading accepts exactly the tokens of values (`ofTokens?_eq_some_iff`).
-/

namespace PowerFormulas.Json

/-- A container that is open: what it holds so far, the last item first, and in an object the name
of the member that is being read. -/
inductive Frame where
  | array (items : List Value)
  | object (members : List (Option String × Value)) (name : Option String)

/-- Reads tokens to the end. `done` is the value just completed, or none where one has to start;
`stack` holds the open containers, the innermost first. -/
def readFrom : (done : Option Value) → (stack : List Frame) → List Token → Option Value
  | some v, [], [] => some v
  | some v, .array items :: stack, .comma :: rest =>
    readFrom none (.array (v :: items) :: stack) rest
  | some v, .array items :: stack, .closeArray :: rest =>
    readFrom (some (.array (v :: items).reverse)) stack rest
  | some v, .object members name :: stack, .comma :: .scalar (.text next) :: .colon :: rest =>
    readFrom none (.object ((name, v) :: members) next :: stack) rest
  | some v, .object members name :: stack, .closeObject :: rest =>
    readFrom (some (.object ((name, v) :: members).reverse)) stack rest
  | none, stack, .scalar s :: rest => readFrom (some (.scalar s)) stack rest
  | none, stack, .openArray :: .closeArray :: rest => readFrom (some (.array [])) stack rest
  | none, stack, .openArray :: rest => readFrom none (.array [] :: stack) rest
  | none, stack, .openObject :: .closeObject :: rest => readFrom (some (.object [])) stack rest
  | none, stack, .openObject :: .scalar (.text name) :: .colon :: rest =>
    readFrom none (.object [] name :: stack) rest
  | _, _, _ => none

/-- The value that tokens make up. -/
def ofTokens? (tokens : List Token) : Option Value := readFrom none [] tokens

/-- The value that a text is written for. -/
def Value.read? (text : String) : Option Value := tokens? text.toList >>= ofTokens?

/-! ### What is read was written -/

/-- The tokens read for an open container: each of its items is followed by a comma. -/
def Frame.tokens : Frame → List Token
  | .array items => .openArray :: items.reverse.flatMap fun v => v.tokens ++ [.comma]
  | .object members name =>
    .openObject :: (members.reverse.flatMap fun (name, v) =>
      .scalar (.text name) :: .colon :: v.tokens ++ [.comma]) ++ [.scalar (.text name), .colon]

def stackTokens (stack : List Frame) : List Token := stack.reverse.flatMap Frame.tokens

/-- Nothing that is read is lost. -/
theorem tokens_of_readFrom {done : Option Value} {stack : List Frame} {rest : List Token}
    {w : Value} (h : readFrom done stack rest = some w) :
    stackTokens stack ++ (done.elim [] Value.tokens ++ rest) = w.tokens := by
  fun_induction readFrom done stack rest with
  | case1 => simp_all [stackTokens]
  | case2 _ _ _ _ ih => simpa [stackTokens, Frame.tokens] using ih h
  | case3 _ _ _ _ ih =>
    simpa [stackTokens, Frame.tokens, Value.tokens, itemTokens_append_singleton] using ih h
  | case4 _ _ _ _ _ _ ih => simpa [stackTokens, Frame.tokens] using ih h
  | case5 _ _ _ _ _ ih =>
    simpa [stackTokens, Frame.tokens, Value.tokens, memberTokens_append_singleton] using ih h
  | case6 _ _ _ ih => simpa [Value.tokens] using ih h
  | case7 _ _ ih => simpa [Value.tokens, itemTokens] using ih h
  | case8 _ _ _ ih => simpa [stackTokens, Frame.tokens] using ih h
  | case9 _ _ ih => simpa [Value.tokens, memberTokens] using ih h
  | case10 _ _ _ ih => simpa [stackTokens, Frame.tokens] using ih h
  | case11 => simp at h

/-! ### What is written is read -/

theorem readFrom_openArray {v : Value} {stack : List Frame} {more : List Token} :
    readFrom none stack (.openArray :: (v.tokens ++ more)) =
      readFrom none (.array [] :: stack) (v.tokens ++ more) := by
  obtain ⟨t, rest, h, ht⟩ := exists_head_tokens v
  rw [h, List.cons_append, readFrom]
  intro rest h
  cases h
  exact ht rfl

mutual

/-- What is written is read back, whatever stands around it. -/
theorem readFrom_tokens (v : Value) (stack : List Frame) (rest : List Token) :
    readFrom none stack (v.tokens ++ rest) = readFrom (some v) stack rest :=
  match v with
  | .scalar s => by rw [Value.tokens, List.cons_append, List.nil_append, readFrom]
  | .array [] => by simp [Value.tokens, itemTokens, readFrom]
  | .array (item :: items) => by
    have h := readFrom_items (item :: items) (by simp) [] stack rest
    obtain ⟨more, hmore⟩ : ∃ more, itemTokens (item :: items) = item.tokens ++ more := by
      cases items <;> simp [itemTokens]
    simp only [Value.tokens, List.cons_append, List.append_assoc, List.nil_append, hmore,
      List.reverse_nil] at h ⊢
    rw [readFrom_openArray, h]
  | .object [] => by simp [Value.tokens, memberTokens, readFrom]
  | .object ((name, v) :: members) => by
    obtain ⟨more, hmore⟩ := exists_head_memberTokens name v members
    have h := readFrom_members ((name, v) :: members) hmore [] stack rest
    simp only [Value.tokens, List.cons_append, List.append_assoc, List.nil_append, hmore,
      List.reverse_nil] at h ⊢
    rw [readFrom, h]
termination_by structural v

/-- Items are read into the array that is open. -/
theorem readFrom_items (items : List Value) (hne : items ≠ []) (done : List Value)
    (stack : List Frame) (rest : List Token) :
    readFrom none (.array done :: stack) (itemTokens items ++ .closeArray :: rest) =
      readFrom (some (.array (done.reverse ++ items))) stack rest :=
  match items with
  | [] => absurd rfl hne
  | [item] => by
    rw [itemTokens, readFrom_tokens item, readFrom]
    simp
  | item :: next :: items => by
    rw [itemTokens, List.append_assoc, readFrom_tokens item, List.cons_append, readFrom,
      readFrom_items (next :: items) (by simp)]
    simp
termination_by structural items

/-- Members are read into the object that is open, from the value of the first one on. -/
theorem readFrom_members (members : List (Option String × Value)) {name : Option String}
    {more : List Token} (h : memberTokens members = .scalar (.text name) :: .colon :: more)
    (done : List (Option String × Value)) (stack : List Frame) (rest : List Token) :
    readFrom none (.object done name :: stack) (more ++ .closeObject :: rest) =
      readFrom (some (.object (done.reverse ++ members))) stack rest :=
  match members with
  | [] => by simp [memberTokens] at h
  | [(name, v)] => by
    simp only [memberTokens, List.cons.injEq, Token.scalar.injEq, Scalar.text.injEq, true_and] at h
    obtain ⟨rfl, rfl⟩ := h
    rw [readFrom_tokens v, readFrom]
    simp
  | (name, v) :: (next, w) :: members => by
    obtain ⟨more, hmore⟩ := exists_head_memberTokens next w members
    have ih := readFrom_members ((next, w) :: members) hmore ((name, v) :: done) stack rest
    simp only [memberTokens, hmore, List.cons.injEq, Token.scalar.injEq, Scalar.text.injEq,
      true_and, List.cons_append] at h
    obtain ⟨rfl, rfl⟩ := h
    rw [List.append_assoc, readFrom_tokens v, List.cons_append, List.cons_append, List.cons_append,
      readFrom, ih]
    simp
termination_by structural members

end

theorem ofTokens?_eq_some_iff {tokens : List Token} {v : Value} :
    ofTokens? tokens = some v ↔ tokens = v.tokens := by
  constructor
  · intro h
    simpa [stackTokens] using tokens_of_readFrom h
  · rintro rfl
    have h := readFrom_tokens v [] []
    rwa [List.append_nil, readFrom] at h

end PowerFormulas.Json
