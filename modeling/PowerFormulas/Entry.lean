import Std.Data.ExtTreeMap

/-!
# Tag entries

A tag of a power is a constant or a script. A script is a program with its source text and an
optional comment, and it is evaluated at most once: it is unevaluated, in progress, or done with a
value that is kept.
-/

namespace PowerFormulas

/-- How far the evaluation of a formula has come. -/
inductive Progress where
  | unevaluated
  /-- Started and not finished; a script whose evaluation failed stays so. -/
  | inProgress
  | done (value : Int32)
  deriving DecidableEq, Repr

/-- A program and the text that it was made from. -/
structure Script where
  code : List UInt32
  source : String
  deriving DecidableEq, Repr

inductive Entry where
  | constant (value : Int32)
  | script (body : Script) (comment : String) (progress : Progress)
  deriving DecidableEq, Repr

namespace Entry

/-- A script as it is decoded: without a comment, not yet evaluated. -/
def ofScript (body : Script) : Entry := .script body "" .unevaluated

/-- A constant is done from the start. -/
def progress : Entry → Progress
  | .constant value => .done value
  | .script _ _ progress => progress

/-- The value of a constant or of a script that is done. -/
def value? (e : Entry) : Option Int32 :=
  match e.progress with
  | .done value => some value
  | _ => none

def body? : Entry → Option Script
  | .constant _ => none
  | .script body _ _ => some body

/-- The program; a constant has none. -/
def code : Entry → List UInt32
  | .constant _ => []
  | .script body _ _ => body.code

/-- The source text; a constant has none. -/
def source : Entry → String
  | .constant _ => ""
  | .script body _ _ => body.source

/-- The comment; a constant has none. -/
def comment : Entry → String
  | .constant _ => ""
  | .script _ comment _ => comment

/-- Sets the comment of a script and leaves a constant as it is. -/
def annotate (text : String) : Entry → Entry
  | .constant value => .constant value
  | .script body _ progress => .script body text progress

/-- Sets the progress of a script and leaves a constant as it is. -/
def withProgress (p : Progress) : Entry → Entry
  | .constant value => .constant value
  | .script body comment _ => .script body comment p

@[simp] theorem body?_withProgress (p : Progress) (e : Entry) :
    (e.withProgress p).body? = e.body? := by
  cases e <;> rfl

@[simp] theorem comment_withProgress (p : Progress) (e : Entry) :
    (e.withProgress p).comment = e.comment := by
  cases e <;> rfl

@[simp] theorem body?_annotate (text : String) (e : Entry) :
    (e.annotate text).body? = e.body? := by
  cases e <;> rfl

@[simp] theorem progress_annotate (text : String) (e : Entry) :
    (e.annotate text).progress = e.progress := by
  cases e <;> rfl

/-- Only a script can be unevaluated or in progress, so its progress can then be set. -/
theorem progress_withProgress {e : Entry} (h : e.value? = none) (p : Progress) :
    (e.withProgress p).progress = p := by
  cases e with
  | constant => simp [value?, progress] at h
  | script => rfl

end Entry

/-- The entries of a power by tag id, in ascending order of the ids. -/
abbrev Entries := Std.ExtTreeMap UInt32 Entry

/-- Of the entries that a list has for a key, the last one stays. -/
theorem getElem?_ofList {α β : Type} [Ord α] [Std.TransOrd α] [Std.LawfulEqOrd α] [DecidableEq α]
    (list : List (α × β)) (key : α) :
    (Std.ExtTreeMap.ofList list)[key]? = list.reverse.lookup key := by
  rw [Std.ExtTreeMap.ofList_eq_insertMany_empty, Std.ExtTreeMap.getElem?_insertMany_list,
    Std.ExtTreeMap.getElem?_empty, Option.or_none, List.findSomeRev?_eq_findSome?_reverse]
  induction list.reverse with
  | nil => rfl
  | cons first rest ih =>
    obtain ⟨found, b⟩ := first
    rw [List.findSome?_cons, List.lookup_cons, ih]
    by_cases h : found = key
    · simp [h]
    · have hne : (key == found) = false := beq_eq_false_iff_ne.2 (Ne.symm h)
      simp [h, hne]

theorem Entries.getElem?_modify (es : Entries) (id k : UInt32) (f : Entry → Entry) :
    (es.modify id f)[k]? = if id = k then es[k]?.map f else es[k]? := by
  rw [Std.ExtTreeMap.getElem?_modify]
  by_cases h : id = k
  · subst h
    simp
  · simp [h]

end PowerFormulas
