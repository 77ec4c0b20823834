/-!
# Blank characters

The characters with the Unicode property White_Space, and the removal of them from both ends of a
text. `Char.isWhitespace` knows only the ASCII ones, and of those it leaves out U+000B and U+000C.
-/

namespace PowerFormulas.Text

/-- The characters of Unicode's property White_Space. -/
def blanks : List Char :=
  ['\t', '\n', '\x0b', '\x0c', '\r', ' ', '\u0085', '\u00a0', '\u1680', '\u2000', '\u2001',
    '\u2002', '\u2003', '\u2004', '\u2005', '\u2006', '\u2007', '\u2008', '\u2009', '\u200a',
    '\u2028', '\u2029', '\u202f', '\u205f', '\u3000']

def isBlank (c : Char) : Bool := blanks.contains c

/-- The text without the blanks at its two ends. -/
def trim (cs : List Char) : List Char :=
  ((cs.dropWhile isBlank).reverse.dropWhile isBlank).reverse

@[simp] theorem trim_nil : trim [] = [] := rfl

theorem dropWhile_isBlank_eq_self {cs : List Char} (h : ∀ c ∈ cs.head?, isBlank c = false) :
    cs.dropWhile isBlank = cs := by
  cases cs with
  | nil => rfl
  | cons c cs => simp [h c (by simp)]

/-- A text that neither starts nor ends with a blank is its own trimmed form. -/
theorem trim_eq_self {cs : List Char} (hhead : ∀ c ∈ cs.head?, isBlank c = false)
    (hlast : ∀ c ∈ cs.getLast?, isBlank c = false) : trim cs = cs := by
  rw [trim, dropWhile_isBlank_eq_self hhead, dropWhile_isBlank_eq_self (by simpa using hlast),
    List.reverse_reverse]

/-- What is added at its two ends in blanks is taken away again. -/
theorem trim_append {before cs behind : List Char} (hbefore : ∀ c ∈ before, isBlank c)
    (hbehind : ∀ c ∈ behind, isBlank c) (hne : cs ≠ []) (hcs : ∀ c ∈ cs, isBlank c = false) :
    trim (before ++ cs ++ behind) = cs := by
  have hhead : ∀ c ∈ (cs ++ behind).head?, isBlank c = false := by
    intro c hc
    cases cs with
    | nil => exact absurd rfl hne
    | cons first rest =>
      cases hc
      exact hcs _ List.mem_cons_self
  have hlast : ∀ c ∈ cs.reverse.head?, isBlank c = false := by
    intro c hc
    exact hcs c (List.mem_reverse.1 (List.mem_of_mem_head? hc))
  have hreverse : ∀ c ∈ behind.reverse, isBlank c := fun c hc => hbehind c (List.mem_reverse.1 hc)
  rw [trim, List.append_assoc, List.dropWhile_append_of_pos hbefore,
    dropWhile_isBlank_eq_self hhead, List.reverse_append, List.dropWhile_append_of_pos hreverse,
    dropWhile_isBlank_eq_self hlast, List.reverse_reverse]

end PowerFormulas.Text
