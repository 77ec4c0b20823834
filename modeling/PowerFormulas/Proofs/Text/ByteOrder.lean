import Mathlib.Data.String.Basic

/-!
# Texts in the order of their bytes

Texts are compared character by character. The bytes of UTF-8 give the same order
(`encoding_lt_encoding_iff`): a longer encoding starts with a greater byte, and of two encodings of one
length the first byte in which they differ decides, as the bytes hold a number's digits from the
highest on.
-/

namespace PowerFormulas.Text.Utf8

def encoding (text : String) : List UInt8 := text.toList.flatMap String.utf8EncodeChar

/-- The bytes behind the first one of an encoding: six bits each, the highest ones first. -/
def continuation : Nat → Nat → List UInt8
  | 0, _ => []
  | n + 1, v => continuation n (v / 64) ++ [UInt8.ofNat (v % 64 + 128)]

theorem ofNat_cons_lt {a b : Nat} (hb : b < 256) (h : a < b) (x y : List UInt8) :
    UInt8.ofNat a :: x < UInt8.ofNat b :: y := by
  apply List.cons_lt_cons_iff.2
  left
  rw [UInt8.lt_iff_toNat_lt, UInt8.toNat_ofNat_of_lt' (Nat.lt_trans h hb),
    UInt8.toNat_ofNat_of_lt' hb]
  exact h

theorem continuation_append_lt {n v w : Nat} (hsame : v / 64 ^ n = w / 64 ^ n) (h : v < w)
    (x y : List UInt8) : continuation n v ++ x < continuation n w ++ y := by
  induction n generalizing v w x y with
  | zero =>
    rw [Nat.pow_zero, Nat.div_one, Nat.div_one] at hsame
    omega
  | succ n ih =>
    simp only [continuation, List.append_assoc]
    by_cases hhigh : v / 64 = w / 64
    · rw [hhigh]
      exact List.append_left_lt (ofNat_cons_lt (by omega) (by omega) x y)
    · rw [Nat.pow_succ', ← Nat.div_div_eq_div_mul, ← Nat.div_div_eq_div_mul] at hsame
      exact ih hsame (by omega) _ _

/-- What the first byte of an encoding adds to the highest bits: it tells the number of bytes. -/
def marker : Nat → Nat
  | 0 => 0
  | 1 => 192
  | 2 => 224
  | _ => 240

theorem exists_utf8EncodeChar_eq (c : Char) : ∃ n,
    String.utf8EncodeChar c =
      UInt8.ofNat (c.val.toNat / 64 ^ n + marker n) :: continuation n c.val.toNat ∧
    c.val.toNat / 64 ^ n + marker n < 256 ∧
    (n = 0 ∧ c.val.toNat < 0x80 ∨ n = 1 ∧ 0x80 ≤ c.val.toNat ∧ c.val.toNat < 0x800 ∨
      n = 2 ∧ 0x800 ≤ c.val.toNat ∧ c.val.toNat < 0x10000 ∨
      n = 3 ∧ 0x10000 ≤ c.val.toNat ∧ c.val.toNat < 0x110000) := by
  have hvalid : c.val.toNat < 0xD800 ∨ 0xDFFF < c.val.toNat ∧ c.val.toNat < 0x110000 := c.valid
  rw [String.utf8EncodeChar]
  generalize c.val.toNat = v at hvalid
  by_cases h1 : v ≤ 127
  · refine ⟨0, ?_, ?_, by omega⟩
    · simp [h1, marker, continuation]
    · simp only [marker]
      omega
  · by_cases h2 : v ≤ 2047
    · have hfirst : v / 64 % 32 = v / 64 := by omega
      refine ⟨1, ?_, ?_, by omega⟩
      · simp [h1, h2, marker, continuation, hfirst]
      · simp only [marker]
        omega
    · by_cases h3 : v ≤ 65535
      · have hfirst : v / 4096 % 16 = v / 4096 := by omega
        refine ⟨2, ?_, ?_, by omega⟩
        · simp [h1, h2, h3, marker, continuation, hfirst]
        · simp only [marker]
          omega
      · have hfirst : v / 262144 % 8 = v / 262144 := by omega
        have hsecond : v / 64 / 64 = v / 4096 := by omega
        refine ⟨3, ?_, ?_, by omega⟩
        · simp [h1, h2, h3, marker, continuation, hfirst, hsecond]
        · simp only [marker]
          omega

theorem utf8EncodeChar_append_lt {c d : Char} (h : c < d) (x y : List UInt8) :
    String.utf8EncodeChar c ++ x < String.utf8EncodeChar d ++ y := by
  have hlt : c.val.toNat < d.val.toNat := h
  obtain ⟨n, hc, _, hrange⟩ := exists_utf8EncodeChar_eq c
  obtain ⟨m, hd, hfits, hrange'⟩ := exists_utf8EncodeChar_eq d
  rw [hc, hd, List.cons_append, List.cons_append]
  by_cases hnm : n = m
  · subst hnm
    by_cases hfirst : c.val.toNat / 64 ^ n = d.val.toNat / 64 ^ n
    · rw [hfirst]
      exact List.cons_lt_cons_iff.2 (.inr ⟨rfl, continuation_append_lt hfirst hlt x y⟩)
    · have hle : c.val.toNat / 64 ^ n ≤ d.val.toNat / 64 ^ n := Nat.div_le_div_right hlt.le
      exact ofNat_cons_lt hfits (by omega) _ _
  · apply ofNat_cons_lt hfits
    -- the numbers of bytes differ, and so do the markers
    rcases hrange with ⟨rfl, _⟩ | ⟨rfl, _⟩ | ⟨rfl, _⟩ | ⟨rfl, _⟩ <;>
      rcases hrange' with ⟨rfl, _⟩ | ⟨rfl, _⟩ | ⟨rfl, _⟩ | ⟨rfl, _⟩ <;>
      simp only [marker] <;> omega

theorem flatMap_utf8EncodeChar_lt {cs ds : List Char} (h : cs < ds) :
    cs.flatMap String.utf8EncodeChar < ds.flatMap String.utf8EncodeChar := by
  induction cs generalizing ds with
  | nil =>
    cases ds with
    | nil => exact absurd h (List.lt_irrefl _)
    | cons d ds =>
      obtain ⟨n, hd, _⟩ := exists_utf8EncodeChar_eq d
      rw [List.flatMap_cons, hd]
      exact List.nil_lt_cons _ _
  | cons c cs ih =>
    cases ds with
    | nil => exact absurd h (List.not_lt_nil _)
    | cons d ds =>
      rw [List.flatMap_cons, List.flatMap_cons]
      rcases List.cons_lt_cons_iff.1 h with hlt | ⟨rfl, hrest⟩
      · exact utf8EncodeChar_append_lt hlt _ _
      · exact List.append_left_lt (ih hrest)

theorem encoding_lt_encoding_iff {a b : String} : encoding a < encoding b ↔ a < b := by
  have hmono : ∀ {a b : String}, a < b → encoding a < encoding b := fun h =>
    flatMap_utf8EncodeChar_lt (String.lt_iff_toList_lt.1 h)
  constructor
  · intro h
    rcases lt_trichotomy a b with hlt | rfl | hgt
    · exact hlt
    · exact absurd h (List.lt_irrefl _)
    · exact absurd (hmono hgt) (List.lt_asymm h)
  · exact hmono

end PowerFormulas.Text.Utf8
