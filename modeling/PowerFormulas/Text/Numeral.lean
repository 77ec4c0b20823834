/-!
# Numerals

Unsigned numerals in a radix of at most 36, read into words of 32 bits. A numeral is an optional
`+` and at least one digit of either case; any number of leading zeros is allowed. Characters are
judged from left to right and the first offending one names the fault: a character that is no digit
is reported as such even where the digits before it already leave too little room.
-/

namespace PowerFormulas.Text

/-- Why a text is not a numeral of a 32-bit word. -/
inductive NumeralFault where
  | empty
  | invalidDigit
  | tooLarge
  deriving DecidableEq, Repr

def NumeralFault.message : NumeralFault → String
  | .empty => "cannot parse integer from empty string"
  | .invalidDigit => "invalid digit found in string"
  | .tooLarge => "number too large to fit in target type"

/-- The value of a digit in any radix up to 36. -/
def digitValue? (c : Char) : Option Nat :=
  if '0' ≤ c ∧ c ≤ '9' then some (c.toNat - '0'.toNat)
  else if 'a' ≤ c ∧ c ≤ 'z' then some (c.toNat - 'a'.toNat + 10)
  else if 'A' ≤ c ∧ c ≤ 'Z' then some (c.toNat - 'A'.toNat + 10)
  else none

/-- The value of a digit in the given radix. -/
def digit? (radix : Nat) (c : Char) : Option Nat :=
  (digitValue? c).filter (· < radix)

/-- Reads digits after a number `acc` that has been read already. -/
def readDigits (radix : Nat) : Nat → List Char → Except NumeralFault Nat
  | acc, [] => .ok acc
  | acc, c :: cs =>
    match digit? radix c with
    | none => .error .invalidDigit
    | some d =>
      if acc * radix + d < UInt32.size then readDigits radix (acc * radix + d) cs
      else .error .tooLarge

/-- Reads a numeral as a word. A lone sign has no digit. -/
def readWord (radix : Nat) : List Char → Except NumeralFault UInt32
  | [] => .error .empty
  | ['+'] => .error .invalidDigit
  | '+' :: cs => UInt32.ofNat <$> readDigits radix 0 cs
  | cs => UInt32.ofNat <$> readDigits radix 0 cs

/-- The digits of a number in the given radix, at least `width` of them. -/
def padDigits (radix width n : Nat) : List Char :=
  let digits := Nat.toDigits radix n
  List.replicate (width - digits.length) '0' ++ digits

/-! ### Numbers are read back from their digits -/

theorem readDigits_append (radix acc : Nat) (cs ds : List Char) :
    readDigits radix acc (cs ++ ds) = readDigits radix acc cs >>= (readDigits radix · ds) := by
  fun_induction readDigits radix acc cs with
  | case1 => rfl
  | case2 acc c cs h => simp [readDigits, h]; rfl
  | case3 acc c cs d h hlt ih => simp [readDigits, h, hlt, ih]
  | case4 acc c cs d h hlt => simp [readDigits, h, hlt]; rfl

theorem digit?_digitChar {radix d : Nat} (hd : d < radix) (hradix : radix ≤ 16) :
    digit? radix (Nat.digitChar d) = some d := by
  have h : digitValue? (Nat.digitChar d) = some d :=
    (by decide : ∀ d : Fin 16, digitValue? (Nat.digitChar d) = some d.val) ⟨d, by omega⟩
  simp [digit?, h, hd]

theorem readDigits_toDigits {radix n : Nat} (hone : 1 < radix) (hradix : radix ≤ 16)
    (hn : n < UInt32.size) : readDigits radix 0 (Nat.toDigits radix n) = .ok n := by
  induction n using Nat.strongRecOn with
  | ind n ih =>
    by_cases hlt : n < radix
    · rw [Nat.toDigits_of_lt_base hlt]
      simp [readDigits, digit?_digitChar hlt hradix, hn]
    · -- the last digit is read after the number that the others make up
      have hdiv : n / radix < n := Nat.div_lt_self (by omega) hone
      have hmod : n % radix < radix := Nat.mod_lt _ (by omega)
      have hsum : n / radix * radix + n % radix = n := Nat.div_add_mod' n radix
      rw [Nat.toDigits_of_base_le hone (by omega), readDigits_append, ih _ hdiv (by omega)]
      change readDigits radix (n / radix) [Nat.digitChar (n % radix)] = .ok n
      simp [readDigits, digit?_digitChar hmod hradix, hsum, hn]

theorem readDigits_replicate_zero {radix : Nat} (hradix : 0 < radix) (count : Nat) :
    readDigits radix 0 (List.replicate count '0') = .ok 0 := by
  induction count with
  | zero => rfl
  | succ count ih =>
    have h : digit? radix '0' = some 0 := by simp [digit?, digitValue?, hradix]
    simp [List.replicate_succ, readDigits, h, ih, UInt32.size]

theorem readWord_eq_readDigits {radix : Nat} {cs : List Char} (hne : cs ≠ [])
    (hplus : cs.head? ≠ some '+') :
    readWord radix cs = UInt32.ofNat <$> readDigits radix 0 cs := by
  cases cs with
  | nil => exact absurd rfl hne
  | cons c cs =>
    have hc : c ≠ '+' := by simpa using hplus
    rw [readWord.eq_4] <;> simp [hc]

theorem padDigits_ne_nil (radix width n : Nat) : padDigits radix width n ≠ [] := by
  simp [padDigits, Nat.toDigits_ne_nil]

/-- Every character of a number in digits is the digit of something less than the radix. -/
theorem exists_digitChar_of_mem_padDigits {radix width n : Nat} {c : Char} (hone : 1 < radix)
    (h : c ∈ padDigits radix width n) : ∃ d < radix, c = Nat.digitChar d := by
  simp only [padDigits, List.mem_append, List.mem_replicate] at h
  rcases h with ⟨-, rfl⟩ | h
  · exact ⟨0, by omega, rfl⟩
  · induction n using Nat.strongRecOn with
    | ind n ih =>
      by_cases hlt : n < radix
      · rw [Nat.toDigits_of_lt_base hlt, List.mem_singleton] at h
        exact ⟨n, hlt, h⟩
      · rw [Nat.toDigits_of_base_le hone (by omega), List.mem_append, List.mem_singleton] at h
        rcases h with h | h
        · exact ih _ (Nat.div_lt_self (by omega) hone) h
        · exact ⟨_, Nat.mod_lt _ (by omega), h⟩

/-- A word is read back from its digits, whatever they are filled up to. -/
theorem readWord_padDigits {radix : Nat} (hone : 1 < radix) (hradix : radix ≤ 16) (width : Nat)
    (w : UInt32) : readWord radix (padDigits radix width w.toNat) = .ok w := by
  have hplus : (padDigits radix width w.toNat).head? ≠ some '+' := by
    intro h
    obtain ⟨d, hd, hc⟩ := exists_digitChar_of_mem_padDigits hone (List.mem_of_mem_head? h)
    exact (by decide : ∀ d : Fin 16, '+' ≠ Nat.digitChar d) ⟨d, by omega⟩ hc
  rw [readWord_eq_readDigits (padDigits_ne_nil _ _ _) hplus, padDigits, readDigits_append,
    readDigits_replicate_zero (by omega)]
  change UInt32.ofNat <$> readDigits radix 0 (Nat.toDigits radix w.toNat) = .ok w
  rw [readDigits_toDigits hone hradix w.toNat_lt_size]
  change Except.ok (UInt32.ofNat w.toNat) = _
  rw [UInt32.ofNat_toNat]

end PowerFormulas.Text
