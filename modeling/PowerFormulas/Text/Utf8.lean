/-!
# Reading text that should be UTF-8

A machine over the bytes, one byte a step, that always yields a text: a character for each
well-formed sequence, and one U+FFFD for each maximal part of an ill-formed one, that is, for the
longest run of bytes that could still have become a character, or for a single byte that starts
none. The byte that ends such a run is read again as a first byte.

Main statement: the encoding of a text reads back as that text (`decode_encode`).
-/

namespace PowerFormulas.Text.Utf8

/-- Stands for what cannot be read. -/
def replacement : Char := '\uFFFD'

/-- A character of which the first bytes have been read: their payload, how many bytes follow the
next one, and the least and the greatest next byte. -/
structure Pending where
  payload : Nat
  more : Nat
  low : Nat
  high : Nat
  deriving DecidableEq, Repr

/-- A byte where a character may start: the characters it completes and what it leaves open. The
narrower ranges after 0xE0, 0xED, 0xF0 and 0xF4 keep out longer spellings of shorter characters,
surrogates, and values above U+10FFFF. -/
def first (b : Nat) : List Char × Option Pending :=
  if b < 0x80 then ([Char.ofNat b], none)
  else if 0xC2 ≤ b ∧ b ≤ 0xDF then ([], some ⟨b % 32, 0, 0x80, 0xBF⟩)
  else if 0xE0 ≤ b ∧ b ≤ 0xEF then
    ([], some ⟨b % 16, 1, if b = 0xE0 then 0xA0 else 0x80, if b = 0xED then 0x9F else 0xBF⟩)
  else if 0xF0 ≤ b ∧ b ≤ 0xF4 then
    ([], some ⟨b % 8, 2, if b = 0xF0 then 0x90 else 0x80, if b = 0xF4 then 0x8F else 0xBF⟩)
  else ([replacement], none)

/-- One byte: the characters it completes and what it leaves open. -/
def step : Option Pending → Nat → List Char × Option Pending
  | none, b => first b
  | some p, b =>
    if p.low ≤ b ∧ b ≤ p.high then
      match p.more with
      | 0 => ([Char.ofNat (p.payload * 64 + b % 64)], none)
      | n + 1 => ([], some ⟨p.payload * 64 + b % 64, n, 0x80, 0xBF⟩)
    else (replacement :: (first b).1, (first b).2)

/-- Reads to the end; a character left open there counts as ill-formed. -/
def decodeFrom : Option Pending → List UInt8 → List Char
  | none, [] => []
  | some _, [] => [replacement]
  | state, b :: bs => (step state b.toNat).1 ++ decodeFrom (step state b.toNat).2 bs

/-- The text that the bytes stand for, with U+FFFD where they stand for none. -/
def decode (bytes : List UInt8) : List Char :=
  decodeFrom none bytes

@[simp] theorem decodeFrom_cons (state : Option Pending) (b : UInt8) (bs : List UInt8) :
    decodeFrom state (b :: bs) =
      (step state b.toNat).1 ++ decodeFrom (step state b.toNat).2 bs := by
  cases state <;> rfl

/-- A continuation byte that leaves `n + 1` more to come. -/
theorem step_more {payload n low high b : Nat} (h : low ≤ b ∧ b ≤ high) :
    step (some ⟨payload, n + 1, low, high⟩) b =
      ([], some ⟨payload * 64 + b % 64, n, 0x80, 0xBF⟩) := by
  simp [step, h]

/-- The last byte of a character. -/
theorem step_last {payload low high b : Nat} (h : low ≤ b ∧ b ≤ high) :
    step (some ⟨payload, 0, low, high⟩) b = ([Char.ofNat (payload * 64 + b % 64)], none) := by
  simp [step, h]

theorem decodeFrom_encodeChar (c : Char) (bs : List UInt8) :
    decodeFrom none (String.utf8EncodeChar c ++ bs) = c :: decodeFrom none bs := by
  have hc : c.val.toNat < 0xD800 ∨ 0xDFFF < c.val.toNat ∧ c.val.toNat < 0x110000 := c.valid
  have hof : Char.ofNat c.val.toNat = c := Char.ofNat_toNat c
  have hu : ∀ n, n < 256 → (UInt8.ofNat n).toNat = n := fun n hn => UInt8.toNat_ofNat_of_lt' hn
  -- one case for each length of an encoding; in each the payload is put together again
  rw [String.utf8EncodeChar]
  generalize c.val.toNat = v at hc hof
  subst hof
  by_cases h1 : v ≤ 127
  · have hv : v < 0x80 := by omega
    simp [h1, decodeFrom_cons, step, first, hu v (by omega), hv]
  · by_cases h2 : v ≤ 2047
    · have hfirst : first (v / 64 % 32 + 192) = ([], some ⟨v / 64, 0, 0x80, 0xBF⟩) := by
        have e : (v / 64 % 32 + 192) % 32 = v / 64 := by omega
        rw [first, if_neg (by omega), if_pos (by omega), e]
      have e : v / 64 * 64 + (v % 64 + 128) % 64 = v := by omega
      simp only [h1, h2, if_true, if_false, List.cons_append, List.nil_append, decodeFrom_cons,
        hu (v / 64 % 32 + 192) (by omega), hu (v % 64 + 128) (by omega), step.eq_1, hfirst]
      rw [step_last (by omega), e]
      rfl
    · by_cases h3 : v ≤ 65535
      · have hfirst : first (v / 4096 % 16 + 224) = ([], some ⟨v / 4096, 1,
            if v / 4096 % 16 + 224 = 0xE0 then 0xA0 else 0x80,
            if v / 4096 % 16 + 224 = 0xED then 0x9F else 0xBF⟩) := by
          have e : (v / 4096 % 16 + 224) % 16 = v / 4096 := by omega
          rw [first, if_neg (by omega), if_neg (by omega), if_pos (by omega), e]
        have e : (v / 4096 * 64 + (v / 64 % 64 + 128) % 64) * 64 + (v % 64 + 128) % 64 = v := by
          omega
        simp only [h1, h2, h3, if_true, if_false, List.cons_append, List.nil_append,
          decodeFrom_cons, hu (v / 4096 % 16 + 224) (by omega), hu (v / 64 % 64 + 128) (by omega),
          hu (v % 64 + 128) (by omega), step.eq_1, hfirst]
        rw [step_more (by split <;> split <;> omega), step_last (by omega), e]
        rfl
      · have hfirst : first (v / 262144 % 8 + 240) = ([], some ⟨v / 262144, 2,
            if v / 262144 % 8 + 240 = 0xF0 then 0x90 else 0x80,
            if v / 262144 % 8 + 240 = 0xF4 then 0x8F else 0xBF⟩) := by
          have e : (v / 262144 % 8 + 240) % 8 = v / 262144 := by omega
          rw [first, if_neg (by omega), if_neg (by omega), if_neg (by omega), if_pos (by omega), e]
        have e : ((v / 262144 * 64 + (v / 4096 % 64 + 128) % 64) * 64 +
            (v / 64 % 64 + 128) % 64) * 64 + (v % 64 + 128) % 64 = v := by omega
        simp only [h1, h2, h3, if_false, List.cons_append, List.nil_append, decodeFrom_cons,
          hu (v / 262144 % 8 + 240) (by omega), hu (v / 4096 % 64 + 128) (by omega),
          hu (v / 64 % 64 + 128) (by omega), hu (v % 64 + 128) (by omega), step.eq_1, hfirst]
        rw [step_more (by split <;> split <;> omega), step_more (by omega), step_last (by omega), e]
        rfl

theorem decode_encode (cs : List Char) :
    decode (cs.flatMap String.utf8EncodeChar) = cs := by
  induction cs with
  | nil => rfl
  | cons c cs ih =>
    rw [decode, List.flatMap_cons, decodeFrom_encodeChar]
    exact congrArg (c :: ·) ih

/-- Only NUL is encoded with a zero byte. -/
theorem ne_zero_of_mem_encodeChar {c : Char} (hc : c ≠ '\x00') {b : UInt8}
    (hb : b ∈ String.utf8EncodeChar c) : b ≠ 0 := by
  have hpos : c.val.toNat ≠ 0 := by
    intro h
    apply hc
    rw [← Char.ofNat_toNat c]
    exact congrArg Char.ofNat h
  have hu : ∀ n, n < 256 → n ≠ 0 → UInt8.ofNat n ≠ 0 := by
    intro n hn hne h
    have hn' : (UInt8.ofNat n).toNat = n := UInt8.toNat_ofNat_of_lt' hn
    rw [h] at hn'
    exact hne hn'.symm
  have hv : c.val.toNat < 0x110000 := by
    have h : c.val.toNat < 0xD800 ∨ 0xDFFF < c.val.toNat ∧ c.val.toNat < 0x110000 := c.valid
    omega
  rw [String.utf8EncodeChar] at hb
  generalize c.val.toNat = v at hb hpos hv
  by_cases h1 : v ≤ 127
  · simp only [h1, if_true, List.mem_singleton] at hb
    rw [hb]
    exact hu v (by omega) hpos
  · -- every byte of a longer encoding has its highest bit set
    split at hb
    · omega
    · split at hb
      · simp only [List.mem_cons, List.not_mem_nil, or_false] at hb
        rcases hb with rfl | rfl <;> exact hu _ (by omega) (by omega)
      · split at hb
        · simp only [List.mem_cons, List.not_mem_nil, or_false] at hb
          rcases hb with rfl | rfl | rfl <;> exact hu _ (by omega) (by omega)
        · simp only [List.mem_cons, List.not_mem_nil, or_false] at hb
          rcases hb with rfl | rfl | rfl | rfl <;> exact hu _ (by omega) (by omega)

end PowerFormulas.Text.Utf8
