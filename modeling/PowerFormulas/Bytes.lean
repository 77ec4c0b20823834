import PowerFormulas.Error

/-!
# Bytes and words

A record is a list of bytes. Its numbers are words of four bytes, the least significant byte first.
Offsets and lengths are natural numbers; what cannot be addressed in 64 bits is refused before it
is looked at.
-/

namespace PowerFormulas

/-- Bytes in one word. -/
def wordBytes : Nat := 4

/-- Addresses and sizes are below this bound. -/
def addressSpace : Nat := UInt64.size

/-- The whole words needed to hold `length` bytes. -/
def wordsFor (length : UInt32) : Nat := (length.toNat + 3) / 4

theorem lt_addressSpace {n : Nat} (h : n < 2 * UInt32.size) : n < addressSpace :=
  Nat.lt_trans h (by decide)

theorem le_four_mul_wordsFor (length : UInt32) : length.toNat ≤ 4 * wordsFor length := by
  simp only [wordsFor]; omega

theorem four_mul_wordsFor_lt (length : UInt32) : 4 * wordsFor length < length.toNat + 4 := by
  simp only [wordsFor]; omega

namespace Bytes

/-- The word of four bytes, the least significant one first. -/
def word (a b c d : UInt8) : UInt32 :=
  UInt32.ofNat (a.toNat + 256 * (b.toNat + 256 * (c.toNat + 256 * d.toNat)))

/-- The four bytes of a word, the least significant one first. -/
def ofWord (w : UInt32) : List UInt8 :=
  [UInt8.ofNat w.toNat, UInt8.ofNat (w.toNat / 256), UInt8.ofNat (w.toNat / 65536),
    UInt8.ofNat (w.toNat / 16777216)]

/-- The words of consecutive groups of four bytes; a rest of fewer than four is left out. -/
def words : List UInt8 → List UInt32
  | a :: b :: c :: d :: rest => word a b c d :: words rest
  | _ => []

@[simp] theorem length_ofWord (w : UInt32) : (ofWord w).length = 4 := rfl

theorem length_words (bytes : List UInt8) : (words bytes).length = bytes.length / 4 := by
  fun_induction words bytes with
  | case1 a b c d rest ih => simp only [List.length_cons, ih]; omega
  | case2 bytes h =>
    match bytes with
    | [] | [_] | [_, _] | [_, _, _] => simp
    | a :: b :: c :: d :: rest => exact absurd rfl (h a b c d rest)

/-- A word and its bytes determine each other. -/
theorem words_ofWord_append (w : UInt32) (rest : List UInt8) :
    words (ofWord w ++ rest) = w :: words rest := by
  have hw := w.toNat_lt
  -- the four remainders by 256 add up to the number
  have h : word (UInt8.ofNat w.toNat) (UInt8.ofNat (w.toNat / 256))
      (UInt8.ofNat (w.toNat / 65536)) (UInt8.ofNat (w.toNat / 16777216)) = w := by
    apply UInt32.toNat.inj
    simp only [word, UInt8.toNat_ofNat', UInt32.toNat_ofNat']
    omega
  rw [ofWord, List.cons_append, List.cons_append, List.cons_append, List.cons_append,
    List.nil_append, words, h]

theorem words_flatMap_ofWord (ws : List UInt32) : words (ws.flatMap ofWord) = ws := by
  induction ws with
  | nil => rfl
  | cons w ws ih => rw [List.flatMap_cons, words_ofWord_append, ih]

theorem length_flatMap_ofWord (ws : List UInt32) : (ws.flatMap ofWord).length = 4 * ws.length := by
  induction ws with
  | nil => rfl
  | cons w ws ih =>
    rw [List.flatMap_cons, List.length_append, ih, length_ofWord, List.length_cons]
    omega

theorem ofWord_word (a b c d : UInt8) : ofWord (word a b c d) = [a, b, c, d] := by
  have ha := a.toNat_lt
  have hb := b.toNat_lt
  have hc := c.toNat_lt
  have hd := d.toNat_lt
  have hword : (word a b c d).toNat =
      a.toNat + 256 * (b.toNat + 256 * (c.toNat + 256 * d.toNat)) := by
    rw [word, UInt32.toNat_ofNat']
    omega
  have hbyte : ∀ (x : UInt8) (n : Nat), n % 256 = x.toNat → UInt8.ofNat n = x := by
    intro x n h
    apply UInt8.toNat.inj
    rw [UInt8.toNat_ofNat']
    exact h
  rw [ofWord, hword, hbyte a _ (by omega), hbyte b _ (by omega), hbyte c _ (by omega),
    hbyte d _ (by omega)]

theorem flatMap_ofWord_words {bytes : List UInt8} {count : Nat} (h : bytes.length = 4 * count) :
    (words bytes).flatMap ofWord = bytes := by
  fun_induction words bytes generalizing count with
  | case1 a b c d rest ih =>
    have hrest : rest.length = 4 * (count - 1) := by
      simp only [List.length_cons] at h
      omega
    rw [List.flatMap_cons, ofWord_word, ih hrest]
    rfl
  | case2 bytes hshort =>
    match bytes with
    | [] => rfl
    | [_] | [_, _] | [_, _, _] =>
      simp only [List.length_cons, List.length_nil] at h
      omega
    | a :: b :: c :: d :: rest => exact absurd rfl (hshort a b c d rest)

/-- The `length` bytes from `offset` on. -/
def region (bytes : List UInt8) (offset length : Nat) : Except Malformed (List UInt8) :=
  if offset + length < addressSpace then
    if offset + length ≤ bytes.length then .ok ((bytes.drop offset).take length)
    else .error (.regionOutside offset (offset + length) bytes.length)
  else .error (.regionOverflow offset length)

theorem region_eq_ok_iff {bytes part : List UInt8} {offset length : Nat} :
    region bytes offset length = .ok part ↔
      offset + length < addressSpace ∧ offset + length ≤ bytes.length ∧
        part = (bytes.drop offset).take length := by
  by_cases hspace : offset + length < addressSpace
  · by_cases hsize : offset + length ≤ bytes.length <;> simp [region, hspace, hsize, eq_comm]
  · simp [region, hspace]

theorem length_of_region {bytes part : List UInt8} {offset length : Nat}
    (h : region bytes offset length = .ok part) : part.length = length := by
  obtain ⟨-, hle, rfl⟩ := region_eq_ok_iff.1 h
  simp only [List.length_take, List.length_drop]
  omega

end Bytes

end PowerFormulas
