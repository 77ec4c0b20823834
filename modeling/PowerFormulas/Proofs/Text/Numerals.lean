import Mathlib.Data.Nat.Digits.Lemmas
import PowerFormulas.Proofs.Results
import PowerFormulas.Text.Numeral

/-!
# How numerals are spelled

A numeral is an optional plus sign and a row of digits of either case. What is read as a word are
just the numerals whose values are words (`readWord_eq_ok_iff`). A numeral in lowercase digits is
known by its length and its value (`eq_of_readWord_eq`).
-/

namespace PowerFormulas.Text

variable {radix acc n d : Nat} {c : Char} {cs : List Char} {w : UInt32}

/-- The character is a digit of the number, in either case. -/
def IsDigit (radix : Nat) (c : Char) (d : Nat) : Prop :=
  d < radix ∧ (c = Nat.digitChar d ∨ c = (Nat.digitChar d).toUpper)

/-- A numeral and its value: the digits, the highest one first, with or without a plus sign. -/
inductive SpellsNumeral (radix : Nat) : List Char → Nat → Prop where
  | digits {sign digits : List Char} {values : List Nat} : sign = [] ∨ sign = ['+'] →
      digits ≠ [] → List.Forall₂ (IsDigit radix) digits values →
      SpellsNumeral radix (sign ++ digits) (Nat.ofDigits radix values.reverse)

/-! ### Digits -/

theorem digitValue?_eq_some_iff (hd : d < 16) :
    digitValue? c = some d ↔ c = Nat.digitChar d ∨ c = (Nat.digitChar d).toUpper := by
  constructor
  · intro h
    have hc : c = Char.ofNat c.toNat := (Char.ofNat_toNat c).symm
    unfold digitValue? at h
    split at h
    · rename_i hrange
      have hlow : 48 ≤ c.toNat := hrange.1
      have hhigh : c.toNat ≤ 57 := hrange.2
      have hvalue : c.toNat - 48 = d := Option.some.inj h
      left
      rw [hc, show c.toNat = 48 + d by omega]
      exact (by decide : ∀ d : Fin 10, Char.ofNat (48 + d) = Nat.digitChar d) ⟨d, by omega⟩
    · split at h
      · rename_i hrange
        have hlow : 97 ≤ c.toNat := hrange.1
        have hvalue : c.toNat - 97 + 10 = d := Option.some.inj h
        left
        rw [hc, show c.toNat = 97 + (d - 10) by omega, show d = d - 10 + 10 by omega]
        exact (by decide : ∀ d : Fin 6, Char.ofNat (97 + d) = Nat.digitChar (d + 10))
          ⟨d - 10, by omega⟩
      · split at h
        · rename_i hrange
          have hlow : 65 ≤ c.toNat := hrange.1
          have hvalue : c.toNat - 65 + 10 = d := Option.some.inj h
          right
          rw [hc, show c.toNat = 65 + (d - 10) by omega, show d = d - 10 + 10 by omega]
          exact (by decide : ∀ d : Fin 6, Char.ofNat (65 + d) = (Nat.digitChar (d + 10)).toUpper)
            ⟨d - 10, by omega⟩
        · cases h
  · intro h
    have hboth := (by decide : ∀ d : Fin 16, digitValue? (Nat.digitChar d) = some d.val ∧
      digitValue? (Nat.digitChar d).toUpper = some d.val) ⟨d, hd⟩
    rcases h with rfl | rfl
    · exact hboth.1
    · exact hboth.2

theorem digit?_eq_some_iff (hradix : radix ≤ 16) : digit? radix c = some d ↔ IsDigit radix c d := by
  rw [digit?, Option.filter_eq_some_iff, decide_eq_true_iff, IsDigit]
  constructor
  · intro h
    exact ⟨h.2, (digitValue?_eq_some_iff (by omega)).1 h.1⟩
  · intro h
    exact ⟨(digitValue?_eq_some_iff (by omega)).2 h.2, h.1⟩

theorem IsDigit.ne_plus (h : IsDigit radix c d) (hradix : radix ≤ 16) : c ≠ '+' := by
  have hboth := (by decide : ∀ d : Fin 16, Nat.digitChar d ≠ '+' ∧
    (Nat.digitChar d).toUpper ≠ '+') ⟨d, by have := h.1; omega⟩
  rcases h.2 with rfl | rfl
  · exact hboth.1
  · exact hboth.2

/-- A lowercase digit is written in one way. -/
theorem IsDigit.eq_digitChar (h : IsDigit radix c d) (hradix : radix ≤ 16) {k : Nat} (hk : k < 16)
    (hc : c = Nat.digitChar k) : c = Nat.digitChar d := by
  rcases h.2 with hlower | hupper
  · exact hlower
  · have hsame := (by decide : ∀ d k : Fin 16, Nat.digitChar k = (Nat.digitChar d).toUpper →
      Nat.digitChar k = Nat.digitChar d) ⟨d, by have := h.1; omega⟩ ⟨k, hk⟩
    rw [hc]
    exact hsame (hc.symm.trans hupper)

/-! ### Numerals -/

/-- Reading goes from the highest digit on, so a number that is too great at last may have been one
before, but not the other way round. -/
theorem readDigits_eq_ok_iff (hone : 0 < radix) (hradix : radix ≤ 16) (hacc : acc < UInt32.size) :
    readDigits radix acc cs = .ok n ↔ ∃ values, List.Forall₂ (IsDigit radix) cs values ∧
      n = acc * radix ^ values.length + Nat.ofDigits radix values.reverse ∧ n < UInt32.size := by
  induction cs generalizing acc with
  | nil => simp +contextual [readDigits, hacc, eq_comm]
  | cons c cs ih =>
    have hcons : ∀ d values, acc * radix ^ (d :: values).length +
        Nat.ofDigits radix (d :: values).reverse =
          (acc * radix + d) * radix ^ values.length + Nat.ofDigits radix values.reverse := by
      intro d values
      rw [Nat.ofDigits_reverse_cons, List.length_cons, Nat.pow_succ']
      ring
    cases hdigit : digit? radix c with
    | none =>
      simp only [readDigits, hdigit]
      constructor
      · intro h
        cases h
      · intro h
        obtain ⟨values, hvalues, _⟩ := h
        cases hvalues with
        | cons hd _ =>
          rw [(digit?_eq_some_iff hradix).2 hd] at hdigit
          cases hdigit
    | some d =>
      have hd := (digit?_eq_some_iff hradix).1 hdigit
      have honly : ∀ values, List.Forall₂ (IsDigit radix) (c :: cs) values →
          ∃ rest, values = d :: rest ∧ List.Forall₂ (IsDigit radix) cs rest := by
        intro values hvalues
        cases hvalues with
        | @cons _ d' _ rest hd' hrest =>
          rw [(digit?_eq_some_iff hradix).2 hd'] at hdigit
          cases hdigit
          exact ⟨rest, rfl, hrest⟩
      by_cases hlt : acc * radix + d < UInt32.size
      · simp only [readDigits, hdigit, hlt, if_true]
        rw [ih hlt]
        constructor
        · intro h
          obtain ⟨values, hvalues, hn, hfits⟩ := h
          exact ⟨d :: values, .cons hd hvalues, by rw [hcons, hn], hfits⟩
        · intro h
          obtain ⟨values, hvalues, hn, hfits⟩ := h
          obtain ⟨rest, rfl, hrest⟩ := honly values hvalues
          exact ⟨rest, hrest, by rw [hn, hcons], hfits⟩
      · simp only [readDigits, hdigit, hlt, if_false]
        constructor
        · intro h
          cases h
        · intro h
          obtain ⟨values, hvalues, hn, hfits⟩ := h
          obtain ⟨rest, rfl, _⟩ := honly values hvalues
          rw [hcons] at hn
          have hpow : 1 ≤ radix ^ rest.length := Nat.one_le_pow _ _ hone
          have hle : acc * radix + d ≤ (acc * radix + d) * radix ^ rest.length :=
            Nat.le_mul_of_pos_right _ hpow
          omega

theorem readWord_plus (hne : cs ≠ []) :
    readWord radix ('+' :: cs) = UInt32.ofNat <$> readDigits radix 0 cs := by
  cases cs with
  | nil => exact absurd rfl hne
  | cons c cs => rfl

theorem ofNat_map_readDigits_eq_ok_iff (hone : 0 < radix) (hradix : radix ≤ 16) :
    UInt32.ofNat <$> readDigits radix 0 cs = .ok w ↔
      ∃ values, List.Forall₂ (IsDigit radix) cs values ∧
        w.toNat = Nat.ofDigits radix values.reverse := by
  rw [map_eq_ok_iff]
  simp only [readDigits_eq_ok_iff hone hradix (show 0 < UInt32.size by decide), Nat.zero_mul,
    Nat.zero_add]
  constructor
  · intro h
    obtain ⟨n, ⟨values, hvalues, rfl, hfits⟩, rfl⟩ := h
    exact ⟨values, hvalues, UInt32.toNat_ofNat_of_lt' hfits⟩
  · intro h
    obtain ⟨values, hvalues, hw⟩ := h
    exact ⟨w.toNat, ⟨values, hvalues, hw, w.toNat_lt_size⟩, UInt32.ofNat_toNat⟩

theorem readWord_eq_ok_iff (hone : 0 < radix) (hradix : radix ≤ 16) :
    readWord radix cs = .ok w ↔ SpellsNumeral radix cs w.toNat := by
  constructor
  · intro h
    have hne : cs ≠ [] := by
      rintro rfl
      cases h
    by_cases hplus : cs.head? = some '+'
    · obtain ⟨rest, rfl⟩ := List.head?_eq_some_iff.1 hplus
      have hrest : rest ≠ [] := by
        rintro rfl
        cases h
      rw [readWord_plus hrest] at h
      obtain ⟨values, hvalues, hw⟩ := (ofNat_map_readDigits_eq_ok_iff hone hradix).1 h
      rw [hw]
      exact .digits (.inr rfl) hrest hvalues
    · rw [readWord_eq_readDigits hne hplus] at h
      obtain ⟨values, hvalues, hw⟩ := (ofNat_map_readDigits_eq_ok_iff hone hradix).1 h
      rw [hw]
      exact .digits (.inl rfl) hne hvalues
  · intro h
    generalize hvalue : w.toNat = value at h
    cases h with
    | @digits sign digits values hsign hne hvalues =>
      have hread := (ofNat_map_readDigits_eq_ok_iff hone hradix).2 ⟨values, hvalues, hvalue⟩
      rcases hsign with rfl | rfl
      · rw [List.nil_append, readWord_eq_readDigits hne]
        · exact hread
        · intro hplus
          obtain ⟨rest, rfl⟩ := List.head?_eq_some_iff.1 hplus
          cases hvalues with
          | cons hd _ => exact hd.ne_plus hradix rfl
      · exact (readWord_plus hne).trans hread

/-! ### Lowercase digits -/

theorem eq_map_digitChar {values : List Nat} (h : List.Forall₂ (IsDigit radix) cs values)
    (hradix : radix ≤ 16) (hlower : ∀ c ∈ cs, ∃ d < 16, c = Nat.digitChar d) :
    cs = values.map Nat.digitChar := by
  induction h with
  | nil => rfl
  | cons hd _ ih =>
    obtain ⟨⟨k, hk, hc⟩, hrest⟩ := List.forall_mem_cons.1 hlower
    rw [List.map_cons, ← hd.eq_digitChar hradix hk hc, ← ih hrest]

theorem exists_values_of_readWord (hone : 0 < radix) (hradix : radix ≤ 16)
    (hlower : ∀ c ∈ cs, ∃ d < 16, c = Nat.digitChar d) (h : readWord radix cs = .ok w) :
    ∃ values : List Nat, cs = values.map Nat.digitChar ∧ (∀ d ∈ values, d < radix) ∧
      w.toNat = Nat.ofDigits radix values.reverse := by
  have hspells := (readWord_eq_ok_iff hone hradix).1 h
  generalize w.toNat = value at hspells
  cases hspells with
  | @digits sign digits values hsign _ hvalues =>
    have hnone : sign = [] := by
      rcases hsign with hnone | rfl
      · exact hnone
      · obtain ⟨d, hd, hplus⟩ := hlower '+' (List.mem_append_left _ List.mem_cons_self)
        exact absurd hplus ((by decide : ∀ d : Fin 16, '+' ≠ Nat.digitChar d) ⟨d, hd⟩)
    subst hnone
    refine ⟨values, eq_map_digitChar hvalues hradix hlower, fun d hd => ?_, rfl⟩
    obtain ⟨c, hc⟩ := exists_rel_of_mem hvalues hd
    exact hc.1

theorem eq_of_readWord_eq {ds : List Char} (hone : 1 < radix) (hradix : radix ≤ 16)
    (hcs : ∀ c ∈ cs, ∃ d < 16, c = Nat.digitChar d) (hds : ∀ c ∈ ds, ∃ d < 16, c = Nat.digitChar d)
    (hlength : cs.length = ds.length) (h : readWord radix cs = .ok w)
    (h' : readWord radix ds = .ok w) : cs = ds := by
  obtain ⟨values, rfl, hlt, hw⟩ := exists_values_of_readWord (by omega) hradix hcs h
  obtain ⟨values', rfl, hlt', hw'⟩ := exists_values_of_readWord (by omega) hradix hds h'
  rw [List.length_map, List.length_map] at hlength
  have hsame : values.reverse = values'.reverse := by
    apply Nat.ofDigits_inj_of_len_eq hone
    · rw [List.length_reverse, List.length_reverse, hlength]
    · exact fun d hd => hlt d (List.mem_reverse.1 hd)
    · exact fun d hd => hlt' d (List.mem_reverse.1 hd)
    · rw [← hw, ← hw']
  rw [List.reverse_injective hsame]

theorem length_padDigits {width : Nat} (hone : 1 < radix) (hwidth : 0 < width)
    (hn : n < radix ^ width) : (padDigits radix width n).length = width := by
  have hle := (Nat.length_toDigits_le_iff hone hwidth).2 hn
  simp only [padDigits, List.length_append, List.length_replicate]
  omega

end PowerFormulas.Text
