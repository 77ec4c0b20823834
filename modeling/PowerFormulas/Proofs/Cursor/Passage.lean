import PowerFormulas.Cursor
import PowerFormulas.Proofs.Results

/-!
# What a read passes over

A read that succeeds moves a cursor past some bytes. Each read is characterised by the bytes that it
passes over (`word_eq_ok_iff` and so on), and one read after another passes over the bytes of both
(`passes_append`).
-/

namespace PowerFormulas

namespace Cursor

/-- The second cursor stands behind the bytes, the first one before them. -/
structure Passes (c : Cursor) (bytes : List UInt8) (c' : Cursor) : Prop where
  rest : c.rest = bytes ++ c'.rest
  position : c'.position = c.position + bytes.length

variable {c c' : Cursor} {bytes a b : List UInt8} {count length : Nat}

theorem passes_self_append (position : Nat) (bytes rest : List UInt8) :
    Passes ⟨position, bytes ++ rest⟩ bytes ⟨position + bytes.length, rest⟩ := ⟨rfl, rfl⟩

theorem Passes.unique {d : Cursor} (h : c.Passes bytes c') (h' : c.Passes bytes d) : c' = d := by
  obtain ⟨position, rest⟩ := c'
  obtain ⟨position', rest'⟩ := d
  have hrest : rest = rest' := List.append_cancel_left (h.rest.symm.trans h'.rest)
  have hposition : position = position' := h.position.trans h'.position.symm
  rw [hrest, hposition]

theorem passes_nil : c.Passes [] c' ↔ c' = c := by
  have h : c.Passes [] c := ⟨rfl, rfl⟩
  constructor
  · intro h'
    exact h'.unique h
  · rintro rfl
    exact h

theorem passes_append :
    c.Passes (a ++ b) c' ↔ ∃ c₁, c.Passes a c₁ ∧ c₁.Passes b c' := by
  constructor
  · intro h
    refine ⟨⟨c.position + a.length, b ++ c'.rest⟩, ⟨?_, rfl⟩, ⟨rfl, ?_⟩⟩
    · rw [h.rest, List.append_assoc]
    · rw [h.position, List.length_append, Nat.add_assoc]
  · rintro ⟨c₁, h, h'⟩
    constructor
    · rw [h.rest, h'.rest, List.append_assoc]
    · rw [h'.position, h.position, List.length_append, Nat.add_assoc]

theorem takeBytes_eq_ok_iff_passes :
    c.takeBytes length = .ok (bytes, c') ↔ bytes.length = length ∧ c.Passes bytes c' := by
  constructor
  · intro h
    obtain ⟨hrest, hlength, hposition⟩ := append_rest_of_takeBytes h
    exact ⟨hlength, hrest.symm, by rw [hposition, hlength]⟩
  · rintro ⟨rfl, h⟩
    obtain ⟨position, rest⟩ := c
    have hrest : rest = bytes ++ c'.rest := h.rest
    subst hrest
    rw [h.unique (passes_self_append position bytes c'.rest)]
    exact takeBytes_append bytes c'.rest position

theorem word_eq_ok_iff {w : UInt32} : c.word = .ok (w, c') ↔ c.Passes (Bytes.ofWord w) c' := by
  rw [word, map_eq_ok_iff]
  constructor
  · rintro ⟨⟨bytes, c₁⟩, h, heq⟩
    obtain ⟨hlength, hpasses⟩ := takeBytes_eq_ok_iff_passes.1 h
    obtain ⟨v, hv⟩ : ∃ v, Bytes.words bytes = [v] := by
      rw [← List.length_eq_one_iff, Bytes.length_words, hlength]
      rfl
    have hbytes := Bytes.flatMap_ofWord_words (show bytes.length = 4 * 1 from hlength)
    rw [hv, List.flatMap_cons, List.flatMap_nil, List.append_nil] at hbytes
    simp only [hv, List.headD_cons, Prod.mk.injEq] at heq
    obtain ⟨rfl, rfl⟩ := heq
    rw [hbytes]
    exact hpasses
  · intro h
    have hwords : Bytes.words (Bytes.ofWord w) = [w] := Bytes.words_ofWord_append w []
    refine ⟨(Bytes.ofWord w, c'), takeBytes_eq_ok_iff_passes.2 ⟨rfl, h⟩, ?_⟩
    simp only [hwords, List.headD_cons]

theorem int_eq_ok_iff {v : Int32} :
    c.int = .ok (v, c') ↔ c.Passes (Bytes.ofWord v.toUInt32) c' := by
  rw [int, map_eq_ok_iff, ← word_eq_ok_iff]
  constructor
  · rintro ⟨⟨w, c₁⟩, h, heq⟩
    cases heq
    exact h
  · intro h
    exact ⟨_, h, rfl⟩

theorem take_eq_ok_iff_passes (hcount : count * wordBytes < addressSpace) :
    c.take count = .ok (bytes, c') ↔ bytes.length = 4 * count ∧ c.Passes bytes c' := by
  have hlength : count * wordBytes = 4 * count := Nat.mul_comm count 4
  rw [take_eq_ok_iff, takeBytes_eq_ok_iff_passes, hlength]
  exact and_iff_right (hlength ▸ hcount)

theorem skip_eq_ok_iff (hcount : count * wordBytes < addressSpace) :
    c.skip count = .ok c' ↔ ∃ bytes, bytes.length = 4 * count ∧ c.Passes bytes c' := by
  rw [skip, map_eq_ok_iff]
  constructor
  · rintro ⟨⟨bytes, c₁⟩, h, rfl⟩
    exact ⟨bytes, (take_eq_ok_iff_passes hcount).1 h⟩
  · rintro ⟨bytes, h⟩
    exact ⟨(bytes, c'), (take_eq_ok_iff_passes hcount).2 h, rfl⟩

theorem words_eq_ok_iff (hcount : count * wordBytes < addressSpace) {ws : List UInt32} :
    c.words count = .ok (ws, c') ↔ ws.length = count ∧ c.Passes (ws.flatMap Bytes.ofWord) c' := by
  rw [words, map_eq_ok_iff]
  constructor
  · rintro ⟨⟨bytes, c₁⟩, h, heq⟩
    obtain ⟨hlength, hpasses⟩ := (take_eq_ok_iff_passes hcount).1 h
    cases heq
    rw [Bytes.length_words, Bytes.flatMap_ofWord_words hlength]
    exact ⟨by omega, hpasses⟩
  · rintro ⟨rfl, h⟩
    refine ⟨(_, c'), (take_eq_ok_iff_passes hcount).2 ⟨Bytes.length_flatMap_ofWord ws, h⟩, ?_⟩
    simp only [Bytes.words_flatMap_ofWord]

/-- No length in bytes asks for more words than can be counted. -/
theorem wordsFor_mul_lt (length : UInt32) : wordsFor length * wordBytes < addressSpace := by
  have hfour := four_mul_wordsFor_lt length
  have hlt : length.toNat < UInt32.size := length.toNat_lt
  have hsize : 4 ≤ UInt32.size := by decide
  rw [Nat.mul_comm]
  exact lt_addressSpace (Nat.lt_trans hfour (by omega))

end Cursor

end PowerFormulas
