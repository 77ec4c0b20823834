import PowerFormulas.Proofs.Cursor.Passage

/-!
# Reads that fail

A read that fails wants more bytes than its region has from some place on. Until then a cursor has
only gone forward, and this is so for one read after another (`Reads.bind`).
-/

namespace PowerFormulas.Cursor

variable {α β : Type} {c c' : Cursor} {bytes : List UInt8} {count length : Nat}

theorem takeBytes_eq_error_iff {fault : Malformed} : c.takeBytes length = .error fault ↔
    c.remaining < length ∧ fault = .readPastEnd length c.position c.size := by
  by_cases h : length ≤ c.remaining
  · simp [takeBytes, h, Nat.not_lt_of_le h]
  · simp [takeBytes, h, eq_comm, Nat.lt_of_not_le h]

theorem Passes.size_eq (h : c.Passes bytes c') : c'.size = c.size := by
  simp only [size, remaining, h.rest, h.position, List.length_append]
  omega

theorem Passes.position_le (h : c.Passes bytes c') : c.position ≤ c'.position := by
  rw [h.position]
  omega

/-- What comes of reading from the cursor: a cursor further on in the same region, or the fault that
the region ends too early for what is wanted there or further on. -/
inductive Reads (cursor : α → Cursor) (c : Cursor) : Except Malformed α → Prop where
  | ok {a : α} : (cursor a).size = c.size → c.position ≤ (cursor a).position →
      Reads cursor c (.ok a)
  | overrun {wanted position : Nat} : c.position ≤ position → c.size < position + wanted →
      Reads cursor c (.error (.readPastEnd wanted position c.size))

variable {cursor : α → Cursor} {cursor' : β → Cursor} {x : Except Malformed α}

theorem Reads.bind {f : α → Except Malformed β} (hx : Reads cursor c x)
    (hf : ∀ a, Reads cursor' (cursor a) (f a)) : Reads cursor' c (x >>= f) := by
  cases hx with
  | @ok a hsize hle =>
    have ha := hf a
    change Reads cursor' c (f a)
    generalize f a = y at ha
    cases ha with
    | ok hsize' hle' => exact .ok (hsize'.trans hsize) (Nat.le_trans hle hle')
    | overrun hle' hlt =>
      rw [hsize] at hlt ⊢
      exact .overrun (Nat.le_trans hle hle') hlt
  | overrun hle hlt => exact .overrun hle hlt

theorem Reads.map {f : α → β} (hx : Reads cursor c x) (hf : ∀ a, cursor' (f a) = cursor a) :
    Reads cursor' c (f <$> x) := by
  cases hx with
  | @ok a hsize hle => exact .ok ((hf a).symm ▸ hsize) ((hf a).symm ▸ hle)
  | overrun hle hlt => exact .overrun hle hlt

/-! ### Single reads -/

theorem reads_takeBytes (length : Nat) (c : Cursor) :
    Reads Prod.snd c (c.takeBytes length) := by
  cases h : c.takeBytes length with
  | ok taken =>
    obtain ⟨bytes, c'⟩ := taken
    obtain ⟨_, hpasses⟩ := takeBytes_eq_ok_iff_passes.1 h
    exact .ok hpasses.size_eq hpasses.position_le
  | error fault =>
    obtain ⟨hlt, rfl⟩ := takeBytes_eq_error_iff.1 h
    refine .overrun (Nat.le_refl _) ?_
    simp only [size]
    omega

theorem reads_take (hcount : count * wordBytes < addressSpace) (c : Cursor) :
    Reads Prod.snd c (c.take count) := by
  rw [take, if_pos hcount]
  exact reads_takeBytes _ c

theorem reads_skip (hcount : count * wordBytes < addressSpace) (c : Cursor) :
    Reads id c (c.skip count) :=
  (reads_take hcount c).map fun _ => rfl

theorem reads_words (hcount : count * wordBytes < addressSpace) (c : Cursor) :
    Reads Prod.snd c (c.words count) :=
  (reads_take hcount c).map fun _ => rfl

theorem reads_word (c : Cursor) : Reads Prod.snd c c.word :=
  (reads_takeBytes _ c).map fun _ => rfl

theorem reads_int (c : Cursor) : Reads Prod.snd c c.int :=
  (reads_word c).map fun _ => rfl

end PowerFormulas.Cursor
