import PowerFormulas.Proofs.Cursor.Checked
import PowerFormulas.Proofs.Cursor.Overrun

/-!
# One read after another

Words are asked for in five ways, in any order, and after a fault the next read starts where the one
that failed would have. What a demand comes to is said once (`met_or_refused`): it is met from the
next bytes, or refused where they are too few. So the bytes before the position are at all times
those that the demands were met from, in their order (`reads_account_for_every_byte`).

A cursor cannot be moved by a read that fails, as it then gives no other cursor. The same demands
are made of a reader that writes its position as it goes (`Moving`), whose numbers have 64 bits and
whose bytes are taken by their indices.
-/

namespace PowerFormulas

open Bytes (ofWord)

inductive Demand where
  | word
  | int
  | skip (count : Nat)
  | take (count : Nat)
  | words (count : Nat)
  deriving DecidableEq, Repr

inductive Supply where
  | word (value : UInt32)
  | int (value : Int32)
  | skipped
  | bytes (bytes : List UInt8)
  | words (values : List UInt32)
  deriving DecidableEq, Repr

namespace Demand

/-- The number of words that are asked for. -/
def count : Demand → Nat
  | word => 1
  | int => 1
  | skip count => count
  | take count => count
  | words count => count

def read (c : Cursor) : Demand → Except Malformed (Supply × Cursor)
  | word => (fun (value, c) => (.word value, c)) <$> c.word
  | int => (fun (value, c) => (.int value, c)) <$> c.int
  | skip count => (fun c => (.skipped, c)) <$> c.skip count
  | take count => (fun (bytes, c) => (.bytes bytes, c)) <$> c.take count
  | words count => (fun (values, c) => (.words values, c)) <$> c.words count

/-- What the demand makes of the bytes that it gets. -/
def supply : Demand → List UInt8 → Supply
  | word, bytes => .word ((Bytes.words bytes).headD 0)
  | int, bytes => .int ((Bytes.words bytes).headD 0).toInt32
  | skip _, _ => .skipped
  | take _, bytes => .bytes bytes
  | words _, bytes => .words (Bytes.words bytes)

/-- The fault where fewer bytes are left than are asked for. -/
def fault (c : Cursor) (d : Demand) : Malformed :=
  if d.count * wordBytes < addressSpace then
    .readPastEnd (d.count * wordBytes) c.position c.size
  else .countOverflow d.count

end Demand

/-- The demand is met from these bytes: they are the words asked for, the least significant byte of
each first. -/
inductive Meets : Demand → Supply → List UInt8 → Prop where
  | word (value : UInt32) : Meets .word (.word value) (ofWord value)
  | int (value : Int32) : Meets .int (.int value) (ofWord value.toUInt32)
  | skip {count : Nat} {bytes : List UInt8} : bytes.length = wordBytes * count →
      Meets (.skip count) .skipped bytes
  | take {count : Nat} {bytes : List UInt8} : bytes.length = wordBytes * count →
      Meets (.take count) (.bytes bytes) bytes
  | words (values : List UInt32) :
      Meets (.words values.length) (.words values) (values.flatMap ofWord)

/-- These bytes are what the demands were met from, one after another; those that were refused took
none. -/
inductive Met : List Demand → List (Except Malformed Supply) → List UInt8 → Prop where
  | nil : Met [] [] []
  | met {d : Demand} {ds : List Demand} {s : Supply} {answers : List (Except Malformed Supply)}
      {bytes rest : List UInt8} : Meets d s bytes → Met ds answers rest →
      Met (d :: ds) (.ok s :: answers) (bytes ++ rest)
  | refused {d : Demand} {ds : List Demand} {fault : Malformed}
      {answers : List (Except Malformed Supply)} {rest : List UInt8} : Met ds answers rest →
      Met (d :: ds) (.error fault :: answers) rest

variable {d : Demand} {ds : List Demand} {s : Supply} {bytes : List UInt8}

theorem Meets.length_eq (h : Meets d s bytes) : bytes.length = wordBytes * d.count := by
  cases h with
  | word | int => rfl
  | skip hlength | take hlength => exact hlength
  | words values => exact Bytes.length_flatMap_ofWord values

theorem Bytes.ofWord_headD_words (h : bytes.length = wordBytes) :
    ofWord ((Bytes.words bytes).headD 0) = bytes := by
  match bytes, h with
  | [a, b, c, d], _ => exact Bytes.ofWord_word a b c d

theorem meets_supply (h : bytes.length = wordBytes * d.count) : Meets d (d.supply bytes) bytes := by
  cases d with
  | word =>
    have hmeets := Meets.word ((Bytes.words bytes).headD 0)
    rw [Bytes.ofWord_headD_words h] at hmeets
    exact hmeets
  | int =>
    have hmeets := Meets.int ((Bytes.words bytes).headD 0).toInt32
    rw [UInt32.toUInt32_toInt32, Bytes.ofWord_headD_words h] at hmeets
    exact hmeets
  | skip => exact .skip h
  | take => exact .take h
  | words count =>
    have hlength : (Bytes.words bytes).length = count := by
      rw [Bytes.length_words, h]
      exact Nat.mul_div_cancel_left _ (by decide)
    have hmeets := Meets.words (Bytes.words bytes)
    rw [Bytes.flatMap_ofWord_words h, hlength] at hmeets
    exact hmeets

theorem Met.dvd_length {answers : List (Except Malformed Supply)} (h : Met ds answers bytes) :
    wordBytes ∣ bytes.length := by
  induction h with
  | nil => exact Nat.dvd_zero _
  | met hmeets _ ih =>
    rw [List.length_append, hmeets.length_eq]
    exact Nat.dvd_add (Nat.dvd_mul_right ..) ih
  | refused _ ih => exact ih

namespace Cursor

variable {c c' : Cursor}

/-- What comes of a read, and the cursor to go on with: after a fault it is the same one. -/
def orStay {α : Type} (c : Cursor) : Except Malformed (α × Cursor) → Except Malformed α × Cursor
  | .ok (a, c') => (.ok a, c')
  | .error fault => (.error fault, c)

def answer (c : Cursor) (d : Demand) : Except Malformed Supply × Cursor := c.orStay (d.read c)

def answers : List Demand → Cursor → List (Except Malformed Supply)
  | [], _ => []
  | d :: ds, c => (c.answer d).1 :: answers ds (c.answer d).2

def after : List Demand → Cursor → Cursor
  | [], c => c
  | d :: ds, c => after ds (c.answer d).2

/-! ### One demand -/

theorem take_one (c : Cursor) : c.take 1 = c.takeBytes wordBytes := if_pos (by decide)

/-- The five ways of reading differ in what they make of the bytes, not in which bytes they take. -/
theorem read_eq_map_take (c : Cursor) (d : Demand) :
    d.read c = (fun (bytes, c) => (d.supply bytes, c)) <$> c.take d.count := by
  cases d with
  | word => simp only [Demand.read, Demand.count, take_one, word, Functor.map_map, Demand.supply]
  | int =>
    simp only [Demand.read, Demand.count, take_one, int, word, Functor.map_map, Demand.supply]
  | skip => simp only [Demand.read, Demand.count, skip, Functor.map_map, Demand.supply]
  | take => rfl
  | words => simp only [Demand.read, Demand.count, words, Functor.map_map, Demand.supply]

theorem take_eq_error (h : c.remaining < wordBytes * d.count) :
    c.take d.count = .error (d.fault c) := by
  rw [take, Demand.fault]
  split
  · exact takeBytes_eq_error_iff.2 ⟨by rwa [Nat.mul_comm], rfl⟩
  · rfl

/-- The demand is met from the next bytes of the cursor, or refused and the cursor left alone. -/
theorem met_or_refused (hsize : c.size < addressSpace) (d : Demand) :
    (wordBytes * d.count ≤ c.remaining ∧ ∃ s c' bytes, c.answer d = (.ok s, c') ∧
        Meets d s bytes ∧ c.Passes bytes c') ∨
      (c.remaining < wordBytes * d.count ∧ c.answer d = (.error (d.fault c), c)) := by
  rcases Nat.lt_or_ge c.remaining (wordBytes * d.count) with hlt | hle
  · right
    refine ⟨hlt, ?_⟩
    rw [answer, read_eq_map_take, take_eq_error hlt]
    rfl
  · left
    -- what is there to be read can be counted
    have hcount : d.count * wordBytes < addressSpace := by
      rw [Nat.mul_comm]
      have hremaining : c.remaining ≤ c.size := Nat.le_add_left ..
      omega
    let bytes := c.rest.take (wordBytes * d.count)
    let c' : Cursor := ⟨c.position + bytes.length, c.rest.drop (wordBytes * d.count)⟩
    have hlength : bytes.length = wordBytes * d.count := List.length_take_of_le hle
    have hpasses : c.Passes bytes c' := ⟨(List.take_append_drop ..).symm, rfl⟩
    refine ⟨hle, d.supply bytes, c', bytes, ?_, meets_supply hlength, hpasses⟩
    rw [answer, read_eq_map_take, (take_eq_ok_iff_passes hcount).2 ⟨hlength, hpasses⟩]
    rfl

theorem exists_refused_iff (hsize : c.size < addressSpace) :
    (∃ fault, (c.answer d).1 = .error fault) ↔ c.remaining < wordBytes * d.count := by
  rcases met_or_refused hsize d with ⟨hle, s, c', bytes, hanswer, -⟩ | ⟨hlt, hanswer⟩
  · rw [hanswer]
    exact ⟨nofun, fun hlt => absurd hle (Nat.not_le_of_lt hlt)⟩
  · rw [hanswer]
    exact ⟨fun _ => hlt, fun _ => ⟨_, rfl⟩⟩

/-! ### A row of demands -/

theorem size_answer (hsize : c.size < addressSpace) (d : Demand) :
    (c.answer d).2.size = c.size := by
  rcases met_or_refused hsize d with ⟨-, s, c', bytes, hanswer, -, hpasses⟩ | ⟨-, hanswer⟩
  · rw [hanswer]
    exact hpasses.size_eq
  · rw [hanswer]

theorem exists_met_passes (hsize : c.size < addressSpace) (ds : List Demand) :
    ∃ bytes, Met ds (c.answers ds) bytes ∧ c.Passes bytes (c.after ds) := by
  induction ds generalizing c with
  | nil => exact ⟨[], .nil, passes_nil.2 rfl⟩
  | cons d ds ih =>
    have hstep := size_answer hsize d
    obtain ⟨rest, hmet, hrest⟩ := ih (c := (c.answer d).2) (hstep ▸ hsize)
    rw [answers, after]
    rcases met_or_refused hsize d with ⟨-, s, c', bytes, hanswer, hmeets, hpasses⟩ | ⟨-, hanswer⟩
    · rw [hanswer] at hmet hrest ⊢
      exact ⟨bytes ++ rest, .met hmeets hmet, passes_append.2 ⟨c', hpasses, hrest⟩⟩
    · rw [hanswer] at hmet hrest ⊢
      exact ⟨rest, .refused hmet, hrest⟩

end Cursor

/-! ### Reading that writes the position -/

/-- A step of a reader that keeps its position where all see it: a fault leaves the position as it
is by then, and there is no answer where the reading is stuck. -/
abbrev Moving (α : Type) := ExceptT Error (StateT Window Option) α

namespace Moving

open Checked

/-- What is computed on the way moves nothing. -/
def ofChecked {α : Type} (x : Checked α) : Moving α := ExceptT.mk fun w => x.run.map (·, w)

def takeBytes (length : Nat) : Moving (List UInt8) := do
  let w ← get
  let (bytes, moved) ← ofChecked (w.takeBytes length)
  set { w with position := moved.position }
  return bytes

def take (count : Nat) : Moving (List UInt8) :=
  if count * wordBytes < addressSpace then takeBytes (count * wordBytes)
  else throw (.malformed (.countOverflow count))

def serve : Demand → Moving Supply
  | .word => do
    let bytes ← takeBytes wordBytes
    ofChecked (Supply.word <$> wordOf bytes)
  | .int => do
    let bytes ← takeBytes wordBytes
    ofChecked ((fun value => .int value.toInt32) <$> wordOf bytes)
  | .skip count => do
    let _ ← take count
    return .skipped
  | .take count => do
    let bytes ← take count
    return .bytes bytes
  | .words count => do
    let bytes ← take count
    ofChecked (Supply.words <$> (groups bytes).mapM wordOf)

/-- The demands one after another, whatever comes of each. -/
def serveAll (ds : List Demand) : StateT Window Option (List (Except Error Supply)) :=
  ds.mapM fun d => (serve d).run

variable {w : Window} {c c' : Cursor}

theorem shows_of_passes (h : w.Shows c) (hpasses : c.Passes bytes c') :
    Window.Shows ⟨w.bytes, c'.position⟩ c' := by
  have hrest : w.bytes.drop w.position = bytes ++ c'.rest := h.rest ▸ hpasses.rest
  have hposition : c'.position = w.position + bytes.length := h.position ▸ hpasses.position
  have hlength : w.bytes.length - w.position = bytes.length + c'.rest.length := by
    rw [← List.length_drop, hrest, List.length_append]
  have hwithin := h.within
  refine ⟨?_, rfl, ?_, h.size_lt⟩
  · change c'.rest = w.bytes.drop c'.position
    rw [hposition, ← List.drop_drop, hrest, List.drop_left]
  · change c'.position ≤ w.bytes.length
    omega

/-- The answer, and the window where the cursor then is. -/
def landed {α : Type} (w : Window) (r : Except Malformed α × Cursor) :
    Option (Except Error α × Window) :=
  some (r.1.mapError .malformed, ⟨w.bytes, r.2.position⟩)

theorem landed_error {α : Type} (h : w.Shows c) (fault : Malformed) :
    landed (α := α) w (.error fault, c) = some (.error (.malformed fault), w) := by
  change some (_, Window.mk w.bytes c.position) = _
  rw [h.position]
  rfl

theorem run_takeBytes (h : w.Shows c) (length : Nat) :
    (takeBytes length).run.run w = landed w (c.orStay (c.takeBytes length)) := by
  have hagrees := w.agrees_takeBytes h length
  have hrun : (takeBytes length).run.run w = (w.takeBytes length).run.map fun
      | .ok (bytes, moved) => (.ok bytes, ⟨w.bytes, moved.position⟩)
      | .error fault => (.error fault, w) := by
    change ((w.takeBytes length).run.map (·, w)).bind _ = _
    cases (w.takeBytes length).run with
    | none => rfl
    | some r => cases r <;> rfl
  rw [hrun]
  generalize w.takeBytes length = x at hagrees
  generalize c.takeBytes length = y at hagrees
  cases hagrees with
  | @ok a b hread =>
    obtain ⟨⟨hbytes, hshows⟩, -⟩ := hread
    change some (Except.ok a.1, Window.mk w.bytes a.2.position) = _
    rw [hbytes, ← hshows.position]
    rfl
  | error fault => exact (landed_error h fault).symm

theorem run_take (h : w.Shows c) (count : Nat) :
    (take count).run.run w = landed w (c.orStay (c.take count)) := by
  rw [take, Cursor.take]
  split
  · exact run_takeBytes h _
  · exact (landed_error h (.countOverflow count)).symm

/-- Once the bytes are there, nothing can fail any more that would have moved the position. -/
theorem run_take_bind (h : w.Shows c) (d : Demand) {f : List UInt8 → Moving Supply}
    (hf : ∀ (bytes : List UInt8) (w' : Window), bytes.length = wordBytes * d.count →
      (f bytes).run.run w' = some (.ok (d.supply bytes), w')) :
    (take d.count >>= f).run.run w = landed w (c.answer d) := by
  rw [ExceptT.run_bind, StateT.run_bind, run_take h, Cursor.answer, Cursor.read_eq_map_take]
  cases htake : c.take d.count with
  | error fault => rfl
  | ok found =>
    obtain ⟨bytes, c'⟩ := found
    obtain ⟨hcount, htaken⟩ := Cursor.take_eq_ok_iff.1 htake
    obtain ⟨-, hlength, -⟩ := Cursor.append_rest_of_takeBytes htaken
    exact hf bytes ⟨w.bytes, c'.position⟩ (by rw [hlength, Nat.mul_comm])

theorem take_one : take 1 = takeBytes wordBytes := if_pos (by decide)

theorem run_serve (h : w.Shows c) (d : Demand) :
    (serve d).run.run w = landed w (c.answer d) := by
  cases d with
  | word =>
    rw [serve, ← take_one]
    refine run_take_bind h .word fun bytes w' hlength => ?_
    rw [wordOf_of_length hlength]
    rfl
  | int =>
    rw [serve, ← take_one]
    refine run_take_bind h .int fun bytes w' hlength => ?_
    rw [wordOf_of_length hlength]
    rfl
  | skip count => exact run_take_bind h (.skip count) fun bytes w' _ => rfl
  | take count => exact run_take_bind h (.take count) fun bytes w' _ => rfl
  | words count =>
    refine run_take_bind h (.words count) fun bytes w' _ => ?_
    rw [mapM_wordOf_groups]
    rfl

theorem size_of_shows (h : w.Shows c) : c.size = w.bytes.length := by
  rw [Cursor.size, Cursor.remaining, h.rest, h.position, List.length_drop]
  exact Nat.add_sub_cancel' h.within

theorem shows_landed (h : w.Shows c) (d : Demand) :
    Window.Shows ⟨w.bytes, (c.answer d).2.position⟩ (c.answer d).2 := by
  have hsize : c.size < addressSpace := size_of_shows h ▸ h.size_lt
  rcases Cursor.met_or_refused hsize d with ⟨-, s, c', bytes, hanswer, -, hpasses⟩ | ⟨-, hanswer⟩
  · rw [hanswer]
    exact shows_of_passes h hpasses
  · rw [hanswer]
    change Window.Shows ⟨w.bytes, c.position⟩ c
    rw [h.position]
    exact h

theorem run_serveAll (h : w.Shows c) (ds : List Demand) :
    (serveAll ds).run w =
      some ((c.answers ds).map (·.mapError .malformed), ⟨w.bytes, (c.after ds).position⟩) := by
  induction ds generalizing w c with
  | nil =>
    change some ([], w) = some ([], Window.mk w.bytes c.position)
    rw [h.position]
  | cons d ds ih =>
    have hrest := ih (shows_landed h d)
    rw [serveAll] at hrest ⊢
    rw [List.mapM_cons, StateT.run_bind, run_serve h]
    simp only [landed, Option.bind_eq_bind, Option.bind_some, StateT.run_bind, hrest]
    rfl

end Moving

/-! ### Main statement -/

namespace Cursor

/-- After any row of demands, refused ones among them, the position is a whole number of words into
the region, and the bytes up to there are those that were given or skipped, in their order. A
further demand is refused just if it asks for more bytes than are left, and is then as good as not
made. A reader that writes its position is never stuck, gives the same answers, and comes to stand
at the same place. -/
theorem reads_account_for_every_byte (bytes : List UInt8) (hsize : bytes.length < addressSpace)
    (ds : List Demand) :
    let c := (start bytes).after ds
    (c.position ≤ bytes.length ∧ c.position = wordBytes * c.wordsRead ∧
      c.remaining = bytes.length - c.position) ∧
    (∀ d : Demand,
      ((∃ fault, (c.answer d).1 = .error fault) ↔ c.remaining < wordBytes * d.count) ∧
      ∀ fault, (c.answer d).1 = .error fault →
        fault = d.fault c ∧ (c.answer d).2 = c ∧
        (Moving.serve d).run.run ⟨bytes, c.position⟩ =
          some (.error (.malformed fault), ⟨bytes, c.position⟩)) ∧
    Met ds ((start bytes).answers ds) (bytes.take c.position) ∧
    (Moving.serveAll ds).run (Window.start bytes) =
      some (((start bytes).answers ds).map (·.mapError .malformed), ⟨bytes, c.position⟩) := by
  intro c
  have hstart : (start bytes).size = bytes.length := Nat.zero_add _
  obtain ⟨read, hmet, hpasses⟩ := exists_met_passes (hstart ▸ hsize) ds
  have hsizeAfter : c.size = bytes.length := hpasses.size_eq.trans hstart
  have hposition : c.position = read.length := hpasses.position.trans (Nat.zero_add _)
  have hbytes : bytes = read ++ c.rest := hpasses.rest
  have hshows : Window.Shows ⟨bytes, c.position⟩ c :=
    Moving.shows_of_passes (Window.shows_start hsize) hpasses
  refine ⟨⟨?_, ?_, ?_⟩, fun d => ⟨?_, ?_⟩, ?_, ?_⟩
  · rw [← hsizeAfter]
    exact Nat.le_add_right ..
  · rw [wordsRead, Nat.mul_div_cancel' (hposition ▸ hmet.dvd_length)]
  · rw [← hsizeAfter, size, Nat.add_sub_cancel_left]
  · exact exists_refused_iff (hsizeAfter ▸ hsize)
  · intro fault hfault
    have hserve := Moving.run_serve hshows d
    rcases met_or_refused (hsizeAfter ▸ hsize) d with ⟨-, _, _, _, hanswer, -⟩ | ⟨-, hanswer⟩
    · rw [hanswer] at hfault
      cases hfault
    · rw [hanswer] at hfault hserve ⊢
      cases hfault
      exact ⟨rfl, rfl, hserve⟩
  · have htake : bytes.take c.position = read := by
      rw [hposition, hbytes, List.take_left]
    rw [htake]
    exact hmet
  · exact Moving.run_serveAll (Window.shows_start hsize) ds

/-- The word at 4 is read after two reads that are refused there: the one asks for more words than
can be counted, the other for one too many. -/
theorem refused_reads_take_nothing :
    let bytes : List UInt8 := [5, 0, 0, 0, 250, 255, 255, 255, 7]
    let ds : List Demand := [.word, .take 0x4000000000000000, .skip 2, .int, .word]
    bytes.length < addressSpace ∧
      (Moving.serveAll ds).run (Window.start bytes) =
        some ([.ok (.word 5), .error (.malformed (.countOverflow 0x4000000000000000)),
          .error (.malformed (.readPastEnd 8 4 9)), .ok (.int (-6)),
          .error (.malformed (.readPastEnd 4 8 9))], ⟨bytes, 8⟩) ∧
      Met ds ((start bytes).answers ds) (bytes.take 8) := by
  intro bytes ds
  have hsize : bytes.length < addressSpace := by decide
  obtain ⟨-, -, hmet, hserve⟩ := reads_account_for_every_byte bytes hsize ds
  exact ⟨hsize, hserve, hmet⟩

end Cursor

end PowerFormulas
