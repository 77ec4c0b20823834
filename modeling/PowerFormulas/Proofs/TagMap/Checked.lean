import PowerFormulas.Proofs.Cursor.Checked
import PowerFormulas.TagMap

/-!
# Reading tag maps with checks

The reader of tag maps on a machine: from a window, with the text cut out of its words by an index,
and with each entry put among the others as soon as it is complete. It is never stuck, and it adds
what the reader of a cursor finds (`agrees_tagMap`).
-/

namespace PowerFormulas.Window

open Checked TagMap

def script (w : Window) : Checked (Entry × Window) := do
  let w ← w.skip 5
  let (textLength, w) ← w.word
  let w ← w.skip 1
  let (codeLength, w) ← w.word
  let textWords ← Checked.wordsFor textLength
  let (text, w) ← w.take textWords
  let text ← slice text 0 textLength.toNat
  let codeWords ← Checked.wordsFor codeLength
  let (code, w) ← w.words codeWords
  return (.ofScript ⟨code, sourceText text⟩, w)

def constant (w : Window) : Checked (Entry × Window) := do
  let (value, w) ← w.int
  return (.constant value, w)

def entry (w : Window) : Checked ((UInt32 × Entry) × Window) := do
  let (kind, w) ← w.word
  let (id, w) ← w.word
  let (entry, w) ← if kind = scriptKind then w.script else w.constant
  return ((id, entry), w)

/-- Adds the next `count` entries to those that there are. -/
def entries : Nat → Window → Entries → Checked (Entries × Window)
  | 0, w, out => return (out, w)
  | count + 1, w, out => do
    let ((id, e), w) ← w.entry
    entries count w (out.insert id e)

def tagMap (bytes : List UInt8) (out : Entries) : Checked Entries := do
  let (count, w) ← (start bytes).word
  let (out, _) ← entries count.toNat w out
  return out

variable {w : Window} {c : Cursor} {bytes : List UInt8}

/-- The text is cut out of as many words as it needs, so the cut is within them. -/
theorem agrees_script (h : w.Shows c) : Agrees Read w.script (readScript c) := by
  refine (agrees_skip h 5).bind fun w₁ c₁ h₁ => ?_
  refine (agrees_word h₁).bind ?_
  rintro ⟨textLength, w₂⟩ ⟨textLength', c₂⟩ ⟨heq, h₂⟩
  obtain rfl : textLength = textLength' := heq
  refine (agrees_skip h₂ 1).bind fun w₃ c₃ h₃ => ?_
  refine (agrees_word h₃).bind ?_
  rintro ⟨codeLength, w₄⟩ ⟨codeLength', c₄⟩ ⟨heq, h₄⟩
  obtain rfl : codeLength = codeLength' := heq
  simp only [Checked.wordsFor_eq, pure_bind]
  refine (agrees_take h₄ _).bind ?_
  rintro ⟨text, w₅⟩ ⟨text', c₅⟩ ⟨⟨heq, h₅⟩, hlength⟩
  obtain rfl : text = text' := heq
  have hcut : textLength.toNat ≤ text.length := by
    have hle := le_four_mul_wordsFor textLength
    simp only [wordBytes] at hlength
    omega
  simp only [slice_of_le (Nat.zero_le _) hcut, pure_bind, List.drop_zero, Nat.sub_zero]
  refine (agrees_words h₅ _).bind ?_
  rintro ⟨code, w₆⟩ ⟨code', c₆⟩ ⟨heq, h₆⟩
  obtain rfl : code = code' := heq
  exact .ok ⟨rfl, h₆⟩

theorem agrees_constant (h : w.Shows c) : Agrees Read w.constant (readConstant c) := by
  refine (agrees_int h).bind ?_
  rintro ⟨value, w'⟩ ⟨value', c'⟩ ⟨heq, h'⟩
  obtain rfl : value = value' := heq
  exact .ok ⟨rfl, h'⟩

theorem agrees_entry (h : w.Shows c) : Agrees Read w.entry (readEntry c) := by
  refine (agrees_word h).bind ?_
  rintro ⟨kind, w₁⟩ ⟨kind', c₁⟩ ⟨heq, h₁⟩
  obtain rfl : kind = kind' := heq
  refine (agrees_word h₁).bind ?_
  rintro ⟨id, w₂⟩ ⟨id', c₂⟩ ⟨heq, h₂⟩
  obtain rfl : id = id' := heq
  have hentry : ∀ (a : Entry × Window) (b : Entry × Cursor), Read a b →
      Agrees Read (pure ((id, a.1), a.2)) (.ok ((id, b.1), b.2)) :=
    fun _ _ hread => .ok ⟨congrArg _ hread.1, hread.2⟩
  dsimp only
  split
  · exact (agrees_script h₂).bind hentry
  · exact (agrees_constant h₂).bind hentry

theorem agrees_entries (h : w.Shows c) (count : Nat) (out : Entries) :
    Agrees (fun a c' => a.1 = out.insertMany (readEntries count c).1 ∧ a.2.Shows c')
      (entries count w out) (readEntries count c).2 := by
  induction count generalizing w c out with
  | zero => exact .ok ⟨Std.ExtTreeMap.insertMany_nil.symm, h⟩
  | succ count ih =>
    have hentry := agrees_entry h
    rw [entries, readEntries]
    generalize w.entry = x at hentry
    generalize readEntry c = y at hentry
    cases hentry with
    | error fault => exact .error fault
    | @ok a b hread =>
      obtain ⟨⟨id, e⟩, w'⟩ := a
      obtain ⟨entry, c'⟩ := b
      obtain ⟨heq, h'⟩ := hread
      obtain rfl : (id, e) = entry := heq
      have hrest := ih h' (out.insert id e)
      rw [← Std.ExtTreeMap.insertMany_cons] at hrest
      exact hrest

theorem agrees_tagMap (h : bytes.length < addressSpace) (out : Entries) :
    Agrees (fun out' found => out' = out.insertMany found) (tagMap bytes out)
      (do let _ ← (TagMap.read bytes).outcome; return (TagMap.read bytes).entries) := by
  have hword := agrees_word (shows_start h)
  rw [tagMap, TagMap.read]
  generalize (start bytes).word = x at hword
  generalize (Cursor.start bytes).word = y at hword
  cases hword with
  | error fault => exact .error fault
  | @ok a b hread =>
    obtain ⟨count, w⟩ := a
    obtain ⟨count', c⟩ := b
    obtain ⟨heq, hshows⟩ := hread
    obtain rfl : count = count' := heq
    have hentries := agrees_entries hshows count.toNat out
    simp only [pure_bind]
    generalize readEntries count.toNat c = found at hentries
    obtain ⟨entries, last⟩ := found
    generalize Window.entries count.toNat w out = z at hentries
    cases hentries with
    | error fault => exact .error fault
    | ok hout => exact .ok hout.1

end PowerFormulas.Window
