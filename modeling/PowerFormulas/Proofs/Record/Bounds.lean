import PowerFormulas.Proofs.Record.Layout
import PowerFormulas.Proofs.TagMap.Checked

/-!
# Decoding within bounds

Offsets, sizes, counts and lengths in a record can be any words. Whatever they are, decoding takes
no byte outside the record and computes no number that does not fit: the reader on a machine is not
stuck and does what `Record.decode` does. If a tag map is out of bounds, by its descriptor, its
region or its contents, the fault names the record and the first such map
(`decode_stays_within_bounds`).
-/

namespace PowerFormulas

theorem Bytes.standsAt_of_region {bytes part : List UInt8} {offset length : Nat}
    (h : region bytes offset length = .ok part) :
    part.length = length ∧ StandsAt bytes offset part := by
  have hlength := length_of_region h
  obtain ⟨-, hle, rfl⟩ := region_eq_ok_iff.1 h
  refine ⟨hlength, by rw [hlength]; exact hle, fun i hi => ?_⟩
  rw [hlength] at hi
  rw [List.getElem?_take_of_lt hi, List.getElem?_drop]

theorem Bytes.region_eq_ok_iff_standsAt {bytes part : List UInt8} {offset length : Nat}
    (hbytes : bytes.length < addressSpace) :
    region bytes offset length = .ok part ↔ part.length = length ∧ StandsAt bytes offset part := by
  refine ⟨standsAt_of_region, ?_⟩
  rintro ⟨rfl, h⟩
  exact region_of_standsAt h (Nat.lt_of_le_of_lt h.bound hbytes)

/-! ### The reader on a machine -/

/-- Names the record and the tag map in a fault of its reader. -/
def Error.inTagMap (record : String) (offset : Nat) : Error → Error
  | .malformed cause => .malformed (.inTagMap record offset cause)
  | other => other

namespace Checked

def region (bytes : List UInt8) (offset length : Nat) : Checked (List UInt8) := do
  let size ← fit bytes.length
  if offset + length < addressSpace then
    if offset + length ≤ size then slice bytes offset (offset + length)
    else throw (.malformed (.regionOutside offset (offset + length) size))
  else throw (.malformed (.regionOverflow offset length))

theorem agrees_region {bytes : List UInt8} (h : bytes.length < addressSpace)
    (offset length : Nat) :
    Agrees (fun a b => a = b ∧ a.length = length) (region bytes offset length)
      (Bytes.region bytes offset length) := by
  unfold region Bytes.region
  rw [fit_of_lt h, pure_bind]
  by_cases hspace : offset + length < addressSpace
  · rw [if_pos hspace, if_pos hspace]
    by_cases hsize : offset + length ≤ bytes.length
    · rw [if_pos hsize, if_pos hsize, slice_of_le (Nat.le_add_right _ _) hsize,
        Nat.add_sub_cancel_left]
      refine .ok ⟨rfl, ?_⟩
      rw [List.length_take, List.length_drop]
      omega
    · rw [if_neg hsize, if_neg hsize]
      exact .error _
  · rw [if_neg hspace, if_neg hspace]
    exact .error _

theorem Agrees.inTagMap {α β : Type} {R : α → β → Prop} {x : Checked α} {y : Except Malformed β}
    (h : Agrees R x y) (record : String) (offset : Nat) :
    Agrees R (x.adapt (Error.inTagMap record offset)) (y.mapError (.inTagMap record offset)) := by
  cases h with
  | ok hab => exact .ok hab
  | error fault => exact .error _

/-- The tag id of a script slot, in 32 bits. -/
def slotId (slot : Nat) : Checked UInt32 := do
  let row ← fitWord ((UInt32.ofNat (slot / 10)).toNat * 0x1000)
  let first ← fitWord (0x41100 + row.toNat)
  let column ← fitWord ((UInt32.ofNat (slot % 10)).toNat * 0x100)
  fitWord (first.toNat + column.toNat)

def annotateSlot (entries : Entries) (text : String × Nat) : Checked Entries := do
  let id ← slotId text.2
  return entries.modify id (Entry.annotate text.1)

def annotate (details : List String) (entries : Entries) : Checked Entries :=
  details.zipIdx.foldlM annotateSlot entries

end Checked

namespace Record

open Bytes (ofWord StandsAt)
open Checked (Agrees)

variable {r : Record} {offset : Nat} {entries : List (UInt32 × Entry)} {es : Entries}

/-- The bytes of the tag map described at `offset` of the definition; there are none if it is
absent. -/
def regionChecked (r : Record) (offset : Nat) : Checked (List UInt8) :=
  if r.base + offset < addressSpace then do
    let descriptor ← Checked.region r.data (r.base + offset) (2 * wordBytes)
    let (start, w) ← (Window.start descriptor).word
    let (size, _) ← w.word
    if size = 0 then return []
    else Checked.region r.data start.toNat size.toNat
  else throw (.malformed .baseOverflow)

/-- Adds the entries of the tag map described at `offset` of the definition. -/
def tagMapChecked (r : Record) (entries : Entries) (offset : Nat) : Checked Entries := do
  let bytes ← r.regionChecked offset
  if bytes = [] then return entries
  else Window.tagMap bytes entries

def decodeChecked (r : Record) : Checked Entries := do
  let entries ← tagMapOffsets.foldlM (fun entries offset =>
    (r.tagMapChecked entries offset).adapt (Error.inTagMap r.name offset)) ∅
  Checked.annotate r.details entries

/-! ### Tag maps -/

theorem agrees_regionChecked (hdata : r.data.length < addressSpace) (offset : Nat) :
    Agrees (fun bytes found => found = (if bytes = [] then none else some bytes) ∧
      bytes.length < addressSpace) (r.regionChecked offset) (r.tagMapRegion offset) := by
  unfold regionChecked tagMapRegion
  split
  · refine (Checked.agrees_region hdata _ _).bind ?_
    rintro descriptor _ ⟨rfl, hdescriptor⟩
    have hsmall : descriptor.length < addressSpace := by
      rw [hdescriptor]
      decide
    refine (Window.agrees_word (Window.shows_start hsmall)).bind ?_
    rintro ⟨start, w⟩ ⟨start', c⟩ ⟨heq, hshows⟩
    obtain rfl : start = start' := heq
    refine (Window.agrees_word hshows).bind ?_
    rintro ⟨size, w'⟩ ⟨size', c'⟩ ⟨heq, -⟩
    obtain rfl : size = size' := heq
    dsimp only
    by_cases hsize : size = 0
    · rw [if_pos hsize, if_pos hsize]
      exact .ok ⟨rfl, by decide⟩
    · rw [if_neg hsize, if_neg hsize, ← bind_pure (Checked.region _ _ _)]
      refine (Checked.agrees_region hdata _ _).map ?_
      rintro bytes _ ⟨rfl, hbytes⟩
      have hlt : size.toNat < UInt32.size := size.toNat_lt
      have hne : bytes ≠ [] := by
        rintro rfl
        exact hsize (UInt32.toNat.inj hbytes.symm)
      refine .ok ⟨(if_neg hne).symm, lt_addressSpace ?_⟩
      omega
  · exact .error _

theorem agrees_tagMapChecked (hdata : r.data.length < addressSpace) (out : Entries)
    (offset : Nat) :
    Agrees (fun out' found => out' = out.insertMany found) (r.tagMapChecked out offset)
      (r.tagMap offset) := by
  unfold tagMapChecked tagMap
  refine (agrees_regionChecked hdata offset).bind ?_
  rintro bytes _ ⟨rfl, hbytes⟩
  by_cases hempty : bytes = []
  · rw [if_pos hempty, if_pos hempty]
    exact .ok Std.ExtTreeMap.insertMany_nil.symm
  · rw [if_neg hempty, if_neg hempty]
    exact Window.agrees_tagMap hbytes out

theorem agrees_foldlM (hdata : r.data.length < addressSpace) (offsets : List Nat)
    (out : Entries) :
    Agrees (fun out' maps => out' = out.insertMany maps.flatten)
      (offsets.foldlM (fun out offset =>
        (r.tagMapChecked out offset).adapt (Error.inTagMap r.name offset)) out)
      (offsets.mapM fun offset => (r.tagMap offset).mapError (.inTagMap r.name offset)) := by
  induction offsets generalizing out with
  | nil => exact .ok Std.ExtTreeMap.insertMany_nil.symm
  | cons offset offsets ih =>
    rw [List.foldlM_cons, List.mapM_cons]
    refine ((agrees_tagMapChecked hdata out offset).inTagMap r.name offset).bind ?_
    rintro _ found rfl
    rw [← bind_pure (List.foldlM _ _ _)]
    refine (ih (out.insertMany found)).bind ?_
    rintro _ maps rfl
    refine .ok ?_
    rw [List.flatten_cons, Std.ExtTreeMap.insertMany_append]

/-! ### Slots -/

/-- The tag id of a script slot, however great it is. -/
def exactSlotId (slot : Nat) : Nat := 0x41100 + slot / 10 * 0x1000 + slot % 10 * 0x100

theorem exactSlotId_le {slot last : Nat} (h : slot ≤ last) :
    exactSlotId slot ≤ exactSlotId last := by
  simp only [exactSlotId]
  omega

theorem slotId_eq (slot : Nat) : slotId slot = UInt32.ofNat (exactSlotId slot) := by
  rw [exactSlotId, UInt32.ofNat_add, UInt32.ofNat_add, UInt32.ofNat_mul, UInt32.ofNat_mul]
  rfl

theorem slotIdChecked_eq {slot : Nat} (h : exactSlotId slot < UInt32.size) :
    Checked.slotId slot = pure (slotId slot) := by
  rw [slotId_eq, Checked.slotId]
  simp only [exactSlotId] at h ⊢
  have hword : ∀ {n : Nat}, n < UInt32.size → (UInt32.ofNat n).toNat = n :=
    UInt32.toNat_ofNat_of_lt'
  rw [hword (by omega), Checked.fitWord_of_lt (by omega), pure_bind, hword (by omega),
    Checked.fitWord_of_lt (by omega), pure_bind, hword (by omega),
    Checked.fitWord_of_lt (by omega), pure_bind, hword (by omega), hword (by omega),
    Checked.fitWord_of_lt (by omega)]

theorem foldlM_annotateSlot_eq {slots : List (String × Nat)}
    (h : ∀ d ∈ slots, exactSlotId d.2 < UInt32.size) (es : Entries) :
    slots.foldlM Checked.annotateSlot es =
      pure (slots.foldl (fun es (text, slot) => es.modify (slotId slot) (Entry.annotate text))
        es) := by
  induction slots generalizing es with
  | nil => rfl
  | cons first rest ih =>
    obtain ⟨hslot, hrest⟩ := List.forall_mem_cons.1 h
    rw [List.foldlM_cons, List.foldl_cons, Checked.annotateSlot, slotIdChecked_eq hslot, pure_bind,
      pure_bind]
    exact ih hrest _

/-- Where the id of the last slot fits, those of all slots before it do. -/
theorem exactSlotId_lt {details : List String}
    (h : ∀ last, details.length = last + 1 → exactSlotId last < UInt32.size) {slot : Nat}
    (hslot : slot < details.length) : exactSlotId slot < UInt32.size := by
  have hlast := h (details.length - 1) (by omega)
  exact Nat.lt_of_le_of_lt (exactSlotId_le (by omega)) hlast

theorem annotateChecked_eq {details : List String}
    (h : ∀ last, details.length = last + 1 → exactSlotId last < UInt32.size) (es : Entries) :
    Checked.annotate details es = pure (annotate details es) := by
  apply foldlM_annotateSlot_eq
  rintro ⟨text, slot⟩ hmem
  obtain ⟨-, hslot, -⟩ := List.mem_zipIdx hmem
  exact exactSlotId_lt h (by omega)

theorem decodeChecked_eq (hdata : r.data.length < addressSpace)
    (hdetails : ∀ last, r.details.length = last + 1 → exactSlotId last < UInt32.size) :
    r.decodeChecked = Checked.ofExcept r.decode := by
  apply Checked.eq_ofExcept_of_agrees
  refine (agrees_foldlM hdata tagMapOffsets ∅).bind ?_
  rintro _ maps rfl
  rw [annotateChecked_eq hdetails]
  refine .ok ?_
  rw [Std.ExtTreeMap.ofList_eq_insertMany_empty]

/-! ### What a descriptor describes -/

theorem exists_descriptor_of_length {bytes : List UInt8} (h : bytes.length = 4 * 2) :
    ∃ start size, bytes = ofWord start ++ ofWord size := by
  obtain ⟨start, size, hwords⟩ : ∃ start size, Bytes.words bytes = [start, size] := by
    rw [← List.length_eq_two, Bytes.length_words, h]
  refine ⟨start, size, ?_⟩
  rw [← Bytes.flatMap_ofWord_words h, hwords]
  rfl

theorem exists_descriptor {found : Option (List UInt8)} (h : r.tagMapRegion offset = .ok found) :
    ∃ start size, r.base + offset + 2 * wordBytes < addressSpace ∧
      StandsAt r.data (r.base + offset) (ofWord start ++ ofWord size) := by
  unfold tagMapRegion at h
  split at h
  · obtain ⟨descriptor, hregion, -⟩ := bind_eq_ok_iff.1 h
    obtain ⟨hspace, -, -⟩ := Bytes.region_eq_ok_iff.1 hregion
    obtain ⟨hlength, hstands⟩ := Bytes.standsAt_of_region hregion
    obtain ⟨start, size, rfl⟩ := exists_descriptor_of_length hlength
    exact ⟨start, size, hspace, hstands⟩
  · cases h

theorem exists_standsAt_of_tagMapRegion {found : Option (List UInt8)}
    (h : r.tagMapRegion offset = .ok found) :
    ∃ start size, StandsAt r.data (r.base + offset) (ofWord start ++ ofWord size) ∧
      (size = 0 ∧ found = none ∨ size ≠ 0 ∧ ∃ bytes, found = some bytes ∧
        bytes.length = size.toNat ∧ StandsAt r.data start.toNat bytes) := by
  obtain ⟨start, size, hspace, hdescriptor⟩ := exists_descriptor h
  rw [tagMapRegion_of_standsAt hspace hdescriptor] at h
  refine ⟨start, size, hdescriptor, ?_⟩
  by_cases hsize : size = 0
  · rw [if_pos hsize] at h
    exact .inl ⟨hsize, (Except.ok.inj h).symm⟩
  · rw [if_neg hsize] at h
    obtain ⟨bytes, hbytes, rfl⟩ := map_eq_ok_iff.1 h
    exact .inr ⟨hsize, bytes, rfl, Bytes.standsAt_of_region hbytes⟩

/-- The entries of the tag map that the descriptor at `offset` of the definition describes. With
size zero it describes none, whatever its offset. -/
inductive Holds (r : Record) (offset : Nat) : List (UInt32 × Entry) → Prop where
  | absent (start : UInt32) : StandsAt r.data (r.base + offset) (ofWord start ++ ofWord 0) →
      Holds r offset []
  | present {start size : UInt32} {part rest : List UInt8} {entries : List (UInt32 × Entry)} :
      size ≠ 0 → StandsAt r.data (r.base + offset) (ofWord start ++ ofWord size) →
      StandsAt r.data start.toNat (part ++ rest) → (part ++ rest).length = size.toNat →
      TagMap.IsTagMap part entries → Holds r offset entries

theorem holds_of_tagMap (h : r.tagMap offset = .ok entries) : r.Holds offset entries := by
  rcases tagMap_eq_ok_iff.1 h with ⟨hregion, rfl⟩ | ⟨part, rest, hregion, hmap⟩
  · obtain ⟨start, size, hdescriptor, ⟨rfl, -⟩ | ⟨-, bytes, heq, -⟩⟩ :=
      exists_standsAt_of_tagMapRegion hregion
    · exact .absent start hdescriptor
    · cases heq
  · obtain ⟨start, size, hdescriptor, ⟨-, heq⟩ | ⟨hsize, bytes, heq, hlength, hstands⟩⟩ :=
      exists_standsAt_of_tagMapRegion hregion
    · cases heq
    · cases heq
      exact .present hsize hdescriptor hstands hlength hmap

/-! ### What is out of bounds -/

/-- The descriptor at `offset` of the definition lies in the record, and so does the region that it
describes, unless it is of size zero; that region starts with a tag map. -/
inductive InBounds (r : Record) (offset : Nat) : Prop where
  | absent (start : UInt32) : StandsAt r.data (r.base + offset) (ofWord start ++ ofWord 0) →
      InBounds r offset
  | present {start size : UInt32} {part rest : List UInt8} {entries : List (UInt32 × Entry)} :
      size ≠ 0 → StandsAt r.data (r.base + offset) (ofWord start ++ ofWord size) →
      StandsAt r.data start.toNat (part ++ rest) → (part ++ rest).length = size.toNat →
      TagMap.IsTagMap part entries → InBounds r offset

theorem exists_tagMap_iff (hdata : r.data.length < addressSpace) :
    (∃ entries, r.tagMap offset = .ok entries) ↔ r.InBounds offset := by
  constructor
  · rintro ⟨entries, h⟩
    cases holds_of_tagMap h with
    | absent start hdescriptor => exact .absent start hdescriptor
    | present hsize hdescriptor hstands hlength hmap =>
      exact .present hsize hdescriptor hstands hlength hmap
  · intro h
    have hspace {start size : UInt32}
        (h : StandsAt r.data (r.base + offset) (ofWord start ++ ofWord size)) :
        r.base + offset + 2 * wordBytes < addressSpace := Nat.lt_of_le_of_lt h.bound hdata
    cases h with
    | absent start hdescriptor =>
      have hregion := tagMapRegion_of_standsAt (hspace hdescriptor) hdescriptor
      exact ⟨[], tagMap_eq_ok_iff.2 (.inl ⟨hregion, rfl⟩)⟩
    | @present start size part rest entries hsize hdescriptor hstands hlength hmap =>
      refine ⟨entries, tagMap_eq_ok_iff.2 (.inr ⟨part, rest, ?_, hmap⟩)⟩
      have hregion := (Bytes.region_eq_ok_iff_standsAt hdata).2 ⟨hlength, hstands⟩
      rw [tagMapRegion_of_standsAt (hspace hdescriptor) hdescriptor, if_neg hsize, hregion]
      rfl

theorem exists_tagMap_of_decode {fault : Malformed} (h : r.decode = .error fault) :
    ∃ before offset behind cause, tagMapOffsets = before ++ offset :: behind ∧
      (∀ earlier ∈ before, ∃ entries, r.tagMap earlier = .ok entries) ∧
      r.tagMap offset = .error cause ∧ fault = .inTagMap r.name offset cause := by
  unfold decode at h
  cases hmaps : tagMapOffsets.mapM
      (fun offset => (r.tagMap offset).mapError (Malformed.inTagMap r.name offset)) with
  | ok maps =>
    rw [hmaps] at h
    cases h
  | error fault' =>
    rw [hmaps] at h
    cases h
    obtain ⟨before, offset, behind, hsplit, hbefore, hoffset⟩ := exists_error_of_mapM hmaps
    simp only [mapError_eq_ok_iff] at hbefore
    cases htagMap : r.tagMap offset with
    | ok entries =>
      rw [htagMap] at hoffset
      cases hoffset
    | error cause =>
      rw [htagMap] at hoffset
      cases hoffset
      exact ⟨before, offset, behind, cause, hsplit, hbefore, htagMap, rfl⟩

/-! ### Main statement -/

/-- Decoding ends in entries or in a fault, and never otherwise: no index and no number leaves its
bounds on the way. There is a fault just if a tag map is out of bounds, and it names the record and
the first such map. -/
theorem decode_stays_within_bounds (r : Record) (hdata : r.data.length < addressSpace)
    (hdetails : ∀ last, r.details.length = last + 1 → exactSlotId last < UInt32.size) :
    (∃ es, r.decodeChecked = pure es ∧ r.decode = .ok es ∧
      ∀ offset ∈ tagMapOffsets, r.InBounds offset) ∨
    ∃ before offset behind cause, tagMapOffsets = before ++ offset :: behind ∧
      (∀ earlier ∈ before, r.InBounds earlier) ∧ ¬ r.InBounds offset ∧
      r.decodeChecked = throw (.malformed (.inTagMap r.name offset cause)) ∧
      r.decode = .error (.inTagMap r.name offset cause) ∧
      (Malformed.inTagMap r.name offset cause).message =
        r.name ++ ": tag map +0x" ++ String.ofList (Text.padDigits 16 3 offset) ++ ": " ++
          cause.message := by
  rw [decodeChecked_eq hdata hdetails]
  cases hdecode : r.decode with
  | ok es =>
    refine .inl ⟨es, rfl, rfl, ?_⟩
    intro offset hoffset
    exact (exists_tagMap_iff hdata).1 (exists_entries_of_decode hdecode hoffset)
  | error fault =>
    obtain ⟨before, offset, behind, cause, hsplit, hbefore, htagMap, rfl⟩ :=
      exists_tagMap_of_decode hdecode
    refine .inr ⟨before, offset, behind, cause, hsplit, ?_, ?_, rfl, rfl, rfl⟩
    · intro earlier hearlier
      exact (exists_tagMap_iff hdata).1 (hbefore earlier hearlier)
    · intro hbounds
      obtain ⟨entries, hentries⟩ := (exists_tagMap_iff hdata).2 hbounds
      rw [htagMap] at hentries
      cases hentries

/-- The record ends before the fourth descriptor, which is the first one to be missed. -/
theorem fourth_map_of_short_jab_is_named :
    let r : Record := ⟨"Jab", 5, List.replicate 0x40 0, 0, ["low", "high"]⟩
    let cause := Malformed.regionOutside 0x50 0x58 0x40
    r.decodeChecked = throw (.malformed (.inTagMap "Jab" 0x50 cause)) ∧ ¬ r.InBounds 0x50 ∧
      ∃ before behind, tagMapOffsets = before ++ 0x50 :: behind ∧
        ∀ earlier ∈ before, r.InBounds earlier := by
  intro r cause
  have hdetails : ∀ last, r.details.length = last + 1 → exactSlotId last < UInt32.size := by
    intro last hlast
    obtain rfl : 1 = last := Nat.succ.inj hlast
    decide
  have hdecode : r.decode = .error (.inTagMap "Jab" 0x50 cause) := by decide +kernel
  rcases decode_stays_within_bounds r (by decide) hdetails with
    ⟨es, -, hok, -⟩ |
    ⟨before, offset, behind, cause', hsplit, hbefore, hout, hchecked, herror, -⟩
  · rw [hdecode] at hok
    cases hok
  · rw [hdecode] at herror
    cases herror
    exact ⟨hchecked, hout, before, behind, hsplit, hbefore⟩

/-- How a fault names the maps. -/
example : tagMapOffsets.map (fun offset => String.ofList (Text.padDigits 16 3 offset)) =
    ["008", "018", "028", "050", "058", "060", "068", "090", "098", "0a0", "0a8"] := by
  decide +kernel

end Record

end PowerFormulas
