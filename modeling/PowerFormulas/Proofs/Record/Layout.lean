import Mathlib.Data.List.FinRange
import PowerFormulas.Proofs.Record.Decoding
import PowerFormulas.Proofs.TagMap.Writing

/-!
# Laying out records

Tag maps become a record as follows: a header, the definition with all its descriptors zero, and
then one map after another, each put behind everything that is there, with its offset and size
written into the descriptor of its slot. What is put later leaves earlier maps and their descriptors
as they are (`Describes.placeAll`), so in the end every slot describes its map, and a slot without a
map describes none (`Layout.exists_describes_data`).
-/

namespace PowerFormulas

/-! ### Parts of byte lists -/

namespace Bytes

/-- The part is what can be read at the offset. -/
structure StandsAt (bytes : List UInt8) (offset : Nat) (part : List UInt8) : Prop where
  bound : offset + part.length ≤ bytes.length
  getElem? : ∀ i < part.length, bytes[offset + i]? = part[i]?

def overwrite (bytes : List UInt8) (offset : Nat) (part : List UInt8) : List UInt8 :=
  bytes.take offset ++ part ++ bytes.drop (offset + part.length)

variable {bytes part new : List UInt8} {offset place : Nat}

theorem standsAt_append (bytes part : List UInt8) : StandsAt (bytes ++ part) bytes.length part where
  bound := Nat.le_of_eq List.length_append.symm
  getElem? i _ := by
    rw [List.getElem?_append_right (Nat.le_add_right _ _), Nat.add_sub_cancel_left]

theorem StandsAt.append (h : StandsAt bytes offset part) (more : List UInt8) :
    StandsAt (bytes ++ more) offset part where
  bound := by
    have := h.bound
    rw [List.length_append]
    omega
  getElem? i hi := by
    have := h.bound
    rw [List.getElem?_append_left (by omega)]
    exact h.getElem? i hi

theorem length_overwrite (hbound : offset + new.length ≤ bytes.length) :
    (overwrite bytes offset new).length = bytes.length := by
  simp only [overwrite, List.length_append, List.length_take, List.length_drop]
  omega

theorem standsAt_overwrite (hbound : offset + new.length ≤ bytes.length) :
    StandsAt (overwrite bytes offset new) offset new := by
  have hlength : (bytes.take offset).length = offset := List.length_take_of_le (by omega)
  have h := (standsAt_append (bytes.take offset) new).append (bytes.drop (offset + new.length))
  rwa [hlength] at h

theorem StandsAt.overwrite (h : StandsAt bytes place part)
    (hbound : offset + new.length ≤ bytes.length)
    (hapart : place + part.length ≤ offset ∨ offset + new.length ≤ place) :
    StandsAt (overwrite bytes offset new) place part where
  bound := by
    rw [length_overwrite hbound]
    exact h.bound
  getElem? i hi := by
    have hlength : (bytes.take offset).length = offset := List.length_take_of_le (by omega)
    rw [← h.getElem? i hi, Bytes.overwrite, List.append_assoc]
    rcases hapart with hbefore | hbehind
    · rw [List.getElem?_append_left (by omega), List.getElem?_take_of_lt (by omega)]
    · rw [List.getElem?_append_right (by omega), List.getElem?_append_right (by omega),
        List.getElem?_drop, hlength]
      congr 1
      omega

theorem StandsAt.prepend (h : StandsAt bytes offset part) (before : List UInt8) :
    StandsAt (before ++ bytes) (before.length + offset) part where
  bound := by
    have := h.bound
    rw [List.length_append]
    omega
  getElem? i hi := by
    rw [Nat.add_assoc, List.getElem?_append_right (Nat.le_add_right _ _), Nat.add_sub_cancel_left]
    exact h.getElem? i hi

theorem standsAt_append_iff : StandsAt bytes offset (part ++ new) ↔
    StandsAt bytes offset part ∧ StandsAt bytes (offset + part.length) new := by
  constructor
  · intro h
    have hbound := h.bound
    have hget := h.getElem?
    rw [List.length_append] at hbound hget
    refine ⟨⟨by omega, fun i hi => ?_⟩, ⟨by omega, fun i hi => ?_⟩⟩
    · rw [hget i (by omega), List.getElem?_append_left hi]
    · rw [Nat.add_assoc, hget _ (by omega), List.getElem?_append_right (by omega),
        Nat.add_sub_cancel_left]
  · intro ⟨hpart, hnew⟩
    have hbound := hnew.bound
    refine ⟨by rw [List.length_append]; omega, fun i hi => ?_⟩
    rw [List.length_append] at hi
    by_cases hlt : i < part.length
    · rw [hpart.getElem? i hlt, List.getElem?_append_left hlt]
    · rw [List.getElem?_append_right (by omega), ← hnew.getElem? _ (by omega)]
      congr 1
      omega

theorem StandsAt.take_drop (h : StandsAt bytes offset part) :
    (bytes.drop offset).take part.length = part := by
  have := h.bound
  apply List.ext_getElem?
  intro i
  by_cases hi : i < part.length
  · rw [List.getElem?_take_of_lt hi, List.getElem?_drop, h.getElem? i hi]
  · rw [List.getElem?_take_eq_none (by omega), List.getElem?_eq_none (by omega)]

theorem region_of_standsAt (h : StandsAt bytes offset part)
    (hspace : offset + part.length < addressSpace) :
    region bytes offset part.length = .ok part :=
  region_eq_ok_iff.2 ⟨hspace, h.bound, h.take_drop.symm⟩

end Bytes

namespace Record

open Bytes (ofWord StandsAt)
open TagMap (Line mapBytes)

/-! ### Slots -/

/-- A tag map of the record, by the number of its descriptor. -/
abbrev MapSlot := Fin tagMapOffsets.length

def definitionSize : Nat := 0xB0

def descriptor (start size : Nat) : List UInt8 := ofWord (.ofNat start) ++ ofWord (.ofNat size)

theorem length_descriptor (start size : Nat) : (descriptor start size).length = 8 := rfl

theorem offset_le_definitionSize :
    ∀ slot : MapSlot, tagMapOffsets[slot] + 8 ≤ definitionSize := by
  decide

theorem descriptors_apart : ∀ slot other : MapSlot, slot ≠ other →
    tagMapOffsets[slot] + 8 ≤ tagMapOffsets[other] ∨
      tagMapOffsets[other] + 8 ≤ tagMapOffsets[slot] := by
  decide

/-- The slot says where the body is, and there it is. No body lies before the end of the
definition. -/
structure Describes (base : Nat) (data : List UInt8) (slot : MapSlot) (start : Nat)
    (body : List UInt8) : Prop where
  described : StandsAt data (base + tagMapOffsets[slot]) (descriptor start body.length)
  placed : StandsAt data start body
  behind : body = [] ∨ base + definitionSize ≤ start
  start_lt : start < UInt32.size
  length_lt : body.length < UInt32.size

section Slots

variable {r : Record} {slot other : MapSlot} {base start : Nat} {data body part : List UInt8}

/-! ### Reading a slot -/

theorem tagMapRegion_of_standsAt {offset : Nat} {start size : UInt32}
    (hspace : r.base + offset + 2 * wordBytes < addressSpace)
    (h : StandsAt r.data (r.base + offset) (ofWord start ++ ofWord size)) :
    r.tagMapRegion offset =
      if size = 0 then .ok none else some <$> Bytes.region r.data start.toNat size.toNat := by
  have hregion : Bytes.region r.data (r.base + offset) (2 * wordBytes) =
      .ok (ofWord start ++ ofWord size) := Bytes.region_of_standsAt h hspace
  have hstart : (Cursor.start (ofWord start ++ ofWord size)).word = .ok (start, ⟨4, ofWord size⟩) :=
    Cursor.word_eq_ok_iff.2 ⟨rfl, rfl⟩
  have hsize : (Cursor.mk 4 (ofWord size)).word = .ok (size, ⟨8, []⟩) :=
    Cursor.word_eq_ok_iff.2 ⟨(List.append_nil _).symm, rfl⟩
  have ok_bind : ∀ {α β : Type} (a : α) (f : α → Except Malformed β), Except.ok a >>= f = f a :=
    fun _ _ => rfl
  rw [tagMapRegion, if_pos (Nat.lt_of_le_of_lt (Nat.le_add_right _ _) hspace), hregion, ok_bind,
    hstart, ok_bind]
  dsimp only
  rw [hsize, ok_bind]
  rfl

theorem tagMapRegion_of_describes (h : Describes r.base r.data slot start body)
    (hbase : r.base < UInt32.size) :
    r.tagMapRegion tagMapOffsets[slot] = .ok (if body = [] then none else some body) := by
  have hspace : r.base + tagMapOffsets[slot] + 2 * wordBytes < addressSpace := by
    have hoffset := offset_le_definitionSize slot
    have hsize : definitionSize < UInt32.size := by decide
    simp only [wordBytes]
    exact lt_addressSpace (by omega)
  rw [tagMapRegion_of_standsAt hspace h.described]
  by_cases hbody : body = []
  · rw [if_pos hbody, hbody]
    rfl
  · have hsize : (UInt32.ofNat body.length).toNat = body.length :=
      UInt32.toNat_ofNat_of_lt' h.length_lt
    have hne : UInt32.ofNat body.length ≠ 0 := by
      intro hzero
      rw [hzero] at hsize
      exact hbody (List.length_eq_zero_iff.1 hsize.symm)
    have hfits : start + body.length < addressSpace := by
      have hstart := h.start_lt
      have hlength := h.length_lt
      exact lt_addressSpace (by omega)
    rw [if_neg hne, if_neg hbody, UInt32.toNat_ofNat_of_lt' h.start_lt, hsize,
      Bytes.region_of_standsAt h.placed hfits]
    rfl

/-! ### Placing maps -/

/-- Puts a body behind everything and describes it in its slot. -/
def place (base : Nat) (data : List UInt8) (slot : MapSlot) (body : List UInt8) : List UInt8 :=
  Bytes.overwrite data (base + tagMapOffsets[slot]) (descriptor data.length body.length) ++ body

theorem descriptor_bound (hdata : base + definitionSize ≤ data.length) (slot : MapSlot)
    (start size : Nat) :
    base + tagMapOffsets[slot] + (descriptor start size).length ≤ data.length := by
  have := offset_le_definitionSize slot
  rw [length_descriptor]
  omega

theorem length_place (hdata : base + definitionSize ≤ data.length) :
    (place base data slot body).length = data.length + body.length := by
  rw [place, List.length_append, Bytes.length_overwrite (descriptor_bound hdata slot _ _)]

theorem describes_place (hdata : base + definitionSize ≤ data.length)
    (hstart : data.length < UInt32.size) (hbody : body.length < UInt32.size) :
    Describes base (place base data slot body) slot data.length body where
  described := (Bytes.standsAt_overwrite (descriptor_bound hdata slot _ _)).append body
  placed := by
    have h := Bytes.standsAt_append (Bytes.overwrite data (base + tagMapOffsets[slot])
      (descriptor data.length body.length)) body
    rwa [Bytes.length_overwrite (descriptor_bound hdata slot _ _)] at h
  behind := .inr hdata
  start_lt := hstart
  length_lt := hbody

theorem Describes.place (h : Describes base data other start part)
    (hdata : base + definitionSize ≤ data.length) (hne : slot ≠ other) :
    Describes base (place base data slot body) other start part where
  described := by
    have hapart := descriptors_apart slot other hne
    refine (h.described.overwrite (descriptor_bound hdata slot _ _) ?_).append body
    rw [length_descriptor, length_descriptor]
    omega
  placed := by
    have hoffset := offset_le_definitionSize slot
    rcases h.behind with rfl | hbehind
    · exact ⟨Nat.le_trans h.placed.bound (by rw [length_place hdata]; omega), nofun⟩
    · refine (h.placed.overwrite (descriptor_bound hdata slot _ _) (.inr ?_)).append body
      rw [length_descriptor]
      omega
  behind := h.behind
  start_lt := h.start_lt
  length_lt := h.length_lt

/-! ### Placing maps one after another -/

def placeAll (base : Nat) (data : List UInt8) (maps : List (MapSlot × List Line)) : List UInt8 :=
  maps.foldl (fun data (slot, lines) => place base data slot (mapBytes lines)) data

/-- Each map starts at an offset, and is of a length, that a descriptor can hold. -/
def FitsFrom : Nat → List (MapSlot × List Line) → Prop
  | _, [] => True
  | start, (_, lines) :: maps =>
    start < UInt32.size ∧ (mapBytes lines).length < UInt32.size ∧
      FitsFrom (start + (mapBytes lines).length) maps

variable {maps : List (MapSlot × List Line)} {lines : List Line}

theorem placeAll_cons (slot : MapSlot) (lines : List Line) :
    placeAll base data ((slot, lines) :: maps) =
      placeAll base (place base data slot (mapBytes lines)) maps := rfl

theorem Describes.placeAll (h : Describes base data slot start part)
    (hdata : base + definitionSize ≤ data.length) (hslot : slot ∉ maps.map Prod.fst) :
    Describes base (placeAll base data maps) slot start part := by
  induction maps generalizing data with
  | nil => exact h
  | cons first maps ih =>
    obtain ⟨other, lines⟩ := first
    rw [List.map_cons, List.mem_cons, not_or] at hslot
    rw [placeAll_cons]
    refine ih (h.place hdata (Ne.symm hslot.1)) ?_ hslot.2
    rw [length_place hdata]
    omega

theorem exists_describes_placeAll (hdata : base + definitionSize ≤ data.length)
    (hfits : FitsFrom data.length maps) (hdistinct : (maps.map Prod.fst).Nodup)
    (hmem : (slot, lines) ∈ maps) :
    ∃ start, Describes base (placeAll base data maps) slot start (mapBytes lines) := by
  induction maps generalizing data with
  | nil => cases hmem
  | cons first maps ih =>
    obtain ⟨other, otherLines⟩ := first
    obtain ⟨hstart, hlength, hrest⟩ := hfits
    rw [List.map_cons, List.nodup_cons] at hdistinct
    have hlonger : base + definitionSize ≤
        (Record.place base data other (mapBytes otherLines)).length := by
      rw [length_place hdata]
      omega
    rw [placeAll_cons]
    rcases List.mem_cons.1 hmem with heq | hmem
    · cases heq
      exact ⟨_, (describes_place hdata hstart hlength).placeAll hlonger hdistinct.1⟩
    · exact ih hlonger (by rwa [length_place hdata]) hdistinct.2 hmem

end Slots

/-! ### Whole records -/

/-- The tag maps of a record in the order in which they are put, each with the slot that describes
it, and the header before the definition. -/
structure Layout where
  header : List UInt8
  maps : List (MapSlot × List Line)
  distinct : (maps.map Prod.fst).Nodup
  header_lt : header.length < UInt32.size
  fits : FitsFrom (header.length + definitionSize) maps

namespace Layout

/-- The header and a definition that describes no map. -/
def blank (l : Layout) : List UInt8 := l.header ++ List.replicate definitionSize 0

def data (l : Layout) : List UInt8 := placeAll l.header.length l.blank l.maps

def record (l : Layout) (name : String) (id : UInt32) (details : List String) : Record :=
  ⟨name, id, l.data, l.header.length, details⟩

def lines (l : Layout) (slot : MapSlot) : List Line := (l.maps.lookup slot).getD []

variable (l : Layout)

theorem length_blank : l.blank.length = l.header.length + definitionSize := by
  rw [blank, List.length_append, List.length_replicate]

theorem describes_blank (slot : MapSlot) :
    Describes l.header.length l.blank slot 0 [] where
  described := by
    have hoffset := offset_le_definitionSize slot
    refine ⟨?_, fun i hi => ?_⟩
    · rw [length_descriptor, length_blank]
      omega
    · have hzero : descriptor 0 ([] : List UInt8).length = List.replicate 8 0 := rfl
      rw [length_descriptor] at hi
      rw [blank, List.getElem?_append_right (by omega), hzero,
        List.getElem?_replicate_of_lt (by omega), List.getElem?_replicate_of_lt hi]
  placed := ⟨Nat.zero_le _, nofun⟩
  behind := .inl rfl
  start_lt := by decide
  length_lt := by decide

/-- In the end each slot describes the map put under it, if there is one, and nothing otherwise. -/
theorem exists_describes_data (slot : MapSlot) :
    ∃ start, Describes l.header.length l.data slot start
      (((l.maps.lookup slot).map mapBytes).getD []) := by
  have hdata : l.header.length + definitionSize ≤ l.blank.length := Nat.le_of_eq l.length_blank.symm
  cases hlookup : l.maps.lookup slot with
  | none =>
    have hslot : slot ∉ l.maps.map Prod.fst := by
      intro hmem
      obtain ⟨found, hfound, rfl⟩ := List.mem_map.1 hmem
      exact absurd (List.lookup_eq_none_iff.1 hlookup found hfound) (by simp)
    exact ⟨0, (l.describes_blank slot).placeAll hdata hslot⟩
  | some lines =>
    obtain ⟨before, behind, hmaps, -⟩ := List.lookup_eq_some_iff.1 hlookup
    have hmem : (slot, lines) ∈ l.maps := by
      rw [hmaps]
      exact List.mem_append_right _ List.mem_cons_self
    exact exists_describes_placeAll hdata (l.length_blank ▸ l.fits) l.distinct hmem

theorem tagMap_record (name : String) (id : UInt32) (details : List String) (slot : MapSlot) :
    (l.record name id details).tagMap tagMapOffsets[slot] =
      .ok ((l.lines slot).map Line.entry) := by
  obtain ⟨start, hdescribes⟩ := l.exists_describes_data slot
  have hregion := tagMapRegion_of_describes (r := l.record name id details) hdescribes l.header_lt
  rw [tagMap_eq_ok_iff, lines]
  cases hlookup : l.maps.lookup slot with
  | none =>
    rw [hlookup] at hregion
    exact .inl ⟨hregion, rfl⟩
  | some lines =>
    rw [hlookup, Option.map_some, Option.getD_some] at hregion hdescribes
    have hne : mapBytes lines ≠ [] := by
      intro h
      have := TagMap.length_mapBytes lines
      rw [h, List.length_nil] at this
      omega
    rw [if_neg hne, ← List.append_nil (mapBytes lines)] at hregion
    exact .inr ⟨mapBytes lines, [], hregion, TagMap.isTagMap_mapBytes hdescribes.length_lt⟩

end Layout

end Record

end PowerFormulas
