import PowerFormulas.Proofs.Record.Bounds
import PowerFormulas.Proofs.Record.RoundTrip

/-!
# Where a record lies

Descriptors are found from the definition on and maps from the start of the record. If bytes come
before a record, its definition and its maps lie further on by so many bytes; once each descriptor
says so, the record decodes as before (`tagMapRegion_moved`). To write this into the descriptors
leaves the maps as they are where no map lies over a descriptor; maps may lie over each other.

No other bytes count than those of the descriptors and of the maps (`tagMapRegion_congr`).
-/

namespace PowerFormulas

theorem Bytes.region_congr {bytes changed : List UInt8} {offset length : Nat}
    (hlength : changed.length = bytes.length)
    (hsame : ∀ i, offset ≤ i → i < offset + length → changed[i]? = bytes[i]?) :
    region changed offset length = region bytes offset length := by
  have hpart : (changed.drop offset).take length = (bytes.drop offset).take length := by
    apply List.ext_getElem?
    intro i
    by_cases hi : i < length
    · rw [List.getElem?_take_of_lt hi, List.getElem?_take_of_lt hi, List.getElem?_drop,
        List.getElem?_drop]
      exact hsame _ (by omega) (by omega)
    · rw [List.getElem?_take_eq_none (by omega), List.getElem?_take_eq_none (by omega)]
  rw [region, region, hlength, hpart]

namespace Record

open Bytes (ofWord StandsAt)

/-- Where a tag map lies in the record. -/
structure Extent where
  start : UInt32
  size : UInt32

/-- What the descriptor at `offset` of the definition says; nothing if it is not in the record. -/
def extent (r : Record) (offset : Nat) : Extent :=
  match Bytes.words ((r.data.drop (r.base + offset)).take (2 * wordBytes)) with
  | [start, size] => ⟨start, size⟩
  | _ => ⟨0, 0⟩

/-- No map that is not empty lies over a descriptor. -/
def Apart (r : Record) : Prop :=
  ∀ offset ∈ tagMapOffsets, (r.extent offset).size ≠ 0 → ∀ other ∈ tagMapOffsets,
    (r.extent offset).start.toNat + (r.extent offset).size.toNat ≤ r.base + other ∨
      r.base + other + 2 * wordBytes ≤ (r.extent offset).start.toNat

/-- The byte is one of a descriptor or of a map that is not empty. -/
def Uses (r : Record) (i : Nat) : Prop :=
  ∃ offset ∈ tagMapOffsets,
    (r.base + offset ≤ i ∧ i < r.base + offset + 2 * wordBytes) ∨
      ((r.extent offset).start.toNat ≤ i ∧
        i < (r.extent offset).start.toNat + (r.extent offset).size.toNat)

instance (r : Record) : Decidable r.Apart :=
  inferInstanceAs (Decidable (∀ offset ∈ tagMapOffsets, _))

instance (r : Record) (i : Nat) : Decidable (r.Uses i) :=
  inferInstanceAs (Decidable (∃ offset ∈ tagMapOffsets, _))

/-- Adds `distance` to the offset of the map, unless the map is empty. -/
def shiftAt (r : Record) (distance : Nat) (data : List UInt8) (offset : Nat) : List UInt8 :=
  if (r.extent offset).size = 0 then data
  else Bytes.overwrite data (r.base + offset)
    (ofWord ((r.extent offset).start + UInt32.ofNat distance))

def shifted (r : Record) (distance : Nat) : List UInt8 :=
  tagMapOffsets.foldl (r.shiftAt distance) r.data

/-- The record between other bytes, its descriptors and its base adapted. -/
def moved (r : Record) (header trailer : List UInt8) : Record :=
  { r with
    data := header ++ r.shifted header.length ++ trailer
    base := header.length + r.base }

variable {r : Record} {offset place distance : Nat} {start size : UInt32} {offsets : List Nat}
  {data part header trailer : List UInt8} {es : Entries}

theorem extent_of_standsAt (h : StandsAt r.data (r.base + offset) (ofWord start ++ ofWord size)) :
    r.extent offset = ⟨start, size⟩ := by
  have hbytes : (r.data.drop (r.base + offset)).take (2 * wordBytes) =
      ofWord start ++ ofWord size := h.take_drop
  have hwords : Bytes.words (ofWord start ++ ofWord size) = [start, size] :=
    Bytes.words_flatMap_ofWord [start, size]
  rw [extent, hbytes, hwords]

/-! ### Adapting the descriptors -/

/-- The descriptors lie in the data. -/
def Within (r : Record) (offsets : List Nat) (data : List UInt8) : Prop :=
  ∀ offset ∈ offsets, r.base + offset + 2 * wordBytes ≤ data.length

theorem length_shiftAt (distance : Nat) (hbound : r.base + offset + 2 * wordBytes ≤ data.length) :
    (r.shiftAt distance data offset).length = data.length := by
  unfold shiftAt
  split
  · rfl
  · apply Bytes.length_overwrite
    simp only [Bytes.length_ofWord, wordBytes] at hbound ⊢
    omega

theorem length_foldl_shiftAt (distance : Nat) (h : r.Within offsets data) :
    (offsets.foldl (r.shiftAt distance) data).length = data.length := by
  induction offsets generalizing data with
  | nil => rfl
  | cons first rest ih =>
    obtain ⟨hfirst, hrest⟩ := List.forall_mem_cons.1 h
    have hlength := length_shiftAt distance hfirst
    rw [List.foldl_cons, ih (by simpa only [Within, hlength] using hrest), hlength]

/-- Bytes apart from a descriptor stay when it is adapted. -/
theorem standsAt_shiftAt (h : StandsAt data place part)
    (hbound : r.base + offset + 2 * wordBytes ≤ data.length)
    (hapart : place + part.length ≤ r.base + offset ∨ r.base + offset + 2 * wordBytes ≤ place) :
    StandsAt (r.shiftAt distance data offset) place part := by
  unfold shiftAt
  split
  · exact h
  · simp only [wordBytes] at hbound hapart
    apply h.overwrite <;> rw [Bytes.length_ofWord] <;> omega

theorem standsAt_foldl_shiftAt (h : StandsAt data place part) (hwithin : r.Within offsets data)
    (hapart : ∀ offset ∈ offsets,
      place + part.length ≤ r.base + offset ∨ r.base + offset + 2 * wordBytes ≤ place) :
    StandsAt (offsets.foldl (r.shiftAt distance) data) place part := by
  induction offsets generalizing data with
  | nil => exact h
  | cons first rest ih =>
    obtain ⟨hfirst, hrest⟩ := List.forall_mem_cons.1 hwithin
    obtain ⟨hapart, haparts⟩ := List.forall_mem_cons.1 hapart
    rw [List.foldl_cons]
    refine ih (standsAt_shiftAt h hfirst hapart) ?_ haparts
    simpa only [Within, length_shiftAt distance hfirst] using hrest

/-- The offset in the descriptor once it is adapted. -/
def shiftedStart (extent : Extent) (distance : Nat) : UInt32 :=
  if extent.size = 0 then extent.start else extent.start + UInt32.ofNat distance

theorem standsAt_shiftAt_self (hextent : r.extent offset = ⟨start, size⟩)
    (h : StandsAt data (r.base + offset) (ofWord start ++ ofWord size)) :
    StandsAt (r.shiftAt distance data offset) (r.base + offset)
      (ofWord (shiftedStart ⟨start, size⟩ distance) ++ ofWord size) := by
  rw [shiftAt, shiftedStart, hextent]
  dsimp only
  by_cases hsize : size = 0
  · rw [if_pos hsize, if_pos hsize]
    exact h
  · rw [if_neg hsize, if_neg hsize]
    obtain ⟨hstart, hrest⟩ := Bytes.standsAt_append_iff.1 h
    have hbound := hstart.bound
    rw [Bytes.length_ofWord] at hbound
    exact Bytes.standsAt_append_iff.2
      ⟨Bytes.standsAt_overwrite hbound, hrest.overwrite hbound (.inr (Nat.le_refl _))⟩

theorem tagMapOffsets_apart : tagMapOffsets.Pairwise fun a b => a + 2 * wordBytes ≤ b := by
  decide

/-- The other descriptors leave this one alone. -/
theorem standsAt_shifted_descriptor (distance : Nat) (hwithin : r.Within tagMapOffsets r.data)
    (hoffset : offset ∈ tagMapOffsets)
    (h : StandsAt r.data (r.base + offset) (ofWord start ++ ofWord size)) :
    StandsAt (r.shifted distance) (r.base + offset)
      (ofWord (shiftedStart ⟨start, size⟩ distance) ++ ofWord size) := by
  obtain ⟨before, behind, hsplit⟩ := List.append_of_mem hoffset
  have hapart := tagMapOffsets_apart
  rw [hsplit] at hwithin hapart
  obtain ⟨-, hapart, hbefore⟩ := List.pairwise_append.1 hapart
  have hbehind := (List.pairwise_cons.1 hapart).1
  obtain ⟨hwithinBefore, hwithinRest⟩ := List.forall_mem_append.1 hwithin
  rw [shifted, hsplit, List.foldl_append, List.foldl_cons]
  have hlength := length_foldl_shiftAt distance hwithinBefore
  -- the descriptors before this one end where it starts, those behind it start where it ends
  have hkept : StandsAt (before.foldl (r.shiftAt distance) r.data) (r.base + offset)
      (ofWord start ++ ofWord size) := by
    refine standsAt_foldl_shiftAt h hwithinBefore fun other hother => .inr ?_
    have := hbefore other hother offset List.mem_cons_self
    omega
  refine standsAt_foldl_shiftAt (standsAt_shiftAt_self (extent_of_standsAt h) hkept) ?_ ?_
  · intro other hother
    rw [length_shiftAt distance (hlength ▸ hwithinRest offset List.mem_cons_self), hlength]
    exact hwithinRest other (List.mem_cons_of_mem _ hother)
  · intro other hother
    have := hbehind other hother
    rw [List.length_append, Bytes.length_ofWord, Bytes.length_ofWord]
    simp only [wordBytes] at this
    omega

/-- What is found between the other bytes was found without them. -/
theorem standsAt_moved (trailer : List UInt8) (h : StandsAt (r.shifted header.length) place part) :
    StandsAt (r.moved header trailer).data (header.length + place) part :=
  (h.prepend header).append trailer

theorem standsAt_moved_descriptor (header trailer : List UInt8)
    (hwithin : r.Within tagMapOffsets r.data) (hoffset : offset ∈ tagMapOffsets)
    (h : StandsAt r.data (r.base + offset) (ofWord start ++ ofWord size)) :
    StandsAt (r.moved header trailer).data ((r.moved header trailer).base + offset)
      (ofWord (shiftedStart ⟨start, size⟩ header.length) ++ ofWord size) := by
  have hmoved := standsAt_moved trailer
    (standsAt_shifted_descriptor header.length hwithin hoffset h)
  rwa [← Nat.add_assoc] at hmoved

theorem tagMapRegion_moved {found : Option (List UInt8)}
    (h : r.tagMapRegion offset = .ok found) (hoffset : offset ∈ tagMapOffsets)
    (hwithin : r.Within tagMapOffsets r.data) (hapart : r.Apart)
    (hfits : (r.extent offset).size ≠ 0 →
      header.length + (r.extent offset).start.toNat < UInt32.size)
    (hdata : (r.moved header trailer).data.length < addressSpace) :
    (r.moved header trailer).tagMapRegion offset = .ok found := by
  obtain ⟨start, size, hdescriptor, hfound⟩ := exists_standsAt_of_tagMapRegion h
  have hmoved := standsAt_moved_descriptor header trailer hwithin hoffset hdescriptor
  have hapart := hapart offset hoffset
  rw [extent_of_standsAt hdescriptor] at hapart hfits
  rw [tagMapRegion_of_standsAt (Nat.lt_of_le_of_lt hmoved.bound hdata) hmoved, shiftedStart]
  rcases hfound with ⟨rfl, rfl⟩ | ⟨hsize, bytes, rfl, hlength, hstands⟩
  · rfl
  · have hplace : (start + UInt32.ofNat header.length).toNat = header.length + start.toNat := by
      have hlt : header.length + start.toNat < UInt32.size := hfits hsize
      rw [UInt32.toNat_add, UInt32.toNat_ofNat', Nat.add_mod_mod, Nat.add_comm,
        Nat.mod_eq_of_lt hlt]
    have hkept : StandsAt (r.shifted header.length) start.toNat bytes :=
      standsAt_foldl_shiftAt hstands hwithin (hlength ▸ hapart hsize)
    have hbytes := standsAt_moved trailer hkept
    dsimp only
    rw [if_neg hsize, if_neg hsize, hplace,
      (Bytes.region_eq_ok_iff_standsAt hdata).2 ⟨hlength, hbytes⟩]
    rfl

/-! ### Bytes that count -/

theorem tagMapRegion_congr (hoffset : offset ∈ tagMapOffsets)
    (hlength : data.length = r.data.length) (hsame : ∀ i, r.Uses i → data[i]? = r.data[i]?) :
    { r with data := data }.tagMapRegion offset = r.tagMapRegion offset := by
  have hdescriptor : Bytes.region data (r.base + offset) (2 * wordBytes) =
      Bytes.region r.data (r.base + offset) (2 * wordBytes) :=
    Bytes.region_congr hlength fun i hle hlt => hsame i ⟨offset, hoffset, .inl ⟨hle, hlt⟩⟩
  cases hregion : Bytes.region r.data (r.base + offset) (2 * wordBytes) with
  | error fault =>
    rw [tagMapRegion, tagMapRegion, hdescriptor, hregion]
    rfl
  | ok descriptor =>
    obtain ⟨hspace, -, -⟩ := Bytes.region_eq_ok_iff.1 hregion
    obtain ⟨start, size, rfl⟩ := exists_descriptor_of_length (Bytes.length_of_region hregion)
    have hstands := (Bytes.standsAt_of_region hregion).2
    have hchanged := (Bytes.standsAt_of_region (hdescriptor.trans hregion)).2
    have hsize : Bytes.region data start.toNat size.toNat =
        Bytes.region r.data start.toNat size.toNat := by
      refine Bytes.region_congr hlength fun i hle hlt => hsame i ⟨offset, hoffset, .inr ?_⟩
      rw [extent_of_standsAt hstands]
      exact ⟨hle, hlt⟩
    rw [tagMapRegion_of_standsAt hspace hstands,
      tagMapRegion_of_standsAt (r := { r with data := data }) hspace hchanged, hsize]

/-! ### Decoding -/

theorem decode_congr {other : Record} (hname : other.name = r.name)
    (hdetails : other.details = r.details)
    (h : ∀ offset ∈ tagMapOffsets, other.tagMapRegion offset = r.tagMapRegion offset) :
    other.decode = r.decode := by
  have hmaps : ∀ offset ∈ tagMapOffsets,
      (other.tagMap offset).mapError (Malformed.inTagMap other.name offset) =
        (r.tagMap offset).mapError (Malformed.inTagMap r.name offset) := by
    intro offset hoffset
    rw [tagMap, tagMap, h offset hoffset, hname]
  rw [decode, decode, mapM_congr hmaps, hdetails]

theorem exists_tagMapRegion_of_decode (h : r.decode = .ok es) (hoffset : offset ∈ tagMapOffsets) :
    ∃ found, r.tagMapRegion offset = .ok found := by
  obtain ⟨entries, hentries⟩ := exists_entries_of_decode h hoffset
  obtain ⟨found, hfound, -⟩ := bind_eq_ok_iff.1 hentries
  exact ⟨found, hfound⟩

theorem within_of_decode (h : r.decode = .ok es) : r.Within tagMapOffsets r.data := by
  intro offset hoffset
  obtain ⟨found, hfound⟩ := exists_tagMapRegion_of_decode h hoffset
  obtain ⟨start, size, -, hstands⟩ := exists_descriptor hfound
  exact hstands.bound

theorem decode_moved (h : r.decode = .ok es) (hapart : r.Apart)
    (hfits : ∀ offset ∈ tagMapOffsets, (r.extent offset).size ≠ 0 →
      header.length + (r.extent offset).start.toNat < UInt32.size)
    (hdata : (r.moved header trailer).data.length < addressSpace) :
    (r.moved header trailer).decode = .ok es := by
  rw [← h]
  refine decode_congr rfl rfl fun offset hoffset => ?_
  obtain ⟨found, hfound⟩ := exists_tagMapRegion_of_decode h hoffset
  rw [hfound, tagMapRegion_moved hfound hoffset (within_of_decode h) hapart (hfits offset hoffset)
    hdata]

theorem extent_moved (header trailer : List UInt8) (h : r.decode = .ok es)
    (hoffset : offset ∈ tagMapOffsets) : (r.moved header trailer).extent offset =
      ⟨shiftedStart (r.extent offset) header.length, (r.extent offset).size⟩ := by
  obtain ⟨found, hfound⟩ := exists_tagMapRegion_of_decode h hoffset
  obtain ⟨start, size, -, hstands⟩ := exists_descriptor hfound
  rw [extent_of_standsAt hstands]
  exact extent_of_standsAt
    (standsAt_moved_descriptor header trailer (within_of_decode h) hoffset hstands)

/-! ### Main statement -/

/-- A record that decodes, in which no map lies over a descriptor, decodes to the same between other
bytes; each descriptor then says where its map has come to lie. There must not be too many bytes:
each adapted offset is still a word, and all of them can be addressed, which those in memory can. No
byte counts but those of the descriptors and of the maps, whether the record decodes or not. -/
theorem decode_is_independent_of_place (r : Record) :
    (∀ es header trailer, r.decode = .ok es → r.Apart →
      (∀ offset ∈ tagMapOffsets, (r.extent offset).size ≠ 0 →
        header.length + (r.extent offset).start.toNat < UInt32.size) →
      (r.moved header trailer).data.length < addressSpace →
      (r.moved header trailer).decode = .ok es ∧
        ∀ offset ∈ tagMapOffsets, (r.moved header trailer).extent offset =
          ⟨shiftedStart (r.extent offset) header.length, (r.extent offset).size⟩) ∧
    ∀ data : List UInt8, data.length = r.data.length →
      (∀ i, r.Uses i → data[i]? = r.data[i]?) →
      { r with data := data }.decode = r.decode := by
  constructor
  · intro es header trailer hdecode hapart hfits hdata
    exact ⟨decode_moved hdecode hapart hfits hdata, fun _ => extent_moved header trailer hdecode⟩
  · intro data hlength hsame
    exact decode_congr rfl rfl fun _ hoffset => tagMapRegion_congr hoffset hlength hsame

theorem kick_decodes_between_other_bytes :
    let r := Layout.twoMaps.record "Kick" 12 []
    ∃ es, r.decode = .ok es ∧ (r.moved [9, 9, 9] [7]).decode = .ok es ∧
      { r with data := r.data.set 0 77 }.decode = .ok es := by
  intro r
  obtain ⟨hmoved, hchanged⟩ := decode_is_independent_of_place r
  have hdecode := Layout.twoMaps.decode_record "Kick" 12 []
  refine ⟨_, hdecode, ?_, ?_⟩
  · exact (hmoved _ [9, 9, 9] [7] hdecode (by decide +kernel) (by decide +kernel)
      (by decide +kernel)).1
  · rw [← hdecode]
    refine hchanged _ List.length_set fun i hi => List.getElem?_set_ne ?_
    rintro rfl
    exact absurd hi (by decide +kernel)

end Record

end PowerFormulas
