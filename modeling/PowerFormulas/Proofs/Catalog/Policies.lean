import PowerFormulas.Proofs.Catalog.Clashes
import PowerFormulas.Proofs.Text.ByteOrder

/-!
# What to do with keys that are no numbers

To skip definitions whose keys denote no id is to load the others alone, so a load that would be
aborted for such a key and one that skips it differ in nothing else. A load is aborted for the first
key that denotes no id, and not before the definitions in front of it have been taken in
(`policies_differ_in_keys_alone`).
-/

namespace PowerFormulas

/-- The definitions whose keys denote ids. -/
def TagDefinitions.numeric (definitions : TagDefinitions) : TagDefinitions :=
  definitions.filter fun key _ => (Catalog.keyId? key).isSome

namespace Catalog

open Text.Utf8 (encoding)

variable {c c' : Catalog} {policy : BadIdPolicy} {list earlier later : List (String × TagDef)}
  {definitions : TagDefinitions} {balance : List BalanceRow} {key other : String} {tag : TagDef}

/-! ### Definitions one after another -/

theorem defineAll_cons_of_some {id : UInt32} (hkey : keyId? key = some id) :
    c.defineAll policy ((key, tag) :: list) = c.define id tag >>= (defineAll policy · list) := by
  simp only [defineAll, hkey]

theorem defineAll_skip_cons_of_none (hkey : keyId? key = none) :
    c.defineAll .skip ((key, tag) :: list) = c.defineAll .skip list := by
  simp only [defineAll, hkey]

theorem defineAll_abort_cons_of_none (hkey : keyId? key = none) :
    c.defineAll .abort ((key, tag) :: list) = .error (.unparsableId key) := by
  simp only [defineAll, hkey]

theorem defineAll_append (policy : BadIdPolicy) (c : Catalog) (a b : List (String × TagDef)) :
    c.defineAll policy (a ++ b) = c.defineAll policy a >>= (defineAll policy · b) := by
  induction a generalizing c with
  | nil => rfl
  | cons d rest ih =>
    obtain ⟨key, tag⟩ := d
    rw [List.cons_append]
    cases hkey : keyId? key with
    | some id =>
      rw [defineAll_cons_of_some hkey, defineAll_cons_of_some hkey, bind_assoc]
      exact bind_congr fun c => ih c
    | none =>
      cases policy with
      | skip =>
        rw [defineAll_skip_cons_of_none hkey, defineAll_skip_cons_of_none hkey, ih]
      | abort =>
        rw [defineAll_abort_cons_of_none hkey, defineAll_abort_cons_of_none hkey]
        rfl

theorem defineAll_skip (c : Catalog) (list : List (String × TagDef)) :
    c.defineAll .skip list = c.defineAll .abort (list.filter fun d => (keyId? d.1).isSome) := by
  induction list generalizing c with
  | nil => rfl
  | cons d rest ih =>
    obtain ⟨key, tag⟩ := d
    cases hkey : keyId? key with
    | some id =>
      rw [List.filter_cons_of_pos (by simp [hkey]), defineAll_cons_of_some hkey,
        defineAll_cons_of_some hkey]
      exact bind_congr fun c => ih c
    | none =>
      rw [List.filter_cons_of_neg (by simp [hkey]), defineAll_skip_cons_of_none hkey, ih]

/-- Loading is aborted where the definitions before have been taken in. -/
theorem defineAll_abort_eq_unparsableId_iff :
    c.defineAll .abort list = .error (.unparsableId key) ↔
      ∃ earlier tag later c', list = earlier ++ (key, tag) :: later ∧ keyId? key = none ∧
        c.defineAll .abort earlier = .ok c' := by
  constructor
  · intro h
    induction list generalizing c with
    | nil => cases h
    | cons d rest ih =>
      obtain ⟨first, tag⟩ := d
      cases hkey : keyId? first with
      | none =>
        rw [defineAll_abort_cons_of_none hkey] at h
        cases h
        exact ⟨[], tag, rest, c, rfl, hkey, rfl⟩
      | some id =>
        rw [defineAll_cons_of_some hkey] at h
        cases hdefine : c.define id tag with
        | error fault =>
          rw [hdefine] at h
          obtain ⟨found, _, _, rfl⟩ := define_eq_error_iff.1 hdefine
          cases h
        | ok c₁ =>
          rw [hdefine] at h
          obtain ⟨earlier, tag', later, c', rfl, hnone, hearlier⟩ := ih h
          refine ⟨(first, tag) :: earlier, tag', later, c', rfl, hnone, ?_⟩
          rw [defineAll_cons_of_some hkey, hdefine]
          exact hearlier
  · intro h
    obtain ⟨earlier, tag, later, c', rfl, hkey, hearlier⟩ := h
    rw [defineAll_append, hearlier]
    exact defineAll_abort_cons_of_none hkey

theorem keys_of_defineAll_abort (h : c.defineAll .abort list = .ok c') :
    ∀ d ∈ list, (keyId? d.1).isSome := by
  intro d hd
  obtain ⟨earlier, later, rfl⟩ := List.append_of_mem hd
  rw [defineAll_append] at h
  cases hkey : keyId? d.1 with
  | some id => rfl
  | none =>
    cases hearlier : c.defineAll .abort earlier with
    | error fault =>
      rw [hearlier] at h
      cases h
    | ok c₁ =>
      rw [hearlier] at h
      have hrest : c₁.defineAll .abort (d :: later) = .ok c' := h
      rw [defineAll_abort_cons_of_none hkey] at hrest
      cases hrest

theorem defineAll_skip_of_abort (h : c.defineAll .abort list = .ok c') :
    c.defineAll .skip list = .ok c' := by
  rw [defineAll_skip, List.filter_eq_self.2 (keys_of_defineAll_abort h), h]

/-! ### Loading -/

theorem exists_load_iff : (∃ c, load policy definitions balance = .ok c) ↔
    ∃ c, empty.defineAll policy definitions.toList = .ok c := by
  unfold load
  cases empty.defineAll policy definitions.toList with
  | error fault => exact ⟨nofun, nofun⟩
  | ok c => exact ⟨fun _ => ⟨c, rfl⟩, fun _ => ⟨_, rfl⟩⟩

theorem load_skip (definitions : TagDefinitions) (balance : List BalanceRow) :
    load .skip definitions balance = load .abort definitions.numeric balance := by
  rw [load, load, defineAll_skip, TagDefinitions.numeric, Std.ExtTreeMap.toList_filter]

theorem isSome_keyId?_of_mem_numeric (h : key ∈ definitions.numeric) : (keyId? key).isSome := by
  obtain ⟨tag, htag⟩ := mem_definitions_iff.1 h
  rw [TagDefinitions.numeric, Std.ExtTreeMap.toList_filter] at htag
  exact (List.mem_filter.1 htag).2

theorem duplicate_of_load_skip {fault : Error}
    (h : load .skip definitions balance = .error fault) :
    ∃ name first second, fault = .duplicateName name first second := by
  rw [load_skip, load_eq_error_iff] at h
  refine duplicate_of_error (fun d hd => ?_) h
  exact isSome_keyId?_of_mem_numeric (mem_definitions_iff.2 ⟨d.2, hd⟩)

theorem load_skip_of_abort (h : load .abort definitions balance = .ok c) :
    load .skip definitions balance = .ok c := by
  unfold load at h ⊢
  cases hdefine : empty.defineAll .abort definitions.toList with
  | error fault =>
    rw [hdefine] at h
    cases h
  | ok c₀ =>
    rw [hdefine] at h
    rw [defineAll_skip_of_abort hdefine]
    exact h

theorem load_abort_eq_unparsableId_iff :
    load .abort definitions balance = .error (.unparsableId key) ↔
      key ∈ definitions ∧ keyId? key = none ∧
        ∃ c, load .abort (definitions.before key) balance = .ok c := by
  rw [load_eq_error_iff, defineAll_abort_eq_unparsableId_iff, exists_load_iff]
  constructor
  · intro h
    obtain ⟨earlier, tag, later, c, hlist, hkey, hearlier⟩ := h
    refine ⟨?_, hkey, c, by rw [toList_before hlist, hearlier]⟩
    rw [mem_definitions_iff, hlist]
    exact ⟨tag, List.mem_append_right _ List.mem_cons_self⟩
  · intro h
    obtain ⟨hmem, hkey, c, hbefore⟩ := h
    obtain ⟨tag, htag⟩ := mem_definitions_iff.1 hmem
    obtain ⟨earlier, later, hlist⟩ := List.append_of_mem htag
    rw [toList_before hlist] at hbefore
    exact ⟨earlier, tag, later, c, hlist, hkey, hbefore⟩

/-- Where the definitions before a key can be loaded, their keys denote ids. -/
theorem encoding_le_of_load_before (h : load .abort (definitions.before key) balance = .ok c)
    (hmem : other ∈ definitions) (hnone : keyId? other = none) :
    encoding key ≤ encoding other := by
  intro hlt
  have hother : other ∈ definitions.before key :=
    mem_before_iff.2 ⟨hmem, Text.Utf8.encoding_lt_encoding_iff.1 hlt⟩
  obtain ⟨tag, htag⟩ := mem_definitions_iff.1 hother
  obtain ⟨c₀, hdefine⟩ := exists_load_iff.1 ⟨c, h⟩
  have hsome := keys_of_defineAll_abort hdefine _ htag
  rw [hnone] at hsome
  cases hsome

/-! ### Main statement -/

/-- Skipping gives what the definitions with numeric keys give, and if loading is not aborted, the
two policies give one catalog. It is aborted for a key just if this is the first one, in the order
of bytes, that denotes no id, and the definitions before it can be loaded. -/
theorem policies_differ_in_keys_alone (definitions : TagDefinitions)
    (balance : List BalanceRow) :
    load .skip definitions balance = load .abort definitions.numeric balance ∧
    (∀ fault, load .skip definitions balance = .error fault →
      ∃ name first second, fault = .duplicateName name first second) ∧
    (∀ c, load .abort definitions balance = .ok c → load .skip definitions balance = .ok c) ∧
    ∀ key, load .abort definitions balance = .error (.unparsableId key) ↔
      key ∈ definitions ∧ keyId? key = none ∧
      (∀ other ∈ definitions, keyId? other = none → encoding key ≤ encoding other) ∧
      ∃ c, load .abort (definitions.before key) balance = .ok c := by
  refine ⟨load_skip definitions balance, fun _ => duplicate_of_load_skip,
    fun _ => load_skip_of_abort, fun key => ?_⟩
  rw [load_abort_eq_unparsableId_iff]
  constructor
  · intro h
    obtain ⟨hmem, hkey, c, hbefore⟩ := h
    exact ⟨hmem, hkey, fun _ => encoding_le_of_load_before hbefore, c, hbefore⟩
  · intro h
    obtain ⟨hmem, hkey, _, hbefore⟩ := h
    exact ⟨hmem, hkey, hbefore⟩

/-- Letters with accents come behind all others. -/
theorem loading_is_aborted_for_eight :
    let definitions : TagDefinitions := .ofList [("élan", TagDef.mk "Speed" "S"),
      ("eight", TagDef.mk "Bite" "B"), ("7", TagDef.mk "Damage" "D")]
    load .abort definitions [] = .error (.unparsableId "eight") ∧
      encoding "eight" ≤ encoding "élan" ∧
      (∃ c, load .abort (definitions.before "eight") [] = .ok c) ∧
      load .skip definitions [] = load .abort definitions.numeric [] := by
  intro definitions
  obtain ⟨hskip, -, -, hfirst⟩ := policies_differ_in_keys_alone definitions []
  have hload : load .abort definitions [] = .error (.unparsableId "eight") := by decide +kernel
  obtain ⟨-, -, hleast, hbefore⟩ := (hfirst "eight").1 hload
  exact ⟨hload, hleast "élan" (by decide +kernel) (by decide +kernel), hbefore, hskip⟩

end Catalog

end PowerFormulas
