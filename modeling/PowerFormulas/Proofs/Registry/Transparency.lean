import Mathlib.Control.Monad.Basic
import PowerFormulas.Proofs.Registry.Coherence
import PowerFormulas.Proofs.Registry.Invariants

/-!
# What is kept does not show

Over a coherent source a lookup answers, whatever has been asked before, as one that loads and
decodes afresh; only the progress of scripts tells that a power has been kept
(`get_agrees_with_source`).
-/

namespace PowerFormulas

namespace Power

theorem entries_of_decode {record : Record} {p : Power} (h : decode record = .ok p) :
    p.name = record.name ∧ p.id = record.id ∧ record.decode = .ok p.entries := by
  unfold decode at h
  cases hrecord : record.decode with
  | error fault =>
    rw [hrecord] at h
    cases h
  | ok entries =>
    rw [hrecord] at h
    cases h
    exact ⟨rfl, rfl, rfl⟩

end Power

namespace Library

variable {l : Library} {name : String} {p : Power}

theorem decode_eq_some_iff {decoded : Except Malformed Power} :
    l.decode name = some decoded ↔
      ∃ record, l.source.load name = some record ∧ Power.decode record = decoded := by
  rw [decode, Option.map_eq_some_iff]

theorem decode_eq_none_iff : l.decode name = none ↔ l.source.load name = none := by
  rw [decode, Option.map_eq_none_iff]

theorem decode_own_name (hl : l.source.Coherent) (h : l.decode name = some (.ok p)) :
    l.decode p.name = some (.ok p) := by
  obtain ⟨record, hload, hdecode⟩ := decode_eq_some_iff.1 h
  rw [(Power.entries_of_decode hdecode).1]
  exact decode_eq_some_iff.2 ⟨record, hl name record hload, hdecode⟩

end Library

namespace Registry

/-- The answer is what comes of decoding, up to the progress of scripts. -/
inductive Agrees : Option (Except Malformed Power) → Except Malformed (Option Power) → Prop where
  | missing : Agrees none (.ok none)
  | failed (fault : Malformed) : Agrees (some (.error fault)) (.error fault)
  | found {p₀ p : Power} : p₀.Later p → Agrees (some (.ok p₀)) (.ok (some p))

namespace Agrees

variable {decoded : Option (Except Malformed Power)} {answer : Except Malformed (Option Power)}

theorem eq_none_iff (h : Agrees decoded answer) : answer = .ok none ↔ decoded = none := by
  cases h <;> simp

theorem eq_error_iff (h : Agrees decoded answer) (fault : Malformed) :
    answer = .error fault ↔ decoded = some (.error fault) := by
  cases h <;> simp

theorem exists_of_ok {p₀ : Power} (h : Agrees (some (.ok p₀)) answer) :
    ∃ p, answer = .ok (some p) ∧ p₀.Later p := by
  cases h with
  | found hlater => exact ⟨_, rfl, hlater⟩

end Agrees

variable {l : Library} {r : Registry} {name key : String} {p : Power}

/-- A kept power is a later form of what its name decodes to. -/
theorem later_of_kept (hl : l.source.Coherent) (hr : Consistent r) (hs : Sourced l r)
    (hp : r.powers[key]? = some p) : ∃ p₀, l.decode key = some (.ok p₀) ∧ p₀.Later p := by
  obtain ⟨n, p₀, hn, hlater⟩ := hs.kept_from hp
  have hown := Library.decode_own_name hl hn
  rw [← hlater.name, hr.kept_name hp] at hown
  exact ⟨p₀, hown, hlater⟩

theorem agrees_of_cached (hl : l.source.Coherent) (hr : Consistent r) (hs : Sourced l r)
    (hp : r.powers[r.canonical name]? = some p) : Agrees (l.decode name) (.ok (some p)) := by
  obtain ⟨p₀, hkey, hlater⟩ := later_of_kept hl hr hs hp
  rw [canonical, Std.ExtTreeMap.getD_eq_getD_getElem?] at hkey
  cases halias : r.aliases[name]? with
  | none =>
    rw [halias] at hkey
    have hname : l.decode name = some (.ok p₀) := hkey
    rw [hname]
    exact .found hlater
  | some key =>
    -- the name decodes to a power of the alias's name, which loads the same record
    rw [halias, Option.getD_some] at hkey
    obtain ⟨p₁, hname, rfl⟩ := hs.alias_from halias
    have hown := Library.decode_own_name hl hname
    rw [hkey] at hown
    cases hown
    rw [hname]
    exact .found hlater

theorem agrees_get (hl : l.source.Coherent) (hr : Consistent r) (hs : Sourced l r)
    (name : String) : Agrees (l.decode name) (r.get l name).1 := by
  obtain ⟨answer, r', hgot⟩ := exists_got l name r
  rw [hgot.eq_get]
  cases hgot with
  | cached hp => exact agrees_of_cached hl hr hs hp
  | missing _ hdecode =>
    rw [hdecode]
    exact .missing
  | failed _ hdecode =>
    rw [hdecode]
    exact .failed _
  | known _ hdecode hlive =>
    obtain ⟨p₁, hkey, hlater⟩ := later_of_kept hl hr hs hlive
    rw [Library.decode_own_name hl hdecode] at hkey
    cases hkey
    rw [hdecode]
    exact .found hlater
  | decoded _ hdecode _ =>
    rw [hdecode]
    exact .found (.refl _)

/-- Sources in memory are coherent, and so are those that bring names to a common form, such as lower
case. Over a coherent source, whatever has been asked before, there is no power of a name just if the
source has no record for it, a fault just if this record cannot be decoded, and otherwise the power
that it decodes to with the progress that its scripts have made. -/
theorem get_agrees_with_source :
    (∀ records : List Record, (RecordStore.ofList records).toSource.Coherent) ∧
    (∀ (s : Source) (fold : String → String) (table : String → Option Record),
      (∀ key record, table key = some record → fold record.name = key) →
      (∀ name, s.load name = table (fold name)) → s.Coherent) ∧
    ∀ l : Library, l.source.Coherent → ∀ (ops : List Operation) (name : String),
      let answer := ((empty.after l ops).get l name).1
      (answer = .ok none ↔ l.source.load name = none) ∧
      (∀ fault, answer = .error fault ↔
        ∃ record, l.source.load name = some record ∧ Power.decode record = .error fault) ∧
      ∀ record p₀, l.source.load name = some record → Power.decode record = .ok p₀ →
        ∃ p, answer = .ok (some p) ∧ p.name = record.name ∧ p.id = record.id ∧
          ∀ tag : UInt32, Option.Rel Entry.SameFormula p₀.entries[tag]? p.entries[tag]? := by
  refine ⟨RecordStore.coherent_toSource, fun _ => Source.coherent_of_fold, ?_⟩
  intro l hl ops name answer
  have hagrees : Agrees (l.decode name) answer :=
    agrees_get hl (consistent_after l ops) (sourced_after l ops) name
  refine ⟨?_, ?_, ?_⟩
  · rw [← Library.decode_eq_none_iff]
    exact hagrees.eq_none_iff
  · intro fault
    rw [← Library.decode_eq_some_iff]
    exact hagrees.eq_error_iff fault
  · intro record p₀ hload hdecode
    have hname : l.decode name = some (.ok p₀) :=
      Library.decode_eq_some_iff.2 ⟨record, hload, hdecode⟩
    rw [hname] at hagrees
    obtain ⟨p, hp, hlater⟩ := hagrees.exists_of_ok
    obtain ⟨hrecord, hid, -⟩ := Power.entries_of_decode hdecode
    exact ⟨p, hp, hlater.name.trans hrecord, hlater.id.trans hid, hlater.entries.sameFormula⟩

/-- "Jab" is found in any case, and its script stays what it is, whatever is asked. -/
theorem jab_is_found_in_any_case :
    let map : List UInt32 := [1, 4, 1, 0, 0, 0, 0, 0, 0, 0, 8, 1, 7]
    let record : Record := ⟨"Jab", 5, List.replicate 8 0 ++ [0xB0, 52].flatMap Bytes.ofWord ++
      List.replicate 0xA0 0 ++ map.flatMap Bytes.ofWord, 0, []⟩
    let l : Library := ⟨⟨fun name => [record].find? fun r => r.name.toLower = name.toLower,
      fun _ => none, ["Jab"]⟩, Catalog.empty, []⟩
    l.source.Coherent ∧ ∀ ops : List Operation, ∃ p progress,
      ((empty.after l ops).get l "JAB").1 = .ok (some p) ∧ p.name = "Jab" ∧ p.id = 5 ∧
        p.entries[(1 : UInt32)]? = some (.script ⟨[1, 7], ""⟩ "" progress) := by
  intro map record l
  have hcoherent : l.source.Coherent := by
    refine get_agrees_with_source.2.1 l.source String.toLower
      (fun key => [record].find? fun r => r.name.toLower = key) ?_ fun name => rfl
    intro key r h
    have hfold := List.find?_some h
    exact of_decide_eq_true hfold
  refine ⟨hcoherent, fun ops => ?_⟩
  have hcase : "Jab".toLower = "JAB".toLower := by
    change "Jab".map Char.toLower = "JAB".map Char.toLower
    rw [← String.toList_inj, String.toList_map, String.toList_map]
    decide +kernel
  have hload : l.source.load "JAB" = some record :=
    List.find?_cons_of_pos (p := fun r : Record => r.name.toLower = "JAB".toLower)
      (decide_eq_true hcase)
  have hdecode : Power.decode record = .ok
      ⟨"Jab", 5, .ofList [((1 : UInt32), Entry.ofScript ⟨[1, 7], ""⟩)]⟩ := by
    decide +kernel
  obtain ⟨p, hp, hname, hid, hentries⟩ :=
    (get_agrees_with_source.2.2 l hcoherent ops "JAB").2.2 record _ hload hdecode
  have hscript := hentries 1
  have hone : (Std.ExtTreeMap.ofList [((1 : UInt32), Entry.ofScript ⟨[1, 7], ""⟩)] :
      Entries)[(1 : UInt32)]? = some (.script ⟨[1, 7], ""⟩ "" .unevaluated) := by
    decide +kernel
  rw [hone] at hscript
  obtain ⟨e, he, hsame⟩ := rel_some_left_iff.1 hscript
  cases hsame with
  | script _ _ _ progress => exact ⟨p, progress, hp, hname, hid, he⟩

end Registry

end PowerFormulas
