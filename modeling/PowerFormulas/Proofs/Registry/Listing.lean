import Mathlib.Control.Monad.Basic
import PowerFormulas.Proofs.Dump.RoundTrip
import PowerFormulas.Proofs.Registry.Failures
import PowerFormulas.Proofs.Registry.Stability
import PowerFormulas.Proofs.Registry.Transparency

/-!
# Dumps of all powers

Over a coherent source a dump of all powers does not depend on what has been asked before,
evaluations aside. It shows each listed name that has a record, and fails just if one of these
records cannot be decoded; made once more it is the same, with only the missing names loaded again
(`dumpAll_shows_listed_powers`).
-/

namespace PowerFormulas

/-- The fault in the record that a name loads. -/
def Library.fault? (l : Library) (name : String) : Option Malformed :=
  match l.decode name with
  | some (.error fault) => some fault
  | _ => none

theorem Library.fault?_eq_some_iff {l : Library} {name : String} {fault : Malformed} :
    l.fault? name = some fault ↔ l.decode name = some (.error fault) := by
  unfold fault?
  split
  · rename_i heq
    rw [heq]
    simp
  · rename_i hne
    refine ⟨nofun, fun h => absurd h (hne fault)⟩

/-- The tags show what is done by its value and what is not by its script; of tags that share a raw
name the one with the greatest id is shown. -/
def Power.ShownBy (c : Catalog) (p : Power) (tags : TagDumps) : Prop :=
  ∀ (id : UInt32) (e : Entry), p.entries[id]? = some e →
    (∀ other, id < other → other ∈ p.entries → c.rawLabel other ≠ c.rawLabel id) →
    (∀ value, e.progress = .done value →
      tags[c.rawLabel id]? = some (.value value.toUInt32)) ∧
    ((∀ value, e.progress ≠ .done value) →
      tags[c.rawLabel id]? = some (.script ⟨e.source, e.code, e.comment⟩))

theorem TagDump.ofEntry_of_done {e : Entry} {value : Int32} (h : e.progress = .done value) :
    ofEntry e = .value value.toUInt32 := by
  have hvalue : e.value? = some value := by
    rw [Entry.value?, h]
  rw [ofEntry, hvalue]

theorem TagDump.ofEntry_of_not_done {e : Entry} (h : ∀ value, e.progress ≠ .done value) :
    ofEntry e = .script ⟨e.source, e.code, e.comment⟩ := by
  cases e with
  | constant value => exact absurd rfl (h value)
  | script body comment progress => exact ofEntry_script h

theorem Power.shownBy_dump (c : Catalog) (p : Power) : p.ShownBy c (p.dump c) := by
  intro id e he hlast
  rw [getElem?_dump he hlast]
  refine ⟨fun value h => ?_, fun h => ?_⟩
  · rw [TagDump.ofEntry_of_done h]
  · rw [TagDump.ofEntry_of_not_done h]

namespace Registry

variable {l : Library} {r r' : Registry} {name key : String} {p : Power}
  {names : List String} {dumps out : PowerDumps}

/-! ### Powers that are kept -/

/-- The kept power that a name leads to. -/
def kept? (r : Registry) (name : String) : Option Power := r.powers[r.canonical name]?

theorem kept?_counted (n : Nat) (r : Registry) (name : String) :
    (r.counted n).kept? name = r.kept? name := rfl

theorem kept?_of_get (hr : Consistent r) (h : (r.get l name).1 = .ok (some p)) :
    (r.get l name).2.kept? name = some p := by
  have hgot := got_get l name r
  rw [h] at hgot
  obtain ⟨hleads, hkept⟩ := hgot.leads hr
  rw [kept?, hleads]
  exact hkept

theorem kept?_get (h : r.kept? key = some p) (name : String) :
    (r.get l name).2.kept? key = some p := by
  have hgot := got_get l name r
  rw [kept?, canonical_step (isCached_of_powers h) (.got hgot)]
  exact hgot.spares.powers h

theorem kept?_dumpNames (h : r.kept? key = some p) :
    (r.dumpNames l names dumps).2.kept? key = some p := by
  induction names generalizing r dumps with
  | nil => exact h
  | cons name rest ih =>
    have hget : (r.get l name).2.kept? key = some p := kept?_get h name
    cases hanswer : (r.get l name).1 with
    | error fault =>
      rw [dumpNames_of_error hanswer]
      exact hget
    | ok p? =>
      rw [dumpNames_of_ok hanswer]
      exact ih hget

/-! ### One dump -/

theorem getElem?_withDump (p? : Option Power) :
    (withDump l name p? dumps)[key]? =
      if name = key then (p?.map fun p => p.powerDump l.catalog).or dumps[key]?
      else dumps[key]? := by
  cases p? with
  | none =>
    show dumps[key]? = _
    rw [Option.map_none, Option.none_or, ite_self]
  | some p =>
    show (dumps.insert name (p.powerDump l.catalog))[key]? = _
    simp [Std.ExtTreeMap.getElem?_insert]

theorem Agrees.exists_of_found {decoded : Option (Except Malformed Power)}
    (h : Agrees decoded (.ok (some p))) : ∃ p₀, decoded = some (.ok p₀) ∧ p₀.Later p := by
  cases h with
  | found hlater => exact ⟨_, rfl, hlater⟩

section Coherent

variable (hl : l.source.Coherent)

include hl

theorem decode_eq_none_of_get (hr : Consistent r) (hs : Sourced l r)
    (h : (r.get l name).1 = .ok none) : l.decode name = none :=
  (agrees_get hl hr hs name).eq_none_iff.1 h

theorem kept?_eq_none (hr : Consistent r) (hs : Sourced l r) (h : l.decode name = none) :
    r.kept? name = none := by
  cases hkept : r.kept? name with
  | none => rfl
  | some p =>
    have hagrees := agrees_of_cached hl hr hs hkept
    rw [h] at hagrees
    cases hagrees

theorem dumpNames_eq_error_iff (hr : Consistent r) (hs : Sourced l r) {fault : Malformed} :
    (r.dumpNames l names dumps).1 = .error fault ↔
      names.findSome? l.fault? = some fault := by
  induction names generalizing r dumps with
  | nil => exact ⟨nofun, nofun⟩
  | cons name rest ih =>
    have hgot := got_get l name r
    have hr' : Consistent (r.get l name).2 := hr.step (.got hgot)
    have hs' : Sourced l (r.get l name).2 := hs.step (.got hgot)
    have hagrees : Agrees (l.decode name) (r.get l name).1 := agrees_get hl hr hs name
    cases hanswer : (r.get l name).1 with
    | error cause =>
      have hfault : l.fault? name = some cause :=
        Library.fault?_eq_some_iff.2 ((hagrees.eq_error_iff cause).1 hanswer)
      rw [dumpNames_of_error hanswer, List.findSome?_cons, hfault]
      simp
    | ok p? =>
      have hfault : l.fault? name = none := by
        cases hname : l.fault? name with
        | none => rfl
        | some cause =>
          have herror := (hagrees.eq_error_iff cause).2 (Library.fault?_eq_some_iff.1 hname)
          rw [hanswer] at herror
          cases herror
      rw [dumpNames_of_ok hanswer, List.findSome?_cons, hfault]
      exact ih hr' hs'

/-- Each name that is gone through leads to a kept power then, or has no record. -/
theorem decode_eq_none_of_dumpNames (hr : Consistent r) (hs : Sourced l r)
    (h : (r.dumpNames l names dumps).1 = .ok out) (hkey : key ∈ names)
    (hnone : (r.dumpNames l names dumps).2.kept? key = none) : l.decode key = none := by
  induction names generalizing r dumps with
  | nil => cases hkey
  | cons name rest ih =>
    have hgot := got_get l name r
    cases hanswer : (r.get l name).1 with
    | error fault =>
      rw [dumpNames_of_error hanswer] at h
      cases h
    | ok p? =>
      rw [dumpNames_of_ok hanswer] at h hnone
      rcases List.mem_cons.1 hkey with hname | hrest
      · rw [hname] at hnone ⊢
        cases p? with
        | none => exact decode_eq_none_of_get hl hr hs hanswer
        | some p =>
          have hkept : ((r.get l name).2.dumpNames l rest
              (withDump l name (some p) dumps)).2.kept? name = some p :=
            kept?_dumpNames (kept?_of_get hr hanswer)
          rw [hnone] at hkept
          cases hkept
      · exact ih (hr.step (.got hgot)) (hs.step (.got hgot)) h hrest hnone

/-- A dump shows the powers that its names lead to once it has been made. -/
theorem getElem?_of_dumpNames (hr : Consistent r) (hs : Sourced l r)
    (h : (r.dumpNames l names dumps).1 = .ok out) (key : String) :
    out[key]? = if key ∈ names then
        (((r.dumpNames l names dumps).2.kept? key).map fun p => p.powerDump l.catalog).or
          dumps[key]?
      else dumps[key]? := by
  induction names generalizing r dumps with
  | nil =>
    cases h
    rw [if_neg List.not_mem_nil]
  | cons name rest ih =>
    have hgot := got_get l name r
    have hr' : Consistent (r.get l name).2 := hr.step (.got hgot)
    have hs' : Sourced l (r.get l name).2 := hs.step (.got hgot)
    cases hanswer : (r.get l name).1 with
    | error fault =>
      rw [dumpNames_of_error hanswer] at h
      cases h
    | ok p? =>
      rw [dumpNames_of_ok hanswer] at h ⊢
      rw [ih hr' hs' h, getElem?_withDump]
      by_cases hkey : name = key
      · -- the name leads to the same power, or to none, in the end
        have hlast : ((r.get l name).2.dumpNames l rest
            (withDump l name p? dumps)).2.kept? name = p? := by
          cases p? with
          | none =>
            have hreaches := reaches_dumpNames l rest (withDump l name none dumps)
              (r.get l name).2
            have hdecode := decode_eq_none_of_get hl hr hs hanswer
            exact kept?_eq_none hl (hreaches.keeps Consistent.step hr')
              (hreaches.keeps Sourced.step hs') hdecode
          | some p => exact kept?_dumpNames (kept?_of_get hr hanswer)
        rw [if_pos hkey, if_pos (List.mem_cons.2 (.inl hkey.symm)), ← hkey, hlast]
        split
        · cases p? <;> rfl
        · rfl
      · rw [if_neg hkey]
        have hmem : key ∈ name :: rest ↔ key ∈ rest :=
          ⟨fun h => (List.mem_cons.1 h).resolve_left fun h => hkey h.symm,
            List.mem_cons_of_mem name⟩
        simp only [hmem]

/-! ### The same dump once more -/

/-- Where the names with records lead to kept powers, only the other names are loaded. -/
theorem dumpNames_eq_counted (hr : Consistent r) (hs : Sourced l r)
    (hkept : ∀ name ∈ names, r.kept? name = none → l.decode name = none) :
    (r.dumpNames l names dumps).2 =
      r.counted (names.countP fun name => (l.source.load name).isNone) := by
  induction names generalizing r dumps with
  | nil => exact (counted_zero r).symm
  | cons name rest ih =>
    have hrest : ∀ n ∈ rest, r.kept? n = none → l.decode n = none :=
      fun n hn => hkept n (List.mem_cons_of_mem name hn)
    cases hname : r.kept? name with
    | some p =>
      have hget : r.get l name = (.ok (some p), r) := (Got.cached hname).eq_get
      have hload : (l.source.load name).isNone = false := by
        cases hload : l.source.load name with
        | none =>
          have hnone := kept?_eq_none hl hr hs (Library.decode_eq_none_iff.2 hload)
          rw [hname] at hnone
          cases hnone
        | some record => rfl
      have hanswer : (r.get l name).1 = .ok (some p) := by rw [hget]
      rw [dumpNames_of_ok hanswer, hget, ih hr hs hrest, List.countP_cons, hload]
      rfl
    | none =>
      have hdecode := hkept name List.mem_cons_self hname
      have hget : r.get l name = (.ok none, r.counted 1) := (Got.missing hname hdecode).eq_get
      have hload : (l.source.load name).isNone = true := by
        rw [Library.decode_eq_none_iff.1 hdecode]
        rfl
      have hanswer : (r.get l name).1 = .ok none := by rw [hget]
      have hstep : Step l r (r.counted 1) := .got (.missing hname hdecode)
      rw [dumpNames_of_ok hanswer, hget, ih (hr.step hstep) (hs.step hstep) hrest, counted_counted,
        List.countP_cons, hload, if_pos rfl, Nat.add_comm]

theorem dumpAll_again (hr : Consistent r) (hs : Sourced l r) (h : (r.dumpAll l).1 = .ok out) :
    let r' := (r.dumpAll l).2
    (r'.dumpAll l).1 = .ok out ∧ (r'.dumpAll l).2 =
      r'.counted (l.source.names.countP fun name => (l.source.load name).isNone) := by
  intro r'
  have hreaches : Reaches l r r' := reaches_dumpNames l _ _ r
  have hr' : Consistent r' := hreaches.keeps Consistent.step hr
  have hs' : Sourced l r' := hreaches.keeps Sourced.step hs
  have hstate : (r'.dumpAll l).2 =
      r'.counted (l.source.names.countP fun name => (l.source.load name).isNone) :=
    dumpNames_eq_counted hl hr' hs' fun name => decode_eq_none_of_dumpNames hl hr hs h
  refine ⟨?_, hstate⟩
  cases hagain : (r'.dumpAll l).1 with
  | error fault =>
    -- a fault would have ended the first dump already
    have hfirst : (r.dumpNames l l.source.names ∅).1 = .error fault :=
      (dumpNames_eq_error_iff hl hr hs).2 ((dumpNames_eq_error_iff hl hr' hs').1 hagain)
    rw [dumpAll, hfirst] at h
    cases h
  | ok out' =>
    have hsame : ∀ key : String, out'[key]? = out[key]? := by
      intro key
      rw [getElem?_of_dumpNames hl hr' hs' hagain, getElem?_of_dumpNames hl hr hs h]
      have hkept : ((r'.dumpNames l l.source.names ∅).2).kept? key =
          ((r.dumpNames l l.source.names ∅).2).kept? key := by
        have hsecond : (r'.dumpNames l l.source.names ∅).2 = _ := hstate
        rw [hsecond, kept?_counted]
        rfl
      rw [hkept]
    exact congrArg Except.ok (Std.ExtTreeMap.ext_getElem? hsame)

/-! ### What is listed -/

/-- A listed name that has a record is shown by the kept power of this record. -/
theorem exists_shown_of_listed (hr : Consistent r) (hs : Sourced l r)
    (h : (r.dumpAll l).1 = .ok out) (hname : name ∈ l.source.names) {record : Record}
    (hload : l.source.load name = some record) :
    let r' := (r.dumpAll l).2
    ∃ p, r'.get l name = (.ok (some p), r') ∧ r'.powers[record.name]? = some p ∧
      out[name]? = some ⟨record.id, p.dump l.catalog⟩ := by
  intro r'
  have hreaches : Reaches l r r' := reaches_dumpNames l _ _ r
  have hr' : Consistent r' := hreaches.keeps Consistent.step hr
  have hs' : Sourced l r' := hreaches.keeps Sourced.step hs
  have hshown := getElem?_of_dumpNames hl hr hs h name
  rw [if_pos hname] at hshown
  cases hkept : r'.kept? name with
  | none =>
    have hdecode := decode_eq_none_of_dumpNames hl hr hs h hname hkept
    rw [Library.decode_eq_none_iff, hload] at hdecode
    cases hdecode
  | some p =>
    -- the kept power is a later form of what the record decodes to
    obtain ⟨p₀, hdecode, hlater⟩ := (agrees_of_cached hl hr' hs' hkept).exists_of_found
    obtain ⟨loaded, hloaded, hp₀⟩ := Library.decode_eq_some_iff.1 hdecode
    rw [hload] at hloaded
    cases hloaded
    obtain ⟨hown, hid, -⟩ := Power.entries_of_decode hp₀
    have hkey : r'.canonical name = record.name := by
      rw [← hr'.kept_name hkept, hlater.name, hown]
    have hpower : r'.powers[record.name]? = some p := by
      rw [← hkey]
      exact hkept
    have hfinal : ((r.dumpNames l l.source.names ∅).2).kept? name = some p := hkept
    refine ⟨p, (Got.cached hkept).eq_get, hpower, ?_⟩
    rw [hshown, hfinal, Option.map_some, Option.some_or, Power.powerDump, hlater.id, hid]

theorem mem_dumpAll_iff (hr : Consistent r) (hs : Sourced l r) (h : (r.dumpAll l).1 = .ok out) :
    name ∈ out ↔ name ∈ l.source.names ∧ ∃ record, l.source.load name = some record := by
  rw [Std.ExtTreeMap.mem_iff_isSome_getElem?]
  refine ⟨fun hmem => ?_, fun ⟨hname, record, hload⟩ => ?_⟩
  · rw [getElem?_of_dumpNames hl hr hs h name] at hmem
    split at hmem
    · rename_i hname
      cases hload : l.source.load name with
      | some record => exact ⟨hname, record, rfl⟩
      | none =>
        have hreaches := reaches_dumpNames l l.source.names ∅ r
        have hkept := kept?_eq_none hl (hreaches.keeps Consistent.step hr)
          (hreaches.keeps Sourced.step hs) (Library.decode_eq_none_iff.2 hload)
        rw [hkept] at hmem
        simp at hmem
    · simp at hmem
  · obtain ⟨p, -, -, hshown⟩ := exists_shown_of_listed hl hr hs h hname hload
    rw [hshown]
    rfl

end Coherent

/-! ### Main statement -/

/-- Over a coherent source and after whatever has been asked: a dump of all powers fails just if
some listed name loads a record that cannot be decoded, and with the fault of the first such name.
Otherwise it has the listed names that load a record, each with the id of this record and with the
tags of the kept power, which the name now leads to without loading; and made at once again it is
the same, with only the names loaded that have no record. Nothing is run, and every power kept
before stays as it is. -/
theorem dumpAll_shows_listed_powers (l : Library) (hl : l.source.Coherent) (ops : List Operation) :
    let r := empty.after l ops
    let r' := (r.dumpAll l).2
    (∀ fault, (r.dumpAll l).1 = .error fault ↔
      l.source.names.findSome? l.fault? = some fault) ∧
    ((∃ fault, (r.dumpAll l).1 = .error fault) ↔
      ∃ name ∈ l.source.names, ∃ record fault,
        l.source.load name = some record ∧ Power.decode record = .error fault) ∧
    (∀ dumps, (r.dumpAll l).1 = .ok dumps →
      (∀ name : String, name ∈ dumps ↔
        name ∈ l.source.names ∧ ∃ record, l.source.load name = some record) ∧
      (∀ name ∈ l.source.names, ∀ record, l.source.load name = some record →
        ∃ p, r'.get l name = (.ok (some p), r') ∧ r'.powers[record.name]? = some p ∧
          dumps[name]? = some ⟨record.id, p.dump l.catalog⟩ ∧
          p.ShownBy l.catalog (p.dump l.catalog)) ∧
      (r'.dumpAll l).1 = .ok dumps ∧ (r'.dumpAll l).2 =
        r'.counted (l.source.names.countP fun name => (l.source.load name).isNone)) ∧
    r'.runs = r.runs ∧
    ∀ (key : String) (p : Power), r.powers[key]? = some p → r'.powers[key]? = some p := by
  intro r r'
  have hr : Consistent r := consistent_after l ops
  have hs : Sourced l r := sourced_after l ops
  have hspares : Spares r r' := spares_dumpNames l _ _ r
  have herror : ∀ fault, (r.dumpAll l).1 = .error fault ↔
      l.source.names.findSome? l.fault? = some fault :=
    fun _ => dumpNames_eq_error_iff hl hr hs
  refine ⟨herror, ?_, ?_, hspares.runs, fun _ _ => hspares.powers⟩
  · have hsome : (∃ fault, (r.dumpAll l).1 = .error fault) ↔
        ∃ name ∈ l.source.names, (l.fault? name).isSome := by
      simp only [herror, ← Option.isSome_iff_exists, List.findSome?_isSome_iff]
    simp only [hsome, Option.isSome_iff_exists, Library.fault?_eq_some_iff,
      Library.decode_eq_some_iff]
    exact exists_congr fun name => and_congr_right fun _ => exists_comm
  · intro dumps h
    refine ⟨fun name => mem_dumpAll_iff hl hr hs h, ?_, dumpAll_again hl hr hs h⟩
    intro name hname record hload
    obtain ⟨p, hget, hkept, hshown⟩ := exists_shown_of_listed hl hr hs h hname hload
    exact ⟨p, hget, hkept, hshown, Power.shownBy_dump l.catalog p⟩

/-- "Jab" is listed twice and "Ghost" has no record. After an evaluation the dump shows the value,
and made once more it is the same and loads "Ghost" only. -/
theorem jab_is_dumped_again :
    let map : List UInt32 := [1, 4, 1, 0, 0, 0, 0, 0, 0, 0, 8, 1, 7]
    let record : Record := ⟨"Jab", 5, List.replicate 8 0 ++ [0xB0, 52].flatMap Bytes.ofWord ++
      List.replicate 0xA0 0 ++ map.flatMap Bytes.ofWord, 0, []⟩
    let l : Library := ⟨(RecordStore.ofList [record]).toSource.withNames ["Ghost", "Jab"],
      Catalog.empty, []⟩
    let r := empty.after l [.evaluate "Jab" ⟨∅, .byId 1⟩]
    let dump : PowerDump := ⟨5, .ofList [("1", TagDump.value 7)]⟩
    let dumps : PowerDumps := .ofList [("Jab", dump)]
    let r' := (r.dumpAll l).2
    l.source.Coherent ∧ (r.dumpAll l).1 = .ok dumps ∧ (r'.dumpAll l).1 = .ok dumps ∧
      (r'.dumpAll l).2 = r'.counted 1 ∧ r'.runs = 1 := by
  intro map record l r dump dumps r'
  have hcoherent : l.source.Coherent := RecordStore.coherent_toSource [record]
  have hdump : (r.dumpAll l).1 = .ok dumps := by decide +kernel
  obtain ⟨-, -, hok, hruns, -⟩ := dumpAll_shows_listed_powers l hcoherent
    [.evaluate "Jab" ⟨∅, .byId 1⟩]
  obtain ⟨-, -, hagain, hstate⟩ := hok dumps hdump
  have hmissing : (l.source.names.countP fun name => (l.source.load name).isNone) = 1 := by
    decide +kernel
  rw [hmissing] at hstate
  have hrun : r.runs = 1 := by decide +kernel
  exact ⟨hcoherent, hdump, hagain, hstate, hruns.trans hrun⟩

end Registry

end PowerFormulas
