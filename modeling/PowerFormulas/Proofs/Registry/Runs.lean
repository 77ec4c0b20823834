import PowerFormulas.Proofs.Evaluation.Started
import PowerFormulas.Proofs.Record.Decoding
import PowerFormulas.Proofs.Registry.Invariants

/-!
# How often scripts run

A registry has run as many scripts as have been started in the powers that it keeps. Powers come in
with none started, requests run what they start, and lookups leave what is kept as it is. So no
script of a kept power runs twice (`runs_eq_started`).
-/

namespace PowerFormulas

/-! ### Decoded powers -/

theorem Record.fresh_of_decode {r : Record} {es : Entries} (h : r.decode = .ok es) : es.Fresh := by
  obtain ⟨maps, hmaps, rfl⟩ := decode_eq_ok_iff.1 h
  intro id body comment p he
  obtain ⟨text, htext⟩ := exists_getElem?_annotate r.details (.ofList maps.flatten) id
  rw [he] at htext
  obtain ⟨e, hfound, heq⟩ := Option.map_eq_some_iff.1 htext.symm
  cases e with
  | constant value => cases heq
  | script found comment₀ p₀ =>
    cases heq
    -- the entry was read from one of the maps, where scripts are written without progress
    rw [getElem?_ofList, List.lookup_eq_some_iff] at hfound
    obtain ⟨before, behind, hentries, -⟩ := hfound
    have hmem : (id, Entry.script body comment₀ p) ∈ maps.flatten := by
      rw [← List.mem_reverse, hentries]
      exact List.mem_append_right _ List.mem_cons_self
    obtain ⟨entries, hmap, hentry⟩ := List.mem_flatten.1 hmem
    obtain ⟨offset, hread⟩ := exists_rel_of_mem hmaps hmap
    rcases tagMap_eq_ok_iff.1 hread with ⟨-, rfl⟩ | ⟨part, rest, -, count, bytes, -, hwritten, -⟩
    · cases hentry
    · obtain ⟨part, hpart⟩ := hwritten.exists_written hentry
      exact hpart.eq_unevaluated

theorem Library.fresh_of_decode {l : Library} {name : String} {p : Power}
    (h : l.decode name = some (.ok p)) : p.entries.Fresh := by
  obtain ⟨record, -, hdecode⟩ := Option.map_eq_some_iff.1 h
  obtain ⟨es, hes, heq⟩ := bind_eq_ok_iff.1 hdecode
  cases heq
  exact Record.fresh_of_decode hes

/-- Whether the operation evaluates nothing. -/
def Operation.isLookup : Operation → Bool
  | .get _ | .getById _ | .dumpAll => true
  | .evaluate .. | .evaluateById .. => false

namespace Registry

/-! ### Scripts started in kept powers -/

def startedIn (powers : Std.ExtTreeMap String Power) : Nat :=
  (powers.toList.map fun (_, p) => p.entries.started.size).sum

/-- The number of scripts that are in progress or done, over all kept powers. -/
def started (r : Registry) : Nat := startedIn r.powers

section Counting

variable {powers : Std.ExtTreeMap String Power} {key : String} {p : Power}

theorem nodup_toList (powers : Std.ExtTreeMap String Power) : powers.toList.Nodup := by
  refine Std.ExtTreeMap.distinct_keys_toList.imp fun hne heq => ?_
  rw [heq] at hne
  exact hne Std.ReflCmp.compare_self

theorem toList_perm_of_kept (h : powers[key]? = some p) :
    powers.toList.Perm ((key, p) :: (powers.erase key).toList) := by
  have herased : (key, p) ∉ (powers.erase key).toList := by
    rw [Std.ExtTreeMap.mem_toList_iff_getElem?_eq_some]
    simp
  refine (List.perm_ext_iff_of_nodup (nodup_toList _)
    (List.nodup_cons.2 ⟨herased, nodup_toList _⟩)).2 ?_
  rintro ⟨k, q⟩
  rw [List.mem_cons, Std.ExtTreeMap.mem_toList_iff_getElem?_eq_some,
    Std.ExtTreeMap.mem_toList_iff_getElem?_eq_some, Std.ExtTreeMap.getElem?_erase]
  by_cases hk : key = k
  · subst hk
    simp [h, eq_comm]
  · simp [hk, Ne.symm hk]

theorem startedIn_of_kept (h : powers[key]? = some p) :
    startedIn powers = p.entries.started.size + startedIn (powers.erase key) := by
  rw [startedIn, ((toList_perm_of_kept h).map _).sum_eq, List.map_cons, List.sum_cons, startedIn]

theorem startedIn_insert :
    startedIn (powers.insert key p) = p.entries.started.size + startedIn (powers.erase key) := by
  have herase : (powers.insert key p).erase key = powers.erase key := by
    apply Std.ExtTreeMap.ext_getElem?
    intro k
    rw [Std.ExtTreeMap.getElem?_erase, Std.ExtTreeMap.getElem?_erase,
      Std.ExtTreeMap.getElem?_insert]
    split <;> rfl
  rw [startedIn_of_kept Std.ExtTreeMap.getElem?_insert_self, herase]

theorem erase_of_new (h : powers[key]? = none) : powers.erase key = powers := by
  apply Std.ExtTreeMap.ext_getElem?
  intro k
  rw [Std.ExtTreeMap.getElem?_erase]
  split
  · rename_i heq
    rw [← Std.LawfulEqCmp.eq_of_compare heq, h]
  · rfl

end Counting

variable {l : Library} {r r' : Registry} {name key : String} {p : Power}
  {answer : Except Malformed (Option Power)}

@[simp] theorem runs_linked (name key : String) (r : Registry) :
    (r.linked name key).runs = r.runs := by
  unfold linked
  split <;> rfl

theorem started_linked (name key : String) (r : Registry) :
    (r.linked name key).started = r.started := by
  rw [started, powers_linked, started]

theorem started_added (h : r.powers[p.name]? = none) (hp : p.entries.Fresh) :
    (r.added p).started = r.started := by
  have hnone : p.entries.started.size = 0 := by
    rw [hp.started_eq_empty]
    rfl
  have hadded : (r.added p).started = startedIn (r.powers.insert p.name p) := rfl
  rw [hadded, startedIn_insert, erase_of_new h, hnone, Nat.zero_add, started]

theorem started_keep {α : Type} {o : Outcome α} (h : r.powers[key]? = some p)
    (hname : o.power.name = key) (hruns : o.runs + p.entries.started.size =
      o.power.entries.started.size) : (r.keep o).started = r.started + o.runs := by
  have hkeep : (r.keep o).started = startedIn (r.powers.insert o.power.name o.power) := rfl
  have hbefore := startedIn_of_kept h
  rw [hkeep, hname, startedIn_insert, started]
  omega

theorem runs_eq_started_step (hr : Consistent r) (h : r.runs = r.started) (hstep : Step l r r') :
    r'.runs = r'.started := by
  cases hstep with
  | got hgot =>
    cases hgot with
    | cached | missing | failed => exact h
    | known =>
      rw [runs_linked, started_linked]
      exact h
    | decoded _ hdecode hnew =>
      have hadded := started_added (r := r.loaded) hnew (Library.fresh_of_decode hdecode)
      rw [runs_linked, started_linked, hadded]
      exact h
  | @served _ p q hp =>
    have hlater : p.Later (q.serve l.catalog l.names p).power := Query.later_serve _ p q.query
    have hname := hlater.name.trans (hr.kept_name hp)
    rw [started_keep hp hname (q.runs_add_started l.catalog l.names p), ← h]
    rfl

/-! ### What lookups leave alone -/

/-- Kept powers stay as they are, and nothing has been run. -/
structure Spares (r r' : Registry) : Prop where
  powers {key : String} {p : Power} : r.powers[key]? = some p → r'.powers[key]? = some p
  runs : r'.runs = r.runs

theorem Spares.refl (r : Registry) : Spares r r := ⟨id, rfl⟩

theorem Spares.trans {r₁ r₂ r₃ : Registry} (h : Spares r₁ r₂) (h' : Spares r₂ r₃) : Spares r₁ r₃ :=
  ⟨fun hp => h'.powers (h.powers hp), h'.runs.trans h.runs⟩

theorem Got.spares (h : Got l name r answer r') : Spares r r' := by
  cases h with
  | cached | missing | failed => exact ⟨id, rfl⟩
  | known =>
    constructor
    · intro k q hq
      rw [powers_linked]
      exact hq
    · exact runs_linked _ _ _
  | @decoded p _ _ hnew =>
    constructor
    · intro k q hq
      have hne : p.name ≠ k := by
        rintro rfl
        rw [hnew] at hq
        cases hq
      rw [powers_linked, getElem?_powers_added, if_neg hne]
      exact hq
    · exact runs_linked _ _ _

theorem spares_get (l : Library) (name : String) (r : Registry) : Spares r (r.get l name).2 :=
  (got_get l name r).spares

theorem spares_getById (l : Library) (id : UInt32) (r : Registry) :
    Spares r (r.getById l id).2 := by
  cases hname : r.nameById[id]?.or (l.source.nameOf id) with
  | none =>
    rw [getById_of_no_name hname]
    exact .refl r
  | some name =>
    rw [getById_of_name hname]
    exact spares_get l name r

theorem spares_dumpNames (l : Library) (names : List String) (dumps : PowerDumps) (r : Registry) :
    Spares r (r.dumpNames l names dumps).2 := by
  induction names generalizing dumps r with
  | nil => exact .refl r
  | cons name rest ih =>
    have hget := spares_get l name r
    rw [dumpNames]
    split <;> rename_i heq <;> rw [heq] at hget
    · exact hget
    · exact hget.trans (ih _ _)
    · exact hget.trans (ih _ _)

theorem spares_perform {op : Operation} (hop : op.isLookup = true) (r : Registry) :
    Spares r (r.perform l op) := by
  cases op with
  | get name => exact spares_get l name r
  | getById id => exact spares_getById l id r
  | dumpAll => exact spares_dumpNames l _ _ r
  | evaluate | evaluateById => cases hop

/-! ### Whole runs -/

theorem later_step (hr : Consistent r) (h : r.powers[key]? = some p) (hstep : Step l r r') :
    ∃ p', r'.powers[key]? = some p' ∧ p.Later p' := by
  cases hstep with
  | got hgot => exact ⟨p, hgot.spares.powers h, .refl p⟩
  | @served k q request hq =>
    have hlater : q.Later (request.serve l.catalog l.names q).power :=
      Query.later_serve _ q request.query
    rw [getElem?_powers_keep]
    by_cases hk : (request.serve l.catalog l.names q).power.name = key
    · -- the power that has been served is the one kept under this name
      rw [hlater.name, hr.kept_name hq] at hk
      rw [hk, h] at hq
      cases hq
      rw [hlater.name, hr.kept_name h, if_pos rfl]
      exact ⟨_, rfl, hlater⟩
    · rw [if_neg hk]
      exact ⟨p, h, .refl p⟩

theorem later_after (hr : Consistent r) (h : r.powers[key]? = some p) (ops : List Operation) :
    ∃ p', (r.after l ops).powers[key]? = some p' ∧ p.Later p' := by
  have hall := (reaches_after l ops r).keeps
    (P := fun r => Consistent r ∧ ∃ p', r.powers[key]? = some p' ∧ p.Later p')
    (fun ⟨hr, p', hp', hlater⟩ hstep =>
      have ⟨p'', hp'', hlater'⟩ := later_step hr hp' hstep
      ⟨hr.step hstep, p'', hp'', hlater.trans hlater'⟩)
    ⟨hr, p, h, .refl p⟩
  exact hall.2

theorem runs_eq_started_after (l : Library) (ops : List Operation) :
    (empty.after l ops).runs = (empty.after l ops).started := by
  have hall := (reaches_after l ops empty).keeps
    (P := fun r => Consistent r ∧ r.runs = r.started)
    (fun ⟨hr, h⟩ hstep => ⟨hr.step hstep, runs_eq_started_step hr h hstep⟩)
    ⟨.empty, rfl⟩
  exact hall.2

/-- As many scripts have been run as are in progress or done. Lookups run none and leave every kept
power as it is, what they find is the kept power itself, and a kept power stays, under its own name
alone, with scripts that only go on from where they are. -/
theorem runs_eq_started (l : Library) (ops : List Operation) :
    let r := empty.after l ops
    r.runs = r.started ∧
    (∀ op : Operation, op.isLookup = true → (r.perform l op).runs = r.runs ∧
      ∀ (key : String) (p : Power), r.powers[key]? = some p →
        (r.perform l op).powers[key]? = some p) ∧
    (∀ (name : String) (p : Power), (r.get l name).1 = .ok (some p) →
      (r.get l name).2.powers[p.name]? = some p) ∧
    (∀ (id : UInt32) (p : Power), (r.getById l id).1 = .ok (some p) →
      (r.getById l id).2.powers[p.name]? = some p) ∧
    ∀ (key : String) (p : Power), r.powers[key]? = some p → p.name = key ∧
      ∀ later : List Operation, ∃ p', (r.after l later).powers[key]? = some p' ∧ p.Later p' := by
  intro r
  have hr : Consistent r := consistent_after l ops
  have hkept : ∀ {r' : Registry}, Reaches l r r' → ∀ {key : String} {p : Power},
      r'.powers[key]? = some p → r'.powers[p.name]? = some p := by
    intro r' hreaches key p hp
    have hr' : Consistent r' := hreaches.keeps Consistent.step hr
    rw [hr'.kept_name hp]
    exact hp
  refine ⟨runs_eq_started_after l ops, ?_, ?_, ?_, ?_⟩
  · intro op hop
    have hspares : Spares r (r.perform l op) := spares_perform hop r
    exact ⟨hspares.runs, fun key p => hspares.powers⟩
  · intro name p hp
    obtain ⟨key, hkey⟩ := kept_get hp
    exact hkept (reaches_get l name r) hkey
  · intro id p hp
    obtain ⟨key, hkey⟩ := kept_getById hp
    exact hkept (reaches_getById l id r) hkey
  · intro key p hp
    exact ⟨hr.kept_name hp, later_after hr hp⟩

/-- "Jab" has a script that ends and one that fails. Asked for under its name, an alias and its id,
it runs each of them once. -/
theorem jab_runs_each_script_once :
    let map : List UInt32 :=
      [2, 4, 1, 0, 0, 0, 0, 0, 0, 0, 8, 1, 7, 4, 2, 0, 0, 0, 0, 0, 0, 0, 4, 9]
    let record : Record := ⟨"Jab", 5, List.replicate 8 0 ++ [0xB0, 96].flatMap Bytes.ofWord ++
      List.replicate 0xA0 0 ++ map.flatMap Bytes.ofWord, 0, []⟩
    let store := RecordStore.ofList [record]
    let l : Library := ⟨store.toSource.withAliases (.ofList [("Left Jab", "Jab")]),
      Catalog.empty, []⟩
    let ops : List Operation := [.evaluate "Left Jab" ⟨∅, .byId 1⟩, .evaluateById 5 ⟨∅, .byId 2⟩,
      .get "Jab", .evaluate "Jab" ⟨∅, .byId 2⟩, .evaluate "Left Jab" ⟨∅, .byId 1⟩]
    let r := empty.after l ops
    let jab : Power := ⟨"Jab", 5, .ofList [((1 : UInt32), Entry.script ⟨[1, 7], ""⟩ "" (.done 7)),
      (2, Entry.script ⟨[9], ""⟩ "" .inProgress)]⟩
    r.runs = 2 ∧ r.started = 2 ∧ r.powers["Jab"]? = some jab ∧
    (∀ name : String, (r.perform l (.get name)).powers["Jab"]? = some jab) ∧
    ∀ later : List Operation, ∃ p, (r.after l later).powers["Jab"]? = some p ∧ jab.Later p := by
  intro map record store l ops r jab
  have hruns : r.runs = 2 := by decide +kernel
  have hjab : r.powers["Jab"]? = some jab := by decide +kernel
  obtain ⟨hstarted, hlookups, -, -, hkept⟩ := runs_eq_started l ops
  exact ⟨hruns, hstarted.symm.trans hruns, hjab, fun name => (hlookups (.get name) rfl).2 _ _ hjab,
    (hkept _ _ hjab).2⟩

end Registry

end PowerFormulas
