import Mathlib.Data.List.Chain
import PowerFormulas.Proofs.Evaluation.Requests

/-!
# What a failure blocks

A formula that needs the value of a tag fails when the tag does. Where no formula can do without a
value that it asks for, a request that fails leaves in progress a row of scripts, each of which
needs the next one: those whose runs were under way when the fault came up. All that was finished
before is done. If the fault says that a formula needs its own value, then the last script of the
row needs one of the row, so there is a cycle of formulas that need each other
(`failure_blocks_one_chain`).
-/

namespace PowerFormulas

/-- Whether an instruction goes on where the tag that it asks for has no value. -/
def Bytecode.Instruction.catches : Instruction → Bool
  | .pushTagOrMinusOne _ => true
  | _ => false

/-- The program needs the value of the id, and fails without it. -/
def Scope.Needs (scope : Scope) (code : List UInt32) (id : UInt32) : Prop :=
  ∃ index tag, .pushTag index ∈ Bytecode.decode code ∧ scope.names[index.toNat]? = some tag ∧
    scope.catalog.idFor tag = some id

/-- Two runs of a program that catches no fault are related if the values of the ids are that it
needs. -/
theorem Scope.sequenced_runCode {m n : Type → Type} [Monad m] [Monad n] [LawfulMonad m]
    [LawfulMonad n] {R : (α : Type) → ExceptT Error m α → ExceptT Error n α → Prop}
    {v : UInt32 → ExceptT Error m (Option Int32)} {w : UInt32 → ExceptT Error n (Option Int32)}
    (h : Bytecode.Sequenced R) (scope : Scope) {code : List UInt32}
    (hcode : ∀ instruction ∈ Bytecode.decode code, instruction.catches = false)
    (hv : ∀ id, scope.Needs code id → R (Option Int32) (v id) (w id)) :
    R Int32 (scope.runCode v code) (scope.runCode w code) := by
  refine h.run code (fun index tag hi htag => ?_) (fun index tag hi _ => nomatch hcode _ hi)
  unfold tagValue
  cases hid : scope.catalog.idFor tag with
  | none => exact h.pure _
  | some id => exact h.bind (hv id ⟨index, tag, hi, htag, hid⟩) fun value => h.pure _

namespace Entries

variable {scope : Scope} {es : Entries} {id k : UInt32} {e : Entry}

/-- The entry of one id has a program that needs the value of the other id. -/
def Needs (scope : Scope) (es : Entries) (a b : UInt32) : Prop :=
  ∃ e, es[a]? = some e ∧ scope.Needs e.code b

/-- No program goes on where a tag that it asks for has no value. -/
def Strict (es : Entries) : Prop :=
  ∀ (id : UInt32) (e : Entry), es[id]? = some e →
    ∀ instruction ∈ Bytecode.decode e.code, instruction.catches = false

def InProgress (es : Entries) (id : UInt32) : Prop := es[id]?.map Entry.progress = some .inProgress

theorem inProgress_iff (he : es[id]? = some e) : es.InProgress id ↔ e.progress = .inProgress := by
  rw [InProgress, he, Option.map_some, Option.some_inj]

end Entries

theorem Session.inProgress_start {s : Session} {id : UInt32} {e : Entry}
    (he : s.entries[id]? = some e) (hp : e.progress = .unevaluated) (k : UInt32) :
    (s.start id).entries.InProgress k ↔ k = id ∨ s.entries.InProgress k := by
  by_cases hk : k = id
  · subst hk
    obtain ⟨e', he', hp'⟩ := getElem?_start_self he hp
    exact iff_of_true ((Entries.inProgress_iff he').2 hp') (.inl rfl)
  · rw [Entries.InProgress, getElem?_start, if_neg (Ne.symm hk)]
    exact (or_iff_right hk).symm

theorem Session.inProgress_finish {s : Session} {id : UInt32} {e : Entry}
    (he : s.entries[id]? = some e) (hp : e.progress = .inProgress) (value : Int32) (k : UInt32) :
    (s.finish id value).entries.InProgress k ↔ k ≠ id ∧ s.entries.InProgress k := by
  by_cases hk : k = id
  · subst hk
    obtain ⟨e', he', hp'⟩ := getElem?_finish_self he hp value
    rw [Entries.inProgress_iff he', hp']
    simp
  · rw [Entries.InProgress, getElem?_finish, if_neg (Ne.symm hk)]
    exact (and_iff_right hk).symm

namespace Evaluation

variable {α β : Type} {scope : Scope} {power : String} {es : Entries} {caller id : UInt32}
  {s s₁ s' : Session} {fault : Error} {chain : List UInt32} {depth : Nat}

/-- From `s` to `s'` the scripts of the chain have come to be in progress, and nothing else has
changed in this. The caller needs the first of them and each of them the next one. If the fault says
that a formula needs its own value, then this is what the last one needs. -/
structure Stuck (scope : Scope) (power : String) (es : Entries) (caller : UInt32) (s s' : Session)
    (fault : Error) (chain : List UInt32) : Prop where
  needs : List.IsChain (es.Needs scope) (caller :: chain)
  nodup : chain.Nodup
  fresh : ∀ k ∈ chain, ¬ s.entries.InProgress k
  inProgress : ∀ k, s'.entries.InProgress k ↔ s.entries.InProgress k ∨ k ∈ chain
  cycle : ∀ power' tag, fault = .recursiveFormula power' tag → power' = power ∧
    ∃ b, s'.entries.InProgress b ∧
      es.Needs scope ((caller :: chain).getLast (List.cons_ne_nil _ _)) b ∧
      tag = scope.catalog.label b

/-- A fault that comes up in the caller's own run blocks nothing further. -/
theorem Stuck.here (hcycle : ∀ power' tag, fault = .recursiveFormula power' tag → power' = power ∧
    ∃ b, s.entries.InProgress b ∧ es.Needs scope caller b ∧ tag = scope.catalog.label b) :
    Stuck scope power es caller s s fault [] where
  needs := .singleton caller
  nodup := .nil
  fresh := nofun
  inProgress k := by simp
  cycle := hcycle

/-- How a step of the caller's run can end. -/
inductive Ends (scope : Scope) (power : String) (es : Entries) (caller : UInt32) (s : Session) :
    Except Error α → Session → Prop where
  | ok {a : α} {s' : Session} : (∀ k, s'.entries.InProgress k ↔ s.entries.InProgress k) →
      Ends scope power es caller s (.ok a) s'
  | stuck {fault : Error} {s' : Session} {chain : List UInt32} :
      Stuck scope power es caller s s' fault chain → Ends scope power es caller s (.error fault) s'

theorem Ends.of_same {r : Except Error α} (h : Ends scope power es caller s₁ r s')
    (hsame : ∀ k, s₁.entries.InProgress k ↔ s.entries.InProgress k) :
    Ends scope power es caller s r s' := by
  cases h with
  | ok hk => exact .ok fun k => (hk k).trans (hsame k)
  | stuck h =>
    refine .stuck ⟨h.needs, h.nodup, fun k hk => ?_, fun k => ?_, h.cycle⟩
    · rw [← hsame k]
      exact h.fresh k hk
    · rw [h.inProgress k, hsame k]

/-- A step of the caller's run blocks at most one chain. -/
def Blocks (scope : Scope) (power : String) (es : Entries) (caller : UInt32)
    (x : Evaluation α) : Prop :=
  ∀ (s : Session) (r : Except Error α) (s' : Session), es.Later s.entries →
    x.answer s = some (r, s') → es.Later s'.entries ∧ Ends scope power es caller s r s'

namespace Blocks

theorem pure (a : α) : Blocks scope power es caller (pure a) := by
  intro s r s' hs h
  rw [answer_pure] at h
  cases h
  exact ⟨hs, .ok fun _ => Iff.rfl⟩

theorem throw (hfault : Bytecode.IsMachineFault fault) :
    Blocks scope power es caller (throw fault : Evaluation α) := by
  intro s r s' hs h
  rw [answer_throw] at h
  cases h
  refine ⟨hs, .stuck (Stuck.here ?_)⟩
  intro power' tag heq
  subst heq
  cases hfault

theorem bind {x : Evaluation α} {f : α → Evaluation β} (hx : Blocks scope power es caller x)
    (hf : ∀ a, Blocks scope power es caller (f a)) : Blocks scope power es caller (x >>= f) := by
  intro s r s' hs h
  rw [answer_bind] at h
  obtain ⟨⟨result, s₁⟩, h₁, h₂⟩ := Option.bind_eq_some_iff.1 h
  obtain ⟨hs₁, hends⟩ := hx s result s₁ hs h₁
  cases hends with
  | ok hsame =>
    obtain ⟨hs', hends⟩ := hf _ s₁ r s' hs₁ h₂
    exact ⟨hs', hends.of_same hsame⟩
  | stuck hstuck =>
    cases h₂
    exact ⟨hs₁, .stuck hstuck⟩

theorem sequenced :
    Bytecode.Sequenced fun α (x _ : Evaluation α) => Blocks scope power es caller x where
  pure := .pure
  throw := .throw
  bind := .bind

end Blocks

/-- A script whose run is stuck stands at the head of the chain. -/
theorem Stuck.started {e : Entry} (h : Stuck scope power es id (s.start id) s' fault chain)
    (he : s.entries[id]? = some e) (hp : e.progress = .unevaluated) :
    (id :: chain).Nodup ∧ (∀ k ∈ id :: chain, ¬ s.entries.InProgress k) ∧
      ∀ k, s'.entries.InProgress k ↔ s.entries.InProgress k ∨ k ∈ id :: chain := by
  have hstart := Session.inProgress_start he hp
  refine ⟨List.nodup_cons.2 ⟨fun hmem => ?_, h.nodup⟩, ?_, fun k => ?_⟩
  · exact h.fresh id hmem ((hstart id).2 (.inl rfl))
  · refine List.forall_mem_cons.2 ⟨?_, fun k hk hprogress => ?_⟩
    · rw [Entries.inProgress_iff he, hp]
      nofun
    · exact h.fresh k hk ((hstart k).2 (.inr hprogress))
  · rw [h.inProgress k, hstart k, List.mem_cons]
    tauto

/-- A script that is run blocks at most one chain below itself, given that this holds of what it
needs. -/
theorem ends_of_run {e : Entry} {d : Nat} {result : Except Error Int32} (hstrict : es.Strict)
    (hs : es.Later s.entries) (he : s.entries[id]? = some e) (hp : e.progress = .unevaluated)
    (hneeded : ∀ b, es.Needs scope id b → Blocks scope power es id (valueWithin scope power d b))
    (hrun : answer (scope.runCode (valueWithin scope power d) e.code) (s.start id) =
      some (result, s₁)) :
    es.Later s₁.entries ∧ Ends scope power es id (s.start id) result s₁ := by
  have hes := hs.eq_of_unevaluated he hp
  have hblocks := scope.sequenced_runCode (w := valueWithin scope power d) Blocks.sequenced
    (hstrict id e hes) fun b hb => hneeded b ⟨e, hes, hb⟩
  exact hblocks _ _ _ (hs.trans (Session.later_start he hp).entries) hrun

/-- A script that has been run to its end is in progress no more, and so is nothing below it. -/
theorem inProgress_of_finished {e : Entry} {value : Int32} (he : s.entries[id]? = some e)
    (hp : e.progress = .unevaluated)
    (hrun : answer (scope.runCode (valueWithin scope power depth) e.code) (s.start id) =
      some (.ok value, s₁))
    (hends : Ends scope power es id (s.start id) (.ok value : Except Error Int32) s₁) (k : UInt32) :
    (s₁.finish id value).entries.InProgress k ↔ s.entries.InProgress k := by
  obtain ⟨-, e', he', hp'⟩ := inProgress_of_run he hp hrun
  cases hends with
  | ok hsame =>
    rw [Session.inProgress_finish he' hp', hsame k, Session.inProgress_start he hp]
    refine ⟨fun hk => hk.2.resolve_left hk.1, fun hk => ⟨?_, .inr hk⟩⟩
    rintro rfl
    rw [Entries.inProgress_iff he, hp] at hk
    cases hk

/-- A run that needs the value of an id blocks at most one chain in asking for it. -/
theorem blocks_valueWithin (hstrict : es.Strict) (hneeds : es.Needs scope caller id) :
    Blocks scope power es caller (valueWithin scope power depth id) := by
  induction depth using Nat.strongRecOn generalizing caller id with
  | ind depth ih =>
    intro s r s' hs h
    cases served_of_answer h with
    | absent | done => exact ⟨hs, .ok fun _ => Iff.rfl⟩
    | inProgress he hp =>
      refine ⟨hs, .stuck (Stuck.here ?_)⟩
      intro power' tag heq
      cases heq
      exact ⟨rfl, id, (Entries.inProgress_iff he).2 hp, hneeds, rfl⟩
    | failed he hp hd hrun =>
      obtain ⟨hs₁, hends⟩ := ends_of_run hstrict hs he hp (fun b hb => ih _ (by omega) hb) hrun
      cases hends with
      | stuck hstuck =>
        obtain ⟨hnodup, hfresh, hprogress⟩ := hstuck.started he hp
        refine ⟨hs₁, .stuck ⟨.cons_cons hneeds hstuck.needs, hnodup, hfresh, hprogress, ?_⟩⟩
        rw [List.getLast_cons (List.cons_ne_nil _ _)]
        exact hstuck.cycle
    | finished he hp hd hrun =>
      obtain ⟨-, hends⟩ := ends_of_run hstrict hs he hp (fun b hb => ih _ (by omega) hb) hrun
      obtain ⟨hlater, -⟩ := inProgress_of_run he hp hrun
      exact ⟨hs.trans (Session.later_finish he hp hlater _).entries,
        .ok (inProgress_of_finished he hp hrun hends)⟩

end Evaluation

namespace Query

variable {scope : Scope} {p : Power} {q : Query}

/-- A request fails only if the tag that it comes down to does. -/
theorem exists_of_serve_error {fault : Error} (h : (q.serve scope p).result = .error fault) :
    ∃ i, q.target scope.catalog = some i ∧ (p.evaluateId scope i).result = .error fault ∧
      (q.serve scope p).power = (p.evaluateId scope i).power := by
  cases hi : q.target scope.catalog with
  | none =>
    rw [serve_of_no_target scope p hi] at h
    cases h
  | some i =>
    rw [serve_of_target scope p hi] at h ⊢
    cases hr : (p.evaluateId scope i).result with
    | ok value =>
      rw [hr] at h
      cases h
    | error fault' =>
      rw [hr] at h
      cases h
      exact ⟨i, rfl, hr, rfl⟩

theorem exists_of_serve_ok {shown : Option Int32} (h : (q.serve scope p).result = .ok shown) :
    (q.serve scope p).power = p ∨ ∃ i value, (p.evaluateId scope i).result = .ok value ∧
      (q.serve scope p).power = (p.evaluateId scope i).power := by
  cases hi : q.target scope.catalog with
  | none =>
    rw [serve_of_no_target scope p hi]
    exact .inl rfl
  | some i =>
    rw [serve_of_target scope p hi] at h ⊢
    cases hr : (p.evaluateId scope i).result with
    | ok value => exact .inr ⟨i, value, hr, rfl⟩
    | error fault =>
      rw [hr] at h
      cases h

end Query

namespace Power

variable {scope : Scope} {p : Power} {i : UInt32}

theorem idle_of_evaluateId (hidle : ∀ k, ¬ p.entries.InProgress k) (hstrict : p.entries.Strict)
    {value : Option Int32} (h : (p.evaluateId scope i).result = .ok value) (k : UInt32) :
    ¬ (p.evaluateId scope i).power.entries.InProgress k := by
  obtain ⟨r, s', hs', ho⟩ := exists_answer_evaluateId scope p i
  rw [ho] at h ⊢
  obtain rfl : r = .ok value := h
  cases Evaluation.served_of_answer hs' with
  | absent | done => exact hidle k
  | finished he hp hd hrun =>
    obtain ⟨-, hends⟩ := Evaluation.ends_of_run hstrict (.refl p.entries) he hp
      (fun b hb => Evaluation.blocks_valueWithin hstrict hb) hrun
    rw [Evaluation.inProgress_of_finished he hp hrun hends k]
    exact hidle k

/-- What a request for the id that has failed leaves in progress: the scripts of a chain, which
starts with the id and in which each script needs the next one. If the fault says that a formula
needs its own value, then it names the power and a tag of the chain, the one that the last script
needs. -/
structure Blocked (scope : Scope) (p : Power) (i : UInt32) (fault : Error) (after : Entries)
    (rest : List UInt32) : Prop where
  needs : List.IsChain (p.entries.Needs scope) (i :: rest)
  nodup : (i :: rest).Nodup
  inProgress : ∀ k, after.InProgress k ↔ k ∈ i :: rest
  cycle : ∀ power tag, fault = .recursiveFormula power tag → power = p.name ∧
    ∃ b ∈ i :: rest, p.entries.Needs scope ((i :: rest).getLast (List.cons_ne_nil i rest)) b ∧
      tag = scope.catalog.label b ∧ Relation.TransGen (p.entries.Needs scope) b b

theorem exists_blocked_of_evaluateId (hidle : ∀ k, ¬ p.entries.InProgress k)
    (hstrict : p.entries.Strict) {fault : Error}
    (h : (p.evaluateId scope i).result = .error fault) :
    ∃ rest, Blocked scope p i fault (p.evaluateId scope i).power.entries rest := by
  obtain ⟨r, s', hs', ho⟩ := exists_answer_evaluateId scope p i
  rw [ho] at h ⊢
  obtain rfl : r = .error fault := h
  cases Evaluation.served_of_answer hs' with
  | inProgress he hp => exact absurd ((Entries.inProgress_iff he).2 hp) (hidle i)
  | failed he hp hd hrun =>
    obtain ⟨-, hends⟩ := Evaluation.ends_of_run hstrict (.refl p.entries) he hp
      (fun b hb => Evaluation.blocks_valueWithin hstrict hb) hrun
    cases hends with
    | @stuck _ _ rest hstuck =>
      obtain ⟨hnodup, -, hprogress⟩ := hstuck.started he hp
      have hmem : ∀ k, s'.entries.InProgress k ↔ k ∈ i :: rest :=
        fun k => (hprogress k).trans (or_iff_right (hidle k))
      refine ⟨rest, hstuck.needs, hnodup, hmem, fun power tag heq => ?_⟩
      obtain ⟨hpower, b, hb, hlast, htag⟩ := hstuck.cycle power tag heq
      refine ⟨hpower, b, (hmem b).1 hb, hlast, htag, ?_⟩
      -- each script of the chain leads to the last one, and this one to `b`
      exact hstuck.needs.backwards_induction
        (fun k => Relation.TransGen (p.entries.Needs scope) k b) _
        (fun _ _ hxy hy => .head hxy hy) (fun _ => .single hlast) b ((hmem b).1 hb)

/-- In a power with nothing in progress, where no formula goes on without a value that it asks for,
a request that succeeds leaves nothing in progress, and one that fails leaves one chain of scripts
in progress, each of which needs the next one. Without a cycle no fault says that a formula needs
its own value. -/
theorem failure_blocks_one_chain (c : Catalog) (names : List String) (p : Power) (q : Request)
    (hidle : ∀ k, ¬ p.entries.InProgress k) (hstrict : p.entries.Strict) :
    let scope : Scope := ⟨c, names, q.attributes⟩
    let o := q.serve c names p
    (∀ shown, o.result = .ok shown → ∀ k, ¬ o.power.entries.InProgress k) ∧
    (∀ fault, o.result = .error fault → ∃ i rest, q.query.target c = some i ∧
      Blocked scope p i fault o.power.entries rest) ∧
    ((∀ a, ¬ Relation.TransGen (p.entries.Needs scope) a a) →
      ∀ power tag, o.result ≠ .error (.recursiveFormula power tag)) := by
  intro scope o
  have hblocked : ∀ fault, o.result = .error fault → ∃ i rest, q.query.target c = some i ∧
      Blocked scope p i fault o.power.entries rest := by
    intro fault h
    obtain ⟨i, hi, hresult, hpower⟩ := Query.exists_of_serve_error h
    obtain ⟨rest, hrest⟩ := exists_blocked_of_evaluateId hidle hstrict hresult
    rw [← hpower] at hrest
    exact ⟨i, rest, hi, hrest⟩
  refine ⟨fun shown h k => ?_, hblocked, fun hacyclic power tag h => ?_⟩
  · rcases Query.exists_of_serve_ok h with hpower | ⟨i, value, hresult, hpower⟩
    · rw [show o.power = p from hpower]
      exact hidle k
    · rw [show o.power = _ from hpower]
      exact idle_of_evaluateId hidle hstrict hresult k
  · obtain ⟨i, rest, -, hrest⟩ := hblocked _ h
    obtain ⟨-, b, -, -, -, hcycle⟩ := hrest.cycle power tag rfl
    exact hacyclic b hcycle

/-- "Damage" needs "Base" and "Loop", which needs "Damage" in turn. "Base" is done with, and the
other two are left in progress. -/
theorem damage_and_loop_are_blocked :
    let c := ((Catalog.empty.rename 1 ⟨"Damage", "D"⟩).rename 2 ⟨"Loop", "L"⟩).rename 3
      ⟨"Base", "B"⟩
    let names := ["Damage", "Loop", "Base"]
    let p : Power := ⟨"Fists", 4, .ofList
      [((1 : UInt32), Entry.ofScript ⟨[3, 2, 3, 1], ""⟩), (2, Entry.ofScript ⟨[3, 0], ""⟩),
        (3, Entry.ofScript ⟨[1, 5], ""⟩), (4, Entry.ofScript ⟨[3, 1], ""⟩)]⟩
    let q : Request := ⟨∅, .byName "Damage"⟩
    let o := q.serve c names p
    o.result = .error (.recursiveFormula "Fists" "Damage") ∧ o.power.progress? 3 = some (.done 5) ∧
      ∃ rest,
        Blocked ⟨c, names, ∅⟩ p 1 (.recursiveFormula "Fists" "Damage") o.power.entries rest := by
  intro c names p q o
  -- a test of the list, as the ids below are too many to go through
  have hall : ∀ x ∈ p.entries.toList, x.2.progress = .unevaluated ∧
      (Bytecode.decode x.2.code).all (fun i => !i.catches) = true := by
    decide +kernel
  have hentries : ∀ (k : UInt32) (e : Entry), p.entries[k]? = some e → e.progress = .unevaluated ∧
      ∀ i ∈ Bytecode.decode e.code, i.catches = false := by
    intro k e he
    obtain ⟨hp, hcode⟩ := hall (k, e) (Std.ExtTreeMap.mem_toList_iff_getElem?_eq_some.2 he)
    exact ⟨hp, fun i hi => by simpa using List.all_eq_true.1 hcode i hi⟩
  have hidle : ∀ k, ¬ p.entries.InProgress k := by
    intro k hk
    obtain ⟨e, he, hp⟩ := Option.map_eq_some_iff.1 hk
    rw [(hentries k e he).1] at hp
    cases hp
  have hresult : o.result = .error (.recursiveFormula "Fists" "Damage") := by decide +kernel
  obtain ⟨i, rest, hi, hrest⟩ := (failure_blocks_one_chain c names p q hidle
    fun k e he => (hentries k e he).2).2.1 _ hresult
  have htarget : q.query.target c = some 1 := by decide +kernel
  rw [htarget] at hi
  cases hi
  exact ⟨hresult, by decide +kernel, rest, hrest⟩

end Power

end PowerFormulas
