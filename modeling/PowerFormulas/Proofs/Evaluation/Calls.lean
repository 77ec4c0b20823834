import PowerFormulas.Proofs.Evaluation.Reentry

/-!
# Calls of the executor

An executor is called in one place, with the program of a script that starts. The calls of an
evaluation are listed here. They are all that it has to do with the executor: another one that
treats these programs alike would take it through the same steps (`iterate_eq_of_calls`).

No script is given to the executor twice, whatever this asks for and whatever comes of it, and the
runs that an outcome tells of are as many as the calls (`executor_is_called_once_for_each_run`).
-/

namespace PowerFormulas

/-- A program that an executor is called with, and the id whose script it is. -/
structure Call where
  id : UInt32
  code : List UInt32
  deriving DecidableEq, Repr

namespace Engine

/-- The call that the next step makes. -/
def call? : Engine → Option Call
  | ⟨.ask id, _, cells⟩ =>
    match cells[id]?.map Cell.start with
    | some (.run code, _) => some ⟨id, code⟩
    | _ => none
  | _ => none

/-- The calls of so many steps, the last one first. -/
def calls (scope : Scope) (execute : Executor) (power : String) (m : Engine) : Nat → List Call
  | 0 => []
  | n + 1 => ((step scope execute power)^[n] m).call?.toList ++ calls scope execute power m n

variable {scope : Scope} {execute execute' : Executor} {power : String} {id i : UInt32}
  {waiting : List Waiting} {cells : Cells} {cell : Cell} {es : Entries} {m m' : Engine}
  {call : Call} {made : List Call}

/-! ### One call -/

theorem call?_of_absent (h : cells[id]? = none) : call? ⟨.ask id, waiting, cells⟩ = none := by
  simp only [call?, h, Option.map_none]

theorem call?_of_unevaluated {body : Script} {comment : String}
    (h : cells[id]? = some ⟨some body, comment, .unevaluated⟩) :
    call? ⟨.ask id, waiting, cells⟩ = some ⟨id, body.code⟩ := by
  simp only [call?, h, Option.map_some, Cell.start]

theorem call?_of_progress_ne (h : cells[id]? = some cell) (hp : cell.progress ≠ .unevaluated) :
    call? ⟨.ask id, waiting, cells⟩ = none := by
  cases hcell : cell.progress with
  | unevaluated => exact absurd hcell hp
  | inProgress => simp only [call?, h, Option.map_some, Cell.start_of_inProgress hcell]
  | done value => simp only [call?, h, Option.map_some, Cell.start_of_done hcell]

/-- Only a script that is unevaluated is given to the executor. -/
theorem exists_of_call? (h : m.call? = some call) :
    m.control = .ask call.id ∧ ∃ body comment,
      m.cells[call.id]? = some ⟨some body, comment, .unevaluated⟩ ∧ body.code = call.code := by
  obtain ⟨control, waiting, cells⟩ := m
  cases control with
  | run | reply => cases h
  | ask id =>
    cases hcell : cells[id]? with
    | none =>
      rw [call?_of_absent hcell] at h
      cases h
    | some cell =>
      obtain ⟨body?, comment, progress⟩ := cell
      cases progress with
      | done | inProgress =>
        rw [call?_of_progress_ne hcell nofun] at h
        cases h
      | unevaluated =>
        cases body? with
        | none =>
          simp only [call?, hcell, Option.map_some, Cell.start] at h
          cases h
        | some body =>
          rw [call?_of_unevaluated hcell] at h
          cases h
          exact ⟨rfl, body, comment, hcell, rfl⟩

/-- The executor is called once, and what it gives is what runs then. -/
theorem step_of_call? (scope : Scope) (power : String) (h : m.call? = some call) :
    ∃ body comment, m.cells[call.id]? = some ⟨some body, comment, .unevaluated⟩ ∧
      body.code = call.code ∧
      ∀ execute : Executor, m.step scope execute power =
        ⟨.run call.id (execute (scope.tagValue Dialogue.ask) call.code).run, m.waiting,
          m.cells.insert call.id ⟨some body, comment, .inProgress⟩⟩ := by
  obtain ⟨hcontrol, body, comment, hcell, hcode⟩ := exists_of_call? h
  obtain ⟨control, waiting, cells⟩ := m
  cases hcontrol
  refine ⟨body, comment, hcell, hcode, fun execute => ?_⟩
  rw [← hcode]
  exact step_ask_of_unevaluated hcell

theorem step_eq_of_no_call (h : m.call? = none) :
    m.step scope execute power = m.step scope execute' power := by
  obtain ⟨control, waiting, cells⟩ := m
  cases control with
  | ask id =>
    cases hcell : cells[id]? with
    | none => rw [step_ask_of_absent hcell, step_ask_of_absent hcell]
    | some cell =>
      cases hstart : cell.start with
      | mk begun cell' =>
        simp only [step, hcell, hstart]
        cases begun with
        | cached | cycle => rfl
        | run code =>
          simp only [call?, hcell, Option.map_some, hstart] at h
          cases h
  | run id dialogue =>
    cases dialogue with
    | asks => rfl
    | ends r => cases r <;> rfl
  | reply r => cases waiting <;> rfl

/-! ### The calls of a run -/

/-- Nothing but what the executor makes of these programs is used of it. -/
theorem iterate_eq_of_calls (n : Nat)
    (h : ∀ call ∈ calls scope execute power m n,
      execute (scope.tagValue Dialogue.ask) call.code =
        execute' (scope.tagValue Dialogue.ask) call.code) :
    (step scope execute power)^[n] m = (step scope execute' power)^[n] m := by
  induction n with
  | zero => rfl
  | succ n ih =>
    have hbefore := ih fun call hmem => h call (List.mem_append_right _ hmem)
    rw [Function.iterate_succ_apply', Function.iterate_succ_apply', ← hbefore]
    cases hcall : ((step scope execute power)^[n] m).call? with
    | none => exact step_eq_of_no_call hcall
    | some call =>
      have hmem : call ∈ calls scope execute power m (n + 1) := by
        rw [calls, hcall]
        exact List.mem_cons_self
      obtain ⟨_, _, -, -, hstep⟩ := step_of_call? scope power hcall
      rw [hstep execute, hstep execute', h call hmem]

theorem Moves.exists_begun (hmoves : Moves es m m') (hcell : m.cells[i]? = some cell)
    (hp : cell.progress ≠ .unevaluated) :
    ∃ cell', m'.cells[i]? = some cell' ∧ cell'.progress ≠ .unevaluated := by
  cases hmoves with
  | starts _ _ hstart =>
    have hne := Cells.ne_of_progress_ne hstart hcell hp.symm
    exact ⟨cell, (Cells.getElem?_insert_of_ne hne).trans hcell, hp⟩
  | @finishes id =>
    by_cases hi : id = i
    · rw [hi]
      exact ⟨_, Cells.getElem?_insert_self .., nofun⟩
    · exact ⟨cell, (Cells.getElem?_insert_of_ne hi).trans hcell, hp⟩
  | goesOn hcells => exact ⟨cell, hcells ▸ hcell, hp⟩

/-- The calls made so far were for scripts that were unevaluated at first and no longer are. -/
structure Recorded (es : Entries) (m : Engine) (made : List Call) : Prop where
  nodup : (made.map Call.id).Nodup
  own : ∀ call ∈ made, ∃ body comment,
    es[call.id]? = some (.script body comment .unevaluated) ∧ body.code = call.code
  begun : ∀ call ∈ made, ∃ cell, m.cells[call.id]? = some cell ∧ cell.progress ≠ .unevaluated

theorem Recorded.step (h : Recorded es m made) (hsound : Sound es m) :
    Recorded es (m.step scope execute power) (m.call?.toList ++ made) := by
  have hbegun : ∀ call ∈ made, ∃ cell,
      (m.step scope execute power).cells[call.id]? = some cell ∧
        cell.progress ≠ .unevaluated := by
    intro call hmem
    obtain ⟨cell, hcell, hp⟩ := h.begun call hmem
    exact hsound.moves.exists_begun hcell hp
  cases hcall : m.call? with
  | none => exact ⟨h.nodup, h.own, hbegun⟩
  | some call =>
    obtain ⟨body, comment, hcell, hcode, hstep⟩ := step_of_call? scope power hcall
    obtain ⟨_, _, heq, hes⟩ := hsound.exists_script_of_unevaluated hcell rfl
    cases heq
    -- what has been called for is begun, so this script is not among it
    have hfresh : call.id ∉ made.map Call.id := by
      intro hmem
      obtain ⟨earlier, hearlier, hid⟩ := List.mem_map.1 hmem
      obtain ⟨cell, hbegun, hp⟩ := h.begun earlier hearlier
      rw [hid, hcell] at hbegun
      cases hbegun
      exact hp rfl
    refine ⟨List.nodup_cons.2 ⟨hfresh, h.nodup⟩, ?_, ?_⟩
    · intro other hmem
      rcases List.mem_cons.1 hmem with rfl | hmem
      · exact ⟨body, comment, hes, hcode⟩
      · exact h.own other hmem
    · intro other hmem
      rcases List.mem_cons.1 hmem with rfl | hmem
      · rw [hstep execute]
        exact ⟨_, Cells.getElem?_insert_self .., nofun⟩
      · exact hbegun other hmem

theorem recorded_calls (scope : Scope) (execute : Executor) (power : String) (h : Sound es m)
    (n : Nat) :
    Recorded es ((step scope execute power)^[n] m) (calls scope execute power m n) := by
  induction n with
  | zero => exact ⟨.nil, nofun, nofun⟩
  | succ n ih =>
    rw [Function.iterate_succ_apply', calls]
    exact ih.step (sound_iterate scope execute power h n)

/-! ### The count of runs -/

/-- A step is counted as a run just if it calls the executor. -/
theorem runs_step (m : Machine) : (m.step scope power).session.runs =
    m.session.runs + (ofMachine m).call?.toList.length := by
  obtain ⟨control, waiting, s⟩ := m
  cases control with
  | ask id =>
    have hcell := s.entries.getElem?_cells id
    cases he : s.entries[id]? with
    | none =>
      rw [he] at hcell
      rw [Machine.step_ask_of_absent he, ofMachine, call?_of_absent hcell]
      rfl
    | some e =>
      rw [he] at hcell
      have hcell : s.entries.cells[id]? = some e.cell := hcell
      cases hp : e.progress with
      | done value =>
        have hne : e.progress ≠ .unevaluated := fun hun => by cases hp.symm.trans hun
        rw [Machine.step_ask_of_done he hp, ofMachine, call?_of_progress_ne hcell hne]
        rfl
      | inProgress =>
        have hne : e.progress ≠ .unevaluated := fun hun => by cases hp.symm.trans hun
        rw [Machine.step_ask_of_inProgress he hp, ofMachine, call?_of_progress_ne hcell hne]
        rfl
      | unevaluated =>
        cases e with
        | constant => cases hp
        | script body comment q =>
          cases hp
          rw [Machine.step_ask_of_unevaluated he rfl, ofMachine, call?_of_unevaluated hcell]
          rfl
  | run id dialogue =>
    cases dialogue with
    | asks => rfl
    | ends r => cases r <;> rfl
  | reply r => cases waiting <;> rfl

theorem runs_add_length_calls (scope : Scope) (power : String) {m : Machine}
    (h : Sound es (ofMachine m)) (n : Nat) :
    m.session.runs + (calls scope scope.executor power (ofMachine m) n).length =
      ((Machine.step scope power)^[n] m).session.runs := by
  induction n with
  | zero => rfl
  | succ n ih =>
    rw [Function.iterate_succ_apply', runs_step, ← ih, calls, iterate_ofMachine scope power h n,
      List.length_append, Nat.add_comm (List.length _), Nat.add_assoc]

theorem sound_ofMachine_load (scope : Scope) (p : Power) (q : Query) :
    Sound p.entries (ofMachine (Machine.load scope p q)) := by
  unfold Machine.load
  cases q.target scope.catalog with
  | none => exact ⟨.nil, nofun, p.entries, .refl p.entries, rfl⟩
  | some id => exact sound_load p id

/-! ### Main statement -/

/-- Whatever the executor asks for and does with the answers, it is called at most once for a
script, with the program of this script, and for scripts only that were unevaluated at first; and
the evaluation depends on nothing else of it. With the machine for formula programs, the runs that
are counted are its calls, at every moment and in the outcome. -/
theorem executor_is_called_once_for_each_run (scope : Scope) (p : Power) (q : Query) :
    let start := Machine.load scope p q
    (∀ (execute : Executor) (n : Nat),
      let made := (ofMachine start).calls scope execute p.name n
      (made.map Call.id).Nodup ∧
      (∀ call ∈ made, ∃ body comment,
        p.entries[call.id]? = some (.script body comment .unevaluated) ∧ body.code = call.code) ∧
      ∀ execute' : Executor,
        (∀ call ∈ made, execute (scope.tagValue Dialogue.ask) call.code =
          execute' (scope.tagValue Dialogue.ask) call.code) →
        (step scope execute p.name)^[n] (ofMachine start) =
          (step scope execute' p.name)^[n] (ofMachine start)) ∧
    (∀ n, ((ofMachine start).calls scope scope.executor p.name n).length =
      ((Machine.step scope p.name)^[n] start).session.runs) ∧
    ∃ n, ∀ later, n ≤ later →
      ((ofMachine start).calls scope scope.executor p.name later).length =
        (q.serve scope p).runs := by
  intro start
  have hsound := sound_ofMachine_load scope p q
  have hruns : ∀ n, ((ofMachine start).calls scope scope.executor p.name n).length =
      ((Machine.step scope p.name)^[n] start).session.runs := by
    intro n
    have hstart : start.session.runs = 0 := by
      simp only [start, Machine.load]
      split <;> rfl
    have hall := runs_add_length_calls scope p.name hsound n
    rw [hstart, Nat.zero_add] at hall
    exact hall
  refine ⟨fun execute n => ?_, hruns, ?_⟩
  · have hrecorded := recorded_calls scope execute p.name hsound n
    exact ⟨hrecorded.nodup, hrecorded.own, fun execute' hsame => iterate_eq_of_calls n hsame⟩
  · obtain ⟨r, s, hleads, hserve⟩ := Machine.leads_load scope p q
    obtain ⟨n, hrests⟩ := hleads.rests
    refine ⟨n, fun later hlater => ?_⟩
    rw [hruns, hrests later hlater, hserve]

/-- "Loop" asks for "Damage", which waits for it: this is refused without a call. -/
example :
    let scope : Scope := ⟨(Catalog.empty.rename 1 ⟨"Damage", "D"⟩).rename 2 ⟨"Loop", "L"⟩,
      ["Damage", "Loop"], ∅⟩
    let p : Power := ⟨"Fists", 4, .ofList
      [((1 : UInt32), Entry.ofScript ⟨[6, 1], ""⟩), (2, Entry.ofScript ⟨[3, 0], ""⟩)]⟩
    let q : Query := .byName "Damage"
    (ofMachine (Machine.load scope p q)).calls scope scope.executor p.name 9 =
        [⟨2, [3, 0]⟩, ⟨1, [6, 1]⟩] ∧ (q.serve scope p).runs = 2 := by
  decide +kernel

end Engine

end PowerFormulas
