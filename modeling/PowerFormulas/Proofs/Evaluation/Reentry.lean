import PowerFormulas.Proofs.Evaluation.Nesting

/-!
# Scripts that are asked for while they run

While a script runs, its power is open to whoever runs it: any tag can be asked for, the one that is
under way too, once or often, and faults can be passed over. Nothing is known of the executor here
but that it asks for tags and ends. And nothing is known of an entry by its type: in a cell a script
can be missing where it is needed, and a value can be written over another one.

None of this comes about (`runs_finish_their_own_entries`). What runs is in progress, each script
once, as it was when it started (`Sound`); so it can be finished when it ends, and only then.
-/

namespace PowerFormulas

structure Cell where
  body? : Option Script
  comment : String
  progress : Progress
  deriving DecidableEq, Repr

namespace Cell

inductive Begun where
  | cached (value : Int32)
  | cycle
  | run (code : List UInt32)
  deriving DecidableEq, Repr

/-- What becomes of a cell whose value is asked for. -/
def start (cell : Cell) : Begun × Cell :=
  match cell.progress, cell.body? with
  | .done value, _ => (.cached value, cell)
  | .inProgress, _ => (.cycle, cell)
  | .unevaluated, some body => (.run body.code, { cell with progress := .inProgress })
  -- there is nothing to run
  | .unevaluated, none => (.cached 0, cell)

/-- The value is written whatever the cell holds. -/
def finish (value : Int32) (cell : Cell) : Cell := { cell with progress := .done value }

theorem start_of_done {cell : Cell} {value : Int32} (hp : cell.progress = .done value) :
    cell.start = (.cached value, cell) := by
  rw [start, hp]

theorem start_of_inProgress {cell : Cell} (hp : cell.progress = .inProgress) :
    cell.start = (.cycle, cell) := by
  rw [start, hp]

end Cell

abbrev Cells := Std.ExtTreeMap UInt32 Cell

def Entry.cell (e : Entry) : Cell := ⟨e.body?, e.comment, e.progress⟩

namespace Cells

variable {cells : Cells} {id i : UInt32} {cell cell' : Cell}

theorem getElem?_insert_self (cells : Cells) (id : UInt32) (cell : Cell) :
    (cells.insert id cell)[id]? = some cell :=
  Std.ExtTreeMap.getElem?_insert_self

theorem getElem?_insert_of_ne (h : id ≠ i) : (cells.insert id cell)[i]? = cells[i]? := by
  rw [Std.ExtTreeMap.getElem?_insert]
  simp [h]

theorem ne_of_progress_ne (h : cells[id]? = some cell) (h' : cells[i]? = some cell')
    (hne : cell.progress ≠ cell'.progress) : id ≠ i := by
  rintro rfl
  cases h.symm.trans h'
  exact hne rfl

theorem insert_eq_self (h : cells[id]? = some cell) : cells.insert id cell = cells := by
  apply Std.ExtTreeMap.ext_getElem?
  intro i
  by_cases hi : id = i
  · rw [← hi, getElem?_insert_self, h]
  · rw [getElem?_insert_of_ne hi]

end Cells

namespace Entries

def cells (es : Entries) : Cells := es.map fun _ e => e.cell

variable {es now : Entries} {id : UInt32} {body : Script} {comment : String} {q : Progress}

theorem getElem?_cells (es : Entries) (id : UInt32) : es.cells[id]? = es[id]?.map Entry.cell :=
  Std.ExtTreeMap.getElem?_map

theorem getElem?_of_cells (h : es.cells[id]? = some ⟨some body, comment, q⟩) :
    es[id]? = some (.script body comment q) := by
  rw [getElem?_cells] at h
  obtain ⟨e, he, heq⟩ := Option.map_eq_some_iff.1 h
  cases e with
  | constant => cases heq
  | script => cases heq; exact he

theorem cells_modify (he : es[id]? = some (.script body comment q)) (p : Progress) :
    cells (es.modify id (Entry.withProgress p)) = es.cells.insert id ⟨some body, comment, p⟩ := by
  apply Std.ExtTreeMap.ext_getElem?
  intro i
  rw [getElem?_cells, getElem?_modify]
  by_cases hi : id = i
  · rw [if_pos hi, ← hi, he, Cells.getElem?_insert_self]
    rfl
  · rw [if_neg hi, Cells.getElem?_insert_of_ne hi, getElem?_cells]

/-- Whatever happens to an entry that was unevaluated, it is later. -/
theorem Later.modify (h : es.Later now) (he : es[id]? = some (.script body comment .unevaluated))
    (hnow : now[id]? = some (.script body comment q)) (p : Progress) :
    es.Later (now.modify id (Entry.withProgress p)) := by
  intro i
  rw [getElem?_modify]
  by_cases hi : id = i
  · rw [if_pos hi, ← hi, he, hnow]
    exact .some (.taken body comment p)
  · rw [if_neg hi]
    exact h i

end Entries

/-- Whatever runs programs: it is given the means to ask for the values of tags by their names. -/
abbrev Executor :=
  (String → ExceptT Error Dialogue Int32) → List UInt32 → ExceptT Error Dialogue Int32

/-- The machine for formula programs. -/
def Scope.executor (scope : Scope) : Executor := Bytecode.run scope.names scope.attributes

/-- An evaluation on its way, with any executor. -/
structure Engine where
  control : Control
  waiting : List Waiting
  cells : Cells

namespace Engine

def step (scope : Scope) (execute : Executor) (power : String) : Engine → Engine
  | ⟨.ask id, waiting, cells⟩ =>
    match cells[id]? with
    | none => ⟨.reply (.ok none), waiting, cells⟩
    | some cell =>
      let (begun, cell) := cell.start
      let cells := cells.insert id cell
      match begun with
      | .cached value => ⟨.reply (.ok (some value)), waiting, cells⟩
      | .cycle =>
        ⟨.reply (.error (.recursiveFormula power (scope.catalog.label id))), waiting, cells⟩
      | .run code => ⟨.run id (execute (scope.tagValue Dialogue.ask) code).run, waiting, cells⟩
  | ⟨.run id (.asks other next), waiting, cells⟩ => ⟨.ask other, ⟨id, next⟩ :: waiting, cells⟩
  | ⟨.run id (.ends (.ok value)), waiting, cells⟩ =>
    match cells[id]? with
    | none => ⟨.reply (.ok (some value)), waiting, cells⟩
    | some cell => ⟨.reply (.ok (some value)), waiting, cells.insert id (cell.finish value)⟩
  | ⟨.run _ (.ends (.error fault)), waiting, cells⟩ => ⟨.reply (.error fault), waiting, cells⟩
  | ⟨.reply r, ⟨id, next⟩ :: waiting, cells⟩ => ⟨.run id (next r), waiting, cells⟩
  | ⟨.reply r, [], cells⟩ => ⟨.reply r, [], cells⟩

/-- The ids whose scripts have been started and have not ended, the innermost first. -/
def running : Engine → List UInt32
  | ⟨.run id _, waiting, _⟩ => id :: waiting.map Waiting.id
  | ⟨.ask _, waiting, _⟩ => waiting.map Waiting.id
  | ⟨.reply _, waiting, _⟩ => waiting.map Waiting.id

def load (p : Power) (id : UInt32) : Engine := ⟨.ask id, [], p.entries.cells⟩

variable {scope : Scope} {execute : Executor} {power : String} {id i : UInt32}
  {waiting : List Waiting} {cells : Cells} {cell : Cell} {es : Entries} {m m' : Engine}

/-! ### Asking and ending -/

theorem step_ask_of_absent (h : cells[id]? = none) :
    step scope execute power ⟨.ask id, waiting, cells⟩ = ⟨.reply (.ok none), waiting, cells⟩ := by
  simp only [step, h]

theorem step_ask_of_done {value : Int32} (h : cells[id]? = some cell)
    (hp : cell.progress = .done value) : step scope execute power ⟨.ask id, waiting, cells⟩ =
      ⟨.reply (.ok (some value)), waiting, cells⟩ := by
  simp only [step, h, Cell.start_of_done hp, Cells.insert_eq_self h]

theorem step_ask_of_inProgress (h : cells[id]? = some cell) (hp : cell.progress = .inProgress) :
    step scope execute power ⟨.ask id, waiting, cells⟩ =
      ⟨.reply (.error (.recursiveFormula power (scope.catalog.label id))), waiting, cells⟩ := by
  simp only [step, h, Cell.start_of_inProgress hp, Cells.insert_eq_self h]

theorem step_ask_of_unevaluated {body : Script} {comment : String}
    (h : cells[id]? = some ⟨some body, comment, .unevaluated⟩) :
    step scope execute power ⟨.ask id, waiting, cells⟩ =
      ⟨.run id (execute (scope.tagValue Dialogue.ask) body.code).run, waiting,
        cells.insert id ⟨some body, comment, .inProgress⟩⟩ := by
  simp only [step, h, Cell.start]

theorem step_run_ends_ok {value : Int32} (h : cells[id]? = some cell) :
    step scope execute power ⟨.run id (.ends (.ok value)), waiting, cells⟩ =
      ⟨.reply (.ok (some value)), waiting, cells.insert id (cell.finish value)⟩ := by
  simp only [step, h]

/-! ### What runs is in progress -/

/-- The scripts that run were unevaluated at first, are in progress now, and run once each; and
every cell is that of an entry. -/
structure Sound (es : Entries) (m : Engine) : Prop where
  nodup : m.running.Nodup
  running : ∀ id ∈ m.running, ∃ body comment,
    es[id]? = some (.script body comment .unevaluated) ∧
      m.cells[id]? = some ⟨some body, comment, .inProgress⟩
  cells : ∃ now, es.Later now ∧ m.cells = now.cells

theorem sound_load (p : Power) (id : UInt32) : Sound p.entries (load p id) :=
  ⟨.nil, nofun, p.entries, .refl p.entries, rfl⟩

namespace Sound

theorem done_of_no_body (h : Sound es m) (hcell : m.cells[i]? = some cell)
    (hbody : cell.body? = none) : ∃ value, cell.progress = .done value := by
  obtain ⟨now, -, hcells⟩ := h.cells
  rw [hcells, Entries.getElem?_cells] at hcell
  obtain ⟨e, -, rfl⟩ := Option.map_eq_some_iff.1 hcell
  cases e with
  | constant value => exact ⟨value, rfl⟩
  | script => cases hbody

theorem exists_script_of_unevaluated (h : Sound es m) (hcell : m.cells[i]? = some cell)
    (hp : cell.progress = .unevaluated) : ∃ body comment,
      cell = ⟨some body, comment, .unevaluated⟩ ∧
        es[i]? = some (.script body comment .unevaluated) := by
  obtain ⟨body?, comment, q⟩ := cell
  cases hp
  cases body? with
  | none =>
    obtain ⟨value, hvalue⟩ := h.done_of_no_body hcell rfl
    cases hvalue
  | some body =>
    obtain ⟨now, hlater, hcells⟩ := h.cells
    have hnow := Entries.getElem?_of_cells (hcells ▸ hcell)
    exact ⟨body, comment, rfl, hlater.eq_of_unevaluated hnow rfl⟩

theorem running_insert (h : Sound es m) (hi : i ∈ m.running) (hne : id ≠ i) (cell : Cell) :
    ∃ body comment, es[i]? = some (.script body comment .unevaluated) ∧
      (m.cells.insert id cell)[i]? = some ⟨some body, comment, .inProgress⟩ := by
  obtain ⟨body, comment, hes, hcell⟩ := h.running i hi
  exact ⟨body, comment, hes, (Cells.getElem?_insert_of_ne hne).trans hcell⟩

theorem exists_later_insert (h : Sound es m) {body : Script} {comment : String} {q : Progress}
    (hes : es[i]? = some (.script body comment .unevaluated))
    (hcell : m.cells[i]? = some ⟨some body, comment, q⟩) (p : Progress) :
    ∃ now, es.Later now ∧ m.cells.insert i ⟨some body, comment, p⟩ = now.cells := by
  obtain ⟨now, hlater, hcells⟩ := h.cells
  have hnow := Entries.getElem?_of_cells (hcells ▸ hcell)
  exact ⟨_, hlater.modify hes hnow p, by rw [Entries.cells_modify hnow, ← hcells]⟩

end Sound

/-! ### What a step does -/

/-- A step starts a script that is unevaluated, or finishes one that is in progress, or moves no
cell and starts nothing. -/
inductive Moves (es : Entries) : Engine → Engine → Prop where
  | starts {id : UInt32} {waiting : List Waiting} {cells : Cells} {body : Script}
      {comment : String} (dialogue : Dialogue (Except Error Int32)) :
      es[id]? = some (.script body comment .unevaluated) →
      cells[id]? = some ⟨some body, comment, .unevaluated⟩ →
      Moves es ⟨.ask id, waiting, cells⟩
        ⟨.run id dialogue, waiting, cells.insert id ⟨some body, comment, .inProgress⟩⟩
  | finishes {id : UInt32} {waiting : List Waiting} {cells : Cells} {body : Script}
      {comment : String} (value : Int32) :
      es[id]? = some (.script body comment .unevaluated) →
      cells[id]? = some ⟨some body, comment, .inProgress⟩ →
      Moves es ⟨.run id (.ends (.ok value)), waiting, cells⟩
        ⟨.reply (.ok (some value)), waiting, cells.insert id ⟨some body, comment, .done value⟩⟩
  | goesOn {m m' : Engine} : m'.cells = m.cells → m'.running.Sublist m.running → Moves es m m'

theorem Sound.moves (h : Sound es m) : Moves es m (m.step scope execute power) := by
  obtain ⟨control, waiting, cells⟩ := m
  cases control with
  | ask id =>
    cases hcell : cells[id]? with
    | none =>
      rw [step_ask_of_absent hcell]
      exact .goesOn rfl (.refl _)
    | some cell =>
      cases hp : cell.progress with
      | done value =>
        rw [step_ask_of_done hcell hp]
        exact .goesOn rfl (.refl _)
      | inProgress =>
        rw [step_ask_of_inProgress hcell hp]
        exact .goesOn rfl (.refl _)
      | unevaluated =>
        obtain ⟨body, comment, rfl, hes⟩ := h.exists_script_of_unevaluated hcell hp
        rw [step_ask_of_unevaluated hcell]
        exact .starts _ hes hcell
  | run id dialogue =>
    cases dialogue with
    | asks other next => exact .goesOn rfl (.refl _)
    | ends r =>
      cases r with
      | error fault => exact .goesOn rfl (List.sublist_cons_self ..)
      | ok value =>
        obtain ⟨body, comment, hes, hcell⟩ := h.running id List.mem_cons_self
        rw [step_run_ends_ok hcell]
        exact .finishes value hes hcell
  | reply r =>
    cases waiting with
    | nil => exact .goesOn rfl (.refl _)
    | cons first waiting => exact .goesOn rfl (.refl _)

theorem Moves.sound (h : Sound es m) (hmoves : Moves es m m') : Sound es m' := by
  cases hmoves with
  | @starts id waiting cells body comment dialogue hes hcell =>
    -- what waits is in progress, so this script is not among it
    have hfresh : id ∉ waiting.map Waiting.id := by
      intro hmem
      obtain ⟨_, _, -, hprogress⟩ := h.running id hmem
      cases hcell.symm.trans hprogress
    refine ⟨List.nodup_cons.2 ⟨hfresh, h.nodup⟩, fun i hi => ?_, h.exists_later_insert hes hcell _⟩
    rcases List.mem_cons.1 hi with rfl | hi
    · exact ⟨body, comment, hes, Cells.getElem?_insert_self ..⟩
    · exact h.running_insert hi (ne_of_mem_of_not_mem hi hfresh).symm _
  | @finishes id waiting cells body comment value hes hcell =>
    obtain ⟨hfresh, hnodup⟩ := List.nodup_cons.1 h.nodup
    refine ⟨hnodup, fun i hi => ?_, h.exists_later_insert hes hcell _⟩
    exact h.running_insert (List.mem_cons_of_mem _ hi) (ne_of_mem_of_not_mem hi hfresh).symm _
  | goesOn hcells hrunning =>
    exact ⟨h.nodup.sublist hrunning, fun i hi => hcells ▸ h.running i (hrunning.subset hi),
      hcells ▸ h.cells⟩

theorem Moves.getElem?_of_done {value : Int32} (hmoves : Moves es m m')
    (hcell : m.cells[i]? = some cell) (hp : cell.progress = .done value) :
    m'.cells[i]? = some cell := by
  cases hmoves with
  | starts _ _ hstart =>
    have hne := Cells.ne_of_progress_ne hstart hcell (hp ▸ nofun)
    exact (Cells.getElem?_insert_of_ne hne).trans hcell
  | finishes _ _ hfinish =>
    have hne := Cells.ne_of_progress_ne hfinish hcell (hp ▸ nofun)
    exact (Cells.getElem?_insert_of_ne hne).trans hcell
  | goesOn hcells => rw [hcells, hcell]

theorem sound_iterate (scope : Scope) (execute : Executor) (power : String) (h : Sound es m)
    (n : Nat) : Sound es ((step scope execute power)^[n] m) := by
  induction n with
  | zero => exact h
  | succ n ih =>
    rw [Function.iterate_succ_apply']
    exact ih.moves.sound ih

/-! ### The machine with entries -/

/-- The machine as it is seen in cells. -/
def ofMachine (m : Machine) : Engine := ⟨m.control, m.waiting, m.session.entries.cells⟩

theorem step_ofMachine {m : Machine} (h : Sound es (ofMachine m)) :
    (ofMachine m).step scope scope.executor power = ofMachine (m.step scope power) := by
  obtain ⟨control, waiting, s⟩ := m
  cases control with
  | ask id =>
    have hcell := s.entries.getElem?_cells id
    cases he : s.entries[id]? with
    | none =>
      rw [he] at hcell
      simp only [ofMachine, Machine.step_ask_of_absent he, step_ask_of_absent hcell]
    | some e =>
      rw [he] at hcell
      have hcell : s.entries.cells[id]? = some e.cell := hcell
      cases hp : e.progress with
      | done value =>
        simp only [ofMachine, Machine.step_ask_of_done he hp, step_ask_of_done hcell hp]
      | inProgress =>
        simp only [ofMachine, Machine.step_ask_of_inProgress he hp, step_ask_of_inProgress hcell hp]
      | unevaluated =>
        cases e with
        | constant => cases hp
        | script body comment q =>
          cases hp
          rw [Machine.step_ask_of_unevaluated he rfl]
          have hstart := Entries.cells_modify he .inProgress
          simp only [ofMachine, step_ask_of_unevaluated hcell, Session.start, hstart]
          rfl
  | run id dialogue =>
    cases dialogue with
    | asks other next => rfl
    | ends r =>
      cases r with
      | error fault => rfl
      | ok value =>
        obtain ⟨body, comment, -, hcell⟩ := h.running id List.mem_cons_self
        have he := Entries.getElem?_of_cells hcell
        have hfinish := Entries.cells_modify he (.done value)
        have hcell : s.entries.cells[id]? = some ⟨some body, comment, .inProgress⟩ := hcell
        simp only [ofMachine, Machine.step, step_run_ends_ok hcell, Session.finish, hfinish]
        rfl
  | reply r =>
    cases waiting with
    | nil => rfl
    | cons first waiting => rfl

theorem iterate_ofMachine (scope : Scope) (power : String) {m : Machine}
    (h : Sound es (ofMachine m)) (n : Nat) :
    (step scope scope.executor power)^[n] (ofMachine m) =
      ofMachine ((Machine.step scope power)^[n] m) := by
  induction n with
  | zero => rfl
  | succ n ih =>
    have hsound := sound_iterate scope scope.executor power h n
    rw [ih] at hsound
    rw [Function.iterate_succ_apply', Function.iterate_succ_apply', ih, step_ofMachine hsound]

/-- With the machine for formula programs, the engine comes to rest on what the evaluation gives. -/
theorem exists_rest (scope : Scope) (p : Power) (id : UInt32) :
    ∃ n, ∀ later, n ≤ later → (step scope scope.executor p.name)^[later] (load p id) =
      ⟨.reply (p.evaluateId scope id).result, [], (p.evaluateId scope id).power.entries.cells⟩ := by
  obtain ⟨r, s, hanswer, ho⟩ := Power.exists_answer_evaluateId scope p id
  have hleads : Machine.Leads scope p.name ⟨.ask id, [], p.session⟩ ⟨.reply r, [], s⟩ :=
    Machine.leads_of_answer hanswer
  obtain ⟨n, hrests⟩ := hleads.rests
  refine ⟨n, fun later hlater => ?_⟩
  have hload : load p id = ofMachine ⟨.ask id, [], p.session⟩ := rfl
  rw [hload, iterate_ofMachine scope p.name (hload ▸ sound_load p id), hrests later hlater, ho]
  rfl

/-! ### Main statement -/

/-- At every moment of an evaluation, whatever the executor asks for and does with the answers: a
script that runs was unevaluated at first, is in progress, and runs once. When it ends with a value,
this is written into its entry, and where it is asked for before, it is refused as recursive and
nothing moves. No cell without a script is ever unevaluated, and no value is written over. With the
machine for formula programs all this is the evaluation of the power. -/
theorem runs_finish_their_own_entries (scope : Scope) (p : Power) (id : UInt32) :
    (∀ (execute : Executor) (n : Nat),
      let m := (step scope execute p.name)^[n] (load p id)
      let next := m.step scope execute p.name
      m.running.Nodup ∧
      (∀ i ∈ m.running, ∃ body comment,
        p.entries[i]? = some (.script body comment .unevaluated) ∧
        m.cells[i]? = some ⟨some body, comment, .inProgress⟩ ∧
        (∀ value, m.control = .run i (.ends (.ok value)) →
          next = ⟨.reply (.ok (some value)), m.waiting,
            m.cells.insert i ⟨some body, comment, .done value⟩⟩) ∧
        (m.control = .ask i →
          next = ⟨.reply (.error (.recursiveFormula p.name (scope.catalog.label i))), m.waiting,
            m.cells⟩)) ∧
      ∀ (i : UInt32) (cell : Cell), m.cells[i]? = some cell →
        (cell.body? = none → ∃ value, cell.progress = .done value) ∧
        ∀ value, cell.progress = .done value → next.cells[i]? = some cell) ∧
    ∃ n, ∀ later, n ≤ later → (step scope scope.executor p.name)^[later] (load p id) =
      ⟨.reply (p.evaluateId scope id).result, [],
        (p.evaluateId scope id).power.entries.cells⟩ := by
  refine ⟨fun execute n => ?_, exists_rest scope p id⟩
  have hsound := sound_iterate scope execute p.name (sound_load p id) n
  intro m next
  refine ⟨hsound.nodup, fun i hi => ?_, fun i cell hcell => ⟨?_, fun value hp => ?_⟩⟩
  · obtain ⟨body, comment, hes, hcell⟩ := hsound.running i hi
    refine ⟨body, comment, hes, hcell, fun value hends => ?_, fun hask => ?_⟩
    · have hm : m = ⟨.run i (.ends (.ok value)), m.waiting, m.cells⟩ := hends ▸ rfl
      exact (congrArg (step scope execute p.name) hm).trans (step_run_ends_ok hcell)
    · have hm : m = ⟨.ask i, m.waiting, m.cells⟩ := hask ▸ rfl
      exact (congrArg (step scope execute p.name) hm).trans (step_ask_of_inProgress hcell rfl)
  · exact hsound.done_of_no_body hcell
  · exact hsound.moves.getElem?_of_done hcell hp

/-- "Loop" asks for "Damage", which has asked for it, and is refused; "Damage" makes do with -1. -/
theorem damage_is_refused_to_loop :
    let scope : Scope := ⟨(Catalog.empty.rename 1 ⟨"Damage", "D"⟩).rename 2 ⟨"Loop", "L"⟩,
      ["Damage", "Loop"], ∅⟩
    let p : Power := ⟨"Fists", 4, .ofList
      [((1 : UInt32), Entry.ofScript ⟨[6, 1], ""⟩), (2, Entry.ofScript ⟨[3, 0], ""⟩)]⟩
    let moment := fun n => (step scope scope.executor p.name)^[n] (load p 1)
    (moment 4).running = [2, 1] ∧ (moment 4).control = .ask 1 ∧
    (moment 5).control = .reply (.error (.recursiveFormula "Fists" "Damage")) ∧
    (moment 8).running = [1] ∧ (moment 8).control = .run 1 (.ends (.ok (-1))) ∧
    (moment 9).control = .reply (.ok (some (-1))) := by
  intro scope p moment
  obtain ⟨hmoments, -⟩ := runs_finish_their_own_entries scope p 1
  have hnext : ∀ n, moment (n + 1) = (moment n).step scope scope.executor p.name :=
    fun n => Function.iterate_succ_apply' ..
  have hask : (moment 4).running = [2, 1] ∧ (moment 4).control = .ask 1 := ⟨rfl, rfl⟩
  have hends : (moment 8).running = [1] ∧ (moment 8).control = .run 1 (.ends (.ok (-1))) :=
    ⟨rfl, rfl⟩
  refine ⟨hask.1, hask.2, ?_, hends.1, hends.2, ?_⟩
  · obtain ⟨-, hrunning, -⟩ := hmoments scope.executor 4
    obtain ⟨_, _, -, -, -, hrefused⟩ := hrunning 1 (hask.1 ▸ by decide)
    rw [hnext 4, hrefused hask.2]
    rfl
  · obtain ⟨-, hrunning, -⟩ := hmoments scope.executor 8
    obtain ⟨_, _, -, -, hfinished, -⟩ := hrunning 1 (hends.1 ▸ by decide)
    rw [hnext 8, hfinished (-1) hends.2]

end Engine

end PowerFormulas
