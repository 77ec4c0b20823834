import Mathlib.Logic.Function.Iterate
import PowerFormulas.Proofs.Evaluation.Requests

/-!
# Runs within runs

An evaluation is followed step by step here, with no bound on anything: a machine keeps the runs that
wait for a value on a stack and knows nothing of what lies ahead. A run is a dialogue, which asks for
the values of ids one after another and goes on with each answer, be it a value or a fault.

Whatever formulas refer to each other, the machine comes to rest on the outcome of the request, and
the runs that are pending at a time are never more than the scripts that were unevaluated when it
started (`serve_rests_with_nesting_bounded`). A run takes a script from the unevaluated ones when it
is put on the stack, and none comes back when it leaves the stack.
-/

namespace PowerFormulas

/-- A computation that asks for the values of ids on its way. -/
inductive Dialogue (α : Type) where
  | ends (result : α)
  | asks (id : UInt32) (next : Except Error (Option Int32) → Dialogue α)

namespace Dialogue

def bind {α β : Type} : Dialogue α → (α → Dialogue β) → Dialogue β
  | ends a, f => f a
  | asks id next, f => asks id fun r => (next r).bind f

instance : Monad Dialogue where
  pure := ends
  bind := bind

theorem bind_ends {α : Type} (x : Dialogue α) : x.bind ends = x := by
  induction x with
  | ends a => rfl
  | asks id next ih => exact congrArg (asks id) (funext ih)

theorem bind_bind {α β γ : Type} (x : Dialogue α) (f : α → Dialogue β) (g : β → Dialogue γ) :
    (x.bind f).bind g = x.bind fun a => (f a).bind g := by
  induction x with
  | ends a => rfl
  | asks id next ih => exact congrArg (asks id) (funext ih)

instance : LawfulMonad Dialogue := LawfulMonad.mk' _ bind_ends (fun _ _ => rfl) bind_bind

def ask (id : UInt32) : ExceptT Error Dialogue (Option Int32) := ExceptT.mk (.asks id .ends)

end Dialogue

/-- A run of the script of an id that waits for the value of another one. -/
structure Waiting where
  id : UInt32
  next : Except Error (Option Int32) → Dialogue (Except Error Int32)

inductive Control where
  /-- The value of an id has been asked for. -/
  | ask (id : UInt32)
  /-- The script of an id runs. -/
  | run (id : UInt32) (dialogue : Dialogue (Except Error Int32))
  /-- What was asked for last has been answered. -/
  | reply (r : Except Error (Option Int32))

/-- An evaluation on its way; the run that waits for what is under way stands first. -/
structure Machine where
  control : Control
  waiting : List Waiting
  session : Session

namespace Machine

def step (scope : Scope) (power : String) : Machine → Machine
  | ⟨.ask id, waiting, s⟩ =>
    match s.entries[id]? with
    | none => ⟨.reply (.ok none), waiting, s⟩
    | some e =>
      match e.progress with
      | .done value => ⟨.reply (.ok (some value)), waiting, s⟩
      | .inProgress =>
        ⟨.reply (.error (.recursiveFormula power (scope.catalog.label id))), waiting, s⟩
      | .unevaluated => ⟨.run id (scope.runCode Dialogue.ask e.code).run, waiting, s.start id⟩
  | ⟨.run id (.asks other next), waiting, s⟩ => ⟨.ask other, ⟨id, next⟩ :: waiting, s⟩
  | ⟨.run id (.ends (.ok value)), waiting, s⟩ =>
    ⟨.reply (.ok (some value)), waiting, s.finish id value⟩
  | ⟨.run _ (.ends (.error fault)), waiting, s⟩ => ⟨.reply (.error fault), waiting, s⟩
  | ⟨.reply r, ⟨id, next⟩ :: waiting, s⟩ => ⟨.run id (next r), waiting, s⟩
  | ⟨.reply r, [], s⟩ => ⟨.reply r, [], s⟩

/-- The number of runs that have been started and have not ended. -/
def depth : Machine → Nat
  | ⟨.run _ _, waiting, _⟩ => waiting.length + 1
  | ⟨.ask _, waiting, _⟩ => waiting.length
  | ⟨.reply _, waiting, _⟩ => waiting.length

def load (scope : Scope) (p : Power) (q : Query) : Machine :=
  match q.target scope.catalog with
  | none => ⟨.reply (.ok none), [], p.session⟩
  | some id => ⟨.ask id, [], p.session⟩

variable {scope : Scope} {power : String} {id : UInt32} {waiting : List Waiting} {s s' : Session}
  {e : Entry}

/-! ### The depth of runs -/

/-- A run that is put on the stack is paid for by the script that it takes. -/
theorem depth_step_add_pending_le (m : Machine) :
    (m.step scope power).depth + (m.step scope power).session.pending ≤
      m.depth + m.session.pending := by
  fun_cases step scope power m with
  | case1 | case2 | case3 | case5 | case8 | case9 => exact Nat.le_refl _
  | case4 id waiting s e he hp =>
    have hstart := Session.pending_start he hp
    simp only [depth]
    omega
  | case6 id value waiting s =>
    have hfinish := s.pending_finish_le id value
    simp only [depth]
    omega
  | case7 =>
    simp only [depth]
    omega

theorem depth_iterate_step_le (scope : Scope) (power : String) (m : Machine) (n : Nat) :
    ((step scope power)^[n] m).depth ≤ m.depth + m.session.pending := by
  have hall : ((step scope power)^[n] m).depth + ((step scope power)^[n] m).session.pending ≤
      m.depth + m.session.pending := by
    induction n with
    | zero => exact Nat.le_refl _
    | succ n ih =>
      rw [Function.iterate_succ_apply']
      exact Nat.le_trans (depth_step_add_pending_le _) ih
  omega

/-! ### What the machine comes to -/

def Leads (scope : Scope) (power : String) (m m' : Machine) : Prop :=
  ∃ n, (step scope power)^[n] m = m'

namespace Leads

variable {m m₁ m' : Machine}

theorem refl (m : Machine) : Leads scope power m m := ⟨0, rfl⟩

theorem trans (h : Leads scope power m m₁) (h' : Leads scope power m₁ m') :
    Leads scope power m m' := by
  obtain ⟨n, rfl⟩ := h
  obtain ⟨n', rfl⟩ := h'
  exact ⟨n' + n, Function.iterate_add_apply _ n' n m⟩

theorem of_step (h : m.step scope power = m') : Leads scope power m m' := ⟨1, h⟩

theorem head (h : m.step scope power = m₁) (h' : Leads scope power m₁ m') :
    Leads scope power m m' :=
  (of_step h).trans h'

/-- A machine that has answered all stays where it is. -/
theorem rests {r : Except Error (Option Int32)} (h : Leads scope power m ⟨.reply r, [], s⟩) :
    ∃ n, ∀ later, n ≤ later → (step scope power)^[later] m = ⟨.reply r, [], s⟩ := by
  obtain ⟨n, hn⟩ := h
  have hrest : step scope power ⟨.reply r, [], s⟩ = ⟨.reply r, [], s⟩ := rfl
  refine ⟨n, fun later hlater => ?_⟩
  obtain ⟨more, rfl⟩ := Nat.exists_eq_add_of_le' hlater
  rw [Function.iterate_add_apply, hn, Function.iterate_fixed hrest]

end Leads

/-- Wherever the dialogue stands in a run, the machine takes it through and goes on from the result
and the session of the evaluation. -/
def Follows (scope : Scope) (power : String) {α : Type} (x : Evaluation α)
    (y : ExceptT Error Dialogue α) : Prop :=
  ∀ (s : Session) (r : Except Error α) (s' : Session), x.answer s = some (r, s') →
    ∀ (id : UInt32) (waiting : List Waiting) (k : Except Error α → Dialogue (Except Error Int32)),
      Leads scope power ⟨.run id (y.run >>= k), waiting, s⟩ ⟨.run id (k r), waiting, s'⟩

namespace Follows

variable {α β : Type}

theorem pure (a : α) : Follows scope power (Pure.pure a) (Pure.pure a) := by
  intro s r s' h id waiting k
  rw [Evaluation.answer_pure] at h
  cases h
  exact .refl _

theorem throw (fault : Error) :
    Follows (α := α) scope power (MonadExcept.throw fault) (MonadExcept.throw fault) := by
  intro s r s' h id waiting k
  have h : some (Except.error fault, s) = some (r, s') := h
  cases h
  exact .refl _

theorem bind {x : Evaluation α} {y : ExceptT Error Dialogue α} {f : α → Evaluation β}
    {g : α → ExceptT Error Dialogue β} (hx : Follows scope power x y)
    (hf : ∀ a, Follows scope power (f a) (g a)) : Follows scope power (x >>= f) (y >>= g) := by
  intro s r s' h id waiting k
  rw [Evaluation.answer_bind] at h
  obtain ⟨⟨result, s₁⟩, h₁, h₂⟩ := Option.bind_eq_some_iff.1 h
  rw [ExceptT.run_bind, bind_assoc]
  -- the first part is taken through with the second one as what comes after it
  refine (hx s result s₁ h₁ id waiting _).trans ?_
  cases result with
  | error fault =>
    cases h₂
    exact .refl _
  | ok a => exact hf a s₁ r s' h₂ id waiting k

theorem orElse {x : Evaluation α} {y : ExceptT Error Dialogue α} (a : α)
    (hx : Follows scope power x y) :
    Follows scope power (tryCatch x fun _ => Pure.pure a) (tryCatch y fun _ => Pure.pure a) := by
  intro s r s' h id waiting k
  rw [Evaluation.answer_tryCatch] at h
  obtain ⟨⟨result, s₁⟩, h₁, h₂⟩ := Option.bind_eq_some_iff.1 h
  rw [ExceptT.run_tryCatch, bind_assoc]
  refine (hx s result s₁ h₁ id waiting _).trans ?_
  cases result with
  | error fault =>
    have h₂ : (Pure.pure a : Evaluation α).answer s₁ = some (r, s') := h₂
    rw [Evaluation.answer_pure] at h₂
    cases h₂
    exact .refl _
  | ok b =>
    cases h₂
    exact .refl _

theorem respected :
    Bytecode.Respected fun α (x : Evaluation α) (y : ExceptT Error Dialogue α) =>
      Follows scope power x y where
  pure := .pure
  throw := .throw
  bind := .bind
  orElse := .orElse

end Follows

theorem step_ask_of_absent (he : s.entries[id]? = none) :
    step scope power ⟨.ask id, waiting, s⟩ = ⟨.reply (.ok none), waiting, s⟩ := by
  simp only [step, he]

theorem step_ask_of_done {value : Int32} (he : s.entries[id]? = some e)
    (hp : e.progress = .done value) :
    step scope power ⟨.ask id, waiting, s⟩ = ⟨.reply (.ok (some value)), waiting, s⟩ := by
  simp only [step, he, hp]

theorem step_ask_of_inProgress (he : s.entries[id]? = some e) (hp : e.progress = .inProgress) :
    step scope power ⟨.ask id, waiting, s⟩ =
      ⟨.reply (.error (.recursiveFormula power (scope.catalog.label id))), waiting, s⟩ := by
  simp only [step, he, hp]

theorem step_ask_of_unevaluated (he : s.entries[id]? = some e) (hp : e.progress = .unevaluated) :
    step scope power ⟨.ask id, waiting, s⟩ =
      ⟨.run id (scope.runCode Dialogue.ask e.code).run, waiting, s.start id⟩ := by
  simp only [step, he, hp]

theorem leads_of_run {d : Nat} {code : List UInt32} {r : Except Error Int32} (id : UInt32)
    (waiting : List Waiting)
    (hask : ∀ other, Follows scope power (Evaluation.valueWithin scope power d other)
      (Dialogue.ask other))
    (h : Evaluation.answer (scope.runCode (Evaluation.valueWithin scope power d) code) s =
      some (r, s')) :
    Leads scope power ⟨.run id (scope.runCode Dialogue.ask code).run, waiting, s⟩
      ⟨.run id (.ends r), waiting, s'⟩ := by
  have hfollows := scope.related_runCode Follows.respected code fun other _ => hask other
  have hleads := hfollows s r s' h id waiting .ends
  have hends : ((scope.runCode Dialogue.ask code).run >>= Dialogue.ends) =
      (scope.runCode Dialogue.ask code).run := bind_pure _
  rw [hends] at hleads
  exact hleads

/-- The machine gives the answer of the bounded evaluation, wherever this has one. -/
theorem leads_of_answer {d : Nat} {r : Except Error (Option Int32)}
    (h : (Evaluation.valueWithin scope power d id).answer s = some (r, s')) :
    Leads scope power ⟨.ask id, waiting, s⟩ ⟨.reply r, waiting, s'⟩ := by
  induction d using Nat.strongRecOn generalizing id waiting s r s' with
  | ind d ih =>
    -- what a run asks for is answered with one level less to go
    have hask : ∀ d' < d, ∀ other, Follows scope power
        (Evaluation.valueWithin scope power d' other) (Dialogue.ask other) := by
      intro d' hd other s r s' h id waiting k
      exact .head rfl ((ih d' hd h).trans (.of_step rfl))
    cases Evaluation.served_of_answer h with
    | absent he => exact .of_step (step_ask_of_absent he)
    | done he hp => exact .of_step (step_ask_of_done he hp)
    | inProgress he hp => exact .of_step (step_ask_of_inProgress he hp)
    | failed he hp hd hcode =>
      have hrun := leads_of_run id waiting (hask _ (by omega)) hcode
      exact .head (step_ask_of_unevaluated he hp) (hrun.trans (.of_step rfl))
    | finished he hp hd hcode =>
      have hrun := leads_of_run id waiting (hask _ (by omega)) hcode
      exact .head (step_ask_of_unevaluated he hp) (hrun.trans (.of_step rfl))

theorem leads_load (scope : Scope) (p : Power) (q : Query) :
    ∃ r s, Leads scope p.name (load scope p q) ⟨.reply r, [], s⟩ ∧
      q.serve scope p = ⟨r.map q.shown, { p with entries := s.entries }, s.runs⟩ := by
  unfold load
  cases hi : q.target scope.catalog with
  | none => exact ⟨.ok none, p.session, .refl _, Query.serve_of_no_target scope p hi⟩
  | some i =>
    obtain ⟨r, s, hanswer, ho⟩ := Power.exists_answer_evaluateId scope p i
    refine ⟨r, s, leads_of_answer hanswer, ?_⟩
    rw [Query.serve_of_target scope p hi, ho]

end Machine

namespace Query

/-- The machine comes to rest on what the request comes to, and at no time are more runs pending than
there were unevaluated scripts at the start. -/
theorem serve_rests_with_nesting_bounded (scope : Scope) (p : Power) (q : Query) :
    (∃ n r s, (∀ later, n ≤ later →
        (Machine.step scope p.name)^[later] (Machine.load scope p q) = ⟨.reply r, [], s⟩) ∧
      q.serve scope p = ⟨r.map q.shown, { p with entries := s.entries }, s.runs⟩) ∧
    ∀ n, ((Machine.step scope p.name)^[n] (Machine.load scope p q)).depth ≤
      p.entries.unevaluated.size := by
  constructor
  · obtain ⟨r, s, hleads, hserve⟩ := Machine.leads_load scope p q
    obtain ⟨n, hrests⟩ := hleads.rests
    exact ⟨n, r, s, hrests, hserve⟩
  · intro n
    have hdepth := Machine.depth_iterate_step_le scope p.name (Machine.load scope p q) n
    have hload : (Machine.load scope p q).depth = 0 ∧
        (Machine.load scope p q).session.pending = p.entries.unevaluated.size := by
      unfold Machine.load
      split <;> exact ⟨rfl, rfl⟩
    omega

/-- "Damage" asks for "Loop", which asks for "Damage": both runs are pending then. -/
example :
    let scope : Scope := ⟨(Catalog.empty.rename 1 ⟨"Damage", "D"⟩).rename 2 ⟨"Loop", "L"⟩,
      ["Damage", "Loop"], ∅⟩
    let p : Power := ⟨"Fists", 4, .ofList
      [((1 : UInt32), Entry.ofScript ⟨[6, 1], ""⟩), (2, Entry.ofScript ⟨[3, 0], ""⟩)]⟩
    ((Machine.step scope p.name)^[3] (Machine.load scope p (.byName "Damage"))).depth = 2 ∧
      p.entries.unevaluated.size = 2 := by
  decide +kernel

end Query

end PowerFormulas
