import Mathlib.Data.Set.Card
import Mathlib.Logic.Relation
import PowerFormulas.Proofs.Evaluation.Requests

/-!
# Evaluation that keeps nothing

The value of a tag can also be found without keeping any: each script that is asked for is run from
scratch, as often as it is asked for. How deep formulas may be nested decides whether there is an
answer, not which (`Yields.unique`), and where no formula needs itself some depth is enough for all
of them (`exists_plainWithin`).
-/

namespace PowerFormulas

namespace Entries

/-- The value of a tag id, with nothing kept. At most `depth` formulas are nested, and where that is
not enough there is no answer. -/
def plainWithin (scope : Scope) (es : Entries) :
    (depth : Nat) → UInt32 → ExceptT Error Option (Option Int32)
  | 0, _ => ExceptT.mk none
  | depth + 1, id =>
    match es[id]? with
    | none => return none
    | some (.constant value) => return some value
    | some (.script body _ _) => do
      let value ← scope.runCode (plainWithin scope es depth) body.code
      return some value

/-- The plain evaluation of the id comes to this result. -/
def Yields (scope : Scope) (es : Entries) (id : UInt32) (r : Except Error (Option Int32)) : Prop :=
  ∃ depth, (es.plainWithin scope depth id).run = some r

/-- The entry of one id has a program that asks for the other id. -/
def Refers (scope : Scope) (es : Entries) (a b : UInt32) : Prop :=
  ∃ e, es[a]? = some e ∧ b ∈ scope.askedIds e.code

/-- No entry refers to itself, by whatever way round. -/
def Acyclic (scope : Scope) (es : Entries) : Prop := ∀ a, ¬ Relation.TransGen (es.Refers scope) a a

def Fresh (es : Entries) : Prop :=
  ∀ (id : UInt32) (body : Script) (comment : String) (p : Progress),
    es[id]? = some (.script body comment p) → p = .unevaluated

variable {scope : Scope} {es : Entries} {id : UInt32} {depth : Nat}

/-! ### Plain evaluation -/

section Run

variable {α β : Type} {x : ExceptT Error Option α} {f : α → ExceptT Error Option β}

theorem run_bind_eq_some_iff {r : Except Error β} :
    (x >>= f).run = some r ↔ (∃ a, x.run = some (.ok a) ∧ (f a).run = some r) ∨
      ∃ fault, x.run = some (.error fault) ∧ r = .error fault := by
  rw [ExceptT.run_bind]
  cases hx : x.run with
  | none => simp
  | some result => cases result <;> simp [eq_comm]

theorem run_orElse_eq_some_iff {a : α} {r : Except Error α} :
    (tryCatch x fun _ => pure a).run = some r ↔ (∃ a', x.run = some (.ok a') ∧ r = .ok a') ∨
      ∃ fault, x.run = some (.error fault) ∧ r = .ok a := by
  rw [ExceptT.run_tryCatch]
  cases hx : x.run with
  | none => simp
  | some result => cases result <;> simp [eq_comm]

end Run

theorem respected_answers :
    Bytecode.Respected fun α (x _ : ExceptT Error Option α) => ∃ r, x.run = some r where
  pure a := ⟨.ok a, rfl⟩
  throw e := ⟨.error e, rfl⟩
  bind := by
    intro α β x y f g hx hf
    obtain ⟨r, hr⟩ := hx
    cases r with
    | error e => exact ⟨.error e, run_bind_eq_some_iff.2 (.inr ⟨e, hr, rfl⟩)⟩
    | ok a =>
      obtain ⟨r', hr'⟩ := hf a
      exact ⟨r', run_bind_eq_some_iff.2 (.inl ⟨a, hr, hr'⟩)⟩
  orElse := by
    intro α x y a hx
    obtain ⟨r, hr⟩ := hx
    cases r with
    | error e => exact ⟨.ok a, run_orElse_eq_some_iff.2 (.inr ⟨e, hr, rfl⟩)⟩
    | ok a' => exact ⟨.ok a', run_orElse_eq_some_iff.2 (.inl ⟨a', hr, rfl⟩)⟩

theorem respected_extends :
    Bytecode.Respected fun α (x y : ExceptT Error Option α) =>
      ∀ r, x.run = some r → y.run = some r where
  pure a := fun r h => h
  throw e := fun r h => h
  bind := by
    intro α β x y f g hx hf r h
    rcases run_bind_eq_some_iff.1 h with ⟨a, ha, hr⟩ | ⟨e, he, hr⟩
    · exact run_bind_eq_some_iff.2 (.inl ⟨a, hx _ ha, hf a r hr⟩)
    · exact run_bind_eq_some_iff.2 (.inr ⟨e, hx _ he, hr⟩)
  orElse := by
    intro α x y a hx r h
    rcases run_orElse_eq_some_iff.1 h with ⟨a', ha, hr⟩ | ⟨e, he, hr⟩
    · exact run_orElse_eq_some_iff.2 (.inl ⟨a', hx _ ha, hr⟩)
    · exact run_orElse_eq_some_iff.2 (.inr ⟨e, hx _ he, hr⟩)

theorem plainWithin_of_absent (he : es[id]? = none) :
    (es.plainWithin scope (depth + 1) id).run = some (.ok none) := by
  simp only [plainWithin, he]
  rfl

theorem plainWithin_of_constant {value : Int32} (he : es[id]? = some (.constant value)) :
    (es.plainWithin scope (depth + 1) id).run = some (.ok (some value)) := by
  simp only [plainWithin, he]
  rfl

theorem plainWithin_of_script {body : Script} {comment : String} {p : Progress}
    (he : es[id]? = some (.script body comment p)) :
    es.plainWithin scope (depth + 1) id =
      (scope.runCode (es.plainWithin scope depth) body.code >>= fun value => pure (some value)) := by
  simp only [plainWithin, he]

theorem plainWithin_of_unevaluated {e : Entry} (he : es[id]? = some e)
    (hp : e.progress = .unevaluated) :
    es.plainWithin scope (depth + 1) id =
      (scope.runCode (es.plainWithin scope depth) e.code >>= fun value => pure (some value)) := by
  cases e with
  | constant value => cases hp
  | script body comment p => exact plainWithin_of_script he

/-- A script is worth what its program comes to. -/
theorem plainWithin_of_run {e : Entry} {r : Except Error Int32} (he : es[id]? = some e)
    (hp : e.progress = .unevaluated)
    (hrun : (scope.runCode (es.plainWithin scope depth) e.code).run = some r) :
    (es.plainWithin scope (depth + 1) id).run = some (r.map some) := by
  rw [plainWithin_of_unevaluated he hp]
  cases r with
  | error fault => exact run_bind_eq_some_iff.2 (.inr ⟨fault, hrun, rfl⟩)
  | ok value => exact run_bind_eq_some_iff.2 (.inl ⟨value, hrun, rfl⟩)

theorem plainWithin_succ {r : Except Error (Option Int32)}
    (h : (es.plainWithin scope depth id).run = some r) :
    (es.plainWithin scope (depth + 1) id).run = some r := by
  induction depth generalizing id r with
  | zero => cases h
  | succ depth ih =>
    cases he : es[id]? with
    | none =>
      rw [plainWithin_of_absent he] at h ⊢
      exact h
    | some e =>
      cases e with
      | constant value =>
        rw [plainWithin_of_constant he] at h ⊢
        exact h
      | script body comment p =>
        rw [plainWithin_of_script he] at h ⊢
        have hrun : ∀ r, (scope.runCode (es.plainWithin scope depth) body.code).run = some r →
            (scope.runCode (es.plainWithin scope (depth + 1)) body.code).run = some r :=
          scope.related_runCode respected_extends body.code fun b _ r hb => ih hb
        exact respected_extends.bind hrun (fun _ _ h => h) r h

theorem plainWithin_of_le {depth' : Nat} {r : Except Error (Option Int32)}
    (hle : depth ≤ depth') (h : (es.plainWithin scope depth id).run = some r) :
    (es.plainWithin scope depth' id).run = some r := by
  induction hle with
  | refl => exact h
  | step _ ih => exact plainWithin_succ ih

theorem Yields.unique {r r' : Except Error (Option Int32)} (h : es.Yields scope id r)
    (h' : es.Yields scope id r') : r = r' := by
  obtain ⟨d, hd⟩ := h
  obtain ⟨d', hd'⟩ := h'
  have hm := plainWithin_of_le (Nat.le_max_left d d') hd
  have hm' := plainWithin_of_le (Nat.le_max_right d d') hd'
  rw [hm] at hm'
  exact Option.some_inj.1 hm'

/-- Where no formula needs itself, how much lies below a formula decreases along references. -/
theorem exists_rank (h : es.Acyclic scope) :
    ∃ rank : UInt32 → Nat, ∀ a b, es.Refers scope a b → rank b < rank a := by
  -- there are only so many ids, so those below one can be counted
  have hfinite : Finite UInt32 := Finite.of_injective UInt32.toFin fun _ _ => UInt32.toFin_inj.1
  refine ⟨fun a => {b | Relation.TransGen (es.Refers scope) a b}.ncard, fun a b hab => ?_⟩
  apply Set.ncard_lt_ncard
  · constructor
    · intro c hc
      exact Relation.TransGen.head hab hc
    · intro hsub
      exact h b (hsub (Relation.TransGen.single hab))
  · exact Set.toFinite _

theorem acyclic_of_rank {rank : UInt32 → Nat}
    (hrank : ∀ a b, es.Refers scope a b → rank b < rank a) : es.Acyclic scope := by
  have hbelow : ∀ a b, Relation.TransGen (es.Refers scope) a b → rank b < rank a := by
    intro a b hab
    induction hab with
    | single h => exact hrank _ _ h
    | tail _ h ih => exact (hrank _ _ h).trans ih
  intro a ha
  exact Nat.lt_irrefl _ (hbelow a a ha)

theorem exists_plainWithin {rank : UInt32 → Nat}
    (hrank : ∀ a b, es.Refers scope a b → rank b < rank a) (hd : rank id < depth) :
    ∃ r, (es.plainWithin scope depth id).run = some r := by
  induction depth generalizing id with
  | zero => omega
  | succ depth ih =>
    cases he : es[id]? with
    | none => exact ⟨_, plainWithin_of_absent he⟩
    | some e =>
      cases e with
      | constant value => exact ⟨_, plainWithin_of_constant he⟩
      | script body comment p =>
        rw [plainWithin_of_script he]
        have hrun : ∃ r, (scope.runCode (es.plainWithin scope depth) body.code).run = some r := by
          apply scope.related_runCode (w := es.plainWithin scope depth) respected_answers
          intro b hb
          have hb := hrank id b ⟨_, he, hb⟩
          exact ih (by omega)
        exact respected_answers.bind (y := pure 0) (g := fun _ => pure none) hrun fun _ => ⟨_, rfl⟩

end Entries

end PowerFormulas
