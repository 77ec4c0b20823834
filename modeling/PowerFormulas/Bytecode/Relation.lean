import PowerFormulas.Bytecode

/-!
# One program, two runs

The machine reaches out only for the values of tags. So a relation between two kinds of computation
holds between two runs of one program as soon as it holds between the values of the tags that the
program asks for, and is kept by the ways in which the machine puts computations together
(`Respected.run`).

A relation that does not survive a fault that is caught can still hold of programs that catch none.
Of such a relation less is asked (`Sequenced`), and the two kinds of asking are told apart
(`Sequenced.run`).
-/

namespace PowerFormulas.Bytecode

/-- The name of the tag that an instruction asks for. -/
def Instruction.tag? (names : List String) : Instruction → Option String
  | .pushTag index => names[index.toNat]?
  | .pushTagOrMinusOne index => names[index.toNat]?
  | _ => none

/-- The names of the tags that a program asks for, wherever its run may end. -/
def askedTags (names : List String) (code : List UInt32) : List String :=
  (decode code).filterMap (Instruction.tag? names)

variable {m n : Type → Type} [Monad m] [Monad n]

/-- The relation is kept by the ways in which the machine puts computations together. -/
structure Respected (R : (α : Type) → ExceptT Error m α → ExceptT Error n α → Prop) : Prop where
  pure {α : Type} (a : α) : R α (pure a) (pure a)
  throw {α : Type} (e : Error) : R α (throw e) (throw e)
  bind {α β : Type} {x : ExceptT Error m α} {y : ExceptT Error n α}
    {f : α → ExceptT Error m β} {g : α → ExceptT Error n β} :
    R α x y → (∀ a, R β (f a) (g a)) → R β (x >>= f) (y >>= g)
  orElse {α : Type} {x : ExceptT Error m α} {y : ExceptT Error n α} (a : α) :
    R α x y → R α (tryCatch x fun _ => Pure.pure a) (tryCatch y fun _ => Pure.pure a)

/-- The faults that the machine reports itself; any other fault is that of a tag. -/
inductive IsMachineFault : Error → Prop where
  | raised : IsMachineFault (.malformed .raised)
  | badOpcode (word : UInt32) : IsMachineFault (.badOpcode word)
  | badNameIndex (index : UInt32) : IsMachineFault (.badNameIndex index)

/-- The relation is kept by the ways in which the machine does one thing after another. -/
structure Sequenced (R : (α : Type) → ExceptT Error m α → ExceptT Error n α → Prop) : Prop where
  pure {α : Type} (a : α) : R α (pure a) (pure a)
  throw {α : Type} {e : Error} : IsMachineFault e → R α (throw e) (throw e)
  bind {α β : Type} {x : ExceptT Error m α} {y : ExceptT Error n α}
    {f : α → ExceptT Error m β} {g : α → ExceptT Error n β} :
    R α x y → (∀ a, R β (f a) (g a)) → R β (x >>= f) (y >>= g)

theorem Respected.sequenced {R : (α : Type) → ExceptT Error m α → ExceptT Error n α → Prop}
    (h : Respected R) : Sequenced R where
  pure := h.pure
  throw _ := h.throw _
  bind := h.bind

theorem throw_bind [LawfulMonad m] {α β : Type} (e : Error) (f : α → ExceptT Error m β) :
    (throw e >>= f) = throw e := by
  apply ExceptT.ext
  simp

variable [LawfulMonad m] [LawfulMonad n]
  {R : (α : Type) → ExceptT Error m α → ExceptT Error n α → Prop} {names : List String}
  {attributes : Attributes} {v : String → ExceptT Error m Int32}
  {w : String → ExceptT Error n Int32}

namespace Sequenced

theorem bind_nameAt (h : Sequenced R) {β : Type} {index : UInt32}
    {f : String → ExceptT Error m β} {g : String → ExceptT Error n β}
    (hf : ∀ name, names[index.toNat]? = some name → R β (f name) (g name)) :
    R β (nameAt names index >>= f) (nameAt names index >>= g) := by
  unfold nameAt
  cases hn : names[index.toNat]? with
  | none =>
    rw [throw_bind, throw_bind]
    exact h.throw (.badNameIndex index)
  | some name =>
    rw [pure_bind, pure_bind]
    exact hf name hn

theorem step (h : Sequenced R) (stack : List Int32) (i : Instruction)
    (hneeded : ∀ index tag, i = .pushTag index → names[index.toNat]? = some tag →
      R Int32 (v tag) (w tag))
    (hspared : ∀ index tag, i = .pushTagOrMinusOne index → names[index.toNat]? = some tag →
      R Int32 (tryCatch (v tag) fun _ => Pure.pure (-1))
        (tryCatch (w tag) fun _ => Pure.pure (-1))) :
    R (List Int32) (Bytecode.step names attributes v stack i)
      (Bytecode.step names attributes w stack i) := by
  cases i with
  | push | add | multiply | pushAttributeCount => exact h.pure _
  | fail => exact h.throw .raised
  | unknown word => exact h.throw (.badOpcode word)
  | pushAttribute index => exact h.bind_nameAt fun name _ => h.pure _
  | pushTag index =>
    apply h.bind_nameAt
    intro name hn
    exact h.bind (hneeded index name rfl hn) fun value => h.pure _
  | pushTagOrMinusOne index =>
    apply h.bind_nameAt
    intro name hn
    exact h.bind (hspared index name rfl hn) fun value => h.pure _

theorem runFrom (h : Sequenced R) (is : List Instruction) (stack : List Int32)
    (hneeded : ∀ index tag, .pushTag index ∈ is → names[index.toNat]? = some tag →
      R Int32 (v tag) (w tag))
    (hspared : ∀ index tag, .pushTagOrMinusOne index ∈ is → names[index.toNat]? = some tag →
      R Int32 (tryCatch (v tag) fun _ => Pure.pure (-1))
        (tryCatch (w tag) fun _ => Pure.pure (-1))) :
    R (List Int32) (Bytecode.runFrom names attributes v is stack)
      (Bytecode.runFrom names attributes w is stack) := by
  induction is generalizing stack with
  | nil => exact h.pure _
  | cons i is ih =>
    have hhead : R (List Int32) (Bytecode.step names attributes v stack i)
        (Bytecode.step names attributes w stack i) :=
      h.step stack i (fun index tag hi => hneeded index tag (hi ▸ List.mem_cons_self))
        (fun index tag hi => hspared index tag (hi ▸ List.mem_cons_self))
    have htail := fun stack => ih stack
      (fun index tag hi => hneeded index tag (List.mem_cons_of_mem _ hi))
      (fun index tag hi => hspared index tag (List.mem_cons_of_mem _ hi))
    exact h.bind hhead htail

/-- Two runs of a program are related if the values of the tags are that it needs, and those that it
can do without once their faults are caught. -/
theorem run (h : Sequenced R) (code : List UInt32)
    (hneeded : ∀ index tag, .pushTag index ∈ decode code → names[index.toNat]? = some tag →
      R Int32 (v tag) (w tag))
    (hspared : ∀ index tag, .pushTagOrMinusOne index ∈ decode code →
      names[index.toNat]? = some tag →
      R Int32 (tryCatch (v tag) fun _ => Pure.pure (-1))
        (tryCatch (w tag) fun _ => Pure.pure (-1))) :
    R Int32 (Bytecode.run names attributes v code) (Bytecode.run names attributes w code) :=
  h.bind (h.runFrom _ _ hneeded hspared) fun _ => h.pure _

end Sequenced

namespace Respected

/-- Two runs of a program are related if the values of the tags that it asks for are. -/
theorem run (h : Respected R) (code : List UInt32)
    (hv : ∀ tag ∈ askedTags names code, R Int32 (v tag) (w tag)) :
    R Int32 (Bytecode.run names attributes v code) (Bytecode.run names attributes w code) := by
  refine h.sequenced.run code (fun index tag hi htag => ?_) (fun index tag hi htag => ?_)
  · exact hv tag (List.mem_filterMap.2 ⟨_, hi, htag⟩)
  · exact h.orElse (-1) (hv tag (List.mem_filterMap.2 ⟨_, hi, htag⟩))

end Respected

end PowerFormulas.Bytecode
