import Exchange.Core.Refinement

/-!
# Commands and how they reach the book

`core/command.hpp` and `core/apply.cpp`: the three commands, and the one
function through which every command reaches a book, at run time and on replay.
-/

namespace Exchange

open Framework Framework.Exec

/-- An order as its constructor leaves it, which is how commands carry them. -/
abbrev BuiltOrder : Type := { o : Order // o.Built }

inductive Command : Type where
  | submit (order : BuiltOrder)
  | cancel (id : OrderId)
  | modify (id : OrderId) (quantity : Quantity) (price : Option Price)
deriving DecidableEq

/-- What applying one command produced. -/
structure ApplyOutcome where
  fills : List Fill := []
  /-- The book did not decline. -/
  accepted : Bool := false
  restingQty : Quantity := 0
deriving DecidableEq, Repr

def applyCommand : Command → BookExec ApplyOutcome
  | .submit order => do
      let result ← Book.submit (some order.1)
      return { fills := result.fills, restingQty := result.restingQty, accepted := true }
  | .cancel id => do
      let removed ← Book.cancel id
      return { accepted := removed.isSome }
  | .modify id quantity price => do
      let result ← Book.modify id quantity price
      return { fills := result.fills, restingQty := result.restingQty
               accepted := result.status ≠ .notFound ∧ result.status ≠ .rejected }

/-- The fills that `applyCommand` reported. -/
def fillsOf : Except Ending ApplyOutcome → List Fill
  | .ok outcome => outcome.fills
  | .error _ => []

/-! ## Against the market -/

/-- The operation a command asks the book for. -/
def Command.op : Command → Op
  | .submit order => .submit (some order.1)
  | .cancel id => .cancel id
  | .modify id quantity price => .modify id quantity price

/-- What `applyCommand` reports of an operation's result. -/
def Outcome.applied : Outcome → ApplyOutcome
  | .submitted result =>
      { fills := result.fills, restingQty := result.restingQty, accepted := true }
  | .cancelled order => { accepted := order.isSome }
  | .modified result =>
      { fills := result.fills, restingQty := result.restingQty
        accepted := result.status ≠ .notFound ∧ result.status ≠ .rejected }

/-- A command on the market a book shows. -/
def Market.applyCommand (M : Market) (command : Command) :
    Except Ending (ApplyOutcome × Market) :=
  (M.apply command.op).map fun r => (r.1.applied, r.2)

theorem Market.applyCommand_ok {M M' : Market} {command : Command} {out : ApplyOutcome}
    (h : M.applyCommand command = .ok (out, M')) :
    ∃ result, out = result.applied ∧ Market.Transition M command.op result M' := by
  unfold Market.applyCommand at h
  cases hop : M.apply command.op with
  | error f => rw [hop] at h; cases h
  | ok r =>
      rw [hop] at h
      cases h
      exact ⟨r.1, rfl, Market.apply_ok hop⟩

/-- **Applying a command refines the market's operation.** -/
theorem applyCommand_refines {m : BookMemory} (h : WellFormed m) (command : Command)
    (fails : ℕ → Bool) :
    Refines fails m (m.state.view.applyCommand command)
      (Covered m.state.view command.op) (applyCommand command fails m) := by
  have hspec : ∀ {α : Type} (x : Except Ending (α × Market)) (f : α → Outcome),
      (x.map fun r => (f r.1, r.2)).map (fun r => (r.1.applied, r.2)) =
        x.map fun r => ((f r.1).applied, r.2) := by
    intro α x f
    cases x <;> rfl
  cases command with
  | submit order =>
      rw [Market.applyCommand, Command.op, Market.apply, hspec]
      exact (Book.submit_refines fails h (some order.1)).map
        fun r => (Outcome.submitted r).applied
  | cancel id =>
      have hcov : Covered m.state.view (.cancel id) := covered_of_none rfl
      exact (Book.cancel_refines h id hcov).map fun r => (Outcome.cancelled r).applied
  | modify id quantity price =>
      rw [Market.applyCommand, Command.op, Market.apply, hspec]
      exact (Book.modify_refines h id quantity price).map
        fun r => (Outcome.modified r).applied

/-- An allocator that always has memory. -/
def plenty : ℕ → Bool := fun _ => false

/-- With memory to spare a command ends exactly as on the market. -/
theorem applyCommand_plenty {m : BookMemory} (h : WellFormed m) (command : Command) :
    WellFormed (applyCommand command plenty m).2 ∧
      ((∃ f, m.state.view.applyCommand command = .error f ∧
          (applyCommand command plenty m).1 = .error f ∧
          (applyCommand command plenty m).2.state = m.state) ∨
        ∃ out, (applyCommand command plenty m).1 = .ok out ∧
          m.state.view.applyCommand command =
            .ok (out, (applyCommand command plenty m).2.state.view)) := by
  have href := applyCommand_refines h command plenty
  cases hx : applyCommand command plenty m with
  | mk r m' =>
      rw [hx] at href
      cases href with
      | starved _ _ hf =>
          obtain ⟨n, hn⟩ := hf
          cases hn
      | refused f _ he hm => exact ⟨h.of_frozen hm, Or.inl ⟨f, he, rfl, hm.state⟩⟩
      | done out _ he hwf => exact ⟨hwf, Or.inr ⟨out, rfl, he⟩⟩

end Exchange
