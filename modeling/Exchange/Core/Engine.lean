import Exchange.Core.Apply

/-!
# The engine thread

One turn of `Engine::run`: a command is logged, then applied, then its fills are
handed to the callback, and whatever is thrown on the way is counted. The command
log and the callback are arguments, so that a turn covers every way they can
behave. A turn that runs into a precondition ends the run: nothing is known of
what follows.
-/

namespace Exchange

open Framework

/-- The exceptions `run` tells apart. -/
inductive Thrown : Type where
  | storageError
  /-- Any other `ExchangeError`. -/
  | exchangeError
  | other
deriving DecidableEq, Repr

/-- `ICommandLog`, over what the environment does during one append. -/
structure CommandLog (E L : Type) where
  append : L → E → Command → Except Thrown Sequence × L

/-- The callback: what the `n`-th call of it throws, if it throws. -/
abbrev FillHandler : Type := ℕ → Fill → Option Thrown

structure Engine (L : Type) where
  memory : BookMemory := { state := {} }
  log : Option L := none
  processed : ℕ := 0
  rejected : ℕ := 0
  fills : ℕ := 0
  storageFailures : ℕ := 0
  /-- The run cannot go on. -/
  ended : Bool := false
  /-- The commands that reached `applyCommand` so far, and how each ended. No
  part of the source: what statements about runs speak of. -/
  applied : List (Command × Except Ending ApplyOutcome) := []

namespace Engine

variable {E L : Type}

/-- Hands the fills to the callback, counting them, until one call throws. -/
def publish (onFill : FillHandler) : List Fill → ℕ → Option Thrown × ℕ
  | [], count => (none, count)
  | fill :: fills, count =>
      match onFill count fill with
      | some thrown => (some thrown, count + 1)
      | none => publish onFill fills (count + 1)

def thrownBy : Exception → Thrown
  | .invalidOrder _ => .exchangeError
  | .badAlloc => .other

/-- The second half of `apply`: mutate the book and publish the fills. -/
def mutate (onFill : FillHandler) (fails : ℕ → Bool) (e : Engine L) (command : Command) :
    Except (Fault Thrown Precondition) Unit × Engine L :=
  let (r, memory) := applyCommand command fails e.memory
  let e := { e with memory, applied := e.applied ++ [(command, r)] }
  match r with
  | .error (.throws x) => (.error (.throws (thrownBy x)), e)
  | .error (.undefined p) => (.error (.undefined p), e)
  | .error .terminate => (.error .terminate, e)
  | .ok outcome =>
      let (thrown, fills) := publish onFill outcome.fills e.fills
      let e := { e with fills }
      match thrown with
      | some thrown => (.error (.throws thrown), e)
      | none =>
          if outcome.accepted then (.ok (), { e with processed := e.processed + 1 })
          else (.ok (), { e with rejected := e.rejected + 1 })

/-- `Engine::apply`: write ahead, then mutate. -/
def apply (log : CommandLog E L) (onFill : FillHandler) (fails : ℕ → Bool)
    (e : Engine L) (io : E) (command : Command) :
    Except (Fault Thrown Precondition) Unit × Engine L :=
  match e.log with
  | none => e.mutate onFill fails command
  | some l =>
      match log.append l io command with
      | (.error thrown, l) => (.error (.throws thrown), { e with log := some l })
      | (.ok _, l) => { e with log := some l }.mutate onFill fails command

/-- The body of the loop in `Engine::run`. -/
def turn (log : CommandLog E L) (onFill : FillHandler) (fails : ℕ → Bool)
    (e : Engine L) (io : E) (command : Command) : Engine L :=
  match e.apply log onFill fails io command with
  | (.ok (), e) => e
  | (.error (.throws .storageError), e) =>
      { e with storageFailures := e.storageFailures + 1 }
  | (.error (.throws _), e) => { e with rejected := e.rejected + 1 }
  | (.error _, e) => { e with ended := true }

/-! ## What a turn does -/

/-- Whether the run survives how a command ended. -/
def caught : Except Ending ApplyOutcome → Bool
  | .ok _ => true
  | .error (.throws _) => true
  | .error _ => false

section Turn

variable {log : CommandLog E L} (onFill : FillHandler) (fails : ℕ → Bool) {e : Engine L}
  {io : E} {command : Command} {l l' : L}

/-- A command that could not be logged is not applied. -/
theorem turn_refused {thrown : Thrown} (hl : e.log = some l)
    (ha : log.append l io command = (.error thrown, l')) :
    (e.turn log onFill fails io command).memory = e.memory ∧
    (e.turn log onFill fails io command).log = some l' ∧
    (e.turn log onFill fails io command).applied = e.applied ∧
    (e.turn log onFill fails io command).ended = e.ended := by
  unfold turn apply
  rw [hl]
  dsimp only
  rw [ha]
  cases thrown <;> exact ⟨rfl, rfl, rfl, rfl⟩

/-- A command that was logged is applied, whatever the callback does. -/
theorem turn_logged {sequence : Sequence} (hl : e.log = some l)
    (ha : log.append l io command = (.ok sequence, l')) :
    (e.turn log onFill fails io command).memory =
        (applyCommand command fails e.memory).2 ∧
    (e.turn log onFill fails io command).log = some l' ∧
    (e.turn log onFill fails io command).applied =
        e.applied ++ [(command, (applyCommand command fails e.memory).1)] ∧
    (e.turn log onFill fails io command).ended =
        (e.ended || !caught (applyCommand command fails e.memory).1) := by
  unfold turn apply
  rw [hl]
  dsimp only
  rw [ha]
  dsimp only
  unfold mutate
  dsimp only
  cases applyCommand command fails e.memory with
  | mk r memory =>
      cases r with
      | error f =>
          cases f with
          | throws x =>
              cases x <;> exact ⟨rfl, rfl, rfl, (Bool.or_false _).symm⟩
          | undefined p => exact ⟨rfl, rfl, rfl, (Bool.or_true _).symm⟩
          | terminate => exact ⟨rfl, rfl, rfl, (Bool.or_true _).symm⟩
      | ok outcome =>
          dsimp only
          cases publish onFill outcome.fills e.fills with
          | mk thrown fills =>
              cases thrown with
              | none =>
                  by_cases hacc : outcome.accepted = true
                  · dsimp only
                    rw [if_pos hacc]
                    exact ⟨rfl, rfl, rfl, (Bool.or_false _).symm⟩
                  · dsimp only
                    rw [if_neg hacc]
                    exact ⟨rfl, rfl, rfl, (Bool.or_false _).symm⟩
              | some t =>
                  cases t <;> exact ⟨rfl, rfl, rfl, (Bool.or_false _).symm⟩

/-- The commands `run` has accounted for. -/
def counted (e : Engine L) : ℕ := e.processed + e.rejected + e.storageFailures

/-- What a call adds to the counters: nothing if something was thrown. -/
def counts {ε : Type} : Except ε Unit → ℕ
  | .ok () => 1
  | .error _ => 0

theorem mutate_counted {e e' : Engine L} {r : Except (Fault Thrown Precondition) Unit}
    (h : e.mutate onFill fails command = (r, e')) :
    e'.counted = e.counted + counts r := by
  unfold mutate at h
  dsimp only at h
  split at h
  · cases h
    rfl
  · cases h
    rfl
  · cases h
    rfl
  · split at h
    · cases h
      rfl
    · split at h <;> cases h <;> simp only [counted, counts] <;> omega

theorem apply_counted {e e' : Engine L} {r : Except (Fault Thrown Precondition) Unit}
    (h : e.apply log onFill fails io command = (r, e')) :
    e'.counted = e.counted + counts r := by
  unfold apply at h
  split at h
  · exact mutate_counted onFill fails h
  · split at h
    · cases h
      rfl
    · exact (mutate_counted onFill fails h).trans rfl

/-- Every command the run survives is counted once: as processed, as rejected, or as a
storage failure. -/
theorem turn_counted (h : (e.turn log onFill fails io command).ended = false) :
    (e.turn log onFill fails io command).counted = e.counted + 1 := by
  cases hr : e.apply log onFill fails io command with
  | mk r e' =>
      have happly := apply_counted onFill fails hr
      unfold turn at h ⊢
      rw [hr] at h ⊢
      cases r with
      | ok u => exact happly
      | error f =>
          cases f with
          | throws x =>
              replace happly : e'.counted = e.counted := happly
              unfold counted at happly ⊢
              cases x <;> dsimp only <;> omega
          | _ => cases h

end Turn

end Engine

end Exchange
