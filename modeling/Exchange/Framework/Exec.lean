import Mathlib.Tactic

/-!
# Computations that allocate, throw, and may be undefined

A computation runs against a mutable state and an allocator. A throw does not
undo the writes made before it: the state reached is returned with the error,
so a strong exception guarantee is something to prove. The allocator fails
wherever the oracle `fails` says so, numbering allocations from the start of
the run; that number is also the address handed out, so addresses are never
reused.

Two ghost logs ride along: the state each allocation found, and whatever the
program chooses to `observe`.
-/

namespace Exchange.Framework

/-- How a computation ends without a result. -/
inductive Fault (ε π : Type) : Type where
  /-- An exception leaves the computation. -/
  | throws (e : ε)
  /-- A documented precondition is violated: anything may follow. -/
  | undefined (p : π)
  /-- An exception reached a `noexcept` boundary. -/
  | terminate
deriving DecidableEq, Repr

structure Memory (σ τ : Type) where
  state : σ
  /-- Allocations served so far, and the next address. -/
  ticks : ℕ := 0
  snapshots : List σ := []
  events : List τ := []

def Exec (σ τ ε π α : Type) : Type :=
  (ℕ → Bool) → Memory σ τ → Except (Fault ε π) α × Memory σ τ

namespace Exec

variable {σ τ ε π α β : Type}

instance : Monad (Exec σ τ ε π) where
  pure a := fun _ m => (.ok a, m)
  bind x f := fun fails m =>
    match x fails m with
    | (.ok a, m') => f a fails m'
    | (.error e, m') => (.error e, m')

/-! ## Primitives -/

def get : Exec σ τ ε π σ := fun _ m => (.ok m.state, m)

def set (s : σ) : Exec σ τ ε π Unit := fun _ m => (.ok (), { m with state := s })

def throw (e : ε) : Exec σ τ ε π α := fun _ m => (.error (.throws e), m)

def undefined (p : π) : Exec σ τ ε π α := fun _ m => (.error (.undefined p), m)

def observe (t : τ) : Exec σ τ ε π Unit :=
  fun _ m => (.ok (), { m with events := m.events ++ [t] })

/-- A precondition the program relies on without checking. -/
def require (p : π) (holds : Bool) : Exec σ τ ε π Unit :=
  if holds then pure () else undefined p

/-- A value the program relies on being there. -/
def expect (p : π) : Option α → Exec σ τ ε π α
  | some a => pure a
  | none => undefined p

/-- One allocation: an address, or the exception `e`. -/
def allocate (e : ε) : Exec σ τ ε π ℕ := fun fails m =>
  let m' := { m with ticks := m.ticks + 1, snapshots := m.snapshots ++ [m.state] }
  if fails m.ticks then (.error (.throws e), m') else (.ok m.ticks, m')

/-- `n` allocations in a row. -/
def allocateMany (e : ε) : ℕ → Exec σ τ ε π Unit
  | 0 => pure ()
  | n + 1 => do
      let _ ← allocate e
      allocateMany e n

/-- A `noexcept` boundary turns an escaping exception into termination. -/
def noexcept (x : Exec σ τ ε π α) : Exec σ τ ε π α := fun fails m =>
  match x fails m with
  | (.error (.throws _), m') => (.error .terminate, m')
  | r => r

/-! ## Running a sequence -/

section Run

variable {x : Exec σ τ ε π α} {f : α → Exec σ τ ε π β} {fails : ℕ → Bool}
  {m m' : Memory σ τ} {a : α} {e : Fault ε π}

theorem bind_ok (h : x fails m = (.ok a, m')) : (x >>= f) fails m = f a fails m' := by
  show (match x fails m with
        | (.ok a, m') => f a fails m'
        | (.error e, m') => (.error e, m')) = _
  rw [h]

theorem bind_error (h : x fails m = (.error e, m')) :
    (x >>= f) fails m = (.error e, m') := by
  show (match x fails m with
        | (.ok a, m') => f a fails m'
        | (.error e, m') => (.error e, m')) = _
  rw [h]

@[simp] theorem pure_run : (pure a : Exec σ τ ε π α) fails m = (.ok a, m) := rfl

@[simp] theorem get_bind {f : σ → Exec σ τ ε π β} :
    (get >>= f) fails m = f m.state fails m := rfl

@[simp] theorem set_bind {s : σ} {f : Unit → Exec σ τ ε π β} :
    (set s >>= f) fails m = f () fails { m with state := s } := rfl

@[simp] theorem observe_bind {t : τ} {f : Unit → Exec σ τ ε π β} :
    (observe t >>= f) fails m = f () fails { m with events := m.events ++ [t] } := rfl

@[simp] theorem pure_bind_run {f : α → Exec σ τ ε π β} :
    ((pure a : Exec σ τ ε π α) >>= f) fails m = f a fails m := rfl

@[simp] theorem expect_some_bind {p : π} {f : α → Exec σ τ ε π β} :
    (expect p (some a) >>= f) fails m = f a fails m := rfl

/-- A sequence that ends well did so half by half. -/
theorem bind_eq_ok {b : β} {m'' : Memory σ τ} (h : (x >>= f) fails m = (.ok b, m'')) :
    ∃ a m', x fails m = (.ok a, m') ∧ f a fails m' = (.ok b, m'') := by
  rcases hx : x fails m with ⟨e | a, m'⟩
  · rw [bind_error hx] at h
    cases h
  · rw [bind_ok hx] at h
    exact ⟨a, m', rfl, h⟩

/-- Renaming a result does not hide a failure. -/
theorem return_eq_error {g : α → β}
    (h : ((x >>= fun a => pure (g a)) fails m).1 = .error e) : (x fails m).1 = .error e := by
  rcases hx : x fails m with ⟨e' | a, m'⟩
  · rw [bind_error hx] at h
    cases h
    rfl
  · rw [bind_ok hx] at h
    cases h

theorem noexcept_eq_ok (h : noexcept x fails m = (.ok a, m')) :
    x fails m = (.ok a, m') := by
  unfold noexcept at h
  split at h
  · cases h
  · exact h

theorem noexcept_ok (h : x fails m = (.ok a, m')) : noexcept x fails m = (.ok a, m') := by
  unfold noexcept
  rw [h]

end Run

/-! ## Computations that touch nothing but the allocator -/

/-- `m'` is `m` after some more allocations, all of which found `m`'s state. -/
structure Frozen (m m' : Memory σ τ) : Prop where
  state : m'.state = m.state
  events : m'.events = m.events
  ticks : m.ticks ≤ m'.ticks
  snapshots : ∃ k, m'.snapshots = m.snapshots ++ List.replicate k m.state

theorem Frozen.refl (m : Memory σ τ) : Frozen m m :=
  ⟨rfl, rfl, Nat.le_refl _, 0, by simp⟩

theorem Frozen.trans {m₁ m₂ m₃ : Memory σ τ} (h : Frozen m₁ m₂) (h' : Frozen m₂ m₃) :
    Frozen m₁ m₃ := by
  obtain ⟨k, hk⟩ := h.snapshots
  obtain ⟨k', hk'⟩ := h'.snapshots
  refine ⟨h'.state.trans h.state, h'.events.trans h.events,
    Nat.le_trans h.ticks h'.ticks, k + k', ?_⟩
  rw [hk', hk, h.state, List.append_assoc, List.replicate_append_replicate]

/-- One allocation fails, or hands out the next address. -/
theorem allocate_cases (e : ε) (fails : ℕ → Bool) (m : Memory σ τ) :
    ∃ m', Frozen m m' ∧ m'.ticks = m.ticks + 1 ∧
      (fails m.ticks = true ∧
          (allocate e : Exec σ τ ε π ℕ) fails m = (.error (.throws e), m') ∨
        (allocate e : Exec σ τ ε π ℕ) fails m = (.ok m.ticks, m')) := by
  refine ⟨{ m with ticks := m.ticks + 1, snapshots := m.snapshots ++ [m.state] },
    ⟨rfl, rfl, Nat.le_succ _, 1, rfl⟩, rfl, ?_⟩
  unfold allocate
  by_cases h : fails m.ticks = true
  · exact Or.inl ⟨h, by simp [h]⟩
  · exact Or.inr (by simp [h])

theorem allocate_eq_ok {e : ε} {fails : ℕ → Bool} {m m' : Memory σ τ} {a : ℕ}
    (h : (allocate e : Exec σ τ ε π ℕ) fails m = (.ok a, m')) :
    fails m.ticks = false ∧
      m' = { m with ticks := m.ticks + 1, snapshots := m.snapshots ++ [m.state] } := by
  unfold allocate at h
  dsimp only at h
  split at h
  · cases h
  · rename_i hf
    cases h
    exact ⟨by simpa using hf, rfl⟩

theorem allocate_run {e : ε} {fails : ℕ → Bool} {m : Memory σ τ} (h : fails m.ticks = false) :
    (allocate e : Exec σ τ ε π ℕ) fails m = (.ok m.ticks,
      { m with ticks := m.ticks + 1, snapshots := m.snapshots ++ [m.state] }) := by
  unfold allocate
  simp [h]

theorem allocateMany_cases (e : ε) (fails : ℕ → Bool) : ∀ (n : ℕ) (m : Memory σ τ),
    ∃ m', Frozen m m' ∧
      ((∃ k, fails k = true) ∧
          (allocateMany e n : Exec σ τ ε π Unit) fails m = (.error (.throws e), m') ∨
        (allocateMany e n : Exec σ τ ε π Unit) fails m = (.ok (), m'))
  | 0, m => ⟨m, Frozen.refl m, Or.inr rfl⟩
  | n + 1, m => by
      obtain ⟨m₁, hm₁, _, h₁⟩ := allocate_cases (π := π) e fails m
      rcases h₁ with ⟨hf, h₁⟩ | h₁
      · exact ⟨m₁, hm₁, Or.inl ⟨⟨_, hf⟩, bind_error h₁⟩⟩
      · obtain ⟨m₂, hm₂, h₂⟩ := allocateMany_cases e fails n m₁
        refine ⟨m₂, hm₁.trans hm₂, ?_⟩
        rw [show (allocateMany e (n + 1) : Exec σ τ ε π Unit) fails m =
          (allocateMany e n : Exec σ τ ε π Unit) fails m₁ from bind_ok h₁]
        exact h₂

end Exec

end Exchange.Framework
