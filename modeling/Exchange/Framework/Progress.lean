import Exchange.Framework.Machine
import Mathlib.Tactic

/-!
# Progress of a machine

A potential bounds how long a machine can go on by itself: every step uses some of it
up, and only what its environment puts in, counted as credit, makes up for it. If some
step can be taken as long as a goal has not been reached, every schedule then comes to
it, whichever thread is the next to move: nothing is asked of the scheduler.
-/

namespace Exchange.Framework.Machine

variable {σ ℓ : Type} {M : Machine σ ℓ} {I : σ → Prop} {potential credit : σ → ℕ}

/-- **Potential rule.** If a step uses up one of the potential and of the credit it gets,
a run is no longer than the potential it starts with and the credit it was given. -/
theorem run_length_le
    (hkeep : ∀ {s label s'}, I s → M.step s label = some s' → I s')
    (hstep : ∀ {s label s'}, I s → M.step s label = some s' →
      potential s' + 1 + credit s ≤ potential s + credit s')
    {labels : List ℓ} {s s' : σ} (hs : I s) (h : M.run s labels = some s') :
    labels.length + potential s' + credit s ≤ potential s + credit s' := by
  induction labels generalizing s with
  | nil =>
      cases h
      simp
  | cons label labels ih =>
      obtain ⟨mid, hmid, hrest⟩ := Option.bind_eq_some_iff.mp h
      have hrun := ih (hkeep hs hmid) hrest
      have hone := hstep hs hmid
      rw [List.length_cons]
      omega

end Exchange.Framework.Machine
