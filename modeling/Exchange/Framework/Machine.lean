import Mathlib.Logic.Relation

/-!
# Machines that take labelled steps

A system of several threads as a partial function of a state and a label: the
label says which thread moves and what its environment does, and no result means
that the thread cannot move. A run is a list of labels, so an interleaving is one.
-/

namespace Exchange.Framework

structure Machine (σ ℓ : Type) where
  step : σ → ℓ → Option σ

namespace Machine

variable {σ ℓ τ : Type} (M : Machine σ ℓ)

def run : σ → List ℓ → Option σ
  | s, [] => some s
  | s, label :: labels => (M.step s label).bind fun s => run s labels

variable {M}

/-- If every step is a move of what a view shows, every run is a series of them. -/
theorem run_simulates {R : τ → τ → Prop} {view : σ → τ}
    (hstep : ∀ {s label s'}, M.step s label = some s' → R (view s) (view s'))
    {labels : List ℓ} {s s' : σ} (h : M.run s labels = some s') :
    Relation.ReflTransGen R (view s) (view s') := by
  induction labels generalizing s with
  | nil =>
      cases h
      exact .refl
  | cons label labels ih =>
      obtain ⟨mid, hmid, hrest⟩ := Option.bind_eq_some_iff.mp h
      exact .head (hstep hmid) (ih hrest)

/-- A run goes on by a step. -/
theorem run_snoc {labels : List ℓ} {label : ℓ} {s mid s' : σ} (h : M.run s labels = some mid)
    (hstep : M.step mid label = some s') : M.run s (labels ++ [label]) = some s' := by
  induction labels generalizing s with
  | nil =>
      cases h
      rw [List.nil_append, run, hstep]
      rfl
  | cons first labels ih =>
      obtain ⟨next, hnext, hrest⟩ := Option.bind_eq_some_iff.mp h
      rw [List.cons_append, run, hnext]
      exact ih hrest

/-- **Invariant rule.** What every step preserves holds after every run. -/
theorem run_invariant {I : σ → Prop}
    (hstep : ∀ {s label s'}, I s → M.step s label = some s' → I s')
    {labels : List ℓ} {s s' : σ} (hs : I s) (h : M.run s labels = some s') : I s' := by
  induction labels generalizing s with
  | nil =>
      cases h
      exact hs
  | cons label labels ih =>
      obtain ⟨mid, hmid, hrest⟩ := Option.bind_eq_some_iff.mp h
      exact ih (hstep hs hmid) hrest

/-- What every step of a run preserves, if its label is of some kind, holds after a run of
such labels. -/
theorem run_invariant_of {I : σ → Prop} {kind : ℓ → Prop}
    (hstep : ∀ {s label s'}, kind label → I s → M.step s label = some s' → I s')
    {labels : List ℓ} {s s' : σ} (hkind : ∀ label ∈ labels, kind label) (hs : I s)
    (h : M.run s labels = some s') : I s' := by
  induction labels generalizing s with
  | nil =>
      cases h
      exact hs
  | cons label labels ih =>
      obtain ⟨mid, hmid, hrest⟩ := Option.bind_eq_some_iff.mp h
      obtain ⟨hlabel, hlabels⟩ := List.forall_mem_cons.mp hkind
      exact ih hlabels (hstep hlabel hs hmid) hrest

variable (M) in
/-- The steps that meet a condition on the state before them. -/
def within (allowed : σ → ℓ → Prop) [∀ s label, Decidable (allowed s label)] :
    Machine σ ℓ where
  step s label := if allowed s label then M.step s label else none

theorem within_step {allowed : σ → ℓ → Prop} [∀ s label, Decidable (allowed s label)]
    {s s' : σ} {label : ℓ} (h : (M.within allowed).step s label = some s') :
    allowed s label ∧ M.step s label = some s' := by
  unfold within at h
  dsimp only at h
  split at h
  · exact ⟨‹_›, h⟩
  · cases h

theorem run_of_within {allowed : σ → ℓ → Prop} [∀ s label, Decidable (allowed s label)]
    {labels : List ℓ} {s s' : σ} (h : (M.within allowed).run s labels = some s') :
    M.run s labels = some s' := by
  induction labels generalizing s with
  | nil => exact h
  | cons label labels ih =>
      obtain ⟨mid, hmid, hrest⟩ := Option.bind_eq_some_iff.mp h
      rw [run, (within_step hmid).2]
      exact ih hrest

/-- A run either meets the condition throughout or up to a first step that does not. -/
theorem run_within_or (allowed : σ → ℓ → Prop) [∀ s label, Decidable (allowed s label)]
    {labels : List ℓ} {s s' : σ} (h : M.run s labels = some s') :
    (M.within allowed).run s labels = some s' ∨
      ∃ front label back mid, (M.within allowed).run s front = some mid ∧
        ¬ allowed mid label ∧ M.run mid (label :: back) = some s' := by
  induction labels generalizing s with
  | nil => exact Or.inl h
  | cons label labels ih =>
      obtain ⟨next, hnext, hrest⟩ := Option.bind_eq_some_iff.mp h
      by_cases hallowed : allowed s label
      · have hwithin : (M.within allowed).step s label = some next := by
          rw [within]
          dsimp only
          rw [if_pos hallowed, hnext]
        rcases ih hrest with hrun | ⟨front, label', back, mid, hfront, hnot, hback⟩
        · exact Or.inl (by rw [run, hwithin]; exact hrun)
        · exact Or.inr ⟨label :: front, label', back, mid, by rw [run, hwithin]; exact hfront,
            hnot, hback⟩
      · exact Or.inr ⟨[], label, labels, s, rfl, hallowed, h⟩

end Machine

end Exchange.Framework
