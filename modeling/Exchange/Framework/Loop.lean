import Mathlib.Tactic

/-!
# While loops with a ranking function

A loop is a body that either goes round again or leaves with a result, paired
with the measure each turn decreases. Because the measure is part of the loop,
running it is a total function, and it still computes: `run` is a structural
recursion on the measure and not on an accessibility proof.

`run_next` and `run_done` are the two loop equations; `run_induction` is the
invariant rule every loop proof of the development goes through, and
`run_related` the one for two loops that run side by side.
-/

namespace Exchange.Framework

/-- What one evaluation of a loop body decides. -/
inductive Turn (σ β : Type) : Type where
  | next (s : σ)
  | done (b : β)

/-- A loop body with its ranking function. -/
structure Loop (σ β : Type) where
  body : σ → Turn σ β
  rank : σ → ℕ
  decreases : ∀ s s', body s = .next s' → rank s' < rank s

namespace Loop

variable {σ β : Type} (L : Loop σ β)

/-- The loop with a bound on its turns. -/
def iterate : ℕ → σ → Option β
  | 0, _ => none
  | n + 1, s =>
      match L.body s with
      | .next s' => iterate n s'
      | .done b => some b

theorem iterate_isSome : ∀ (n : ℕ) (s : σ), L.rank s < n →
    (L.iterate n s).isSome = true
  | 0, s, h => absurd h (Nat.not_lt_zero _)
  | n + 1, s, h => by
      rw [iterate]
      cases hb : L.body s with
      | next s' =>
          have hlt := L.decreases s s' hb
          exact iterate_isSome n s' (by omega)
      | done b => rfl

/-- More turns than the rank change nothing. -/
theorem iterate_mono : ∀ (n m : ℕ) (s : σ), L.rank s < n → n ≤ m →
    L.iterate m s = L.iterate n s
  | 0, m, s, h, _ => absurd h (Nat.not_lt_zero _)
  | n + 1, 0, s, _, hle => absurd hle (Nat.not_succ_le_zero n)
  | n + 1, m + 1, s, h, hle => by
      rw [iterate, iterate]
      cases hb : L.body s with
      | next s' =>
          have hlt := L.decreases s s' hb
          exact iterate_mono n m s' (by omega) (by omega)
      | done b => rfl

/-- Run the loop to its exit. -/
def run (s : σ) : β :=
  (L.iterate (L.rank s + 1) s).get (L.iterate_isSome _ s (Nat.lt_succ_self _))

theorem run_eq_iff {s : σ} {b : β} :
    L.run s = b ↔ L.iterate (L.rank s + 1) s = some b := by
  unfold run
  constructor
  · rintro rfl
    exact (Option.some_get _).symm
  · intro h
    simp [h]

theorem run_next {s s' : σ} (h : L.body s = .next s') : L.run s = L.run s' := by
  have hlt := L.decreases s s' h
  rw [run_eq_iff, iterate, h]
  show L.iterate (L.rank s) s' = some (L.run s')
  rw [L.iterate_mono (L.rank s' + 1) (L.rank s) s' (by omega) hlt]
  exact L.run_eq_iff.mp rfl

theorem run_done {s : σ} {b : β} (h : L.body s = .done b) : L.run s = b := by
  rw [run_eq_iff, iterate, h]

/-- **Invariant rule.** An invariant that holds at entry and survives every
turn holds where the loop leaves. -/
theorem run_induction {I : σ → Prop} {P : β → Prop} {s : σ}
    (entry : I s)
    (turn : ∀ s s', I s → L.body s = .next s' → I s')
    (leave : ∀ s b, I s → L.body s = .done b → P b) :
    P (L.run s) := by
  induction hn : L.rank s using Nat.strong_induction_on generalizing s with
  | _ n ih =>
      cases hb : L.body s with
      | next s' =>
          have hlt := L.decreases s s' hb
          rw [L.run_next hb]
          exact ih (L.rank s') (hn ▸ hlt) (turn s s' entry hb) rfl
      | done b =>
          rw [L.run_done hb]
          exact leave s b entry hb

/-- **Simulation rule.** Two loops whose bodies decide alike on related states
leave with related results. -/
theorem run_related {σ' β' : Type} (L' : Loop σ' β') {R : σ → σ' → Prop}
    {Q : β → β' → Prop} {s : σ} {s' : σ'} (entry : R s s')
    (turn : ∀ s s', R s s' →
      (∃ t t', L.body s = .next t ∧ L'.body s' = .next t' ∧ R t t') ∨
      ∃ b b', L.body s = .done b ∧ L'.body s' = .done b' ∧ Q b b') :
    Q (L.run s) (L'.run s') := by
  induction hn : L.rank s using Nat.strong_induction_on generalizing s s' with
  | _ n ih =>
      rcases turn s s' entry with ⟨t, t', ht, ht', hR⟩ | ⟨b, b', hb, hb', hQ⟩
      · have hlt := L.decreases s t ht
        rw [L.run_next ht, L'.run_next ht']
        exact ih (L.rank t) (hn ▸ hlt) hR rfl
      · rw [L.run_done hb, L'.run_done hb']
        exact hQ

end Loop

end Exchange.Framework
