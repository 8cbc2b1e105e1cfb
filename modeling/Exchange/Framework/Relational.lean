import Exchange.Framework.Exec

/-!
# Computations in step

Two computations over two kinds of state, run against the same allocator. They
are in step if, started in corresponding memories, they end alike: both with
corresponding results or both with the same fault, and again in corresponding
memories. One rule per primitive, one for sequencing.
-/

namespace Exchange.Framework

/-- Corresponding options, bound to corresponding continuations. -/
theorem rel_bind {α α' β β' : Type} {Q : α → α' → Prop} {P : β → β' → Prop}
    {o : Option α} {o' : Option α'} {f : α → Option β} {f' : α' → Option β'}
    (h : Option.Rel Q o o') (hf : ∀ a a', Q a a' → Option.Rel P (f a) (f' a')) :
    Option.Rel P (o >>= f) (o' >>= f') := by
  cases h with
  | none => exact .none
  | some h => exact hf _ _ h

theorem rel_map {α β : Type} (f : α → β) (o : Option α) :
    Option.Rel (fun a b => b = f a) o (o.map f) := by
  cases o with
  | none => exact .none
  | some a => exact .some rfl

namespace Exec

variable {σ σ' τ ε π α α' β β' : Type}

/-- Corresponding states, and an allocator that has served as many requests. -/
structure InStep (R : σ → σ' → Prop) (m : Memory σ τ) (m' : Memory σ' τ) : Prop where
  state : R m.state m'.state
  ticks : m'.ticks = m.ticks

/-- Two runs that end alike. -/
inductive EndAlike (R : σ → σ' → Prop) (Q : α → α' → Prop) :
    Except (Fault ε π) α × Memory σ τ → Except (Fault ε π) α' × Memory σ' τ → Prop where
  | ok {a : α} {a' : α'} {m : Memory σ τ} {m' : Memory σ' τ} (h : Q a a')
      (hm : InStep R m m') : EndAlike R Q (.ok a, m) (.ok a', m')
  | error {e : Fault ε π} {m : Memory σ τ} {m' : Memory σ' τ} (hm : InStep R m m') :
      EndAlike R Q (.error e, m) (.error e, m')

/-- Started in step, `x` and `x'` end alike, whichever allocations fail. -/
def Simulates (R : σ → σ' → Prop) (Q : α → α' → Prop) (x : Exec σ τ ε π α)
    (x' : Exec σ' τ ε π α') : Prop :=
  ∀ fails m m', InStep R m m' → EndAlike R Q (x fails m) (x' fails m')

variable {R : σ → σ' → Prop} {Q : α → α' → Prop} {P : β → β' → Prop}

/-! ## Sequencing -/

/-- The second halves may establish a weaker correspondence. -/
theorem EndAlike.bind_to {R' : σ → σ' → Prop} {x : Exec σ τ ε π α} {x' : Exec σ' τ ε π α'}
    {f : α → Exec σ τ ε π β} {f' : α' → Exec σ' τ ε π β'} {fails : ℕ → Bool}
    {m : Memory σ τ} {m' : Memory σ' τ} (h : EndAlike R Q (x fails m) (x' fails m'))
    (hR : ∀ b b', R b b' → R' b b')
    (hf : ∀ a a' n n', Q a a' → InStep R n n' →
      EndAlike R' P (f a fails n) (f' a' fails n')) :
    EndAlike R' P ((x >>= f) fails m) ((x' >>= f') fails m') := by
  rcases hx : x fails m with ⟨r, n⟩
  rcases hx' : x' fails m' with ⟨r', n'⟩
  rw [hx, hx'] at h
  rcases h with ⟨hQ, hm⟩ | hm
  · rw [bind_ok hx, bind_ok hx']
    exact hf _ _ n n' hQ hm
  · rw [bind_error hx, bind_error hx']
    exact .error ⟨hR _ _ hm.state, hm.ticks⟩

theorem EndAlike.bind {x : Exec σ τ ε π α} {x' : Exec σ' τ ε π α'}
    {f : α → Exec σ τ ε π β} {f' : α' → Exec σ' τ ε π β'} {fails : ℕ → Bool}
    {m : Memory σ τ} {m' : Memory σ' τ} (h : EndAlike R Q (x fails m) (x' fails m'))
    (hf : ∀ a a', Q a a' → Simulates R P (f a) (f' a')) :
    EndAlike R P ((x >>= f) fails m) ((x' >>= f') fails m') :=
  h.bind_to (fun _ _ hb => hb) fun a a' n n' hQ hm => hf a a' hQ fails n n' hm

theorem Simulates.bind {x : Exec σ τ ε π α} {x' : Exec σ' τ ε π α'}
    {f : α → Exec σ τ ε π β} {f' : α' → Exec σ' τ ε π β'} (h : Simulates R Q x x')
    (hf : ∀ a a', Q a a' → Simulates R P (f a) (f' a')) :
    Simulates R P (x >>= f) (x' >>= f') :=
  fun fails m m' hm => (h fails m m' hm).bind hf

/-! ## Primitives -/

theorem Simulates.pure {a : α} {a' : α'} (h : Q a a') :
    Simulates R Q (pure a : Exec σ τ ε π α) (pure a' : Exec σ' τ ε π α') :=
  fun _ _ _ hm => .ok h hm

theorem Simulates.get : Simulates R R (get : Exec σ τ ε π σ) (get : Exec σ' τ ε π σ') :=
  fun _ _ _ hm => .ok hm.state hm

theorem Simulates.set {s : σ} {s' : σ'} (h : R s s') :
    Simulates R Eq (set s : Exec σ τ ε π Unit) (set s' : Exec σ' τ ε π Unit) :=
  fun _ _ _ hm => .ok rfl ⟨h, hm.ticks⟩

theorem Simulates.throw (e : ε) :
    Simulates R Q (throw e : Exec σ τ ε π α) (throw e : Exec σ' τ ε π α') :=
  fun _ _ _ hm => .error hm

theorem Simulates.undefined (p : π) :
    Simulates R Q (undefined p : Exec σ τ ε π α) (undefined p : Exec σ' τ ε π α') :=
  fun _ _ _ hm => .error hm

theorem Simulates.observe (t t' : τ) :
    Simulates R Eq (observe t : Exec σ τ ε π Unit) (observe t' : Exec σ' τ ε π Unit) :=
  fun _ _ _ hm => .ok rfl ⟨hm.state, hm.ticks⟩

theorem Simulates.ite {c c' : Prop} [Decidable c] [Decidable c'] {x y : Exec σ τ ε π α}
    {x' y' : Exec σ' τ ε π α'} (hc : c' ↔ c) (hx : Simulates R Q x x')
    (hy : Simulates R Q y y') :
    Simulates R Q (if c then x else y) (if c' then x' else y') := by
  by_cases h : c
  · rw [if_pos h, if_pos (hc.mpr h)]
    exact hx
  · rw [if_neg h, if_neg (hc.not.mpr h)]
    exact hy

theorem Simulates.require (p : π) {holds holds' : Bool} (h : holds' = holds) :
    Simulates R Eq (require p holds : Exec σ τ ε π Unit)
      (require p holds' : Exec σ' τ ε π Unit) := by
  rw [h]
  exact .ite Iff.rfl (.pure rfl) (.undefined p)

theorem Simulates.expect (p : π) {o : Option α} {o' : Option α'} (h : Option.Rel Q o o') :
    Simulates R Q (expect p o : Exec σ τ ε π α) (expect p o' : Exec σ' τ ε π α') := by
  cases h with
  | none => exact .undefined p
  | some h => exact .pure h

/-- The allocator answers both alike. -/
theorem Simulates.allocate (e : ε) :
    Simulates R Eq (allocate e : Exec σ τ ε π ℕ) (allocate e : Exec σ' τ ε π ℕ) := by
  intro fails m m' hm
  unfold Exec.allocate
  rw [hm.ticks]
  split
  · exact .error ⟨hm.state, rfl⟩
  · exact .ok rfl ⟨hm.state, rfl⟩

theorem Simulates.allocateMany (e : ε) (n : ℕ) :
    Simulates R Eq (allocateMany e n : Exec σ τ ε π Unit)
      (allocateMany e n : Exec σ' τ ε π Unit) := by
  induction n with
  | zero => exact .pure rfl
  | succ n ih => exact .bind (.allocate e) fun _ _ _ => ih

theorem EndAlike.noexcept {x : Exec σ τ ε π α} {x' : Exec σ' τ ε π α'} {fails : ℕ → Bool}
    {m : Memory σ τ} {m' : Memory σ' τ} (h : EndAlike R Q (x fails m) (x' fails m')) :
    EndAlike R Q (noexcept x fails m) (noexcept x' fails m') := by
  unfold Exec.noexcept
  rcases hr : x fails m with ⟨r, n⟩
  rcases hr' : x' fails m' with ⟨r', n'⟩
  rw [hr, hr'] at h
  rcases h with ⟨hQ, hn⟩ | ⟨hn⟩
  · exact .ok hQ hn
  · rename_i e
    cases e <;> exact .error hn

theorem Simulates.noexcept {x : Exec σ τ ε π α} {x' : Exec σ' τ ε π α'}
    (h : Simulates R Q x x') : Simulates R Q (noexcept x) (noexcept x') :=
  fun fails m m' hm => (h fails m m' hm).noexcept

end Exec

end Exchange.Framework
