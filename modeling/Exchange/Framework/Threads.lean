import Exchange.Framework.Machine
import Exchange.Framework.Tally
import Mathlib

/-!
# Threads that interleave their operations

A call is a list of operations, each atomic. Carrying one out changes the shared state
and leaves further operations to do before the rest of the call; what the environment
answers is an argument of the step. Any thread that is in no call may start one, and any
thread that is in one may move.

Besides an invariant of the shared state, a proof about all interleavings needs to speak
about what the threads still have to do: of which kind it is (`Everywhere`), that
something of a kind is still to be done (`Awaits`), or how much of it there is (`load`).
-/

namespace Exchange.Framework

structure Program (σ ω ε κ : Type) where
  entry : κ → List ω
  /-- There is no result where the environment cannot answer so. -/
  exec : ε → ω → σ → Option (σ × List ω)

/-- The shared state, and what each of `n` threads has to do. -/
structure Threads (σ ω : Type) (n : ℕ) where
  shared : σ
  todo : Fin n → List ω := fun _ => []

/-- One thread changes the shared state and what it has to do. -/
def Threads.move {σ ω : Type} {n : ℕ} (s : Threads σ ω n) (t : Fin n) (shared : σ)
    (ops : List ω) : Threads σ ω n :=
  { shared, todo := Function.update s.todo t ops }

section Move

variable {σ ω : Type} {n : ℕ} (s : Threads σ ω n) (t : Fin n) (shared : σ) (ops : List ω)

@[simp] theorem Threads.move_shared : (s.move t shared ops).shared = shared := rfl

@[simp] theorem Threads.move_self : (s.move t shared ops).todo t = ops :=
  Function.update_self ..

variable {t} in
@[simp] theorem Threads.move_of_ne {u : Fin n} (h : u ≠ t) :
    (s.move t shared ops).todo u = s.todo u :=
  Function.update_of_ne h ..

end Move

namespace Program

variable {σ ω ε κ : Type} {n : ℕ} (P : Program σ ω ε κ)

inductive Label (ε κ : Type) (n : ℕ) : Type where
  | call (t : Fin n) (call : κ)
  | act (t : Fin n) (env : ε)
deriving DecidableEq, Repr

def call (s : Threads σ ω n) (t : Fin n) (call : κ) : Option (Threads σ ω n) :=
  match s.todo t with
  | [] => some (s.move t s.shared (P.entry call))
  | _ :: _ => none

def act (s : Threads σ ω n) (t : Fin n) (env : ε) : Option (Threads σ ω n) :=
  match s.todo t with
  | [] => none
  | op :: rest =>
      (P.exec env op s.shared).map fun (shared, ops) =>
        s.move t shared (ops ++ rest)

def machine (n : ℕ) : Machine (Threads σ ω n) (Label ε κ n) where
  step s label :=
    match label with
    | .call t call => P.call s t call
    | .act t env => P.act s t env

/-! ## What a step can do -/

variable {P} {s s' : Threads σ ω n} {label : Label ε κ n}

variable (P s) in
inductive Step : Label ε κ n → Threads σ ω n → Prop where
  | call {t : Fin n} {call : κ} (ht : s.todo t = []) :
      Step (.call t call) (s.move t s.shared (P.entry call))
  | act {t : Fin n} {env : ε} {op : ω} {rest ops : List ω} {shared : σ}
      (ht : s.todo t = op :: rest) (hexec : P.exec env op s.shared = some (shared, ops)) :
      Step (.act t env) (s.move t shared (ops ++ rest))

theorem step_cases (h : (P.machine n).step s label = some s') : P.Step s label s' := by
  cases label with
  | call t call =>
      change P.call s t call = some s' at h
      unfold Program.call at h
      split at h
      · cases h
        exact .call ‹_›
      · cases h
  | act t env =>
      change P.act s t env = some s' at h
      unfold Program.act at h
      split at h
      · cases h
      · obtain ⟨⟨shared, ops⟩, hexec, rfl⟩ := Option.map_eq_some_iff.mp h
        exact .act ‹_› hexec

variable (P) in
/-- A move of thread `t`. -/
def Moves (t : Fin n) (s s' : Threads σ ω n) : Prop :=
  (∃ call, (P.machine n).step s (.call t call) = some s') ∨
    ∃ env, (P.machine n).step s (.act t env) = some s'

theorem moves_call {t : Fin n} (ht : s.todo t = []) (call : κ) :
    P.Moves t s (s.move t s.shared (P.entry call)) := by
  refine Or.inl ⟨call, ?_⟩
  show P.call s t call = _
  unfold Program.call
  rw [ht]

theorem moves_act {t : Fin n} {op : ω} {rest ops : List ω} {shared : σ} (env : ε)
    (ht : s.todo t = op :: rest) (hexec : P.exec env op s.shared = some (shared, ops)) :
    P.Moves t s (s.move t shared (ops ++ rest)) := by
  refine Or.inr ⟨env, ?_⟩
  show P.act s t env = _
  unfold Program.act
  rw [ht]
  dsimp only
  rw [hexec]
  rfl

/-! ## Of which kind the operations are -/

/-- Every operation a thread has to do is of a kind the thread may do. -/
def Everywhere (Q : Fin n → ω → Prop) (s : Threads σ ω n) : Prop :=
  ∀ t, ∀ op ∈ s.todo t, Q t op

theorem Everywhere.update {Q : Fin n → ω → Prop} (h : Everywhere Q s) {t : Fin n}
    {shared : σ} {ops : List ω} (hops : ∀ op ∈ ops, Q t op) :
    Everywhere Q (s.move t shared ops) := by
  intro u op hop
  by_cases hu : u = t
  · subst hu
    rw [Threads.move_self] at hop
    exact hops op hop
  · rw [Threads.move_of_ne _ _ _ hu] at hop
    exact h u op hop

theorem Everywhere.act {Q : Fin n → ω → Prop} (h : Everywhere Q s) {t : Fin n}
    {op : ω} {rest ops : List ω} {shared : σ} (ht : s.todo t = op :: rest)
    (hops : Q t op → ∀ op' ∈ ops, Q t op') :
    Everywhere Q (s.move t shared (ops ++ rest)) := by
  refine h.update fun op' hop' => ?_
  rcases List.mem_append.mp hop' with hnew | hold
  · exact hops (h t op (by rw [ht]; exact List.mem_cons_self)) op' hnew
  · exact h t op' (by rw [ht]; exact List.mem_cons_of_mem op hold)

/-! ## What is still to be done -/

def Awaits (p : ω → Prop) (s : Threads σ ω n) : Prop :=
  ∃ t, ∃ op ∈ s.todo t, p op

theorem Awaits.call {p : ω → Prop} (h : Awaits p s) {t : Fin n} (ht : s.todo t = [])
    (ops : List ω) : Awaits p (s.move t s.shared ops) := by
  obtain ⟨u, op, hop, hp⟩ := h
  have hu : u ≠ t := by
    rintro rfl
    rw [ht] at hop
    cases hop
  exact ⟨u, op, by rwa [Threads.move_of_ne _ _ _ hu], hp⟩

/-- What is awaited has just been done, or is awaited still. -/
theorem Awaits.act {p : ω → Prop} (h : Awaits p s) {t : Fin n} {op : ω} {rest : List ω}
    (ht : s.todo t = op :: rest) (shared : σ) (ops : List ω) :
    p op ∨ Awaits p (s.move t shared (ops ++ rest)) := by
  obtain ⟨u, op', hop', hp⟩ := h
  by_cases hu : u = t
  · subst hu
    rw [ht] at hop'
    rcases List.mem_cons.mp hop' with rfl | hrest
    · exact Or.inl hp
    · refine Or.inr ⟨u, op', ?_, hp⟩
      rw [Threads.move_self]
      exact List.mem_append_right ops hrest
  · exact Or.inr ⟨u, op', by rwa [Threads.move_of_ne _ _ _ hu], hp⟩

theorem awaits_new {p : ω → Prop} {t : Fin n} {op : ω} {rest ops : List ω} {shared : σ}
    (hop : op ∈ ops) (hp : p op) :
    Awaits p (s.move t shared (ops ++ rest)) :=
  ⟨t, op, by rw [Threads.move_self]; exact List.mem_append_left rest hop, hp⟩

/-! ## How much there is to be done -/

section Load

variable (weight : ω → ℕ)

def load (s : Threads σ ω n) : ℕ :=
  tally Finset.univ (fun ops : List ω => (ops.map weight).sum) s.todo

variable {weight}

theorem sum_weightless {ops : List ω} (h : ∀ op ∈ ops, weight op = 0) :
    (ops.map weight).sum = 0 := by
  refine List.sum_eq_zero fun w hw => ?_
  obtain ⟨op, hop, rfl⟩ := List.mem_map.mp hw
  exact h op hop

theorem load_call {t : Fin n} (ht : s.todo t = []) {ops : List ω} {shared : σ}
    (hops : ∀ op ∈ ops, weight op = 0) :
    load weight (s.move t shared ops) = load weight s := by
  have h := tally_update Finset.univ (fun ops : List ω => (ops.map weight).sum)
    (Finset.mem_univ t) s.todo ops
  rw [ht, List.map_nil, List.sum_nil, add_zero, sum_weightless hops, add_zero] at h
  exact h

/-- The load changes by what the operation weighed and what it leaves to do. -/
theorem load_act {t : Fin n} {op : ω} {rest ops : List ω} {shared : σ}
    (ht : s.todo t = op :: rest) :
    load weight (s.move t shared (ops ++ rest)) + weight op =
      load weight s + (ops.map weight).sum := by
  have h := tally_update Finset.univ (fun ops : List ω => (ops.map weight).sum)
    (Finset.mem_univ t) s.todo (ops ++ rest)
  rw [ht, List.map_cons, List.sum_cons, List.map_append, List.sum_append, ← add_assoc,
    ← add_assoc, add_left_inj] at h
  exact h

/-- What a thread does next is part of the load. -/
theorem weight_le_load {t : Fin n} {op : ω} {rest : List ω} (ht : s.todo t = op :: rest) :
    weight op ≤ load weight s := by
  have h : load weight (s.move t s.shared ([] ++ rest)) + weight op = load weight s + 0 :=
    load_act ht
  omega

theorem load_eq_zero_iff : load weight s = 0 ↔ ∀ t, ∀ op ∈ s.todo t, weight op = 0 := by
  constructor
  · intro h t op hop
    change ∑ t, ((s.todo t).map weight).sum = 0 at h
    have hsum := Finset.sum_eq_zero_iff.mp h t (Finset.mem_univ t)
    exact List.sum_eq_zero_iff.mp hsum _ (List.mem_map_of_mem hop)
  · intro h
    exact tally_eq_zero _ fun t _ => sum_weightless (h t)

end Load

end Program

end Exchange.Framework
