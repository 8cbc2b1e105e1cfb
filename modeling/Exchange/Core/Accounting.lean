import Exchange.Core.Engine
import Exchange.Core.Inversion
import Exchange.Core.TrancheRuns

/-!
# What the engine counts

`Engine::run` over the commands it pops, whatever the command log and the callback do.
Every command that does not end the run is counted once. Which counter it lands in is
decided by what reached the `catch` clauses, and they cannot tell an exception of the
book from one of the callback, which is called when the book has changed already.
-/

namespace Exchange

open Framework Framework.Exec

/-! ## What a command leaves behind -/

section Command

variable {m m' : BookMemory} {command : Command} {fails : ℕ → Bool} {out : ApplyOutcome}

/-- `amend` has found its order. -/
theorem Book.amend_status {s : Side} {resting : Order} {id : OrderId} {newQty : Quantity}
    {newPrice : Option Price} {result : ModifyResult}
    (h : Book.amend s resting id newQty newPrice fails m = (.ok result, m')) :
    result.status = .amendedInPlace ∨ result.status = .requeued := by
  unfold Book.amend at h
  obtain ⟨price, m₁, _, h⟩ := bind_eq_ok h
  dsimp only at h
  split at h
  · obtain ⟨_, _, _, h⟩ := bind_eq_ok h
    cases h
    exact Or.inl rfl
  · unfold Book.requeue at h
    obtain ⟨_, _, _, h⟩ := bind_eq_ok h
    obtain ⟨_, _, _, h⟩ := bind_eq_ok h
    obtain ⟨_, _, _, h⟩ := bind_eq_ok h
    obtain ⟨_, _, _, h⟩ := bind_eq_ok h
    obtain ⟨_, _, _, h⟩ := bind_eq_ok h
    obtain ⟨_, _, _, h⟩ := bind_eq_ok h
    obtain ⟨_, _, _, h⟩ := bind_eq_ok h
    cases h
    exact Or.inr rfl

theorem Book.cancel_unknown {id : OrderId} (h : Book.cancel id fails m = (.ok none, m')) :
    m' = m := by
  unfold Book.cancel at h
  obtain ⟨found, m₁, hbuy, h⟩ := bind_eq_ok h
  cases found with
  | some order => cases h
  | none => exact (cancelOn_eq_none h).trans (cancelOn_eq_none hbuy)

theorem Book.modify_declined {id : OrderId} {newQty : Quantity} {newPrice : Option Price}
    {result : ModifyResult} (h : Book.modify id newQty newPrice fails m = (.ok result, m'))
    (hs : result.status = .notFound ∨ result.status = .rejected) :
    m' = m ∧ result.fills = [] := by
  unfold Book.modify at h
  split at h
  · cases h
    exact ⟨rfl, rfl⟩
  · have hfind : ∀ {s m m' found}, Book.findOn s id fails m = (.ok found, m') → m' = m := by
      intro s m m' found hf
      have hm := findOn_memory s id fails m
      rw [hf] at hm
      exact hm
    have hamend : ∀ {s resting m}, Book.amend s resting id newQty newPrice fails m ≠
        (.ok result, m') := by
      intro s resting m ha
      rcases amend_status ha with h' | h' <;> rw [h'] at hs <;> rcases hs with hs | hs <;>
        cases hs
    obtain ⟨found, m₁, hbuy, h⟩ := bind_eq_ok h
    cases found with
    | some resting => exact absurd h hamend
    | none =>
        obtain ⟨found, m₂, hsell, h⟩ := bind_eq_ok h
        cases found with
        | some resting => exact absurd h hamend
        | none =>
            cases h
            exact ⟨(hfind hsell).trans (hfind hbuy), rfl⟩

/-- A command the book declines leaves the memory alone and fills nothing. -/
theorem applyCommand_declined (h : applyCommand command fails m = (.ok out, m'))
    (hacc : out.accepted = false) : m' = m ∧ out.fills = [] := by
  cases command with
  | submit order =>
      obtain ⟨result, _, _, h⟩ := bind_eq_ok h
      cases h
      cases hacc
  | cancel id =>
      obtain ⟨removed, m₁, hc, h⟩ := bind_eq_ok h
      cases h
      cases removed with
      | some order => cases hacc
      | none => exact ⟨Book.cancel_unknown hc, rfl⟩
  | modify id quantity price =>
      obtain ⟨result, m₁, hmod, h⟩ := bind_eq_ok h
      cases h
      refine Book.modify_declined hmod ?_
      have hor := of_decide_eq_false hacc
      tauto

/-- A command that throws leaves the book as it was. -/
theorem applyCommand_throws {x : Exception} (hm : WellFormed m)
    (h : applyCommand command fails m = (.error (.throws x), m')) : m'.state = m.state := by
  have href := applyCommand_refines hm command fails
  rw [h] at href
  cases href with
  | starved _ hm _ => exact hm.state
  | refused _ _ _ hm => exact hm.state

theorem applyCommand_wellFormed (hm : WellFormed m) (command : Command)
    (fails : ℕ → Bool) : WellFormed (applyCommand command fails m).2 := by
  have href := applyCommand_refines hm command fails
  rcases hx : applyCommand command fails m with ⟨r, m'⟩
  rw [hx] at href
  cases href with
  | starved _ hf _ => exact hm.of_frozen hf
  | refused _ _ _ hf => exact hm.of_frozen hf
  | done _ _ _ hwf => exact hwf

/-- A command that fills changes the book: its order has taken a place in time. -/
theorem applyCommand_fills (hm : WellFormed m)
    (h : applyCommand command fails m = (.ok out, m')) (hf : out.fills ≠ []) :
    m'.state ≠ m.state := by
  have href := applyCommand_refines hm command fails
  rw [h] at href
  cases href with
  | done _ _ he _ _ =>
      intro hsame
      obtain ⟨result, rfl, ht⟩ := Market.applyCommand_ok he
      have hnext : m'.state.view.nextSequence = m.state.view.nextSequence + 1 := by
        generalize m'.state.view = M' at ht
        generalize command.op = op at ht
        cases ht with
        | entered o swept => exact Market.settleEntry_nextSequence _ _ _ _
        | requeued id newQty newPrice s o swept =>
            rw [Market.settleEntry_nextSequence, Market.setLadder_nextSequence]
        | _ => exact absurd rfl hf
      rw [hsame] at hnext
      generalize m.state.view.nextSequence = n at hnext
      have hnat := congrArg UInt64.toNat hnext
      rw [UInt64.toNat_add] at hnat
      have hlt := n.toNat_lt
      have hone : (1 : UInt64).toNat = 1 := rfl
      omega

/-- A command that keeps to its tranche meets no precondition and keeps every tranche. -/
theorem applyCommand_shown (hm : WellFormed m) (hs : m.state.view.AllShown)
    (hop : WithinTranche m.state command.op) (fails : ℕ → Bool) :
    (applyCommand command fails m).2.state.view.AllShown ∧
      Engine.caught (applyCommand command fails m).1 = true := by
  have href := applyCommand_refines hm command fails
  rcases hx : applyCommand command fails m with ⟨r, m'⟩
  rw [hx] at href
  cases href with
  | starved _ hf _ => exact ⟨hf.state ▸ hs, rfl⟩
  | refused f _ he hf =>
      refine ⟨hf.state ▸ hs, ?_⟩
      unfold Market.applyCommand at he
      cases ha : m.state.view.apply command.op with
      | ok result => rw [ha] at he; cases he
      | error f' =>
          rw [ha] at he
          cases he
          rcases Market.apply_error ha with ⟨what, rfl⟩ | rfl
          · rfl
          · exact absurd ha (apply_defined hs _ _)
  | done out _ he _ _ =>
      obtain ⟨result, rfl, ht⟩ := Market.applyCommand_ok he
      exact ⟨(transition_tranche hm.valid hs hop.1 ht).1 hop.2, rfl⟩

end Command

namespace Engine

variable {E L : Type}

/-! ## The calls of the callback -/

/-- The calls made for these fills: one each, up to the first that throws. -/
def calls (onFill : FillHandler) : List Fill → ℕ → List Fill
  | [], _ => []
  | fill :: fills, count =>
      match onFill count fill with
      | some _ => [fill]
      | none => fill :: calls onFill fills (count + 1)

/-- `fills_` counts the calls. -/
theorem publish_count (onFill : FillHandler) (fills : List Fill) (count : ℕ) :
    (publish onFill fills count).2 = count + (calls onFill fills count).length := by
  induction fills generalizing count with
  | nil => rfl
  | cons fill fills ih =>
      rw [publish, calls]
      cases onFill count fill with
      | some thrown => rfl
      | none =>
          dsimp only
          rw [ih, List.length_cons]
          omega

/-- If no call throws there is one for every fill. -/
theorem calls_eq {onFill : FillHandler} {fills : List Fill} {count : ℕ}
    (h : (publish onFill fills count).1 = none) : calls onFill fills count = fills := by
  induction fills generalizing count with
  | nil => rfl
  | cons fill fills ih =>
      rw [publish] at h
      rw [calls]
      cases hr : onFill count fill with
      | some thrown => rw [hr] at h; cases h
      | none =>
          rw [hr] at h
          dsimp only
          rw [ih h]

/-- The calls made for the commands that were applied, of which `count` were made
before. -/
def called (onFill : FillHandler) :
    List (Command × Except Ending ApplyOutcome) → ℕ → List Fill
  | [], _ => []
  | (_, r) :: applied, count =>
      let made := calls onFill (fillsOf r) count
      made ++ called onFill applied (count + made.length)

/-- The fills the book produced. -/
def produced (applied : List (Command × Except Ending ApplyOutcome)) : List Fill :=
  applied.flatMap fun x => fillsOf x.2

theorem called_append (onFill : FillHandler)
    (applied applied' : List (Command × Except Ending ApplyOutcome)) (count : ℕ) :
    called onFill (applied ++ applied') count =
      called onFill applied count ++
        called onFill applied' (count + (called onFill applied count).length) := by
  induction applied generalizing count with
  | nil => rfl
  | cons x applied ih =>
      obtain ⟨command, r⟩ := x
      rw [List.cons_append, called, called, ih, List.append_assoc, List.length_append,
        Nat.add_assoc]

theorem produced_append (applied applied' : List (Command × Except Ending ApplyOutcome)) :
    produced (applied ++ applied') = produced applied ++ produced applied' :=
  List.flatMap_append

/-! ## A turn -/

/-- What `Engine::run` finds when it comes round: the next command, and what the log
and the allocator will do to it. -/
structure Popped (E : Type) where
  io : E
  fails : ℕ → Bool
  command : Command

/-- What a turn did once the command had reached the book. -/
def Settled (onFill : FillHandler) (e e' : Engine L) : Except Ending ApplyOutcome → Prop
  | .ok out =>
      e'.ended = e.ended ∧
      e'.fills = e.fills + (calls onFill out.fills e.fills).length ∧
      e'.processed = if (publish onFill out.fills e.fills).1 = none ∧ out.accepted = true
        then e.processed + 1 else e.processed
  | .error (.throws _) =>
      e'.ended = e.ended ∧ e'.fills = e.fills ∧ e'.processed = e.processed
  | .error _ => e'.ended = true ∧ e'.fills = e.fills

/-- Everything a turn can do to the book and the counters. -/
inductive Served (onFill : FillHandler) (p : Popped E) (e e' : Engine L) : Prop where
  /-- The command could not be logged. -/
  | unlogged (memory : e'.memory = e.memory) (applied : e'.applied = e.applied)
      (ended : e'.ended = e.ended) (fills : e'.fills = e.fills)
      (processed : e'.processed = e.processed)
  /-- It was applied. -/
  | applied (r : Except Ending ApplyOutcome)
      (ran : applyCommand p.command p.fails e.memory = (r, e'.memory))
      (applied : e'.applied = e.applied ++ [(p.command, r)])
      (settled : Settled onFill e e' r)

/-- The `catch` clauses of `run`. -/
def settle : Except (Fault Thrown Precondition) Unit × Engine L → Engine L
  | (.ok (), e) => e
  | (.error (.throws .storageError), e) =>
      { e with storageFailures := e.storageFailures + 1 }
  | (.error (.throws _), e) => { e with rejected := e.rejected + 1 }
  | (.error _, e) => { e with ended := true }

theorem turn_eq (log : CommandLog E L) (onFill : FillHandler) (p : Popped E)
    (e : Engine L) : e.turn log onFill p.fails p.io p.command =
      settle (e.apply log onFill p.fails p.io p.command) := rfl

theorem served_mutate (onFill : FillHandler) (p : Popped E) (e : Engine L)
    (l : Option L) :
    Served onFill p e (settle ({ e with log := l }.mutate onFill p.fails p.command)) := by
  unfold mutate
  dsimp only
  rcases hr : applyCommand p.command p.fails e.memory with ⟨r, m'⟩
  cases r with
  | error f =>
      cases f with
      | throws x => cases x <;> exact .applied _ hr rfl ⟨rfl, rfl, rfl⟩
      | undefined q => exact .applied _ hr rfl ⟨rfl, rfl⟩
      | terminate => exact .applied _ hr rfl ⟨rfl, rfl⟩
  | ok out =>
      have hcount := publish_count onFill out.fills e.fills
      rcases hp : publish onFill out.fills e.fills with ⟨thrown, count⟩
      rw [hp] at hcount
      dsimp only
      rw [hp]
      cases thrown with
      -- A handler that throws leaves the command uncounted, whatever came of it.
      | some t =>
          have hsettled : e.processed = if (publish onFill out.fills e.fills).1 = none ∧
              out.accepted = true then e.processed + 1 else e.processed := by
            rw [hp, if_neg]
            rintro ⟨h, _⟩
            cases h
          cases t <;> exact .applied (.ok out) hr rfl ⟨rfl, hcount, hsettled⟩
      | none =>
          by_cases hacc : out.accepted = true
          · dsimp only
            rw [if_pos hacc]
            refine .applied (.ok out) hr rfl ⟨rfl, hcount, ?_⟩
            rw [hp, if_pos ⟨rfl, hacc⟩]
            rfl
          · dsimp only
            rw [if_neg hacc]
            refine .applied (.ok out) hr rfl ⟨rfl, hcount, ?_⟩
            rw [hp, if_neg (fun h => hacc h.2)]
            rfl

theorem turn_served (log : CommandLog E L) (onFill : FillHandler) (p : Popped E)
    (e : Engine L) : Served onFill p e (e.turn log onFill p.fails p.io p.command) := by
  rw [turn_eq]
  unfold apply
  cases hl : e.log with
  | none => exact served_mutate onFill p e e.log
  | some l =>
      dsimp only
      rcases log.append l p.io p.command with ⟨r, l'⟩
      cases r with
      | ok sequence => exact served_mutate onFill p e (some l')
      | error thrown => cases thrown <;> exact .unlogged rfl rfl rfl rfl rfl

/-! ## Runs -/

/-- No call of the callback threw. -/
def Silent (onFill : FillHandler) (made : List Fill) : Prop :=
  ∀ k fill, made[k]? = some fill → onFill k fill = none

theorem publish_returns {onFill : FillHandler} {fills : List Fill} {count : ℕ} :
    (publish onFill fills count).1 = none ↔
      ∀ k fill, (calls onFill fills count)[k]? = some fill →
        onFill (count + k) fill = none := by
  induction fills generalizing count with
  | nil => simp [publish, calls]
  | cons fill fills ih =>
      rw [publish, calls]
      cases hr : onFill count fill with
      | some thrown =>
          simp only [reduceCtorEq, false_iff]
          intro h
          have hfirst := h 0 fill rfl
          rw [Nat.add_zero, hr] at hfirst
          cases hfirst
      | none =>
          dsimp only
          rw [ih]
          constructor
          · intro h k x hk
            cases k with
            | zero =>
                cases hk
                exact hr
            | succ k =>
                rw [Nat.add_comm k 1, ← Nat.add_assoc]
                exact h k x hk
          · intro h k x hk
            rw [Nat.add_assoc, Nat.add_comm 1 k]
            exact h (k + 1) x hk

/-- One more command: the calls so far returned, and so did its own. -/
theorem silent_snoc {onFill : FillHandler}
    {applied : List (Command × Except Ending ApplyOutcome)}
    {x : Command × Except Ending ApplyOutcome} :
    Silent onFill (called onFill (applied ++ [x]) 0) ↔
      Silent onFill (called onFill applied 0) ∧
        (publish onFill (fillsOf x.2) (called onFill applied 0).length).1 = none := by
  have hsnoc : called onFill (applied ++ [x]) 0 = called onFill applied 0 ++
      calls onFill (fillsOf x.2) (called onFill applied 0).length := by
    rw [called_append, called, called, List.append_nil, Nat.zero_add]
  rw [hsnoc, publish_returns]
  constructor
  · intro h
    constructor
    · intro k fill hk
      refine h k fill ?_
      rw [List.getElem?_append_left (List.getElem?_eq_some_iff.mp hk).1, hk]
    · intro k fill hk
      refine h _ fill ?_
      rw [List.getElem?_append_right (Nat.le_add_right _ _), Nat.add_sub_cancel_left, hk]
  · rintro ⟨hbefore, hown⟩ k fill hk
    by_cases hlt : k < (called onFill applied 0).length
    · rw [List.getElem?_append_left hlt] at hk
      exact hbefore k fill hk
    · rw [List.getElem?_append_right (Nat.not_lt.mp hlt)] at hk
      have := hown _ fill hk
      rwa [Nat.add_sub_cancel' (Nat.not_lt.mp hlt)] at this

section Run

variable (log : CommandLog E L) (onFill : FillHandler)

/-- The loop of `Engine::run`, over the commands it pops. -/
def drain (e : Engine L) (popped : List (Popped E)) : Engine L :=
  popped.foldl
    (fun e p => if e.ended then e else e.turn log onFill p.fails p.io p.command) e

theorem drain_snoc (e : Engine L) (popped : List (Popped E)) (p : Popped E) :
    drain log onFill e (popped ++ [p]) =
      if (drain log onFill e popped).ended then drain log onFill e popped
      else (drain log onFill e popped).turn log onFill p.fails p.io p.command := by
  rw [drain, List.foldl_append]
  rfl

/-- A command counted as rejected or as a storage failure left the book as it was. -/
def Unchanged (e : Engine L) (popped : List (Popped E)) : Prop :=
  ∀ before p, before ++ [p] <+: popped →
    (drain log onFill e (before ++ [p])).ended = false →
    (drain log onFill e (before ++ [p])).processed = (drain log onFill e before).processed →
    (drain log onFill e (before ++ [p])).memory.state =
      (drain log onFill e before).memory.state

/-- What the counters and the callback tell of a run is so: what is not counted as
processed did nothing, and each fill was handed over once, in order. -/
structure Truthful (e : Engine L) (popped : List (Popped E)) : Prop where
  unchanged : Unchanged log onFill e popped
  handled : called onFill (drain log onFill e popped).applied 0 =
    produced (drain log onFill e popped).applied

/-- What every turn keeps: the book is well formed, and `fills_` is the number of calls. -/
structure Accounts (e : Engine L) : Prop where
  wellFormed : WellFormed e.memory
  fills : e.fills = (called onFill e.applied 0).length

variable {log onFill} {e e' : Engine L} {p : Popped E}

theorem Served.accounts (h : Served onFill p e e') (he : Accounts onFill e) :
    Accounts onFill e' := by
  cases h with
  | unlogged hmemory happlied _ hfills _ =>
      exact ⟨hmemory ▸ he.wellFormed, by rw [hfills, happlied, he.fills]⟩
  | applied r hran happlied hsettled =>
      constructor
      · have hwf := applyCommand_wellFormed he.wellFormed p.command p.fails
        rwa [hran] at hwf
      · have hnone : e'.fills = e.fills + (calls onFill (fillsOf r) e.fills).length := by
          cases r with
          | ok out => exact hsettled.2.1
          | error f =>
              cases f with
              | throws x => exact hsettled.2.1
              | undefined q => exact hsettled.2
              | terminate => exact hsettled.2
        rw [happlied, called_append, called, called, List.append_nil, List.length_append,
          Nat.zero_add, ← he.fills, hnone]

/-- **One turn.** What it left uncounted as processed it left undone, exactly if the
callback did not throw. -/
theorem Served.silent (h : Served onFill p e e') (he : Accounts onFill e)
    (hgoing : e.ended = false) (hbefore : Silent onFill (called onFill e.applied 0)) :
    (e'.ended = false → e'.processed = e.processed → e'.memory.state = e.memory.state) ↔
      Silent onFill (called onFill e'.applied 0) := by
  cases h with
  | unlogged hmemory happlied _ _ _ =>
      rw [happlied, hmemory]
      exact iff_of_true (fun _ _ => rfl) hbefore
  | applied r hran happlied hsettled =>
      rw [happlied, silent_snoc, ← he.fills]
      cases r with
      | error f =>
          -- Without fills nothing is called, and a throw of the book changed nothing.
          refine iff_of_true ?_ ⟨hbefore, rfl⟩
          intro hend _
          cases f with
          | throws x => exact applyCommand_throws he.wellFormed hran
          | undefined q => rw [hsettled.1] at hend; cases hend
          | terminate => rw [hsettled.1] at hend; cases hend
      | ok out =>
          obtain ⟨hended, _, hprocessed⟩ := hsettled
          rw [hended, hprocessed, and_iff_right hbefore]
          constructor
          · intro hsame
            by_contra hthrew
            have hstate := hsame hgoing (if_neg fun h => hthrew h.1)
            refine applyCommand_fills he.wellFormed hran ?_ hstate
            intro hnil
            apply hthrew
            show (publish onFill out.fills e.fills).1 = none
            rw [hnil]
            rfl
          · intro hreturned _ hcount
            have hdeclined : out.accepted = false := by
              by_contra hacc
              rw [if_pos ⟨hreturned, Bool.eq_true_of_not_eq_false hacc⟩] at hcount
              omega
            rw [(applyCommand_declined hran hdeclined).1]

variable {popped : List (Popped E)}

/-- A run, one turn at a time from its end. -/
theorem drain_induction {P : List (Popped E) → Engine L → Prop}
    (start : P [] e)
    (stopped : ∀ popped p e', e' = drain log onFill e popped → P popped e' →
      e'.ended = true → P (popped ++ [p]) e')
    (turn : ∀ popped p e', e' = drain log onFill e popped → P popped e' →
      e'.ended = false →
      P (popped ++ [p]) (e'.turn log onFill p.fails p.io p.command))
    (popped : List (Popped E)) : P popped (drain log onFill e popped) := by
  induction popped using List.reverseRecOn with
  | nil => exact start
  | append_singleton popped p ih =>
      rw [drain_snoc]
      split
      · rename_i hended
        exact stopped popped p _ rfl ih hended
      · rename_i hended
        exact turn popped p _ rfl ih (Bool.eq_false_of_not_eq_true hended)

theorem drain_accounts (he : Accounts onFill e) (popped : List (Popped E)) :
    Accounts onFill (drain log onFill e popped) :=
  drain_induction (P := fun _ e' => Accounts onFill e') he (fun _ _ _ _ h _ => h)
    (fun _ p e' _ h _ => (turn_served log onFill p e').accounts h) popped

/-- Every command of a run that was not cut off is counted. -/
theorem drain_counted (popped : List (Popped E)) :
    (drain log onFill e popped).ended = false →
      (drain log onFill e popped).counted = e.counted + popped.length := by
  refine drain_induction (P := fun popped e' => e'.ended = false →
    e'.counted = e.counted + popped.length) (fun _ => rfl) ?_ ?_ popped
  · intro popped p e' _ _ hended h
    rw [hended] at h
    cases h
  · intro popped p e' _ ih hended h
    rw [turn_counted onFill p.fails h, ih hended, List.length_append, Nat.add_assoc]
    rfl

theorem unchanged_nil : Unchanged log onFill e [] := by
  intro before p h
  simp at h

theorem unchanged_snoc : Unchanged log onFill e (popped ++ [p]) ↔
    Unchanged log onFill e popped ∧
      ((drain log onFill e (popped ++ [p])).ended = false →
        (drain log onFill e (popped ++ [p])).processed =
          (drain log onFill e popped).processed →
        (drain log onFill e (popped ++ [p])).memory.state =
          (drain log onFill e popped).memory.state) := by
  constructor
  · intro h
    exact ⟨fun before q hq => h before q (hq.trans (List.prefix_append _ _)),
      h popped p (List.prefix_refl _)⟩
  · rintro ⟨hbefore, hlast⟩ before q hq
    rcases List.prefix_concat_iff.mp hq with heq | hq
    · obtain ⟨rfl, hsingle⟩ := List.append_inj' heq rfl
      cases hsingle
      exact hlast
    · exact hbefore before q hq

/-- **A run.** The book is unchanged by what is not counted as processed, exactly if no
call of the callback threw. -/
theorem unchanged_iff (he : Accounts onFill e) (hstart : e.applied = [])
    (popped : List (Popped E)) : Unchanged log onFill e popped ↔
      Silent onFill (called onFill (drain log onFill e popped).applied 0) := by
  induction popped using List.reverseRecOn with
  | nil =>
      refine iff_of_true unchanged_nil ?_
      intro k fill hk
      rw [drain, List.foldl_nil, hstart] at hk
      simp [called] at hk
  | append_singleton popped p ih =>
      rw [unchanged_snoc, ih, drain_snoc]
      split
      · -- The run was cut off before: nothing happens any more.
        rename_i hended
        rw [hended]
        simp
      · rename_i hended
        have hacc : Accounts onFill (drain log onFill e popped) := drain_accounts he popped
        have hturn := turn_served log onFill p (drain log onFill e popped)
        constructor
        · rintro ⟨hbefore, hlast⟩
          exact (hturn.silent hacc (Bool.eq_false_of_not_eq_true hended) hbefore).mp hlast
        · intro h
          have hbefore : Silent onFill
              (called onFill (drain log onFill e popped).applied 0) := by
            cases hturn with
            | unlogged _ happlied => rwa [happlied] at h
            | applied r _ happlied _ =>
                rw [happlied, silent_snoc] at h
                exact h.1
          exact ⟨hbefore, (hturn.silent hacc (Bool.eq_false_of_not_eq_true hended)
            hbefore).mpr h⟩

/-- If no call threw, every fill was handed over. -/
theorem called_eq (applied : List (Command × Except Ending ApplyOutcome)) :
    Silent onFill (called onFill applied 0) → called onFill applied 0 = produced applied := by
  induction applied using List.reverseRecOn with
  | nil => exact fun _ => rfl
  | append_singleton applied x ih =>
      intro h
      obtain ⟨hbefore, hown⟩ := silent_snoc.mp h
      rw [called_append, called, called, List.append_nil, Nat.zero_add, calls_eq hown,
        ih hbefore, produced_append]
      simp [produced]

/-- A run whose commands keep to their tranches is not cut off. -/
theorem drain_going (hm : WellFormed e.memory) (hs : e.memory.state.view.AllShown)
    (hgoing : e.ended = false)
    (hwithin : ∀ before p, before ++ [p] <+: popped →
      WithinTranche (drain log onFill e before).memory.state p.command.op) :
    (drain log onFill e popped).ended = false := by
  suffices h : WellFormed (drain log onFill e popped).memory ∧
      (drain log onFill e popped).memory.state.view.AllShown ∧
      (drain log onFill e popped).ended = false from h.2.2
  induction popped using List.reverseRecOn with
  | nil => exact ⟨hm, hs, hgoing⟩
  | append_singleton popped p ih =>
      obtain ⟨hwf, hshown, hgoing⟩ :=
        ih fun before q hq => hwithin before q (hq.trans (List.prefix_append _ _))
      have hop := hwithin popped p (List.prefix_refl _)
      rw [drain_snoc, if_neg (by rw [hgoing]; exact Bool.false_ne_true)]
      cases turn_served log onFill p (drain log onFill e popped) with
      | unlogged hmemory _ hended =>
          exact ⟨hmemory ▸ hwf, hmemory ▸ hshown, hended.trans hgoing⟩
      | applied r hran _ hsettled =>
          have hwf' := applyCommand_wellFormed hwf p.command p.fails
          obtain ⟨hshown', hcaught⟩ := applyCommand_shown hwf hshown hop p.fails
          rw [hran] at hwf' hshown' hcaught
          refine ⟨hwf', hshown', ?_⟩
          cases r with
          | ok out => exact hsettled.1.trans hgoing
          | error f =>
              cases f with
              | throws x => exact hsettled.1.trans hgoing
              | undefined q => cases hcaught
              | terminate => cases hcaught

/-- **The engine's accounts.** Over a well-formed book and whatever the log, the
callback and the allocator do, a run that is not cut off has counted every command. The
commands it does not count as processed left the book alone, and every fill was handed
over once and in order, exactly if no call of the callback threw. And a run whose commands
keep to their tranches is never cut off. -/
theorem accounts_truthful {m : BookMemory} (hm : WellFormed m) (log : CommandLog E L)
    (onFill : FillHandler) (l : Option L) (popped : List (Popped E)) :
    ((drain log onFill { memory := m, log := l } popped).ended = false →
      (drain log onFill { memory := m, log := l } popped).counted = popped.length) ∧
    (Truthful log onFill { memory := m, log := l } popped ↔
      Silent onFill
        (called onFill (drain log onFill { memory := m, log := l } popped).applied 0)) ∧
    (m.state.view.AllShown →
      (∀ before p, before ++ [p] <+: popped →
        WithinTranche (drain log onFill { memory := m, log := l } before).memory.state
          p.command.op) →
      (drain log onFill { memory := m, log := l } popped).ended = false) := by
  have he : Accounts onFill ({ memory := m, log := l } : Engine L) := ⟨hm, rfl⟩
  refine ⟨?_, ?_, ?_⟩
  · intro hended
    have hcounted := drain_counted popped hended
    rwa [show ({ memory := m, log := l } : Engine L).counted = 0 from rfl,
      Nat.zero_add] at hcounted
  · constructor
    · intro h
      exact (unchanged_iff he rfl popped).mp h.unchanged
    · intro h
      exact ⟨(unchanged_iff he rfl popped).mpr h, called_eq _ h⟩
  · intro hs hwithin
    exact drain_going hm hs rfl hwithin

end Run

/-! ## A callback that throws -/

/-- A log that takes every command. -/
def takesAll : CommandLog Unit Unit where
  append l _ _ := (.ok 0, l)

/-- Two asks of 5 from one account and a bid for 10 from another. -/
def crossing : List (Popped Unit) :=
  [⟨(), plenty, .submit ⟨limitOrder 1 .sell 7 5 100, .limit _ _ _ _ _⟩⟩,
   ⟨(), plenty, .submit ⟨limitOrder 2 .sell 7 5 100, .limit _ _ _ _ _⟩⟩,
   ⟨(), plenty, .submit ⟨limitOrder 3 .buy 8 10 100, .limit _ _ _ _ _⟩⟩]

/-- With a callback that only listens the three commands are processed, and both fills
handed over. -/
theorem accounts_truthful_crossing :
    (drain takesAll (fun _ _ => none) { log := some () } crossing).processed = 3 ∧
    (called (fun _ _ => none)
      (drain takesAll (fun _ _ => none) { log := some () } crossing).applied 0).length = 2 ∧
    (drain takesAll (fun _ _ => none) { log := some () } crossing).counted = 3 ∧
    Truthful takesAll (fun _ _ => none) { log := some () } crossing := by
  have h := accounts_truthful wellFormed_empty takesAll (fun _ _ => none) (some ()) crossing
  refine ⟨by decide +kernel, by decide +kernel, h.1 (by decide +kernel), h.2.1.mpr ?_⟩
  intro k fill _
  rfl

/-- A callback that throws at its first call: the bid is counted as rejected, and both
asks are gone from the book. The second fill is not handed over. -/
theorem thrown_trade_rejected :
    let e := drain takesAll (fun _ _ => some .other) { log := some () } (crossing.take 2)
    let e' := drain takesAll (fun _ _ => some .other) { log := some () } crossing
    e'.ended = false ∧ (e.processed, e.rejected) = (2, 0) ∧
    (e'.processed, e'.rejected) = (2, 1) ∧
    (e.memory.state.view.asks, e'.memory.state.view.asks) =
      ([(100, [{ (limitOrder 1 .sell 7 5 100) with sequence := 1 },
               { (limitOrder 2 .sell 7 5 100) with sequence := 2 }])], []) ∧
    (called (fun _ _ => some .other) e'.applied 0).length = 1 ∧
    (produced e'.applied).length = 2 ∧
    ¬ Truthful takesAll (fun _ _ => some .other) { log := some () } crossing := by
  refine ⟨by decide +kernel, by decide +kernel, by decide +kernel, by decide +kernel,
    by decide +kernel, by decide +kernel, ?_⟩
  intro h
  have hlen := congrArg List.length h.handled
  revert hlen
  decide +kernel

end Engine

end Exchange
