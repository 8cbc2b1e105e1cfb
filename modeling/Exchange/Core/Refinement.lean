import Exchange.Core.Commit

/-!
# The book refines the market

Run on a well-formed memory, every operation of the book either runs out of
memory and changes nothing, or ends as the same operation of the market it
shows ends, and shows the market that operation leaves. `exec_refines` says so
for all three operations; whole runs follow by induction.
-/

namespace Exchange

open Framework Framework.Exec OrderBook

/-- The invariant of a memory: both sides are sound, nothing lives at an
address still to be handed out, and the market shown is valid. -/
structure WellFormed (m : BookMemory) : Prop where
  sound : ∀ s, (m.state.side s).Sound
  fresh : ∀ s, ∀ o ∈ occupants (m.state.side s).levels.entries, o.2.position < m.ticks
  valid : m.state.view.Valid

theorem wellFormed_empty : WellFormed { state := {} } where
  sound s := by cases s <;> exact sound_empty
  fresh s o ho := by cases s <;> exact absurd ho List.not_mem_nil
  valid := Market.valid_empty

theorem WellFormed.full {m : BookMemory} (h : WellFormed m) (s : Side) :
    ∀ e ∈ (m.state.side s).levels.entries, e.2.orders ≠ [] := by
  refine full_of_ladderOf ?_
  rw [← Book.view_ladder]
  exact (h.valid.ordered s).full

theorem WellFormed.of_frozen {m m' : BookMemory} (h : WellFormed m)
    (hm : Frozen m m') : WellFormed m' where
  sound s := by rw [hm.state]; exact h.sound s
  fresh s o ho := by
    rw [hm.state] at ho
    exact Nat.lt_of_lt_of_le (h.fresh s o ho) hm.ticks
  valid := by rw [hm.state]; exact h.valid

/-- A valid market is not crossed. -/
theorem not_isCrossed {b : Book} (h : b.view.Valid) : b.isCrossed = false := by
  unfold Book.isCrossed
  split
  · rename_i bid ask hb ha
    have hbid : bid ∈ (b.view.ladder .buy).prices := by
      rw [Book.view_ladder, ladderOf_prices]
      exact List.mem_of_mem_head? (by simpa [Book.bestBid, bestPrice, Book.side] using hb)
    have hask : ask ∈ (b.view.ladder .sell).prices := by
      rw [Book.view_ladder, ladderOf_prices]
      exact List.mem_of_mem_head? (by simpa [Book.bestAsk, bestPrice, Book.side] using ha)
    have hlt : bid < ask := h.apart .buy bid hbid ask hask
    simpa using hlt
  · rfl

namespace Book

variable {s : Side} {fails : ℕ → Bool} {m : BookMemory} {o : Order}

/-! ## Entering -/

/-- What committing an order does to a memory, in the market's terms. -/
structure Entered (m m' : BookMemory) (s : Side) (o : Order)
    (swept : Direct.MatchResult) : Prop where
  view : m'.state.view = m.state.view.settleEntry s o swept
  wellFormed : WellFormed m'
  ticks : m'.ticks = m.ticks
  snapshots : m'.snapshots = m.snapshots
  /-- Every call of `onPartialFill` stays within the tranche exactly if the
  fills of the incoming order do. -/
  calls : ∃ calls, m'.events = m.events ++ calls ∧
    ((∀ c ∈ calls, c.qty ≤ c.visible) ↔ o.remaining - swept.left ≤ o.visibleQty)

theorem restNodes_eq {plan : MatchPlan} {swept : Direct.MatchResult}
    (hfilled : plan.aggressorFilled = o.remaining - swept.left)
    (hblocked : swept.blocked = plan.selfMatchBlocked) :
    restNodes o plan = (Market.restsAt o swept).map fun restPrice =>
      { restPrice, levelNode := { price := restPrice }, indexNode := o.id } := by
  have hleft : o.remaining - plan.aggressorFilled = swept.left := by
    rw [hfilled]
    abel
  unfold restNodes Market.restsAt
  rw [hleft, hblocked]
  split <;> rfl

@[simp] theorem afterSweep_side (b : Book) (opp : OrderBook (opposite s)) :
    (afterSweep b s opp).side s = b.side s := by
  simp [afterSweep]

@[simp] theorem afterSweep_opposite (b : Book) (opp : OrderBook (opposite s)) :
    (afterSweep b s opp).side (opposite s) = opp.dropEmptyLevelsFromFront := by
  simp [afterSweep]

/-- The state in which the commit has swept the other side. -/
theorem wellFormed_sides {m : BookMemory} (s : Side)
    (hown : (m.state.side s).Sound) (hopp : (m.state.side (opposite s)).Sound)
    (fown : ∀ x ∈ occupants (m.state.side s).levels.entries, x.2.position < m.ticks)
    (fopp : ∀ x ∈ occupants (m.state.side (opposite s)).levels.entries,
      x.2.position < m.ticks) (hv : m.state.view.Valid) : WellFormed m := by
  refine ⟨fun t => ?_, fun t => ?_, hv⟩ <;> rcases eq_or_eq_opposite s t with rfl | rfl
  · exact hown
  · exact hopp
  · exact fown
  · exact fopp

section Sweep

variable {plan : MatchPlan} {swept : Direct.MatchResult} {r : Replay (opposite s)}

/-- The replay moves nothing to an address of its own. -/
theorem swept_fresh {left : Quantity} (h : WellFormed m)
    (hr : Swept (m.state.side (opposite s)) o m.state.nextSequence plan left r) :
    ∀ x ∈ occupants r.opp.dropEmptyLevelsFromFront.levels.entries,
      x.2.position < m.ticks := by
  rw [occupants_dropEmpty]
  exact fun x hx => h.fresh (opposite s) x (hr.tracks.occupied x hx)

/-- The other side is swept and nothing of the order rests. -/
theorem entered_idle (h : WellFormed m)
    (hr : Swept (m.state.side (opposite s)) o m.state.nextSequence plan swept.left r)
    (hladder : swept.ladder = ladderOf r.opp.dropEmptyLevelsFromFront.levels.entries)
    (hvalid : (m.state.view.settleEntry s o swept).Valid)
    (hat : Market.restsAt o swept = none) :
    Entered m { m with state := afterSweep m.state s r.opp, events := m.events ++ r.calls }
      s o swept := by
  have hview : (afterSweep m.state s r.opp).view = m.state.view.settleEntry s o swept := by
    unfold Market.settleEntry
    rw [hat, hladder]
    cases s <;> rfl
  refine ⟨hview, ?_, rfl, rfl, r.calls, rfl, hr.tracks.covered⟩
  refine wellFormed_sides s ?_ ?_ ?_ ?_ (hview ▸ hvalid) <;>
    simp only [afterSweep_side, afterSweep_opposite]
  · exact h.sound s
  · exact hr.tracks.sound.dropEmpty
  · exact h.fresh s
  · exact swept_fresh h hr

/-- The other side is swept and the rest of the order has joined its own. -/
theorem entered_rests {price : Price} {addr : Addr} {ob : OrderBook s} (h : WellFormed m)
    (hr : Swept (m.state.side (opposite s)) o m.state.nextSequence plan swept.left r)
    (hladder : swept.ladder = ladderOf r.opp.dropEmptyLevelsFromFront.levels.entries)
    (hvalid : (m.state.view.settleEntry s o swept).Valid)
    (hat : Market.restsAt o swept = some price) (hlt : addr < m.ticks)
    (hrested : Rested (m.state.side s) ob price ⟨addr, r.aggressor⟩) :
    Entered m { m with state := (afterSweep m.state s r.opp).setSide s ob,
                       events := m.events ++ r.calls } s o swept := by
  have hview : ((afterSweep m.state s r.opp).setSide s ob).view =
      m.state.view.settleEntry s o swept := by
    unfold Market.settleEntry
    rw [hat, hladder, view_setSide, hrested.shows, hr.tracks.aggressor, view_ladder]
    cases s <;> rfl
  refine ⟨hview, ?_, rfl, rfl, r.calls, rfl, hr.tracks.covered⟩
  refine wellFormed_sides s ?_ ?_ ?_ ?_ (hview ▸ hvalid) <;>
    simp only [side_setSide, opposite_side_setSide, afterSweep_opposite]
  · exact hrested.sound
  · exact hr.tracks.sound.dropEmpty
  · intro x hx
    rcases List.mem_cons.mp (hrested.occupied.mem_iff.mp hx) with rfl | hx
    · exact hlt
    · exact h.fresh s x hx
  · exact swept_fresh h hr

end Sweep

theorem commitSubmit_entered (fails : ℕ → Bool) {plan : MatchPlan}
    {prepared : PreparedSubmit} (h : WellFormed m) (hs : o.side = s)
    (hnew : ∀ t, o.id ∉ (m.state.view.ladder t).ids)
    (hplan : planAgainst (m.state.side (opposite s)).levels.entries o = .ok plan)
    (hplanned : prepared.plan = plan) (hholding : prepared.holding.order = o)
    (hlt : prepared.holding.addr < m.ticks)
    (haddr : ∀ x ∈ occupants (m.state.side s).levels.entries,
      x.2.position ≠ prepared.holding.addr)
    (hcap : prepared.fillsCapacity = plan.fills.length)
    (hrest : prepared.rest = restNodes o plan)
    (hroom : (restNodes o plan).isSome →
      (m.state.side s).orderCount + 1 ≤ (m.state.side s).buckets) :
    ∃ swept m', Direct.sweep o (m.state.view.ladder (opposite s)) = .ok swept ∧
      commitSubmit s prepared fails m = (.ok (Market.submitResult o swept), m') ∧
      Entered m m' s o swept := by
  have hlock := planAgainst_lockstep o m.state.nextSequence
    (h.sound (opposite s)) (h.full (opposite s))
  rw [hplan] at hlock
  obtain ⟨left, r, hr, hfilled⟩ := hlock
  -- The replay of the plan is what direct matching returns.
  set swept : Direct.MatchResult :=
    { left, ladder := ladderOf r.opp.dropEmptyLevelsFromFront.levels.entries,
      fills := r.fills, blocked := plan.selfMatchBlocked } with hswept
  have hsw : Direct.sweep o (m.state.view.ladder (opposite s)) = .ok swept := by
    rw [view_ladder]
    exact hr.outcome
  have hvalid := h.valid.settleEntry hs hnew hsw
  have hnodes : restNodes o plan = (Market.restsAt o swept).map _ :=
    restNodes_eq hfilled rfl
  have hrun : commitSubmit s prepared fails m = _ :=
    commitSubmit_run (by rw [hholding, hplanned]; exact hr.tracks.replayed)
      (by rw [hplanned, hcap])
  have hleft := hr.aggressor_remaining
  cases hat : Market.restsAt o swept with
  | none =>
      rw [hat] at hnodes
      refine ⟨swept, _, hsw, ?_, entered_idle h hr rfl hvalid hat⟩
      rw [hrun, noexcept_ok (finishSubmit_idle (hrest.trans hnodes))]
      rw [Market.submitResult, Market.submitStatus, hat]
      simp [hplanned, hfilled, hswept, Order.isFilled, hleft]
  | some price =>
      rw [hat] at hnodes
      obtain ⟨ob, hob, hrested⟩ := (h.sound s).rest (p := price)
        (n := ⟨prepared.holding.addr, r.aggressor⟩)
        (by rw [hr.aggressor_id, (h.sound s).mem_index_iff, ← view_ladder]; exact hnew s) haddr
      rw [hr.aggressor_id] at hob
      refine ⟨swept, _, hsw, ?_, entered_rests h hr rfl hvalid hat hlt hrested⟩
      rw [hrun, noexcept_ok (finishSubmit_rests (hrest.trans hnodes)
        (by rw [afterSweep_side]; exact hroom (by rw [hnodes]; rfl))
        (by rw [afterSweep_side]; exact hob))]
      rw [Market.submitResult, Market.submitStatus, hat]
      simp [hplanned, hfilled, hswept, hleft]

theorem Provisioned.view {plan : MatchPlan} {prepared : PreparedSubmit}
    {m' : BookMemory} (h : Provisioned m s o plan prepared m') :
    m'.state.view = m.state.view := by
  obtain ⟨buckets, hstate, _⟩ := h.state
  rw [hstate]
  cases s <;> rfl

/-- Room in the index is not part of the invariant. -/
theorem Provisioned.wellFormed {plan : MatchPlan} {prepared : PreparedSubmit}
    {m' : BookMemory} (h : Provisioned m s o plan prepared m') (hm : WellFormed m) :
    WellFormed m' := by
  have hticks := h.ticks
  obtain ⟨buckets, hstate, _⟩ := h.state
  have hview := h.view
  refine wellFormed_sides s ?_ ?_ ?_ ?_ (hview ▸ hm.valid) <;> rw [hstate]
  · rw [side_setSide]
    have hs := hm.sound s
    exact ⟨hs.keyed, hs.balanced, hs.indexed, hs.positions⟩
  · rw [opposite_side_setSide]
    exact hm.sound (opposite s)
  · rw [side_setSide]
    exact fun x hx => Nat.lt_trans (hm.fresh s x hx) hticks
  · rw [opposite_side_setSide]
    exact fun x hx => Nat.lt_trans (hm.fresh (opposite s) x hx) hticks

/-- Preparing runs out of memory, stops where the market's sweep does, or provisions. -/
theorem prepareSubmit_swept (fails : ℕ → Bool) (h : WellFormed m) (s : Side) (o : Order) :
    Starved fails m (prepareSubmit s o fails m) ∨
      (∃ m', prepareSubmit s o fails m = (.error (.undefined .positiveQuantity), m') ∧
        Frozen m m' ∧
        Direct.sweep o (m.state.view.ladder (opposite s)) = .error .positiveQuantity) ∨
      ∃ plan prepared m',
        planAgainst (m.state.side (opposite s)).levels.entries o = .ok plan ∧
        prepareSubmit s o fails m = (.ok prepared, m') ∧
        Provisioned m s o plan prepared m' := by
  have hlock := planAgainst_lockstep o m.state.nextSequence
    (h.sound (opposite s)) (h.full (opposite s))
  rcases prepareSubmit_cases s o fails m with hstarved | hp
  · exact Or.inl hstarved
  right
  cases hplan : planAgainst (m.state.side (opposite s)).levels.entries o with
  | error q =>
      rw [hplan] at hp hlock
      obtain ⟨rfl, hsweep⟩ := hlock
      obtain ⟨m', hp, hm⟩ := hp
      rw [view_ladder]
      exact Or.inl ⟨m', hp, hm, hsweep⟩
  | ok plan =>
      rw [hplan] at hp
      obtain ⟨prepared, m', hp, hprov⟩ := hp
      exact Or.inr ⟨plan, prepared, m', rfl, hp, hprov⟩

/-- Committing an order that was provisioned for and that no side knows. -/
theorem Provisioned.commit (fails : ℕ → Bool) {plan : MatchPlan}
    {prepared : PreparedSubmit} {m₁ : BookMemory} (h : Provisioned m s o plan prepared m₁)
    (hm : WellFormed m) (hs : o.side = s)
    (hplan : planAgainst (m.state.side (opposite s)).levels.entries o = .ok plan)
    (hnew : ∀ t, o.id ∉ (m.state.view.ladder t).ids) :
    ∃ swept m₂, Direct.sweep o (m.state.view.ladder (opposite s)) = .ok swept ∧
      commitSubmit s prepared fails m₁ = (.ok (Market.submitResult o swept), m₂) ∧
      Entered m₁ m₂ s o swept := by
  obtain ⟨buckets, hstate, hroom⟩ := h.state
  rw [← h.view] at hnew ⊢
  refine commitSubmit_entered fails (h.wellFormed hm) hs hnew ?_ h.planned ?_ ?_ ?_
    h.capacity h.rest ?_
  · rw [h.opposite_side]
    exact hplan
  · rw [h.holding]
  · rw [h.holding]
    exact h.ticks
  · rw [hstate, side_setSide, h.holding]
    exact fun x hx => Nat.ne_of_lt (hm.fresh s x hx)
  · rw [hstate, side_setSide]
    exact hroom

end Book

/-! ## The refinement relation -/

/-- A run of an operation from `m`, against what the market it shows does.
`covered` tells whether every call of `onPartialFill` stays within the tranche. -/
inductive Refines {α : Type} (fails : ℕ → Bool) (m : BookMemory)
    (spec : Except Ending (α × Market)) (covered : Prop) :
    Except Ending α × BookMemory → Prop where
  /-- An allocation failed. -/
  | starved (m' : BookMemory) (hm : Frozen m m') (hf : ∃ n, fails n = true) :
      Refines fails m spec covered (.error (.throws .badAlloc), m')
  /-- The market ends the same way, without an effect. -/
  | refused (f : Ending) (m' : BookMemory) (h : spec = .error f) (hm : Frozen m m') :
      Refines fails m spec covered (.error f, m')
  /-- The market does the same. -/
  | done (a : α) (m' : BookMemory) (h : spec = .ok (a, m'.state.view))
      (hwf : WellFormed m')
      (hsnap : ∃ k, m'.snapshots = m.snapshots ++ List.replicate k m.state)
      (hcalls : ∃ calls, m'.events = m.events ++ calls ∧
        ((∀ c ∈ calls, c.qty ≤ c.visible) ↔ covered)) :
      Refines fails m spec covered (.ok a, m')

namespace Refines

variable {α β : Type} {fails : ℕ → Bool} {m : BookMemory} {covered : Prop}

theorem map {spec : Except Ending (α × Market)} {x : BookExec α} (f : α → β)
    (h : Refines fails m spec covered (x fails m)) :
    Refines fails m (spec.map fun r => (f r.1, r.2)) covered
      ((x >>= fun a => pure (f a)) fails m) := by
  cases hx : x fails m with
  | mk r m' =>
      rw [hx] at h
      cases h with
      | starved _ hm hf => rw [bind_error hx]; exact .starved m' hm hf
      | refused f _ he hm => rw [bind_error hx, he]; exact .refused f m' rfl hm
      | done a _ he hwf hsnap hcalls =>
          rw [bind_ok hx, he]
          exact .done (f a) m' rfl hwf hsnap hcalls

/-- A computation that has only allocated so far may go on. -/
theorem of_frozen {m' : BookMemory} {spec : Except Ending (α × Market)}
    {r : Except Ending α × BookMemory} (hm : Frozen m m')
    (h : Refines fails m' spec covered r) : Refines fails m spec covered r := by
  cases h with
  | starved m'' hm' hf => exact .starved m'' (hm.trans hm') hf
  | refused f m'' he hm' => exact .refused f m'' he (hm.trans hm')
  | done a m'' he hwf hsnap hcalls =>
      obtain ⟨k, hk⟩ := hm.snapshots
      obtain ⟨k', hk'⟩ := hsnap
      refine .done a m'' he hwf ⟨k + k', ?_⟩ ?_
      · rw [hk', hk, hm.state, List.append_assoc, List.replicate_append_replicate]
      · rw [← hm.events]
        exact hcalls

/-- What was provisioned for and has entered is done. -/
theorem entered {s : Side} {o : Order} {plan : MatchPlan} {prepared : PreparedSubmit}
    {m₁ m₂ m₃ : BookMemory} {swept : Direct.MatchResult} {spec : Except Ending (α × Market)}
    {a : α} (hprov : Book.Provisioned m s o plan prepared m₁)
    (hent : Book.Entered m₂ m₃ s o swept) (hsnap : m₂.snapshots = m₁.snapshots)
    (hevents : m₂.events = m₁.events) (hspec : spec = .ok (a, m₃.state.view))
    (hcov : covered ↔ o.remaining - swept.left ≤ o.visibleQty) :
    Refines fails m spec covered (.ok a, m₃) := by
  refine .done a m₃ hspec hent.wellFormed ?_ ?_
  · rw [hent.snapshots, hsnap]
    exact hprov.snapshots
  · obtain ⟨calls, hcalls, hwithin⟩ := hent.calls
    refine ⟨calls, ?_, hwithin.trans hcov.symm⟩
    rw [hcalls, hevents, hprov.events]

end Refines

namespace Op

def exec : Op → BookExec Outcome
  | .submit order => do return .submitted (← Book.submit order)
  | .cancel id => do return .cancelled (← Book.cancel id)
  | .modify id newQty newPrice => do
      return .modified (← Book.modify id newQty newPrice)

end Op

/-- The fills of the entering order stay within its tranche. -/
def Covered (M : Market) (op : Op) : Prop :=
  ∀ o ∈ M.entering op, ∀ swept,
    Direct.sweep o (M.ladder (opposite o.side)) = .ok swept →
    o.remaining - swept.left ≤ o.visibleQty

theorem covered_iff {M : Market} {op : Op} {o : Order} {swept : Direct.MatchResult}
    (ho : M.entering op = some o)
    (hsw : Direct.sweep o (M.ladder (opposite o.side)) = .ok swept) :
    Covered M op ↔ o.remaining - swept.left ≤ o.visibleQty := by
  constructor
  · exact fun h => h o ho swept hsw
  · intro h o' ho' swept' hsw'
    rw [ho] at ho'
    cases ho'
    rw [hsw] at hsw'
    cases hsw'
    exact h

theorem covered_of_none {M : Market} {op : Op} (h : M.entering op = none) :
    Covered M op := by
  intro o ho
  rw [h] at ho
  cases ho

namespace Book

variable {s : Side} {fails : ℕ → Bool} {m : BookMemory} {o : Order}

/-! ## Submit -/

theorem find_run (h : WellFormed m) (id : OrderId) :
    find id fails m = (.ok ((m.state.view.locate id).map Prod.snd), m) := by
  unfold find
  rw [bind_ok (findOn_run (h.sound .buy) id)]
  unfold Market.locate
  have hbids : m.state.view.bids = ladderOf (m.state.side .buy).levels.entries := rfl
  have hasks : m.state.view.asks = ladderOf (m.state.side .sell).levels.entries := rfl
  rw [← hbids]
  cases hb : m.state.view.bids.find? id with
  | some o => rfl
  | none =>
      show findOn .sell id fails m = _
      rw [findOn_run (h.sound .sell) id, ← hasks]
      cases m.state.view.asks.find? id <;> rfl

/-- An exception whose message is built on the heap: either it or the failure
to build it leaves the computation. -/
theorem throwMessage_cases {α β : Type} (what : String) (k : α → BookExec β)
    (fails : ℕ → Bool) (m : BookMemory) :
    ∃ m' e, (do let _ ← allocate Exception.badAlloc
                let r ← throw (.invalidOrder what)
                k r : BookExec β) fails m = (.error (.throws e), m') ∧ Frozen m m' ∧
      (e = .badAlloc ∧ (∃ n, fails n = true) ∨ e = .invalidOrder what) := by
  obtain ⟨m₁, hm₁, _, h₁⟩ :=
    allocate_cases (π := Precondition) Exception.badAlloc fails m
  rcases h₁ with ⟨hf, h₁⟩ | h₁
  · exact ⟨m₁, _, bind_error h₁, hm₁, Or.inl ⟨rfl, _, hf⟩⟩
  · exact ⟨m₁, _, bind_ok h₁, hm₁, Or.inr rfl⟩

theorem validate_cases (fails : ℕ → Bool) (h : WellFormed m) (o : Order) :
    (∃ m' e, validate o fails m = (.error (.throws e), m') ∧ Frozen m m' ∧
      (e = .badAlloc ∧ (∃ n, fails n = true) ∨
        m.state.view.submit (some o) = .error (.throws e))) ∨
    o.remaining ≠ 0 ∧ m.state.view.locate o.id = none ∧
      validate o fails m = (.ok (), m) := by
  rw [Market.submit]
  unfold validate
  by_cases hq : o.remaining = 0
  · rw [if_pos hq, if_pos hq]
    obtain ⟨m', e, hrun, hm, he⟩ := throwMessage_cases _ _ fails m
    refine Or.inl ⟨m', e, hrun, hm, he.imp_right ?_⟩
    rintro rfl
    rfl
  · rw [if_neg hq, if_neg hq]
    dsimp only
    rw [bind_ok (find_run h o.id), Option.isSome_map]
    cases hl : (m.state.view.locate o.id).isSome with
    | true =>
        obtain ⟨m', e, hrun, hm, he⟩ := throwMessage_cases
          ("duplicate order id " ++ toString o.id) pure fails m
        refine Or.inl ⟨m', e, hrun, hm, he.imp_right ?_⟩
        rintro rfl
        rfl
    | false => exact Or.inr ⟨hq, by simpa using hl, rfl⟩

theorem submit_refines (fails : ℕ → Bool) (h : WellFormed m) (order : Option Order) :
    Refines fails m (m.state.view.submit order)
      (Covered m.state.view (.submit order)) (submit order fails m) := by
  cases order with
  | none =>
      obtain ⟨m', e, hrun, hm, he⟩ := throwMessage_cases
        "submit called with a null order" (pure (α := SubmitResult)) fails m
      rw [show submit none fails m = _ from hrun]
      rcases he with ⟨rfl, hf⟩ | rfl
      · exact .starved m' hm hf
      · exact .refused _ m' rfl hm
  | some o =>
      unfold submit
      dsimp only
      rcases validate_cases fails h o with ⟨m', e, hrun, hm, he⟩ | ⟨hq, hid, hrun⟩
      · rw [bind_error hrun]
        rcases he with ⟨rfl, hf⟩ | hspec
        · exact .starved m' hm hf
        · exact .refused _ m' hspec hm
      rw [bind_ok hrun]
      have hspec : m.state.view.submit (some o) =
          (m.state.view.enter o.side o).mapError .undefined := by
        rw [Market.submit, if_neg hq, if_neg (by simp [hid])]
      rw [hspec, Market.enter]
      rcases prepareSubmit_swept fails h o.side o with
        ⟨m', hp, hm, hf⟩ | ⟨m', hp, hm, hsw⟩ | ⟨plan, prepared, m₁, hplan, hp, hprov⟩
      · rw [bind_error hp]
        exact .starved m' hm hf
      · rw [bind_error hp]
        refine .refused _ m' ?_ hm
        rw [hsw]
        rfl
      · obtain ⟨swept, m₂, hsw, hcommit, hent⟩ :=
          hprov.commit fails h rfl hplan (Market.locate_eq_none.mp hid)
        rw [bind_ok hp, bind_ok hcommit, get_bind, not_isCrossed hent.wellFormed.valid]
        refine Refines.entered hprov hent rfl rfl ?_
          (covered_iff (by simp [Market.entering, hq, hid]) hsw)
        rw [hsw, hent.view, hprov.view]
        rfl

/-! ## Cancel -/

/-- Withdrawing one order from one side. -/
theorem withdrawn_wellFormed {ob : OrderBook s} {id : OrderId} (h : WellFormed m)
    (hw : Withdrawn (m.state.side s) ob id) :
    (m.state.setSide s ob).view =
        m.state.view.setLadder s ((m.state.view.ladder s).remove id) ∧
      WellFormed { m with state := m.state.setSide s ob } := by
  have hview : (m.state.setSide s ob).view =
      m.state.view.setLadder s ((m.state.view.ladder s).remove id) := by
    rw [view_setSide, hw.shows, view_ladder]
  refine ⟨hview, wellFormed_sides s ?_ ?_ ?_ ?_ (hview ▸ h.valid.remove s id)⟩ <;>
    simp only [side_setSide, opposite_side_setSide]
  · exact hw.sound
  · exact h.sound (opposite s)
  · exact fun x hx => h.fresh s x (hw.occupied x hx)
  · exact h.fresh (opposite s)

theorem cancel_refines {covered : Prop} (h : WellFormed m) (id : OrderId)
    (hcov : covered) :
    Refines fails m (.ok (m.state.view.cancel id)) covered (cancel id fails m) := by
  have hdone : ∀ {s : Side} {o : Order} {ob : OrderBook s},
      m.state.view.locate id = some (s, o) → Withdrawn (m.state.side s) ob id →
      Refines fails m (.ok (m.state.view.cancel id)) covered
        (.ok (some o), { m with state := m.state.setSide s ob }) := by
    intro s o ob hl hw
    obtain ⟨hview, hwf⟩ := withdrawn_wellFormed h hw
    refine .done _ _ ?_ hwf ⟨0, by simp⟩ ⟨[], by simp, by simp [hcov]⟩
    rw [Market.cancel, hl, hview]
  unfold cancel
  rcases cancelOn_run fails (h.sound .buy) (h.full .buy) id with
    ⟨hfind, hrun⟩ | ⟨o, ob, hfind, hrun, hw⟩
  · rw [bind_ok hrun]
    have hbids : m.state.view.bids.find? id = none := hfind
    rcases cancelOn_run fails (h.sound .sell) (h.full .sell) id with
      ⟨hfind', hrun'⟩ | ⟨o, ob, hfind', hrun', hw⟩
    · have hasks : m.state.view.asks.find? id = none := hfind'
      show Refines fails m _ covered (cancelOn .sell id fails m)
      rw [hrun']
      refine .done _ _ ?_ h ⟨0, by simp⟩ ⟨[], by simp, by simp [hcov]⟩
      have hl : m.state.view.locate id = none := by
        rw [Market.locate, hbids, hasks]
        rfl
      rw [Market.cancel, hl]
    · have hasks : m.state.view.asks.find? id = some o := hfind'
      show Refines fails m _ covered (cancelOn .sell id fails m)
      rw [hrun']
      refine hdone ?_ hw
      rw [Market.locate, hbids, hasks]
      rfl
  · rw [bind_ok hrun]
    have hbids : m.state.view.bids.find? id = some o := hfind
    refine hdone ?_ hw
    rw [Market.locate, hbids]

/-! ## Modify -/

section Modify

variable {id : OrderId} {newQty : Quantity} {newPrice : Option Price}

/-- With everything provisioned for, the original leaves and its replacement enters. -/
theorem Provisioned.replace (fails : ℕ → Bool) {plan : MatchPlan}
    {prepared : PreparedSubmit} {m₁ : BookMemory} {x : Order}
    (h : Provisioned m s o plan prepared m₁) (hm : WellFormed m) (hs : o.side = s)
    (hid : o.id = id) (hl : m.state.view.locate id = some (s, x))
    (hplan : planAgainst (m.state.side (opposite s)).levels.entries o = .ok plan) :
    ∃ x₁ b swept m₂,
      cancelOn s id fails m₁ = (.ok (some x₁), { m₁ with state := b }) ∧
      b.view = m.state.view.setLadder s ((m.state.view.ladder s).remove id) ∧
      Direct.sweep o (m.state.view.ladder (opposite s)) = .ok swept ∧
      commitSubmit s prepared fails { m₁ with state := b } =
        (.ok (Market.submitResult o swept), m₂) ∧
      Entered { m₁ with state := b } m₂ s o swept := by
  have hwf := h.wellFormed hm
  have hfind := Market.locate_eq_some hl
  obtain ⟨buckets, hstate, hroom⟩ := h.state
  have hown : m₁.state.side s = { m.state.side s with buckets } := by
    rw [hstate, side_setSide]
  rcases cancelOn_run fails (hwf.sound s) (hwf.full s) id with
    ⟨hnone, _⟩ | ⟨x₁, ob, _, hrun, hw⟩
  · rw [← view_ladder, h.view, hfind] at hnone
    cases hnone
  obtain ⟨hview, hwf₁⟩ := withdrawn_wellFormed hwf hw
  rw [h.view] at hview
  have hcount := hw.count
  have hbuckets := hw.buckets
  have hoccupied := hw.occupied
  rw [hown] at hcount hbuckets hoccupied
  -- The room kept for the replacement is still there: the side has one order less.
  obtain ⟨swept, m₂, hsw, hcommit, hent⟩ := commitSubmit_entered fails hwf₁ hs
    (by rw [hview, hid]; exact hm.valid.removed_not_mem hl)
    (by rw [opposite_side_setSide, h.opposite_side]; exact hplan) h.planned
    (by rw [h.holding]) (by rw [h.holding]; exact h.ticks)
    (by
      rw [side_setSide, h.holding]
      exact fun x hx => Nat.ne_of_lt (hm.fresh s x (hoccupied x hx)))
    h.capacity h.rest
    (by
      rw [side_setSide, hbuckets]
      exact fun hsome => Nat.le_trans hcount (Nat.le_of_succ_le (hroom hsome)))
  dsimp only at hsw
  rw [hview, Market.opposite_ladder_setLadder] at hsw
  exact ⟨x₁, _, swept, m₂, hrun, hview, hsw, hcommit, hent⟩

/-- The requeue path: planned and provisioned while the original still rests. -/
theorem requeue_refines (h : WellFormed m) (hl : m.state.view.locate id = some (s, o))
    (hq : newQty ≠ 0) (hk : Market.keepsPlace o newQty newPrice = false)
    {price : Price} (hprice : o.restingPrice = some price) :
    Refines fails m (m.state.view.modify id newQty newPrice)
      (Covered m.state.view (.modify id newQty newPrice))
      (requeue s id newQty (newPrice.getD price) fails m) := by
  have hfind := Market.locate_eq_some hl
  obtain ⟨p, hp⟩ := h.valid.placed_of_find? hfind
  rw [view_ladder] at hfind
  set o' := o.cloneAmended newQty (newPrice.getD price) with ho'
  have hrep : Market.replacement o newQty newPrice = o' := by
    rw [Market.replacement, hprice]
    rfl
  have hent' : m.state.view.entering (.modify id newQty newPrice) = some o' := by
    simp [Market.entering, hq, hl, hk, hrep]
  have hside : o'.side = s := by rw [ho', Order.cloneAmended_side, hp.side]
  have hid' : o'.id = id := by rw [ho', Order.cloneAmended_id, Market.locate_id hl]
  rw [Market.modify_requeue hq hl hk, hrep, Market.enter, Market.opposite_ladder_setLadder]
  unfold requeue
  rw [bind_ok (findOn_run (h.sound s) id), hfind, expect_some_bind]
  obtain ⟨m₀, hm₀, _, h₀⟩ :=
    allocate_cases (π := Precondition) Exception.badAlloc fails m
  rcases h₀ with ⟨hf, h₀⟩ | h₀
  · rw [bind_error h₀]
    exact .starved m₀ hm₀ ⟨_, hf⟩
  rw [bind_ok h₀]
  -- Allocating the clone has not touched the book.
  refine Refines.of_frozen hm₀ ?_
  rw [← hm₀.state] at *
  have h₁ := h.of_frozen hm₀
  rcases prepareSubmit_swept fails h₁ s o' with
    ⟨m', hp, hm, hf⟩ | ⟨m', hp, hm, hsw⟩ | ⟨plan, prepared, m₁, hplan, hp, hprov⟩
  · rw [bind_error hp]
    exact .starved m' hm hf
  · rw [bind_error hp]
    refine .refused _ m' ?_ hm
    rw [hsw]
    rfl
  · obtain ⟨x, b, swept, m₂, hcancel, hview, hsw, hcommit, hent⟩ :=
      hprov.replace fails h₁ hside hid' hl hplan
    rw [bind_ok hp, bind_ok hcancel, expect_some_bind, bind_ok hcommit]
    refine Refines.entered hprov hent rfl rfl ?_
      (covered_iff hent' (by rw [hside]; exact hsw))
    rw [hsw, hent.view, hview]
    rfl

theorem amend_refines (h : WellFormed m) (hl : m.state.view.locate id = some (s, o))
    (hq : newQty ≠ 0) :
    Refines fails m (m.state.view.modify id newQty newPrice)
      (Covered m.state.view (.modify id newQty newPrice))
      (amend s o id newQty newPrice fails m) := by
  have hfind := Market.locate_eq_some hl
  obtain ⟨price, hp⟩ := h.valid.placed_of_find? hfind
  have hkeep : Market.keepsPlace o newQty newPrice =
      decide (¬ newPrice.any (· ≠ price) ∧ ¬ newQty > o.remaining) := by
    simp [Market.keepsPlace, hp.price]
  unfold amend
  rw [hp.price, expect_some_bind]
  split
  · rename_i hc
    have hk : Market.keepsPlace o newQty newPrice = true := by
      rw [hkeep]
      exact decide_eq_true hc
    rw [view_ladder] at hfind
    obtain ⟨ob, hrun, hsound, hshows, hocc⟩ := reduceInPlace_run fails (h.sound s) hfind newQty
    have hview : (m.state.setSide s ob).view =
        m.state.view.setLadder s ((m.state.view.ladder s).reduce id newQty) := by
      rw [view_setSide, hshows, view_ladder]
    rw [bind_ok hrun]
    have hcov : Covered m.state.view (.modify id newQty newPrice) :=
      covered_of_none (by simp [Market.entering, hl, hk])
    refine .done _ _ ?_ ?_ ⟨0, by simp⟩ ⟨[], by simp, by simp [hcov]⟩
    · rw [Market.modify, if_neg hq, hl, hview]
      simp only [hk, if_true]
    · refine wellFormed_sides s ?_ ?_ ?_ ?_ (hview ▸ h.valid.reduce s id hq) <;>
        simp only [side_setSide, opposite_side_setSide]
      · exact hsound
      · exact h.sound (opposite s)
      · exact fun x hx => h.fresh s x (hocc x hx)
      · exact h.fresh (opposite s)
  · rename_i hc
    have hk : Market.keepsPlace o newQty newPrice = false := by
      rw [hkeep]
      exact decide_eq_false hc
    exact requeue_refines h hl hq hk hp.price

theorem modify_refines (h : WellFormed m) (id : OrderId) (newQty : Quantity)
    (newPrice : Option Price) :
    Refines fails m (m.state.view.modify id newQty newPrice)
      (Covered m.state.view (.modify id newQty newPrice))
      (modify id newQty newPrice fails m) := by
  unfold modify
  by_cases hq : newQty = 0
  · rw [if_pos hq]
    have hcov : Covered m.state.view (.modify id newQty newPrice) :=
      covered_of_none (by simp [Market.entering, hq])
    refine .done _ m ?_ h ⟨0, by simp⟩ ⟨[], by simp, by simp [hcov]⟩
    rw [Market.modify, if_pos hq]
  · rw [if_neg hq]
    rw [bind_ok (findOn_run (h.sound .buy) id)]
    cases hb : (ladderOf (m.state.side .buy).levels.entries).find? id with
    | some o =>
        have hbids : m.state.view.bids.find? id = some o := hb
        exact amend_refines h (by rw [Market.locate, hbids]) hq
    | none =>
        have hbids : m.state.view.bids.find? id = none := hb
        dsimp only
        rw [bind_ok (findOn_run (h.sound .sell) id)]
        cases ha : (ladderOf (m.state.side .sell).levels.entries).find? id with
        | some o =>
            have hasks : m.state.view.asks.find? id = some o := ha
            exact amend_refines h (by rw [Market.locate, hbids, hasks]; rfl) hq
        | none =>
            have hasks : m.state.view.asks.find? id = none := ha
            have hl : m.state.view.locate id = none := by
              rw [Market.locate, hbids, hasks]
              rfl
            have hcov : Covered m.state.view (.modify id newQty newPrice) :=
              covered_of_none (by simp [Market.entering, hl])
            refine .done _ m ?_ h ⟨0, by simp⟩ ⟨[], by simp, by simp [hcov]⟩
            rw [Market.modify, if_neg hq, hl]

end Modify

end Book

/-- **Refinement.** Every operation on a well-formed memory is the market's
operation, unless an allocation fails. -/
theorem exec_refines {m : BookMemory} (h : WellFormed m) (op : Op) (fails : ℕ → Bool) :
    Refines fails m (m.state.view.apply op) (Covered m.state.view op)
      (op.exec fails m) := by
  cases op with
  | submit order => exact (Book.submit_refines fails h order).map Outcome.submitted
  | cancel id =>
      exact (Book.cancel_refines h id (covered_of_none rfl)).map Outcome.cancelled
  | modify id newQty newPrice =>
      exact (Book.modify_refines h id newQty newPrice).map Outcome.modified

end Exchange
