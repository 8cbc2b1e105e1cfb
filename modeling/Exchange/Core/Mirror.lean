import Exchange.Core.Runs
import Exchange.Core.Symmetry
import Exchange.Core.Inversion

/-!
# The operations on books that look alike

Run on two books that look alike, an operation and its renamed version end
alike and leave books that look alike again, allocation failures included. The
one place where the sides are not treated alike is the order in which they are
searched for an id, and on a book where no id is indexed on both sides that
order does not show.
-/

namespace Exchange

open Framework Framework.Exec OrderBook

namespace Symmetry

/-- Corresponding sides and the same sequence counter. -/
structure BookAlike (σ : Symmetry) (b b' : Book) : Prop where
  sides : ∀ s, σ.SideAlike (b.side s) (b'.side (σ.side s))
  nextSequence : b'.nextSequence = b.nextSequence

variable {σ : Symmetry} {s t : Side}

namespace BookAlike

variable {b b' : Book}

theorem side (h : σ.BookAlike b b') (ht : t = σ.side s) :
    σ.SideAlike (b.side s) (b'.side t) := by
  subst ht
  exact h.sides s

theorem setSide (h : σ.BookAlike b b') (ht : t = σ.side s) {ob : OrderBook s}
    {ob' : OrderBook t} (hob : σ.SideAlike ob ob') :
    σ.BookAlike (b.setSide s ob) (b'.setSide t ob') := by
  subst ht
  have hbids := h.sides .buy
  have hasks := h.sides .sell
  refine ⟨fun u => ?_, ?_⟩
  · cases σ <;> cases s <;> cases u <;> assumption
  · cases σ <;> cases s <;> exact h.nextSequence

theorem stamp (h : σ.BookAlike b b') :
    σ.BookAlike { b with nextSequence := b.nextSequence + 1 }
      { b' with nextSequence := b'.nextSequence + 1 } where
  sides s := by
    rw [Book.side_stamped, Book.side_stamped]
    exact h.sides s
  nextSequence := congrArg (· + 1) h.nextSequence

/-- Crossed books look crossed. -/
theorem isCrossed (h : σ.BookAlike b b') : b'.isCrossed = b.isCrossed := by
  have hbids := (h.sides .buy).bestPrice
  have hasks := (h.sides .sell).bestPrice
  unfold Book.isCrossed Book.bestBid Book.bestAsk
  cases σ with
  | same =>
      have hb : b'.bids.bestPrice = b.bids.bestPrice := hbids.trans Option.map_id'
      have ha : b'.asks.bestPrice = b.asks.bestPrice := hasks.trans Option.map_id'
      rw [hb, ha]
  | mirror =>
      have ha : b'.asks.bestPrice = b.bids.bestPrice.map Symmetry.mirror.price := hbids
      have hb : b'.bids.bestPrice = b.asks.bestPrice.map Symmetry.mirror.price := hasks
      rw [ha, hb]
      cases b.bids.bestPrice <;> cases b.asks.bestPrice
      · rfl
      · rfl
      · rfl
      · exact decide_eq_decide.mpr (mirror_le _ _)

end BookAlike

/-! ## Access to one side -/

/-- Computations that end alike on books that look alike. -/
abbrev Sim (σ : Symmetry) {α α' : Type} (Q : α → α' → Prop) (x : BookExec α)
    (x' : BookExec α') : Prop :=
  Simulates σ.BookAlike Q x x'

theorem opposite_eq (ht : t = σ.side s) : opposite t = σ.side (opposite s) := by
  rw [ht, opposite_side]

theorem getSide_sim (ht : t = σ.side s) :
    σ.Sim σ.SideAlike (Book.getSide s) (Book.getSide t) :=
  .bind .get fun _ _ h => .pure (h.side ht)

theorem putSide_sim (ht : t = σ.side s) {ob : OrderBook s} {ob' : OrderBook t}
    (h : σ.SideAlike ob ob') : σ.Sim Eq (Book.putSide s ob) (Book.putSide t ob') :=
  .bind .get fun _ _ hb => .set (hb.setSide ht h)

theorem editLevel_sim (ht : t = σ.side s) (p : Price)
    {f f' : PriceLevel → Option PriceLevel}
    (hf : ∀ l l', σ.LevelAlike l l' → Option.Rel σ.LevelAlike (f l) (f' l')) :
    σ.Sim Eq (Book.editLevel s p f) (Book.editLevel t (σ.price p) f') := by
  refine .bind (getSide_sim ht) fun ob ob' h => ?_
  exact .bind (.expect _ (h.edit p hf)) fun _ _ h' => putSide_sim ht h'

/-- An order, or none, on both books. -/
abbrev OrderFound (σ : Symmetry) : Option Order → Option Order → Prop :=
  fun o o' => o' = o.map σ.order

theorem findOn_sim (ht : t = σ.side s) (id : OrderId) :
    σ.Sim σ.OrderFound (Book.findOn s id) (Book.findOn t id) := by
  refine .bind (getSide_sim ht) fun ob ob' h => ?_
  rw [h.index id]
  cases ob.index.lookup id with
  | none => exact .pure rfl
  | some loc =>
      refine .bind (.expect _ (h.deref loc)) ?_
      rintro o _ rfl
      exact .pure rfl

theorem cancelOn_sim (ht : t = σ.side s) (id : OrderId) :
    σ.Sim σ.OrderFound (Book.cancelOn s id) (Book.cancelOn t id) := by
  refine .bind (getSide_sim ht) fun ob ob' h => ?_
  dsimp only
  rw [h.index id]
  cases ob.index.lookup id with
  | none => exact .pure rfl
  | some loc =>
      refine .bind (.expect _ (h.withdraw id loc)) ?_
      rintro ⟨o, ob₁⟩ ⟨_, ob₁'⟩ ⟨rfl, hob⟩
      exact .bind (putSide_sim ht hob) fun _ _ _ => .pure rfl

/-! ## Prepare -/

structure RestAlike (σ : Symmetry) (n n' : RestNodes) : Prop where
  restPrice : n'.restPrice = σ.price n.restPrice
  levelNode : σ.LevelAlike n.levelNode n'.levelNode
  indexNode : n'.indexNode = n.indexNode

structure PreparedAlike (σ : Symmetry) (p p' : PreparedSubmit) : Prop where
  plan : p'.plan = σ.plan p.plan
  holding : p'.holding = σ.node p.holding
  rest : Option.Rel σ.RestAlike p.rest p'.rest
  fillsCapacity : p'.fillsCapacity = p.fillsCapacity

theorem reserveIndex_sim (ht : t = σ.side s) :
    σ.Sim Eq (Book.reserveIndex s) (Book.reserveIndex t) := by
  refine .bind (getSide_sim ht) fun ob ob' h => ?_
  rw [h.buckets, h.orderCount]
  refine .ite Iff.rfl ?_ (.pure rfl)
  refine .bind (.allocate _) fun _ _ _ => putSide_sim ht ?_
  exact ⟨h.levels, h.index, rfl⟩

theorem liftPlan_sim (p : Except Precondition MatchPlan) :
    σ.Sim (fun p p' => p' = σ.plan p) (Book.liftPlan p) (Book.liftPlan (p.map σ.plan)) := by
  cases p with
  | error e => exact .undefined e
  | ok p => exact .pure rfl

theorem prepareSubmit_sim (ht : t = σ.side s) (o : Order) :
    σ.Sim σ.PreparedAlike (Book.prepareSubmit s o) (Book.prepareSubmit t (σ.order o)) := by
  refine .bind (.allocate _) ?_
  rintro position _ rfl
  refine .bind (getSide_sim (opposite_eq ht)) fun opp opp' hopp => ?_
  dsimp only
  rw [planAgainst_alike o hopp.levels]
  refine .bind (liftPlan_sim _) ?_
  rintro plan _ rfl
  have hempty : (σ.plan plan).fills.isEmpty = plan.fills.isEmpty := List.isEmpty_map
  refine .bind (.allocateMany _ _) fun _ _ _ => ?_
  rw [hempty]
  refine .bind (.allocateMany _ _) fun _ _ _ => ?_
  have hidle : σ.PreparedAlike
      { plan, holding := ⟨position, o⟩, rest := none, fillsCapacity := plan.fills.length }
      { plan := σ.plan plan, holding := ⟨position, σ.order o⟩, rest := none,
        fillsCapacity := (σ.plan plan).fills.length } :=
    ⟨rfl, rfl, .none, List.length_map _⟩
  rw [order_restingPrice]
  cases o.restingPrice with
  | none => exact .pure hidle
  | some restPrice =>
      refine .ite Iff.rfl ?_ (.pure hidle)
      refine .bind (.allocateMany _ _) fun _ _ _ => ?_
      refine .bind (reserveIndex_sim ht) fun _ _ _ => .pure ?_
      exact ⟨rfl, rfl, .some ⟨rfl, ⟨rfl, rfl⟩, rfl⟩, List.length_map _⟩

/-! ## Commit -/

def commitState (σ : Symmetry) (st : Book.CommitState) : Book.CommitState :=
  ⟨σ.order st.aggressor, st.fills.map σ.fill⟩

theorem pushFill_sim (capacity : ℕ) (fills : List Fill) (f : Fill) :
    σ.Sim (fun l l' => l' = l.map σ.fill) (Book.pushFill capacity fills f)
      (Book.pushFill capacity (fills.map σ.fill) (σ.fill f)) := by
  have happend : fills.map σ.fill ++ [σ.fill f] = (fills ++ [f]).map σ.fill := by simp
  unfold Book.pushFill
  rw [List.length_map]
  by_cases hcap : capacity ≤ fills.length
  · simp only [hcap, if_true]
    exact .bind (.allocate _) fun _ _ _ => .pure happend
  · simp only [hcap, if_false]
    exact .pure happend

theorem commitFill_sim (ht : t = σ.side s) (capacity : ℕ) (st : Book.CommitState)
    (f : PlannedFill) :
    σ.Sim (fun st st' => st' = σ.commitState st) (Book.commitFill s capacity st f)
      (Book.commitFill t capacity (σ.commitState st) (σ.planned f)) := by
  have hopp := opposite_eq ht
  unfold Book.commitFill
  refine .bind (getSide_sim hopp) fun ob ob' hob => ?_
  refine .bind (.expect _ (hob.deref ⟨f.level, f.resting⟩)) ?_
  rintro found _ rfl
  refine .bind (.observe _ _) fun _ _ _ => ?_
  refine .bind (editLevel_sim hopp f.level fun _ _ hl => hl.applyFill _ _) fun _ _ _ => ?_
  refine .bind (.observe _ _) fun _ _ _ => ?_
  have hfill : Book.toFill ((σ.commitState st).aggressor.onPartialFill f.quantity)
      (σ.planned f) = σ.fill (Book.toFill (st.aggressor.onPartialFill f.quantity) f) := by
    show Book.toFill ((σ.order st.aggressor).onPartialFill f.quantity) (σ.planned f) = _
    rw [order_onPartialFill]
    rfl
  show σ.Sim _ (Book.pushFill _ _ _ >>= _) (Book.pushFill _ _ (Book.toFill
    ((σ.commitState st).aggressor.onPartialFill f.quantity) (σ.planned f)) >>= _)
  rw [hfill]
  refine .bind (pushFill_sim capacity st.fills _) ?_
  rintro fills _ rfl
  refine .bind (getSide_sim hopp) fun ob₁ ob₁' hob₁ => ?_
  refine .bind (.expect _ (hob₁.deref ⟨f.level, f.resting⟩)) ?_
  rintro resting _ rfl
  have hdone : (⟨(σ.commitState st).aggressor.onPartialFill f.quantity,
      fills.map σ.fill⟩ : Book.CommitState) =
      σ.commitState ⟨st.aggressor.onPartialFill f.quantity, fills⟩ := by
    show (⟨(σ.order st.aggressor).onPartialFill f.quantity, _⟩ : Book.CommitState) = _
    rw [order_onPartialFill]
    rfl
  have hend : σ.Sim (fun st st' => st' = σ.commitState st)
      (pure ⟨st.aggressor.onPartialFill f.quantity, fills⟩)
      (pure ⟨(σ.commitState st).aggressor.onPartialFill f.quantity, fills.map σ.fill⟩) :=
    .pure hdone
  refine .ite Iff.rfl ?_ (.ite ?_ ?_ hend)
  · refine .bind (getSide_sim hopp) fun ob₂ ob₂' hob₂ => ?_
    refine .bind (putSide_sim hopp (hob₂.unindex f.restingId)) fun _ _ _ => ?_
    exact .bind (editLevel_sim hopp f.level fun _ _ hl => hl.unlink _) fun _ _ _ => hend
  · rw [order_needsReplenish]
  · exact .bind (editLevel_sim hopp f.level fun _ _ hl => hl.replenishAndRequeue _)
      fun _ _ _ => hend

theorem commitFills_sim (ht : t = σ.side s) (capacity : ℕ) (fills : List PlannedFill)
    (st : Book.CommitState) :
    σ.Sim (fun st st' => st' = σ.commitState st) (Book.commitFills s capacity fills st)
      (Book.commitFills t capacity (fills.map σ.planned) (σ.commitState st)) := by
  induction fills generalizing st with
  | nil => exact .pure rfl
  | cons f rest ih =>
      refine .bind (commitFill_sim ht capacity st f) ?_
      rintro st₁ _ rfl
      exact ih st₁

theorem insertIndex_sim (ht : t = σ.side s) (id : OrderId) (p : Price) (a : Addr) :
    σ.Sim Eq (Book.insertIndex s id p a) (Book.insertIndex t id (σ.price p) a) := by
  refine .bind (getSide_sim ht) fun ob ob' h => ?_
  rw [h.buckets, h.orderCount]
  have hput := putSide_sim ht (h.installIndex id p a)
  exact .ite Iff.rfl (.bind (.allocate _) fun _ _ _ => hput) hput

theorem restRemainder_sim (ht : t = σ.side s) {nodes nodes' : RestNodes}
    (h : σ.RestAlike nodes nodes') (holding : Node) :
    σ.Sim Eq (Book.restRemainder s nodes holding)
      (Book.restRemainder t nodes' (σ.node holding)) := by
  unfold Book.restRemainder
  rw [h.restPrice, h.indexNode]
  refine .bind (getSide_sim ht) fun ob ob' hob => ?_
  refine .bind (putSide_sim ht (hob.installLevel ht h.levelNode)) fun _ _ _ => ?_
  refine .bind (insertIndex_sim ht _ _ _) fun _ _ _ => ?_
  exact editLevel_sim ht _ fun _ _ hl => .some (hl.adopt holding)

/-- What the operations return, renamed. -/
def submitResult (σ : Symmetry) (r : SubmitResult) : SubmitResult :=
  { r with fills := r.fills.map σ.fill }

def modifyResult (σ : Symmetry) (r : ModifyResult) : ModifyResult :=
  { r with fills := r.fills.map σ.fill }

theorem finishSubmit_sim (ht : t = σ.side s) {prepared prepared' : PreparedSubmit}
    (h : σ.PreparedAlike prepared prepared') (st : Book.CommitState) :
    σ.Sim (fun r r' => r' = σ.submitResult r) (Book.finishSubmit s prepared st)
      (Book.finishSubmit t prepared' (σ.commitState st)) := by
  obtain ⟨plan, holding, rest, capacity⟩ := prepared
  obtain ⟨_, _, rest', _⟩ := prepared'
  obtain ⟨rfl, rfl, hrest, _⟩ := h
  have hempty : (σ.commitState st).fills.isEmpty = st.fills.isEmpty := List.isEmpty_map
  unfold Book.finishSubmit
  dsimp only at hrest ⊢
  rw [hempty]
  cases hrest with
  | none => exact .pure rfl
  | some hnodes => exact .bind (restRemainder_sim ht hnodes _) fun _ _ _ => .pure rfl

theorem commitSubmit_sim (ht : t = σ.side s) {prepared prepared' : PreparedSubmit}
    (h : σ.PreparedAlike prepared prepared') :
    σ.Sim (fun r r' => r' = σ.submitResult r) (Book.commitSubmit s prepared)
      (Book.commitSubmit t prepared') := by
  have hopp := opposite_eq ht
  refine .noexcept (.bind .get fun b b' hb => ?_)
  dsimp only
  rw [h.holding, h.plan, h.fillsCapacity, hb.nextSequence]
  have hstamp := hb.stamp
  rw [hb.nextSequence] at hstamp
  refine .bind (.set hstamp) fun _ _ _ => ?_
  refine .bind (commitFills_sim ht _ _
    ⟨prepared.holding.order.assignSequence b.nextSequence, []⟩) ?_
  rintro st _ rfl
  refine .bind (getSide_sim hopp) fun opp opp' hob => ?_
  refine .bind (putSide_sim hopp hob.dropEmptyLevelsFromFront) fun _ _ _ => ?_
  exact finishSubmit_sim ht h st

/-! ## Which side knows an id -/

/-- No id is indexed on both sides. -/
def Separate (b : Book) : Prop := ∀ id, id ∈ b.bids.index → id ∉ b.asks.index

/-- One of the two sides does not know the id. -/
theorem Separate.unknown {b : Book} (h : Separate b) (id : OrderId) :
    ∃ s, (b.side (opposite s)).index.lookup id = none := by
  by_cases hid : id ∈ b.bids.index
  · exact ⟨.buy, Finmap.lookup_eq_none.mpr (h id hid)⟩
  · exact ⟨.sell, Finmap.lookup_eq_none.mpr hid⟩

/-! ## The operations -/

section Operations

variable {fails : ℕ → Bool} {m m' : BookMemory}

/-- On books that look alike the sides that may know an id correspond. -/
theorem unknown_alike (h : InStep σ.BookAlike m m') {id : OrderId}
    (hid : (m.state.side (opposite s)).index.lookup id = none) :
    (m'.state.side (opposite (σ.side s))).index.lookup id = none := by
  have hside := h.state.side (opposite_eq (rfl : σ.side s = σ.side s))
  rw [hside.index, hid]
  rfl

theorem find_alike (h : InStep σ.BookAlike m m') (hsep : Separate m.state) (id : OrderId) :
    EndAlike σ.BookAlike σ.OrderFound (Book.find id fails m) (Book.find id fails m') := by
  obtain ⟨s, hid⟩ := hsep.unknown id
  rw [Book.find_eq hid, Book.find_eq (unknown_alike h hid)]
  exact findOn_sim rfl id fails m m' h

theorem validate_alike (fails : ℕ → Bool) (h : InStep σ.BookAlike m m')
    (hsep : Separate m.state) (o : Order) :
    EndAlike σ.BookAlike Eq (Book.validate o fails m)
      (Book.validate (σ.order o) fails m') := by
  unfold Book.validate
  rw [order_remaining, order_id]
  by_cases hq : o.remaining = 0
  · simp only [if_pos hq]
    refine Simulates.bind (.allocate _) (fun _ _ _ => ?_) fails m m' h
    exact .bind (Q := fun _ _ => False) (.throw _) fun _ _ hfalse => hfalse.elim
  · simp only [if_neg hq]
    refine (find_alike h hsep o.id).bind ?_
    rintro found _ rfl
    rw [Option.isSome_map]
    refine .ite Iff.rfl ?_ (.pure rfl)
    exact .bind (.allocate _) fun _ _ _ => .throw _

theorem submit_alike (h : InStep σ.BookAlike m m') (hsep : Separate m.state)
    (order : Option Order) :
    EndAlike σ.BookAlike (fun r r' => r' = σ.submitResult r) (Book.submit order fails m)
      (Book.submit (order.map σ.order) fails m') := by
  cases order with
  | none =>
      exact Simulates.bind (.allocate _) (fun _ _ _ => .throw _) fails m m' h
  | some o =>
      refine (validate_alike fails h hsep o).bind fun _ _ _ => ?_
      refine .bind (prepareSubmit_sim rfl o) fun p p' hp => ?_
      refine .bind (commitSubmit_sim rfl hp) ?_
      rintro r _ rfl
      refine .bind .get fun b b' hb => ?_
      refine .bind (.require _ ?_) fun _ _ _ => .pure rfl
      rw [hb.isCrossed]

theorem cancel_alike (h : InStep σ.BookAlike m m') (hsep : Separate m.state) (id : OrderId) :
    EndAlike σ.BookAlike σ.OrderFound (Book.cancel id fails m)
      (Book.cancel id fails m') := by
  obtain ⟨s, hid⟩ := hsep.unknown id
  rw [Book.cancel_eq hid, Book.cancel_eq (unknown_alike h hid)]
  exact cancelOn_sim rfl id fails m m' h

theorem reduceInPlace_sim (ht : t = σ.side s) (id : OrderId) (q : Quantity) :
    σ.Sim Eq (Book.reduceInPlace s id q) (Book.reduceInPlace t id q) := by
  refine .bind (getSide_sim ht) fun ob ob' hob => ?_
  rw [hob.index id]
  refine .bind (.expect _ (rel_map σ.locator _)) ?_
  rintro loc _ rfl
  exact editLevel_sim ht loc.price fun _ _ hl => hl.reduceQuantity _ _

theorem requeue_sim (ht : t = σ.side s) (id : OrderId) (q : Quantity) (p : Price) :
    σ.Sim (fun r r' => r' = σ.modifyResult r) (Book.requeue s id q p)
      (Book.requeue t id q (σ.price p)) := by
  refine .bind (findOn_sim ht id) ?_
  rintro found _ rfl
  refine .bind (.expect _ (rel_map σ.order found)) ?_
  rintro resting _ rfl
  refine .bind (.allocate _) fun _ _ _ => ?_
  rw [order_cloneAmended]
  refine .bind (prepareSubmit_sim ht _) fun prepared prepared' hp => ?_
  refine .bind (cancelOn_sim ht id) ?_
  rintro withdrawn _ rfl
  refine .bind (.expect _ (rel_map σ.order withdrawn)) fun _ _ _ => ?_
  refine .bind (commitSubmit_sim ht hp) ?_
  rintro r _ rfl
  exact .pure rfl

theorem amend_sim (ht : t = σ.side s) (resting : Order) (id : OrderId) (q : Quantity)
    (p : Option Price) :
    σ.Sim (fun r r' => r' = σ.modifyResult r) (Book.amend s resting id q p)
      (Book.amend t (σ.order resting) id q (p.map σ.price)) := by
  unfold Book.amend
  rw [order_restingPrice, order_remaining]
  refine .bind (.expect _ (rel_map σ.price _)) ?_
  rintro current _ rfl
  have hmoves : (p.map σ.price).any (· ≠ σ.price current) = p.any (· ≠ current) := by
    cases p with
    | none => rfl
    | some p => exact decide_eq_decide.mpr σ.price_injective.ne_iff
  have htarget : (p.map σ.price).getD (σ.price current) = σ.price (p.getD current) := by
    cases p <;> rfl
  dsimp only
  rw [hmoves, htarget]
  refine .ite Iff.rfl ?_ (requeue_sim ht id q _)
  exact .bind (reduceInPlace_sim ht id q) fun _ _ _ => .pure rfl

theorem modify_alike (h : InStep σ.BookAlike m m') (hsep : Separate m.state) (id : OrderId)
    (q : Quantity) (p : Option Price) :
    EndAlike σ.BookAlike (fun r r' => r' = σ.modifyResult r) (Book.modify id q p fails m)
      (Book.modify id q (p.map σ.price) fails m') := by
  by_cases hq : q = 0
  · unfold Book.modify
    rw [if_pos hq, if_pos hq]
    exact .ok rfl h
  · obtain ⟨s, hid⟩ := hsep.unknown id
    rw [Book.modify_eq hid hq, Book.modify_eq (unknown_alike h hid) hq]
    refine (findOn_sim rfl id fails m m' h).bind ?_
    rintro found _ rfl
    cases found with
    | none => exact .pure rfl
    | some resting => exact amend_sim rfl resting id q p

def op (σ : Symmetry) : Op → Op
  | .submit order => .submit (order.map σ.order)
  | .cancel id => .cancel id
  | .modify id newQty newPrice => .modify id newQty (newPrice.map σ.price)

def outcome (σ : Symmetry) : Outcome → Outcome
  | .submitted r => .submitted (σ.submitResult r)
  | .cancelled order => .cancelled (order.map σ.order)
  | .modified r => .modified (σ.modifyResult r)

/-- **Every operation** ends alike on books that look alike. -/
theorem exec_alike (fails : ℕ → Bool) (h : InStep σ.BookAlike m m')
    (hsep : Separate m.state) (op : Op) :
    EndAlike σ.BookAlike (fun r r' => r' = σ.outcome r) (op.exec fails m)
      ((σ.op op).exec fails m') := by
  cases op with
  | submit order =>
      refine (submit_alike h hsep order).bind ?_
      rintro r _ rfl
      exact .pure rfl
  | cancel id =>
      refine (cancel_alike h hsep id).bind ?_
      rintro r _ rfl
      exact .pure rfl
  | modify id newQty newPrice =>
      refine (modify_alike h hsep id newQty newPrice).bind ?_
      rintro r _ rfl
      exact .pure rfl

end Operations

end Symmetry

/-- In a well-formed memory an id is indexed on one side at most. -/
theorem WellFormed.separate {m : BookMemory} (h : WellFormed m) :
    Symmetry.Separate m.state := by
  intro id hb ha
  have hbids := (h.sound .buy).mem_index_iff.mp hb
  have hasks := (h.sound .sell).mem_index_iff.mp ha
  rw [← Book.view_ladder] at hbids hasks
  exact (List.nodup_append.mp (h.valid.ids .buy)).2.2 id hbids id hasks rfl

/-! ## Whole runs -/

/-- Run operations in turn, each with its own allocation failures: how each
ended, and the memory in the end. -/
def Op.execAll : List (Op × (ℕ → Bool)) → BookMemory →
    List (Except Ending Outcome) × BookMemory
  | [], m => ([], m)
  | (op, fails) :: rest, m =>
      let (r, m₁) := op.exec fails m
      let (rs, m₂) := execAll rest m₁
      (r :: rs, m₂)

theorem WellFormed.execAll (ops : List (Op × (ℕ → Bool))) {m : BookMemory}
    (h : WellFormed m) : WellFormed (Op.execAll ops m).2 := by
  induction ops generalizing m with
  | nil => exact h
  | cons step rest ih => exact ih (h.exec step.1 step.2)

namespace Symmetry

/-- Runs on books that look alike: the same steps end alike, and the books look
alike in the end. -/
theorem execAll_alike (σ : Symmetry) (ops : List (Op × (ℕ → Bool))) {m m' : BookMemory}
    (hwf : WellFormed m) (h : InStep σ.BookAlike m m') :
    (Op.execAll (ops.map fun step => (σ.op step.1, step.2)) m').1 =
        (Op.execAll ops m).1.map (Except.map σ.outcome) ∧
      InStep σ.BookAlike (Op.execAll ops m).2
        (Op.execAll (ops.map fun step => (σ.op step.1, step.2)) m').2 := by
  induction ops generalizing m m' with
  | nil => exact ⟨rfl, h⟩
  | cons step rest ih =>
      obtain ⟨op, fails⟩ := step
      have hstep := exec_alike fails h hwf.separate op
      have hwf₁ := hwf.exec op fails
      rcases hx : op.exec fails m with ⟨r, m₁⟩
      rcases hx' : (σ.op op).exec fails m' with ⟨r', m₁'⟩
      rw [hx, hx'] at hstep
      rw [hx] at hwf₁
      have hm : InStep σ.BookAlike m₁ m₁' ∧ r' = r.map σ.outcome := by
        rcases hstep with ⟨rfl, hm⟩ | hm
        · exact ⟨hm, rfl⟩
        · exact ⟨hm, rfl⟩
      obtain ⟨hres, hend⟩ := ih hwf₁ hm.1
      have hrun : Op.execAll ((op, fails) :: rest) m =
          (r :: (Op.execAll rest m₁).1, (Op.execAll rest m₁).2) := by
        rw [Op.execAll, hx]
      have hrun' : Op.execAll (((op, fails) :: rest).map
          fun step => (σ.op step.1, step.2)) m' =
          (r' :: (Op.execAll (rest.map fun step => (σ.op step.1, step.2)) m₁').1,
            (Op.execAll (rest.map fun step => (σ.op step.1, step.2)) m₁').2) := by
        rw [List.map_cons, Op.execAll, hx']
      rw [hrun, hrun']
      exact ⟨by rw [hm.2, hres, List.map_cons], hend⟩

/-- A level with its queue and its two aggregates. -/
def level (σ : Symmetry) (l : PriceLevel) : PriceLevel :=
  { l with price := σ.price l.price, orders := l.orders.map σ.node }

/-- `b'` is the mirror image of `b`: its bids are the mirrored asks and its asks
the mirrored bids, queue by queue. -/
structure Mirrored (b b' : Book) : Prop where
  levels : ∀ s, (b'.side (opposite s)).levels.entries =
    (b.side s).levels.entries.map fun e =>
      (Symmetry.mirror.price e.1, Symmetry.mirror.level e.2)
  index : ∀ s id, (b'.side (opposite s)).index.lookup id =
    ((b.side s).index.lookup id).map Symmetry.mirror.locator
  nextSequence : b'.nextSequence = b.nextSequence

/-- Balanced levels that look alike have the same aggregates. -/
theorem LevelAlike.eq_level {σ : Symmetry} {l l' : PriceLevel} (h : σ.LevelAlike l l')
    (hl : l.Balanced) (hl' : l'.Balanced) : l' = σ.level l := by
  obtain ⟨price, orders, total, visible⟩ := l
  obtain ⟨price', orders', total', visible'⟩ := l'
  obtain ⟨hprice, horders⟩ := h
  obtain ⟨ht, hv⟩ := hl
  obtain ⟨ht', hv'⟩ := hl'
  dsimp only at *
  subst hprice horders ht hv ht' hv'
  unfold level
  congr 1
  · simp [PriceLevel.sumRemaining, node, Function.comp_def]
  · simp [PriceLevel.sumVisible, node, Function.comp_def]

theorem LevelsAlike.eq_map {σ : Symmetry} {l l' : List (Price × PriceLevel)}
    (h : σ.LevelsAlike l l') (hl : ∀ e ∈ l, e.2.Balanced) (hl' : ∀ e ∈ l', e.2.Balanced) :
    l' = l.map fun e => (σ.price e.1, σ.level e.2) := by
  induction h with
  | nil => rfl
  | @cons e e' rest rest' he _ ih =>
      rw [List.map_cons, ← ih (fun x hx => hl x (List.mem_cons_of_mem _ hx))
        (fun x hx => hl' x (List.mem_cons_of_mem _ hx))]
      congr 1
      exact Prod.ext he.1
        (he.2.eq_level (hl e List.mem_cons_self) (hl' e' List.mem_cons_self))

/-- **Side symmetry.** Swapping the sides and reflecting the prices of every
operation of a run mirrors what each of them returns, and the book they lead
to. -/
theorem mirrored_run (ops : List (Op × (ℕ → Bool))) :
    (Op.execAll (ops.map fun step => (Symmetry.mirror.op step.1, step.2))
        { state := {} }).1 =
      (Op.execAll ops { state := {} }).1.map (Except.map Symmetry.mirror.outcome) ∧
    Mirrored (Op.execAll ops { state := {} }).2.state
      (Op.execAll (ops.map fun step => (Symmetry.mirror.op step.1, step.2))
        { state := {} }).2.state := by
  have hempty : InStep Symmetry.mirror.BookAlike ({ state := {} } : BookMemory)
      { state := {} } := by
    refine ⟨⟨fun s => ?_, rfl⟩, rfl⟩
    cases s <;> exact ⟨.nil, fun _ => rfl, rfl⟩
  obtain ⟨hres, hend⟩ := execAll_alike Symmetry.mirror ops wellFormed_empty hempty
  refine ⟨hres, fun s => ?_, fun s id => ?_, hend.state.nextSequence⟩
  · have hwf := wellFormed_empty.execAll ops
    have hwf' := wellFormed_empty.execAll
      (ops.map fun step => (Symmetry.mirror.op step.1, step.2))
    exact LevelsAlike.eq_map (hend.state.sides s).levels (hwf.sound s).balanced
      (hwf'.sound (opposite s)).balanced
  · exact (hend.state.sides s).index id

end Symmetry

end Exchange
