import Exchange.Core.View

/-!
# Lockstep: the plan, its replay, and direct matching

The planner simulates a rotating queue on a private copy; the commit replays
the resulting list through stored positions. Both are compared with direct
matching here, one planned fill at a time: after any prefix of the plan, the
replayed side is the side direct matching has reached, and the planner's copy
mirrors its current queue.

Nothing is assumed about the tranches: a wrapped counter wraps alike in the
copy, in the order and in the ladder. The one case set apart is a head that
shows nothing, where planner and direct matching are stuck together.
-/

namespace Exchange

open Framework OrderBook

/-! ## Replaying a plan on the opposite side -/

/-- The commit loop without its effects: the opposite side, the aggressor, the
fills so far and the calls of `onPartialFill` so far. -/
structure Replay (t : Side) where
  opp : OrderBook t
  aggressor : Order
  fills : List Fill := []
  calls : List FillCall := []

namespace Replay

variable {t : Side}

/-- What becomes of the resting order once it has traded. -/
def resolve (opp : OrderBook t) (planned : PlannedFill) (resting : Order) :
    Option (OrderBook t) :=
  if resting.isFilled then
    (opp.unindex planned.restingId).edit planned.level
      fun level => (level.extract planned.resting).map Prod.snd
  else if resting.needsReplenish then
    opp.edit planned.level (·.replenishAndRequeue planned.resting)
  else some opp

def replayFill (r : Replay t) (planned : PlannedFill) : Option (Replay t) := do
  let loc : Locator := ⟨planned.level, planned.resting⟩
  let found ← r.opp.deref loc
  let opp₁ ← r.opp.edit planned.level (·.applyFill planned.resting planned.quantity)
  let resting ← opp₁.deref loc
  let opp₂ ← resolve opp₁ planned resting
  return { opp := opp₂
           aggressor := r.aggressor.onPartialFill planned.quantity
           fills := r.fills ++
             [Book.toFill (r.aggressor.onPartialFill planned.quantity) planned]
           calls := r.calls ++ [⟨planned.quantity, found.visibleQty⟩,
             ⟨planned.quantity, r.aggressor.visibleQty⟩] }

def replay (r : Replay t) (fills : List PlannedFill) : Option (Replay t) :=
  fills.foldlM replayFill r

theorem replay_snoc {r r' : Replay t} {fills : List PlannedFill} (f : PlannedFill)
    (h : r.replay fills = some r') : r.replay (fills ++ [f]) = r'.replayFill f := by
  unfold replay at *
  rw [List.foldlM_append, h]
  simp

end Replay

/-! ## Trading with the head of a queue -/

/-- `Direct.settle` on list nodes. -/
def settleNodes (n : Node) (ns : List Node) : List Node :=
  if n.order.isFilled then ns
  else if n.order.needsReplenish then ns ++ [⟨n.addr, n.order.replenish⟩]
  else n :: ns

theorem settleNodes_orders (n : Node) (ns : List Node) :
    (settleNodes n ns).map Node.order = Direct.settle n.order (ns.map Node.order) := by
  unfold settleNodes Direct.settle
  split
  · rfl
  · split
    · simp
    · simp

section Head

variable {t : Side} {r : Replay t} {planned : PlannedFill}
  {pre post : List (Price × PriceLevel)} {level : PriceLevel}
  {n : Node} {ns : List Node}

/-- The replay step at the head of a queue: one level changes, its queue is
settled, and the side stays sound. -/
structure HeadTraded (r r' : Replay t) (planned : PlannedFill)
    (pre post : List (Price × PriceLevel)) (level' : PriceLevel)
    (n : Node) (ns : List Node) : Prop where
  step : r.replayFill planned = some r'
  entries : r'.opp.levels.entries = pre ++ (planned.level, level') :: post
  queue : level'.orders =
    settleNodes ⟨n.addr, n.order.onPartialFill planned.quantity⟩ ns
  sound : r'.opp.Sound
  occupied : ∀ o ∈ occupants r'.opp.levels.entries,
    o ∈ occupants r.opp.levels.entries
  buckets : r'.opp.buckets = r.opp.buckets
  aggressor : r'.aggressor = r.aggressor.onPartialFill planned.quantity
  fills : r'.fills = r.fills ++
    [Book.toFill (r.aggressor.onPartialFill planned.quantity) planned]
  calls : r'.calls = r.calls ++ [⟨planned.quantity, n.order.visibleQty⟩,
    ⟨planned.quantity, r.aggressor.visibleQty⟩]

/-- The head, rewritten by its execution, is resolved in its level. -/
theorem resolve_head {opp : OrderBook t} (h : opp.Sound)
    (hb : opp.levels.entries = pre ++ (planned.level, level) :: post)
    (hl : level.orders = n :: ns) (ha : planned.resting = n.addr)
    (hid : planned.restingId = n.order.id) :
    ∃ opp' level', Replay.resolve opp planned n.order = some opp' ∧
      opp'.levels.entries = pre ++ (planned.level, level') :: post ∧
      level'.orders = settleNodes n ns ∧ opp'.Sound ∧
      (∀ o ∈ occupants opp'.levels.entries, o ∈ occupants opp.levels.entries) ∧
      opp'.buckets = opp.buckets := by
  have hl' : level.orders = [] ++ n :: ns := hl
  have hnd : (([] ++ n :: ns).map Node.addr).Nodup := hl ▸ h.addrs_nodup hb
  have hbal := h.balanced_of_split hb
  unfold Replay.resolve settleNodes
  rw [ha, hid]
  by_cases hfilled : n.order.isFilled = true
  · rw [if_pos hfilled, if_pos hfilled]
    have hext : (level.extract n.addr).map Prod.snd = some _ :=
      congrArg (Option.map Prod.snd) (PriceLevel.extract_split hl' hnd)
    obtain ⟨opp', hedit, he, hs, hk, hocc⟩ := h.edit_erase
      (f := fun level => (level.extract n.addr).map Prod.snd) (n := n)
      hb hext rfl (hbal.extract hl') (by rw [hl]; exact List.Perm.refl _)
    refine ⟨opp', _, hedit, he, rfl, hs, fun o ho => ?_, hk⟩
    exact hocc.mem_iff.mpr (List.mem_cons_of_mem _ ho)
  · rw [if_neg hfilled, if_neg hfilled]
    by_cases hspent : n.order.needsReplenish = true
    · rw [if_pos hspent, if_pos hspent]
      have hv : n.order.visibleQty = 0 := by
        simp only [Order.needsReplenish, Bool.and_eq_true, decide_eq_true_eq] at hspent
        exact hspent.2
      obtain ⟨opp', hedit, he, hs, hk, hocc⟩ := h.edit_perm
        (f := (·.replenishAndRequeue n.addr))
        hb (PriceLevel.replenishAndRequeue_split hl' hnd) rfl
        (hbal.replenishAndRequeue hl' hv) (by
          rw [hl]
          simp only [List.nil_append, List.map_append, List.map_cons, List.map_nil,
            occupant, Order.replenish_id]
          exact List.perm_append_singleton _ _)
      exact ⟨opp', _, hedit, he, rfl, hs, fun o ho => hocc.mem_iff.mp ho, hk⟩
    · rw [if_neg hspent, if_neg hspent]
      exact ⟨opp, level, rfl, hb, hl, h, fun o ho => ho, rfl⟩

theorem replayFill_head (planned : PlannedFill) (h : r.opp.Sound)
    (hb : r.opp.levels.entries = pre ++ (planned.level, level) :: post)
    (hl : level.orders = n :: ns) (ha : planned.resting = n.addr)
    (hid : planned.restingId = n.order.id) :
    ∃ r' level', HeadTraded r r' planned pre post level' n ns := by
  have hl' : level.orders = [] ++ n :: ns := hl
  have hnd : (([] ++ n :: ns).map Node.addr).Nodup := hl ▸ h.addrs_nodup hb
  have hfound := deref_split h hb hl'
  -- The execution rewrites the head in place; then the head is resolved.
  obtain ⟨opp₁, hedit, he₁, hs₁, hk₁, hocc₁⟩ := h.edit_perm
    (f := (·.applyFill n.addr planned.quantity))
    hb (PriceLevel.applyFill_split hl' hnd planned.quantity) rfl
    ((h.balanced_of_split hb).applyFill hl' planned.quantity) (by
      rw [hl]
      simp only [List.nil_append, List.map_cons, occupant, Order.onPartialFill_id]
      exact List.Perm.refl _)
  have hresting := deref_split hs₁ he₁
    (rfl : _ = [] ++ (⟨n.addr, n.order.onPartialFill planned.quantity⟩ : Node) :: ns)
  obtain ⟨opp₂, level₂, hres, he₂, hq₂, hs₂, hocc₂, hk₂⟩ := resolve_head
    (n := ⟨n.addr, n.order.onPartialFill planned.quantity⟩) hs₁ he₁ rfl ha
    (by simpa using hid)
  let r' : Replay t :=
    { opp := opp₂
      aggressor := r.aggressor.onPartialFill planned.quantity
      fills := r.fills ++
        [Book.toFill (r.aggressor.onPartialFill planned.quantity) planned]
      calls := r.calls ++ [⟨planned.quantity, n.order.visibleQty⟩,
        ⟨planned.quantity, r.aggressor.visibleQty⟩] }
  refine ⟨r', level₂, ?_, he₂, hq₂, hs₂, ?_, hk₂.trans hk₁, rfl, rfl, rfl⟩
  · unfold Replay.replayFill
    simp [ha, hfound, hedit, hresting, hres, r']
  · intro o ho
    exact hocc₁.mem_iff.mp (hocc₂ o ho)

end Head

/-! ## The planner's copy mirrors the queue -/

/-- A simulated entry stands for a list node. The display size matters only to
an order that hides quantity; for the others the copy keeps a stale value that
is never read. -/
structure Mirror (p : Pending) (n : Node) : Prop where
  position : p.position = n.addr
  account : p.account = n.order.account
  id : p.id = n.order.id
  remaining : p.remaining = n.order.remaining
  visible : p.visible = n.order.visibleQty
  display : ∀ limit display visible, n.order.kind = .iceberg limit display visible →
    p.display = display

theorem mirror_ofNode (n : Node) : Mirror (Pending.ofNode n) n where
  position := rfl
  account := rfl
  id := rfl
  remaining := rfl
  visible := rfl
  display limit display visible h := by
    simp [Pending.ofNode, Order.displaySize, h]

theorem Mirror.fill {p : Pending} {n : Node} (h : Mirror p n) (qty : Quantity) :
    Mirror { p with remaining := p.remaining - qty, visible := p.visible - qty }
      ⟨n.addr, n.order.onPartialFill qty⟩ where
  position := h.position
  account := by simpa using h.account
  id := by simpa using h.id
  remaining := by simp [h.remaining]
  visible := by simp [h.visible]
  display limit display visible hk := by
    simp only [Order.onPartialFill] at hk
    split at hk
    · rename_i hkind
      cases hk
      exact h.display _ _ _ hkind
    · rename_i hne
      exact absurd hk (hne _ _ _)

theorem Mirror.replenish {p : Pending} {n : Node} (h : Mirror p n)
    (hr : n.order.remaining ≠ 0) (hv : n.order.visibleQty = 0) :
    Mirror { p with visible := min p.display p.remaining }
      ⟨n.addr, n.order.replenish⟩ := by
  obtain ⟨addr, o⟩ := n
  obtain ⟨id, remaining, sequence, account, side, kind⟩ := o
  cases kind with
  | iceberg limit display visible =>
      refine ⟨h.position, h.account, h.id, h.remaining, ?_, ?_⟩
      · show min p.display p.remaining = min display remaining
        rw [h.display _ _ _ rfl, h.remaining]
      · intro _ _ _ hk
        cases hk
        exact h.display _ _ _ rfl
  -- An order that hides nothing cannot be left without a tranche.
  | limit limit => exact absurd hv hr
  | market => exact absurd hv hr

open PriceTimeStrategy in
/-- The planner rotates its copy as the level settles its queue. -/
theorem advance_mirrors {handle : Price} {level : PriceLevel} {st : PlanState}
    {front : Pending} {behind : List Pending} {n : Node} {ns : List Node}
    {qty : Quantity} (hn : Mirror front n) (hns : List.Forall₂ Mirror behind ns) :
    List.Forall₂ Mirror (advance handle level st front behind qty).queue
      (settleNodes ⟨n.addr, n.order.onPartialFill qty⟩ ns) := by
  have hfill := hn.fill qty
  have hrem := hfill.remaining
  have hvis := hfill.visible
  simp only at hrem hvis
  unfold advance settleNodes
  dsimp only
  by_cases hzero : front.remaining - qty = 0
  · have hfilled : (n.order.onPartialFill qty).isFilled = true := by
      simpa [Order.isFilled, hrem] using hzero
    rw [if_pos hzero, if_pos hfilled]
    exact hns
  · have hne : (n.order.onPartialFill qty).remaining ≠ 0 := by rwa [← hrem]
    have hunfilled : ¬ (n.order.onPartialFill qty).isFilled = true := by
      simpa [Order.isFilled, hrem] using hzero
    rw [if_neg hzero, if_neg hunfilled]
    by_cases hspent : front.visible - qty = 0
    · have hv : (n.order.onPartialFill qty).visibleQty = 0 := by rwa [← hvis]
      have hrep : (n.order.onPartialFill qty).needsReplenish = true := by
        simp only [Order.needsReplenish, hv, decide_true, Bool.and_true,
          decide_eq_true_eq]
        exact UInt64.pos_iff_ne_zero.mpr hne
      rw [if_pos hspent, if_pos hrep]
      exact List.rel_append hns
        (List.Forall₂.cons (hfill.replenish hne hv) List.Forall₂.nil)
    · have hv : (n.order.onPartialFill qty).visibleQty ≠ 0 := by rwa [← hvis]
      have hshown : ¬ (n.order.onPartialFill qty).needsReplenish = true := by
        simp only [Order.needsReplenish, hv, decide_false, Bool.and_false]
        decide
      rw [if_neg hspent, if_neg hshown]
      exact List.Forall₂.cons hfill hns

/-! ## Tracking direct matching -/

/-- The commit of `agg`, stamped `seq`, before its first fill. -/
def Replay.start {t : Side} (opp : OrderBook t) (agg : Order) (seq : Sequence) :
    Replay t :=
  { opp, aggressor := agg.assignSequence seq }

/-- Replaying `fills` reaches `r`, while direct matching passes through
`ladder` with `available` left. -/
structure Tracks {t : Side} (opp : OrderBook t) (agg : Order) (seq : Sequence)
    (fills : List PlannedFill) (available : Quantity) (r : Replay t)
    (ladder : Ladder) : Prop where
  replayed : (Replay.start opp agg seq).replay fills = some r
  sound : r.opp.Sound
  occupied : ∀ o ∈ occupants r.opp.levels.entries, o ∈ occupants opp.levels.entries
  buckets : r.opp.buckets = opp.buckets
  direct : Direct.sweep agg (ladderOf opp.levels.entries) =
    (Direct.matchLoop agg).run { left := available, ladder, fills := r.fills }
  aggressor : r.aggressor =
    (agg.assignSequence seq).onPartialFill (agg.remaining - available)
  bounded : available ≤ agg.remaining
  /-- Only the aggressor's tranche can be overdrawn. -/
  covered : (∀ c ∈ r.calls, c.qty ≤ c.visible) ↔
    agg.remaining - available ≤ agg.visibleQty

namespace Tracks

variable {t : Side} {opp : OrderBook t} {agg : Order} {seq : Sequence}
  {fills : List PlannedFill} {available : Quantity} {r : Replay t}
  {pre post : List (Price × PriceLevel)} {p : Price} {level : PriceLevel}

theorem start (h : opp.Sound) :
    Tracks opp agg seq [] agg.remaining (Replay.start opp agg seq)
      (ladderOf opp.levels.entries) where
  replayed := rfl
  sound := h
  occupied _ ho := ho
  buckets := rfl
  direct := rfl
  aggressor := by
    rw [UInt64.sub_self, Order.onPartialFill_zero]
    rfl
  bounded := UInt64.le_refl _
  covered := by
    rw [UInt64.sub_self]
    exact ⟨fun _ => UInt64.zero_le, fun _ c hc => absurd hc List.not_mem_nil⟩

theorem pushLevel_cons (p : Price) (o : Order) (q : Queue) (rest : Ladder) :
    Direct.pushLevel p (o :: q) rest = (p, o :: q) :: rest := rfl

open PriceTimeStrategy in
/-- One planned fill is one trade with the head. -/
theorem trade {n : Node} {ns : List Node} {front : Pending} {qty : Quantity}
    (h : Tracks opp agg seq fills available r
      (Direct.pushLevel p (level.orders.map Node.order) (ladderOf post)))
    (hb : r.opp.levels.entries = pre ++ (p, level) :: post)
    (hl : level.orders = n :: ns) (hm : Mirror front n)
    (hcross : agg.crosses p = true) (hacc : n.order.account ≠ agg.account)
    (hq : qty = min available n.order.visibleQty) (hpos : 0 < qty) :
    ∃ r' level',
      Tracks opp agg seq (fills ++ [plannedFill p level front qty]) (available - qty) r'
        (Direct.pushLevel p (level'.orders.map Node.order) (ladderOf post)) ∧
      r'.opp.levels.entries = pre ++ (p, level') :: post ∧
      level'.orders = settleNodes ⟨n.addr, n.order.onPartialFill qty⟩ ns := by
  have hkey : level.price = p :=
    h.sound.keyed (p, level) (hb ▸ List.mem_append_right _ List.mem_cons_self)
  obtain ⟨r', level', ht⟩ := replayFill_head (plannedFill p level front qty)
    h.sound hb hl hm.position hm.id
  have hle : qty ≤ available := by grind
  have hleft : 0 < available := by grind
  have hfill : Book.toFill (r.aggressor.onPartialFill qty) (plannedFill p level front qty) =
      Direct.fillOf agg n.order p qty := by
    simp [Book.toFill, Direct.fillOf, plannedFill, h.aggressor, Order.assignSequence,
      hkey, hm.id, hm.account]
  refine ⟨r', level', ⟨?_, ht.sound, ?_, ht.buckets.trans h.buckets, ?_, ?_, ?_, ?_⟩,
    ht.entries, ht.queue⟩
  · rw [Replay.replay_snoc _ h.replayed, ht.step]
  · exact fun o ho => h.occupied o (ht.occupied o ho)
  · have hturn : (Direct.matchLoop agg).body
        { left := available
          ladder := Direct.pushLevel p (level.orders.map Node.order) (ladderOf post)
          fills := r.fills } =
        .next (Direct.trade agg
          { left := available
            ladder := Direct.pushLevel p (level.orders.map Node.order) (ladderOf post)
            fills := r.fills } p n.order (ns.map Node.order) (ladderOf post) qty) := by
      show Direct.matchTurn agg _ = _
      rw [hl, List.map_cons, pushLevel_cons]
      simp [Direct.matchTurn, hleft, hcross, hacc, ← hq, hpos]
    rw [h.direct, Loop.run_next _ hturn, ht.queue, settleNodes_orders, ht.fills]
    show Loop.run _ (Direct.trade _ _ _ _ _ _ _) = _
    rw [show (plannedFill p level front qty).quantity = qty from rfl, hfill]
    rfl
  · rw [ht.aggressor, h.aggressor, Order.onPartialFill_onPartialFill]
    congr 1
    show agg.remaining - available + qty = agg.remaining - (available - qty)
    abel
  · exact UInt64.le_trans (by grind) h.bounded
  -- The head gives no more than it shows, so only the aggressor's part is in question.
  · have hvis : r.aggressor.visibleQty =
        agg.visibleQty - (agg.remaining - available) := by
      rw [h.aggressor, Order.onPartialFill_visibleQty]
      rfl
    have hhead : qty ≤ n.order.visibleQty := by grind
    have hb' := h.bounded
    rw [ht.calls, List.forall_mem_append, h.covered]
    simp only [List.forall_mem_cons, List.not_mem_nil, false_implies, implies_true,
      and_true, hvis]
    show _ ∧ qty ≤ n.order.visibleQty ∧ qty ≤ _ ↔ _
    constructor
    · rintro ⟨hcov, _, hq'⟩
      grind
    · intro hcov
      exact ⟨by grind, hhead, by grind⟩

end Tracks

/-! ## One level -/

section Level

open PriceTimeStrategy

variable {t : Side} (opp : OrderBook t) (agg : Order) (seq : Sequence)
  (pre post : List (Price × PriceLevel)) (p : Price)
  (available : Quantity) (into : MatchPlan)

/-- What the planner's loop keeps: its copy mirrors the level the replay has
reached, and what it has placed so far accounts for what is left. -/
structure LevelInv (level₀ : PriceLevel) (st : PlanState) (r : Replay t)
    (level : PriceLevel) (new : List PlannedFill) : Prop where
  tracks : Tracks opp agg seq st.into.fills st.available r
    (Direct.pushLevel p (level.orders.map Node.order) (ladderOf post))
  entries : r.opp.levels.entries = pre ++ (p, level) :: post
  mirrors : List.Forall₂ Mirror st.queue level.orders
  price : level.price = level₀.price
  unblocked : st.into.selfMatchBlocked = false
  fills : st.into.fills = into.fills ++ new
  placed : st.available + (new.map PlannedFill.quantity).sum = available
  idle : new = [] → level = level₀
  busy : new ≠ [] → st.available < available

/-- How the planner leaves a level: blocked, done, or with the level empty. -/
structure LevelDone (plan : MatchPlan) (r : Replay t) (level : PriceLevel)
    (new : List PlannedFill) (left : Quantity) : Prop where
  tracks : Tracks opp agg seq plan.fills left r
    (Direct.pushLevel p (level.orders.map Node.order) (ladderOf post))
  entries : r.opp.levels.entries = pre ++ (p, level) :: post
  fills : plan.fills = into.fills ++ new
  placed : left + (new.map PlannedFill.quantity).sum = available
  exit : if plan.selfMatchBlocked then
      Direct.sweep agg (ladderOf opp.levels.entries) = .ok
        { left, ladder := Direct.pushLevel p (level.orders.map Node.order) (ladderOf post),
          fills := r.fills, blocked := true } ∧ level.orders ≠ []
    else left = 0 ∨ level.orders = [] ∧ left < available

/-- The outcomes of planning one level. -/
def LevelOutcome : Except Precondition MatchPlan → Prop
  | .error q => q = .positiveQuantity ∧
      Direct.sweep agg (ladderOf opp.levels.entries) = .error .positiveQuantity
  | .ok plan => ∃ r level new left,
      LevelDone opp agg seq pre post p available into plan r level new left

variable {opp agg seq pre post p available into} {level₀ : PriceLevel}

theorem LevelInv.turn {st st' : PlanState} {r : Replay t} {level : PriceLevel}
    {new : List PlannedFill} (hcross : agg.crosses p = true)
    (h : LevelInv opp agg seq pre post p available into level₀ st r level new)
    (ht : planTurn agg p level₀ st = .next st') :
    ∃ r' level' new',
      LevelInv opp agg seq pre post p available into level₀ st' r' level' new' := by
  obtain ⟨front, behind, hqueue, hacc, hpos, rfl⟩ := planTurn_next ht
  have hm := h.mirrors
  rw [hqueue] at hm
  obtain ⟨n, ns, hn, hns, hl⟩ := List.forall₂_cons_left_iff.mp hm
  set qty := min st.available front.visible with hqty
  obtain ⟨r', level', htr, he, hq⟩ := h.tracks.trade h.entries hl hn hcross
    (hn.account ▸ hacc) (hn.visible ▸ hqty) hpos
  have hle : qty ≤ st.available := by grind
  have hinto : (advance p level₀ st front behind qty).into.fills =
      st.into.fills ++ [plannedFill p level front qty] := by
    unfold advance plannedFill
    rw [h.price]
    dsimp only
    split
    · rfl
    · split <;> rfl
  have hblocked : (advance p level₀ st front behind qty).into.selfMatchBlocked = false := by
    unfold advance
    dsimp only
    split
    · exact h.unblocked
    · split <;> exact h.unblocked
  have hkey : ∀ {b : OrderBook t} {l : PriceLevel}, b.Sound →
      b.levels.entries = pre ++ (p, l) :: post → l.price = p := fun hs hb =>
    hs.keyed (p, _) (hb ▸ List.mem_append_right _ List.mem_cons_self)
  -- The invariant moves on by one fill on both sides.
  refine ⟨r', level', new ++ [plannedFill p level front qty], ?_⟩
  refine ⟨?_, he, ?_, ?_, hblocked, ?_, ?_, fun hnil => by simp at hnil, fun _ => ?_⟩
  · rw [hinto, advance_available]
    exact htr
  · rw [hq]
    exact advance_mirrors hn hns
  · rw [hkey htr.sound he, ← h.price, hkey h.tracks.sound h.entries]
  · rw [hinto, h.fills, List.append_assoc]
  · rw [advance_available, List.map_append, List.sum_append]
    show st.available - qty + ((new.map PlannedFill.quantity).sum + (qty + 0)) = available
    rw [← h.placed]
    abel
  · rw [advance_available]
    have hlt : st.available - qty < st.available := by grind
    by_cases hnew : new = []
    · have hp := h.placed
      rw [hnew, List.map_nil, List.sum_nil, UInt64.add_zero] at hp
      exact hp ▸ hlt
    · exact UInt64.lt_trans hlt (h.busy hnew)

theorem LevelInv.leave {st : PlanState} {r : Replay t} {level : PriceLevel}
    {new : List PlannedFill} (hcross : agg.crosses p = true)
    (h : LevelInv opp agg seq pre post p available into level₀ st r level new)
    (hfull : level₀.orders ≠ []) {res : Except Precondition MatchPlan}
    (ht : planTurn agg p level₀ st = .done res) :
    LevelOutcome opp agg seq pre post p available into res := by
  unfold planTurn at ht
  split at ht
  · rename_i hleft
    split at ht
    -- The level is exhausted.
    · rename_i hqueue
      cases ht
      have hm := h.mirrors
      rw [hqueue] at hm
      have hempty := List.forall₂_nil_left_iff.mp hm
      have hnew : new ≠ [] := fun hnil => hfull (h.idle hnil ▸ hempty)
      refine ⟨r, level, new, st.available, h.tracks, h.entries, h.fills, h.placed, ?_⟩
      rw [h.unblocked]
      exact Or.inr ⟨hempty, h.busy hnew⟩
    · rename_i front behind hqueue
      have hm := h.mirrors
      rw [hqueue] at hm
      obtain ⟨n, ns, hn, _, hl⟩ := List.forall₂_cons_left_iff.mp hm
      split at ht
      -- The head belongs to the aggressor's account.
      · rename_i hacc
        cases ht
        refine ⟨r, level, new, st.available, h.tracks, h.entries, h.fills, h.placed, ?_⟩
        rw [if_pos rfl]
        refine ⟨?_, by simp [hl]⟩
        rw [h.tracks.direct]
        refine Loop.run_done _ ?_
        show Direct.matchTurn agg _ = _
        rw [hl, List.map_cons, Tracks.pushLevel_cons]
        simp [Direct.matchTurn, Direct.stop, hleft, hcross, ← hn.account, hacc]
      · rename_i hacc
        dsimp only at ht
        split at ht
        · cases ht
        -- The head shows nothing.
        · rename_i hpos
          cases ht
          refine ⟨rfl, ?_⟩
          rw [h.tracks.direct]
          refine Loop.run_done _ ?_
          show Direct.matchTurn agg _ = _
          rw [hl, List.map_cons, Tracks.pushLevel_cons]
          simp only [Direct.matchTurn, hleft, if_true, hcross, Bool.not_true,
            Bool.false_eq_true, if_false, ← hn.account, hacc, ← hn.visible, hpos]
  · rename_i hleft
    cases ht
    refine ⟨r, level, new, st.available, h.tracks, h.entries, h.fills, h.placed, ?_⟩
    rw [h.unblocked]
    exact Or.inl (by grind)

/-- **One level in lockstep.** Planning a crossing level and replaying the plan
is direct matching until the level is empty, the aggressor is done or blocked. -/
theorem plan_lockstep {r : Replay t} (hcross : agg.crosses p = true)
    (hfull : level₀.orders ≠ []) (hinto : into.selfMatchBlocked = false)
    (hb : r.opp.levels.entries = pre ++ (p, level₀) :: post)
    (h : Tracks opp agg seq into.fills available r
      (Direct.pushLevel p (level₀.orders.map Node.order) (ladderOf post))) :
    LevelOutcome opp agg seq pre post p available into
      (PriceTimeStrategy.plan agg available p level₀ into) := by
  refine (planLoop agg p level₀).run_induction
    (I := fun st => ∃ r level new,
      LevelInv opp agg seq pre post p available into level₀ st r level new)
    (P := LevelOutcome opp agg seq pre post p available into) ?_ ?_ ?_
  · refine ⟨r, level₀, [], h, hb, ?_, rfl, hinto, (List.append_nil _).symm, ?_,
      fun _ => rfl, fun hne => absurd rfl hne⟩
    · rw [List.forall₂_map_left_iff]
      exact List.forall₂_same.mpr fun n _ => mirror_ofNode n
    · exact UInt64.add_zero _
  · rintro st st' ⟨r, level, new, hinv⟩ ht
    exact hinv.turn hcross ht
  · rintro st res ⟨r, level, new, hinv⟩ ht
    exact hinv.leave hcross hfull ht

end Level

/-! ## The whole walk -/

section Walk

variable {t : Side} (opp : OrderBook t) (agg : Order) (seq : Sequence)

/-- Replaying the finished plan reaches `r`, and `r` is where direct matching
ends. -/
structure Swept (plan : MatchPlan) (left : Quantity) (r : Replay t) : Prop where
  tracks : Tracks opp agg seq plan.fills left r
    (ladderOf r.opp.dropEmptyLevelsFromFront.levels.entries)
  full : ∀ e ∈ r.opp.dropEmptyLevelsFromFront.levels.entries, e.2.orders ≠ []
  outcome : Direct.sweep agg (ladderOf opp.levels.entries) = .ok
    { left, ladder := ladderOf r.opp.dropEmptyLevelsFromFront.levels.entries,
      fills := r.fills, blocked := plan.selfMatchBlocked }

/-- The outcomes of walking the levels. -/
def WalkOutcome : Except Precondition PlanProgress → Prop
  | .error q => q = .positiveQuantity ∧
      Direct.sweep agg (ladderOf opp.levels.entries) = .error .positiveQuantity
  | .ok (left, plan) => ∃ r, Swept opp agg seq plan left r

variable {opp agg seq} {pre rest : List (Price × PriceLevel)} {available : Quantity}
  {plan : MatchPlan} {r : Replay t}

theorem Swept.aggressor_id {left : Quantity} (h : Swept opp agg seq plan left r) :
    r.aggressor.id = agg.id := by
  rw [h.tracks.aggressor, Order.onPartialFill_id]
  rfl

theorem Swept.aggressor_remaining {left : Quantity} (h : Swept opp agg seq plan left r) :
    r.aggressor.remaining = left := by
  rw [h.tracks.aggressor, Order.onPartialFill_remaining]
  show agg.remaining - (agg.remaining - left) = left
  abel

theorem dropEmpty_entries (hb : r.opp.levels.entries = pre ++ rest)
    (hpre : ∀ e ∈ pre, e.2.orders = []) (hrest : ∀ e ∈ rest, e.2.orders ≠ []) :
    r.opp.dropEmptyLevelsFromFront.levels.entries = rest := by
  show r.opp.levels.entries.dropWhile (fun e => e.2.empty) = rest
  rw [hb, List.dropWhile_append_of_pos]
  · cases rest with
    | nil => rfl
    | cons e rest =>
        have he := hrest e List.mem_cons_self
        simp [PriceLevel.empty, he]
  · intro e he
    simp [PriceLevel.empty, hpre e he]

/-- The walk may stop here if direct matching does. -/
theorem Tracks.swept (h : Tracks opp agg seq plan.fills available r (ladderOf rest))
    (hb : r.opp.levels.entries = pre ++ rest)
    (hpre : ∀ e ∈ pre, e.2.orders = []) (hrest : ∀ e ∈ rest, e.2.orders ≠ [])
    (hout : Direct.sweep agg (ladderOf opp.levels.entries) = .ok
      { left := available, ladder := ladderOf rest, fills := r.fills,
        blocked := plan.selfMatchBlocked }) :
    Swept opp agg seq plan available r := by
  have he := dropEmpty_entries hb hpre hrest
  constructor
  · rw [he]; exact h
  · rw [he]; exact hrest
  · rw [he]; exact hout

/-- Direct matching stops when nothing is left to place. -/
theorem Tracks.outcome_of_done {ladder : Ladder}
    (h : Tracks opp agg seq plan.fills 0 r ladder) :
    Direct.sweep agg (ladderOf opp.levels.entries) = .ok
      { left := 0, ladder, fills := r.fills, blocked := false } := by
  rw [h.direct]
  exact Loop.run_done _ rfl

/-- Direct matching stops at a level the aggressor does not cross, or at the
end of the ladder. -/
theorem Tracks.outcome_of_uncrossed
    (h : Tracks opp agg seq plan.fills available r (ladderOf rest))
    (hstop : ∀ e ∈ rest.head?, agg.crosses e.1 = false) :
    Direct.sweep agg (ladderOf opp.levels.entries) = .ok
      { left := available, ladder := ladderOf rest, fills := r.fills,
        blocked := false } := by
  rw [h.direct]
  refine Loop.run_done _ ?_
  show Direct.matchTurn agg _ = _
  unfold Direct.matchTurn
  split
  · cases rest with
    | nil => rfl
    | cons e rest =>
        have hc := hstop e rfl
        cases hq : e.2.orders.map Node.order with
        | nil => simp [ladderOf, hq, Direct.stop]
        | cons o os => simp [ladderOf, hq, hc, Direct.stop]
  · rfl

theorem ladderOf_pushLevel {p : Price} {level : PriceLevel}
    {post : List (Price × PriceLevel)} :
    Direct.pushLevel p (level.orders.map Node.order) (ladderOf post) =
      ladderOf (if level.orders = [] then post else (p, level) :: post) := by
  by_cases h : level.orders = []
  · simp [Direct.pushLevel, h]
  · simp [Direct.pushLevel, h, ladderOf]

theorem planLevels_zero (rest : List (Price × PriceLevel)) (plan : MatchPlan) :
    planLevels agg rest 0 plan = .ok (0, plan) := by
  cases rest <;> simp [planLevels]

section LevelDone

variable {post : List (Price × PriceLevel)} {p : Price} {into plan : MatchPlan}
  {level : PriceLevel} {new : List PlannedFill} {left : Quantity}

/-- What the walk takes off after a level is what the level's fills placed. -/
theorem LevelDone.planned
    (h : LevelDone opp agg seq pre post p available into plan r level new left) :
    ((plan.fills.drop into.fills.length).map PlannedFill.quantity).sum =
      available - left := by
  rw [h.fills, List.drop_left, ← h.placed]
  abel

/-- The walk ends at a level an order of the same account blocks. -/
theorem LevelDone.swept_of_blocked
    (h : LevelDone opp agg seq pre post p available into plan r level new left)
    (hblk : plan.selfMatchBlocked = true) (hpre : ∀ e ∈ pre, e.2.orders = [])
    (hpost : ∀ e ∈ post, e.2.orders ≠ []) : Swept opp agg seq plan left r := by
  have htr := h.tracks
  have hexit := h.exit
  rw [if_pos hblk] at hexit
  obtain ⟨hsweep, hfull⟩ := hexit
  rw [ladderOf_pushLevel, if_neg hfull] at htr hsweep
  refine htr.swept h.entries hpre (List.forall_mem_cons.mpr ⟨hfull, hpost⟩) ?_
  rw [hblk]
  exact hsweep

/-- The walk ends at a level that outlasts the aggressor. -/
theorem LevelDone.swept_of_outlasting
    (h : LevelDone opp agg seq pre post p available into plan r level new 0)
    (hblk : plan.selfMatchBlocked = false) (hfull : level.orders ≠ [])
    (hpre : ∀ e ∈ pre, e.2.orders = []) (hpost : ∀ e ∈ post, e.2.orders ≠ []) :
    Swept opp agg seq plan 0 r := by
  have htr := h.tracks
  rw [ladderOf_pushLevel, if_neg hfull] at htr
  refine htr.swept h.entries hpre (List.forall_mem_cons.mpr ⟨hfull, hpost⟩) ?_
  rw [hblk]
  exact htr.outcome_of_done

end LevelDone

/-- **The walk in lockstep.** With `pre` already emptied and `rest` still to be
visited, the walk and direct matching end alike. -/
theorem planLevels_lockstep : ∀ (rest pre : List (Price × PriceLevel))
    (available : Quantity) (plan : MatchPlan) (r : Replay t),
    Tracks opp agg seq plan.fills available r (ladderOf rest) →
    r.opp.levels.entries = pre ++ rest →
    (∀ e ∈ pre, e.2.orders = []) → (∀ e ∈ rest, e.2.orders ≠ []) →
    plan.selfMatchBlocked = false →
    WalkOutcome opp agg seq (planLevels agg rest available plan)
  | [], pre, available, plan, r, h, hb, hpre, hrest, hunb => by
      refine ⟨r, h.swept hb hpre hrest ?_⟩
      rw [hunb]
      exact h.outcome_of_uncrossed (by simp)
  | (p, level₀) :: post, pre, available, plan, r, h, hb, hpre, hrest, hunb => by
      rw [planLevels]
      by_cases hzero : available = 0
      · subst hzero
        rw [if_pos rfl]
        refine ⟨r, h.swept hb hpre hrest ?_⟩
        rw [hunb]
        exact h.outcome_of_done
      by_cases hcross : agg.crosses p = true
      · simp only [hzero, if_false, hcross, Bool.not_true, Bool.false_eq_true]
        have hfull : level₀.orders ≠ [] := hrest (p, level₀) List.mem_cons_self
        have hpost : ∀ e ∈ post, e.2.orders ≠ [] :=
          fun e he => hrest e (List.mem_cons_of_mem _ he)
        have hlevel : LevelOutcome opp agg seq pre post p available plan
            (PriceTimeStrategy.plan agg available p level₀ plan) :=
          plan_lockstep hcross hfull hunb hb (by
            rw [ladderOf_pushLevel, if_neg hfull]
            exact h)
        cases hplan : PriceTimeStrategy.plan agg available p level₀ plan with
        | error q =>
            rw [hplan] at hlevel
            exact hlevel
        | ok plan' =>
            rw [hplan] at hlevel
            obtain ⟨r', level, new, left, hd⟩ := hlevel
            have hleft : available - (available - left) = left := by abel
            have hexit := hd.exit
            show WalkOutcome opp agg seq (if _ then _ else _)
            simp only [hd.planned, hleft]
            -- The walk goes on only past a level that is empty now.
            by_cases hblk : plan'.selfMatchBlocked = true
            · rw [if_pos hblk]
              exact ⟨r', hd.swept_of_blocked hblk hpre hpost⟩
            · rw [if_neg hblk] at hexit ⊢
              have hblk' : plan'.selfMatchBlocked = false := by simpa using hblk
              have hne : available - left ≠ 0 := by
                rcases hexit with rfl | ⟨_, hlt⟩
                · simpa using hzero
                · grind
              rw [if_neg hne]
              by_cases hempty : level.orders = []
              · have htr := hd.tracks
                rw [ladderOf_pushLevel, if_pos hempty] at htr
                refine planLevels_lockstep post (pre ++ [(p, level)]) left plan' r' htr
                  (by rw [hd.entries]; simp) ?_ hpost hblk'
                exact List.forall_mem_append.mpr ⟨hpre, List.forall_mem_singleton.mpr hempty⟩
              · obtain rfl : left = 0 := hexit.resolve_right fun he => hempty he.1
                rw [planLevels_zero]
                exact ⟨r', hd.swept_of_outlasting hblk' hempty hpre hpost⟩
      · simp only [hzero, if_false, hcross, Bool.not_false, if_true]
        refine ⟨r, h.swept hb hpre hrest ?_⟩
        rw [hunb]
        exact h.outcome_of_uncrossed (by simpa using hcross)

/-- **Plan and replay are direct matching**, on any sound side without an empty
level. -/
theorem planAgainst_lockstep (agg : Order) (seq : Sequence) (h : opp.Sound)
    (hfull : ∀ e ∈ opp.levels.entries, e.2.orders ≠ []) :
    match planAgainst opp.levels.entries agg with
    | .error q => q = .positiveQuantity ∧
        Direct.sweep agg (ladderOf opp.levels.entries) = .error .positiveQuantity
    | .ok plan => ∃ left r, Swept opp agg seq plan left r ∧
        plan.aggressorFilled = agg.remaining - left := by
  have hwalk : WalkOutcome opp agg seq
      (planLevels agg opp.levels.entries agg.remaining {}) :=
    planLevels_lockstep opp.levels.entries [] agg.remaining {} _ (Tracks.start h) rfl
      (by simp) hfull rfl
  unfold planAgainst
  cases hp : planLevels agg opp.levels.entries agg.remaining {} with
  | error q =>
      rw [hp] at hwalk
      exact hwalk
  | ok progress =>
      rw [hp] at hwalk
      obtain ⟨r, hr⟩ := hwalk
      exact ⟨progress.1, r, ⟨hr.tracks, hr.full, hr.outcome⟩, rfl⟩

end Walk

end Exchange
