import Exchange.Core.PriceLevel
import Exchange.Framework.Loop

/-!
# Planning: the price-time strategy

The planner predicts a whole sweep without touching the book: it works on a
private copy of each level's queue and appends what would trade to a
`MatchPlan`. `EXCHANGE_PRECONDITION` is an optimiser hint in the default
build, so running into one that does not hold is an outcome of its own.
-/

namespace Exchange

open Framework

/-- The conditions the code relies on without checking: the uses of
`EXCHANGE_PRECONDITION`, and the validity of the iterators and level pointers
it dereferences. -/
inductive Precondition : Type where
  /-- `qty > 0` in the planner. -/
  | positiveQuantity
  /-- An iterator or a level pointer leads to a linked order. -/
  | linkedPosition
  /-- `located.has_value()` in `reduceInPlace`. -/
  | located
  /-- `resting != nullptr` in `requeue`. -/
  | restingFound
  /-- `withdrawn != nullptr` in `requeue`. -/
  | withdrawn
  /-- `currentPrice.has_value()` in `modify`. -/
  | currentPrice
  /-- `!isCrossed()` at the end of `submit`. -/
  | notCrossed
deriving DecidableEq, Repr

/-- One execution between an incoming aggressor and one resting order. -/
structure Fill where
  aggressorId : OrderId
  restingId : OrderId
  price : Price
  quantity : Quantity
  aggressorAccount : AccountId
  restingAccount : AccountId
  aggressorSide : Side
deriving DecidableEq, Repr

/-- One intended execution. The level pointer is the key of the level's map
node, the list iterator the address of the order's list node. -/
structure PlannedFill where
  level : Price
  resting : Addr
  price : Price
  quantity : Quantity
  restingId : OrderId
  restingAccount : AccountId
deriving DecidableEq, Repr

structure MatchPlan where
  fills : List PlannedFill := []
  aggressorFilled : Quantity := 0
  selfMatchBlocked : Bool := false
  /-- Insertions into the planner's containers so far. Each may allocate. -/
  insertions : ℕ := 0
deriving DecidableEq, Repr

/-- A resting order's simulated state during planning. -/
structure Pending where
  position : Addr
  account : AccountId
  id : OrderId
  remaining : Quantity
  visible : Quantity
  display : Quantity
deriving DecidableEq, Repr

def Pending.ofNode (n : Node) : Pending :=
  { position := n.addr
    account := n.order.account
    id := n.order.id
    remaining := n.order.remaining
    visible := n.order.visibleQty
    display := n.order.displaySize }

namespace PriceTimeStrategy

/-- The planner's loop variables. -/
structure PlanState where
  available : Quantity
  queue : List Pending
  into : MatchPlan

/-- The plan entry for `qty` against the head of the queue. -/
def plannedFill (handle : Price) (level : PriceLevel) (front : Pending)
    (qty : Quantity) : PlannedFill :=
  { level := handle
    resting := front.position
    price := level.price
    quantity := qty
    restingId := front.id
    restingAccount := front.account }

/-- The loop variables after `qty` was planned against the head. -/
def advance (handle : Price) (level : PriceLevel) (st : PlanState)
    (front : Pending) (behind : List Pending) (qty : Quantity) : PlanState :=
  let into := { st.into with
    fills := st.into.fills ++ [plannedFill handle level front qty]
    insertions := st.into.insertions + 1 }
  let front := { front with
    remaining := front.remaining - qty
    visible := front.visible - qty }
  let available := st.available - qty
  if front.remaining = 0 then
    { available, queue := behind, into }
  else if front.visible = 0 then
    -- Hidden size remains but the tranche is spent: refresh, go to the back.
    let refreshed := { front with visible := min front.display front.remaining }
    { available, queue := behind ++ [refreshed],
      into := { into with insertions := into.insertions + 1 } }
  else
    { available, queue := front :: behind, into }

/-- One turn of the `while` loop of `PriceTimeStrategy::plan`. -/
def planTurn (aggressor : Order) (handle : Price) (level : PriceLevel)
    (st : PlanState) : Turn PlanState (Except Precondition MatchPlan) :=
  if 0 < st.available then
    match st.queue with
    | [] => .done (.ok st.into)
    | front :: behind =>
        if front.account = aggressor.account then
          .done (.ok { st.into with selfMatchBlocked := true })
        else
          let qty := min st.available front.visible
          if 0 < qty then .next (advance handle level st front behind qty)
          else .done (.error .positiveQuantity)
  else .done (.ok st.into)

theorem advance_available {handle : Price} {level : PriceLevel} {st : PlanState}
    {front : Pending} {behind : List Pending} {qty : Quantity} :
    (advance handle level st front behind qty).available = st.available - qty := by
  unfold advance
  dsimp only
  split
  · rfl
  · split <;> rfl

theorem planTurn_next {aggressor : Order} {handle : Price} {level : PriceLevel}
    {st st' : PlanState} (h : planTurn aggressor handle level st = .next st') :
    ∃ front behind, st.queue = front :: behind ∧
      front.account ≠ aggressor.account ∧
      0 < min st.available front.visible ∧
      st' = advance handle level st front behind (min st.available front.visible) := by
  unfold planTurn at h
  split at h
  · split at h
    · cases h
    · rename_i front behind hq
      split at h
      · cases h
      · rename_i hacc
        dsimp only at h
        split at h
        · rename_i hqty
          cases h
          exact ⟨front, behind, hq, hacc, hqty, rfl⟩
        · cases h
  · cases h

/-- The `while` loop of `PriceTimeStrategy::plan`: every turn plans a positive
quantity, so the quantity left to place falls. -/
def planLoop (aggressor : Order) (handle : Price) (level : PriceLevel) :
    Loop PlanState (Except Precondition MatchPlan) where
  body := planTurn aggressor handle level
  rank st := st.available.toNat
  decreases st st' h := by
    obtain ⟨front, behind, _, _, hqty, rfl⟩ := planTurn_next h
    rw [advance_available]
    exact toNat_sub_lt hqty (by grind)

/-- Appends to `into` the executions that `available` of `aggressor` would
produce against `level`. The working copy of the queue costs one insertion per
order. -/
def plan (aggressor : Order) (available : Quantity) (handle : Price)
    (level : PriceLevel) (into : MatchPlan) : Except Precondition MatchPlan :=
  (planLoop aggressor handle level).run
    { available
      queue := level.orders.map Pending.ofNode
      into := { into with insertions := into.insertions + level.orders.length } }

end PriceTimeStrategy

/-- What the walk over the opposite side has left to place, and its plan. -/
abbrev PlanProgress : Type := Quantity × MatchPlan

/-- The `for` loop of `Book::planAgainst` over the levels, best first. -/
def planLevels (aggressor : Order) : List (Price × PriceLevel) → Quantity →
    MatchPlan → Except Precondition PlanProgress
  | [], available, plan => .ok (available, plan)
  | (price, level) :: rest, available, plan =>
      if available = 0 then .ok (available, plan)
      else if !aggressor.crosses price then .ok (available, plan)
      else do
        let before := plan.fills.length
        let plan ← PriceTimeStrategy.plan aggressor available price level plan
        let planned := ((plan.fills.drop before).map PlannedFill.quantity).sum
        let available := available - planned
        if plan.selfMatchBlocked then .ok (available, plan)
        else if planned = 0 then .ok (available, plan)
        else planLevels aggressor rest available plan

/-- Walks the opposite side from the touch outward, accumulating what would
trade. -/
def planAgainst (opposite : List (Price × PriceLevel)) (aggressor : Order) :
    Except Precondition MatchPlan := do
  let (available, plan) ← planLevels aggressor opposite aggressor.remaining {}
  return { plan with aggressorFilled := aggressor.remaining - available }

end Exchange
