import Exchange.Core.OrderBook
import Exchange.Core.Matching
import Exchange.Framework.Exec

/-!
# The book: submit, cancel, modify

Both sides and the operations that move orders between them, as computations
over the book. Everything that can throw in the source allocates here, and
`commitSubmit` is `noexcept`; the capacity reserved for the fills and the
bucket array of the index are part of the state, so running out of either
during the commit would show as an allocation there.

`events` records the argument of every call of `onPartialFill` with the
visible quantity it found.
-/

namespace Exchange

open Framework

structure Book where
  bids : OrderBook .buy := {}
  asks : OrderBook .sell := {}
  nextSequence : Sequence := 1
deriving DecidableEq

namespace Book

/-- The side an `OwnSide&` parameter is bound to. -/
def side (b : Book) : (s : Side) → OrderBook s
  | .buy => b.bids
  | .sell => b.asks

def setSide (b : Book) : (s : Side) → OrderBook s → Book
  | .buy, bids => { b with bids }
  | .sell, asks => { b with asks }

section Sides

variable (b : Book) (s : Side)

@[simp] theorem side_setSide (ob : OrderBook s) : (b.setSide s ob).side s = ob := by
  cases s <;> rfl

@[simp] theorem side_setSide_opposite (ob : OrderBook (opposite s)) :
    (b.setSide (opposite s) ob).side s = b.side s := by
  cases s <;> rfl

@[simp] theorem opposite_side_setSide (ob : OrderBook s) :
    (b.setSide s ob).side (opposite s) = b.side (opposite s) := by
  cases s <;> rfl

@[simp] theorem setSide_setSide (ob ob' : OrderBook s) :
    (b.setSide s ob).setSide s ob' = b.setSide s ob' := by
  cases s <;> rfl

@[simp] theorem setSide_side : b.setSide s (b.side s) = b := by
  cases s <;> rfl

@[simp] theorem setSide_nextSequence (ob : OrderBook s) :
    (b.setSide s ob).nextSequence = b.nextSequence := by
  cases s <;> rfl

end Sides

def bestBid (b : Book) : Option Price := b.bids.bestPrice

def bestAsk (b : Book) : Option Price := b.asks.bestPrice

/-- Best ask minus best bid, if both sides are quoted. -/
def spread (b : Book) : Option Price :=
  match b.bestBid, b.bestAsk with
  | some bid, some ask => some (ask - bid)
  | _, _ => none

/-- The best bid is at or above the best ask. -/
def isCrossed (b : Book) : Bool :=
  match b.bestBid, b.bestAsk with
  | some bid, some ask => bid ≥ ask
  | _, _ => false

end Book

/-- The exceptions the book raises. -/
inductive Exception : Type where
  | badAlloc
  | invalidOrder (what : String)
deriving DecidableEq, Repr

/-- A call of `onPartialFill(qty)` on an order showing `visible`. -/
structure FillCall where
  qty : Quantity
  visible : Quantity
deriving DecidableEq, Repr

abbrev BookMemory : Type := Memory Book FillCall

abbrev BookExec (α : Type) : Type := Exec Book FillCall Exception Precondition α

inductive SubmitStatus : Type where
  | resting
  | partiallyFilledResting
  | filled
  | cancelledRemainder
  | selfMatchBlocked
deriving DecidableEq, Repr

structure SubmitResult where
  status : SubmitStatus := .resting
  fills : List Fill := []
  filledQty : Quantity := 0
  restingQty : Quantity := 0
deriving DecidableEq, Repr

inductive ModifyStatus : Type where
  | notFound
  | rejected
  | amendedInPlace
  | requeued
deriving DecidableEq, Repr

structure ModifyResult where
  status : ModifyStatus := .notFound
  fills : List Fill := []
  restingQty : Quantity := 0
deriving DecidableEq, Repr

/-- The detached map node and hash node a resting remainder will need. -/
structure RestNodes where
  restPrice : Price
  levelNode : PriceLevel
  indexNode : OrderId

/-- Everything an incoming order needs, assembled before the book is touched.
`rest` is there exactly when `willRest` is set. -/
structure PreparedSubmit where
  plan : MatchPlan
  holding : Node
  rest : Option RestNodes
  fillsCapacity : ℕ

namespace Book

open Exec

/-! ## Access to one side -/

def getSide (s : Side) : BookExec (OrderBook s) := do
  return (← get).side s

def putSide (s : Side) (ob : OrderBook s) : BookExec Unit := do
  set ((← get).setSide s ob)

/-- Operate on the level a level pointer names. -/
def editLevel (s : Side) (price : Price) (f : PriceLevel → Option PriceLevel) :
    BookExec Unit := do
  let ob ← expect .linkedPosition ((← getSide s).edit price f)
  putSide s ob

/-- `OrderBook::find`: the resting order, or `none` if the id is unknown. -/
def findOn (s : Side) (id : OrderId) : BookExec (Option Order) := do
  let ob ← getSide s
  match ob.index.lookup id with
  | none => return none
  | some loc => return some (← expect .linkedPosition (ob.deref loc))

/-- `Book::find`. -/
def find (id : OrderId) : BookExec (Option Order) := do
  match ← findOn .buy id with
  | some order => return some order
  | none => findOn .sell id

/-- Rejects an order the book will not accept. The message is built on the
heap. -/
def validate (order : Order) : BookExec Unit := do
  if order.remaining = 0 then
    let _ ← allocate .badAlloc
    throw (.invalidOrder ("order " ++ toString order.id ++ " has zero quantity"))
  if (← find order.id).isSome then
    let _ ← allocate .badAlloc
    throw (.invalidOrder ("duplicate order id " ++ toString order.id))

/-! ## Prepare -/

/-- Grows the hash table ahead of one insertion. The standard promises room
for as many entries as were reserved; no more is assumed. -/
def reserveIndex (s : Side) : BookExec Unit := do
  let ob ← getSide s
  if ob.buckets < ob.orderCount + 1 then
    let _ ← allocate .badAlloc
    putSide s { ob with buckets := ob.orderCount + 1 }

/-- A plan, or the precondition planning ran into. -/
def liftPlan : Except Precondition MatchPlan → BookExec MatchPlan
  | .ok plan => pure plan
  | .error p => undefined p

/-- Assembles every resource the commit will need. -/
def prepareSubmit (s : Side) (order : Order) : BookExec PreparedSubmit := do
  let position ← allocate .badAlloc
  let opp ← getSide (opposite s)
  let plan ← liftPlan (planAgainst opp.levels.entries order)
  allocateMany .badAlloc plan.insertions
  allocateMany .badAlloc (if plan.fills.isEmpty then 0 else 1)
  let restingQty := order.remaining - plan.aggressorFilled
  let prepared : PreparedSubmit :=
    { plan, holding := ⟨position, order⟩, rest := none,
      fillsCapacity := plan.fills.length }
  match order.restingPrice with
  | none => return prepared
  | some restPrice =>
      if 0 < restingQty ∧ ¬ plan.selfMatchBlocked then
        -- One map node; one hash node and the buckets of its scratch table.
        allocateMany .badAlloc 3
        reserveIndex s
        return { prepared with
          rest := some { restPrice, levelNode := { price := restPrice },
                         indexNode := order.id } }
      else return prepared

/-! ## Commit -/

/-- What the commit loop carries: the aggressor and the fills so far. -/
structure CommitState where
  aggressor : Order
  fills : List Fill

def toFill (aggressor : Order) (planned : PlannedFill) : Fill :=
  { aggressorId := aggressor.id
    restingId := planned.restingId
    price := planned.price
    quantity := planned.quantity
    aggressorAccount := aggressor.account
    restingAccount := planned.restingAccount
    aggressorSide := aggressor.side }

/-- Appends to the fill vector; only within the capacity is this free. -/
def pushFill (capacity : ℕ) (fills : List Fill) (fill : Fill) :
    BookExec (List Fill) := do
  if capacity ≤ fills.length then
    let _ ← allocate .badAlloc
  return fills ++ [fill]

/-- One turn of the commit loop. -/
def commitFill (s : Side) (capacity : ℕ) (st : CommitState) (planned : PlannedFill) :
    BookExec CommitState := do
  let loc : Locator := ⟨planned.level, planned.resting⟩
  let found ← expect .linkedPosition ((← getSide (opposite s)).deref loc)
  observe ⟨planned.quantity, found.visibleQty⟩
  editLevel (opposite s) planned.level (·.applyFill planned.resting planned.quantity)
  observe ⟨planned.quantity, st.aggressor.visibleQty⟩
  let aggressor := st.aggressor.onPartialFill planned.quantity
  let fills ← pushFill capacity st.fills (toFill aggressor planned)
  let resting ← expect .linkedPosition ((← getSide (opposite s)).deref loc)
  if resting.isFilled then
    putSide (opposite s) ((← getSide (opposite s)).unindex planned.restingId)
    editLevel (opposite s) planned.level
      fun level => (level.extract planned.resting).map Prod.snd
  else if resting.needsReplenish then
    editLevel (opposite s) planned.level (·.replenishAndRequeue planned.resting)
  return { aggressor, fills }

def commitFills (s : Side) (capacity : ℕ) : List PlannedFill → CommitState →
    BookExec CommitState
  | [], st => pure st
  | planned :: rest, st => do
      let st ← commitFill s capacity st planned
      commitFills s capacity rest st

/-- `index_.insert(std::move(node))`: allocates only if the table must grow. -/
def insertIndex (s : Side) (id : OrderId) (price : Price) (position : Addr) :
    BookExec Unit := do
  let ob ← getSide s
  if ob.buckets < ob.orderCount + 1 then
    let _ ← allocate .badAlloc
  putSide s (ob.installIndex id price position)

/-- Rests the remainder: level node, index node, then the splice. -/
def restRemainder (s : Side) (nodes : RestNodes) (holding : Node) : BookExec Unit := do
  putSide s ((← getSide s).installLevel nodes.levelNode)
  insertIndex s nodes.indexNode nodes.restPrice holding.addr
  editLevel s nodes.restPrice (fun level => some (level.adopt holding))

/-- The end of `commitSubmit`: rest the remainder, or tell why it does not. -/
def finishSubmit (s : Side) (prepared : PreparedSubmit) (st : CommitState) :
    BookExec SubmitResult := do
  let result : SubmitResult :=
    { fills := st.fills, filledQty := prepared.plan.aggressorFilled }
  match prepared.rest with
  | some nodes =>
      restRemainder s nodes { prepared.holding with order := st.aggressor }
      return { result with
        restingQty := st.aggressor.remaining
        status := if st.fills.isEmpty then .resting else .partiallyFilledResting }
  | none =>
      return { result with
        status :=
          if st.aggressor.isFilled then .filled
          else if prepared.plan.selfMatchBlocked then .selfMatchBlocked
          else .cancelledRemainder }

/-- Applies a prepared submit. -/
def commitSubmit (s : Side) (prepared : PreparedSubmit) : BookExec SubmitResult :=
  noexcept do
    let b ← get
    let aggressor := prepared.holding.order.assignSequence b.nextSequence
    set { b with nextSequence := b.nextSequence + 1 }
    let st ← commitFills s prepared.fillsCapacity prepared.plan.fills
      { aggressor, fills := [] }
    putSide (opposite s) ((← getSide (opposite s)).dropEmptyLevelsFromFront)
    finishSubmit s prepared st

/-! ## The operations -/

def submit (order : Option Order) : BookExec SubmitResult := do
  match order with
  | none =>
      let _ ← allocate .badAlloc
      throw (.invalidOrder "submit called with a null order")
  | some order =>
      validate order
      let prepared ← prepareSubmit order.side order
      let result ← commitSubmit order.side prepared
      require .notCrossed (!(← get).isCrossed)
      return result

/-- `OrderBook::cancel`: the withdrawn order, or `none` if the id is unknown. -/
def cancelOn (s : Side) (id : OrderId) : BookExec (Option Order) := do
  let ob ← getSide s
  match ob.index.lookup id with
  | none => return none
  | some loc =>
      let (order, ob') ← expect .linkedPosition (ob.withdraw id loc)
      putSide s ob'
      return some order

def cancel (id : OrderId) : BookExec (Option Order) := do
  match ← cancelOn .buy id with
  | some order => return some order
  | none => cancelOn .sell id

/-- Rewrites a resting order's size without moving it. -/
def reduceInPlace (s : Side) (id : OrderId) (newQty : Quantity) : BookExec Unit := do
  let loc ← expect .located ((← getSide s).index.lookup id)
  editLevel s loc.price (·.reduceQuantity loc.position newQty)

/-- Withdraws a resting order and re-enters it with new terms. Planning and
provisioning happen while the original still rests. -/
def requeue (s : Side) (id : OrderId) (newQty : Quantity) (targetPrice : Price) :
    BookExec ModifyResult := do
  let resting ← expect .restingFound (← findOn s id)
  let _ ← allocate .badAlloc
  let prepared ← prepareSubmit s (resting.cloneAmended newQty targetPrice)
  let _ ← expect .withdrawn (← cancelOn s id)
  let submitted ← commitSubmit s prepared
  return { status := .requeued, fills := submitted.fills,
           restingQty := submitted.restingQty }

/-- The amendment of a resting order found on side `s`. -/
def amend (s : Side) (resting : Order) (id : OrderId) (newQty : Quantity)
    (newPrice : Option Price) : BookExec ModifyResult := do
  let currentPrice ← expect .currentPrice resting.restingPrice
  let priceMoves := newPrice.any (· ≠ currentPrice)
  let sizeGrows := newQty > resting.remaining
  if ¬ priceMoves ∧ ¬ sizeGrows then
    reduceInPlace s id newQty
    return { status := .amendedInPlace, restingQty := newQty }
  else requeue s id newQty (newPrice.getD currentPrice)

def modify (id : OrderId) (newQty : Quantity) (newPrice : Option Price) :
    BookExec ModifyResult := do
  if newQty = 0 then return { status := .rejected }
  match ← findOn .buy id with
  | some resting => amend .buy resting id newQty newPrice
  | none =>
      match ← findOn .sell id with
      | some resting => amend .sell resting id newQty newPrice
      | none => return { status := .notFound }

end Book

end Exchange
