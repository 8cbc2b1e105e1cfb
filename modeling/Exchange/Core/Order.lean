import Exchange.Core.Types

/-!
# The order hierarchy

One record for the fields of the base class and one constructor per concrete
type for what the type adds: the dynamic type of an order is its `kind`, and a
virtual member function is a match on it. Asserts are compiled out in the
default build, so `onPartialFill` and `reduceTo` do their arithmetic whatever
their arguments are.
-/

namespace Exchange

/-- The concrete type of an order, with the fields the type adds. -/
inductive OrderKind : Type where
  | limit (limit : Price)
  | market
  | iceberg (limit : Price) (display visible : Quantity)
deriving DecidableEq, Repr

structure Order where
  id : OrderId
  remaining : Quantity
  sequence : Sequence := 0
  account : AccountId
  side : Side
  kind : OrderKind
deriving DecidableEq, Repr

/-! ## Construction -/

/-- `LimitOrder::LimitOrder`. -/
def limitOrder (id : OrderId) (side : Side) (account : AccountId)
    (qty : Quantity) (limit : Price) : Order :=
  { id, remaining := qty, account, side, kind := .limit limit }

/-- `MarketOrder::MarketOrder`. -/
def marketOrder (id : OrderId) (side : Side) (account : AccountId)
    (qty : Quantity) : Order :=
  { id, remaining := qty, account, side, kind := .market }

/-- The display size an iceberg is built with: zero means "show everything",
and the tranche never exceeds the order. -/
def clampDisplay (displaySize totalQty : Quantity) : Quantity :=
  if displaySize = 0 then totalQty else min displaySize totalQty

/-- `IcebergOrder::IcebergOrder`. -/
def icebergOrder (id : OrderId) (side : Side) (account : AccountId)
    (totalQty : Quantity) (limit : Price) (displaySize : Quantity) : Order :=
  { id, remaining := totalQty, account, side,
    kind := .iceberg limit (clampDisplay displaySize totalQty)
      (clampDisplay displaySize totalQty) }

/-- An order as its constructor leaves it. -/
inductive Order.Built : Order → Prop where
  | limit (id : OrderId) (side : Side) (account : AccountId) (qty : Quantity)
      (price : Price) : Built (limitOrder id side account qty price)
  | market (id : OrderId) (side : Side) (account : AccountId) (qty : Quantity) :
      Built (marketOrder id side account qty)
  | iceberg (id : OrderId) (side : Side) (account : AccountId) (qty : Quantity)
      (price : Price) (displaySize : Quantity) :
      Built (icebergOrder id side account qty price displaySize)

namespace Order

/-! ## Queries -/

def isFilled (o : Order) : Bool := o.remaining = 0

def assignSequence (o : Order) (sequence : Sequence) : Order := { o with sequence }

/-- Would this order trade against a resting order priced at `best`? -/
def crosses (o : Order) (best : Price) : Bool :=
  match o.kind with
  | .market => true
  | .limit limit | .iceberg limit _ _ =>
      match o.side with
      | .buy => limit ≥ best
      | .sell => limit ≤ best

/-- The price this order rests at; a market order never rests. -/
def restingPrice (o : Order) : Option Price :=
  match o.kind with
  | .limit limit => some limit
  | .market => none
  | .iceberg limit _ _ => some limit

def visibleQty (o : Order) : Quantity :=
  match o.kind with
  | .iceberg _ _ visible => visible
  | _ => o.remaining

def displaySize (o : Order) : Quantity :=
  match o.kind with
  | .iceberg _ display _ => display
  | _ => o.remaining

/-- Quantity left but nothing on display. -/
def needsReplenish (o : Order) : Bool := 0 < o.remaining && o.visibleQty = 0

/-! ## Mutators -/

/-- Applies an execution. The tranche of an iceberg falls with it. -/
def onPartialFill (o : Order) (qty : Quantity) : Order :=
  match o.kind with
  | .iceberg limit display visible =>
      { o with remaining := o.remaining - qty
               kind := .iceberg limit display (visible - qty) }
  | _ => { o with remaining := o.remaining - qty }

/-- Refreshes the display tranche; a no-op unless the order hides quantity. -/
def replenish (o : Order) : Order :=
  match o.kind with
  | .iceberg limit display _ =>
      { o with kind := .iceberg limit display (min display o.remaining) }
  | _ => o

/-- Shrinks the order in place. The tranche is clamped, never re-cut. -/
def reduceTo (o : Order) (newQty : Quantity) : Order :=
  match o.kind with
  | .iceberg limit display visible =>
      { o with remaining := newQty
               kind := .iceberg limit (min display newQty) (min visible newQty) }
  | _ => { o with remaining := newQty }

/-- A detached copy carrying new terms, keeping id, side and account. -/
def cloneAmended (o : Order) (newQty : Quantity) (newPrice : Price) : Order :=
  match o.kind with
  | .limit _ => limitOrder o.id o.side o.account newQty newPrice
  | .market => marketOrder o.id o.side o.account newQty
  | .iceberg _ display _ =>
      icebergOrder o.id o.side o.account newQty newPrice display

/-! ## What the mutators leave alone -/

section Frame

variable (o : Order) (qty : Quantity)

@[simp] theorem assignSequence_id (n : Sequence) : (o.assignSequence n).id = o.id := rfl

@[simp] theorem assignSequence_account (n : Sequence) :
    (o.assignSequence n).account = o.account := rfl

@[simp] theorem onPartialFill_id : (o.onPartialFill qty).id = o.id := by
  unfold onPartialFill; split <;> rfl

@[simp] theorem onPartialFill_account : (o.onPartialFill qty).account = o.account := by
  unfold onPartialFill; split <;> rfl

@[simp] theorem onPartialFill_side : (o.onPartialFill qty).side = o.side := by
  unfold onPartialFill; split <;> rfl

@[simp] theorem onPartialFill_sequence : (o.onPartialFill qty).sequence = o.sequence := by
  unfold onPartialFill; split <;> rfl

@[simp] theorem onPartialFill_remaining :
    (o.onPartialFill qty).remaining = o.remaining - qty := by
  unfold onPartialFill; split <;> rfl

@[simp] theorem onPartialFill_visibleQty :
    (o.onPartialFill qty).visibleQty = o.visibleQty - qty := by
  obtain ⟨_, _, _, _, _, kind⟩ := o
  cases kind <;> rfl

@[simp] theorem onPartialFill_restingPrice :
    (o.onPartialFill qty).restingPrice = o.restingPrice := by
  obtain ⟨_, _, _, _, _, kind⟩ := o
  cases kind <;> rfl

theorem onPartialFill_zero : o.onPartialFill 0 = o := by
  obtain ⟨_, _, _, _, _, kind⟩ := o
  cases kind <;> simp [onPartialFill]

theorem onPartialFill_onPartialFill (qty' : Quantity) :
    (o.onPartialFill qty).onPartialFill qty' = o.onPartialFill (qty + qty') := by
  obtain ⟨_, _, _, _, _, kind⟩ := o
  cases kind <;> simp [onPartialFill, sub_sub]

@[simp] theorem replenish_id : o.replenish.id = o.id := by
  unfold replenish; split <;> rfl

@[simp] theorem replenish_account : o.replenish.account = o.account := by
  unfold replenish; split <;> rfl

@[simp] theorem replenish_side : o.replenish.side = o.side := by
  unfold replenish; split <;> rfl

@[simp] theorem replenish_sequence : o.replenish.sequence = o.sequence := by
  unfold replenish; split <;> rfl

@[simp] theorem replenish_remaining : o.replenish.remaining = o.remaining := by
  unfold replenish; split <;> rfl

@[simp] theorem replenish_restingPrice : o.replenish.restingPrice = o.restingPrice := by
  obtain ⟨_, _, _, _, _, kind⟩ := o
  cases kind <;> rfl

@[simp] theorem reduceTo_id : (o.reduceTo qty).id = o.id := by
  unfold reduceTo; split <;> rfl

@[simp] theorem reduceTo_account : (o.reduceTo qty).account = o.account := by
  unfold reduceTo; split <;> rfl

@[simp] theorem reduceTo_side : (o.reduceTo qty).side = o.side := by
  unfold reduceTo; split <;> rfl

@[simp] theorem reduceTo_sequence : (o.reduceTo qty).sequence = o.sequence := by
  unfold reduceTo; split <;> rfl

@[simp] theorem reduceTo_remaining : (o.reduceTo qty).remaining = qty := by
  unfold reduceTo; split <;> rfl

@[simp] theorem reduceTo_restingPrice :
    (o.reduceTo qty).restingPrice = o.restingPrice := by
  obtain ⟨_, _, _, _, _, kind⟩ := o
  cases kind <;> rfl

@[simp] theorem cloneAmended_id (p : Price) : (o.cloneAmended qty p).id = o.id := by
  unfold cloneAmended; split <;> rfl

@[simp] theorem cloneAmended_account (p : Price) :
    (o.cloneAmended qty p).account = o.account := by
  unfold cloneAmended; split <;> rfl

@[simp] theorem cloneAmended_side (p : Price) :
    (o.cloneAmended qty p).side = o.side := by
  unfold cloneAmended; split <;> rfl

@[simp] theorem cloneAmended_remaining (p : Price) :
    (o.cloneAmended qty p).remaining = qty := by
  unfold cloneAmended; split <;> rfl

end Frame

end Order

end Exchange
