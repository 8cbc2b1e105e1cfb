import Exchange.Core.Order

/-!
# Price levels

The FIFO queue of one price is a linked list, and what the book keeps of an
order is a list iterator. A node therefore has an address of its own, which
stays with it when it is spliced; an iterator is an address, and an operation
through an iterator that names no linked node has no result (`none`: the
source would be undefined there).
-/

namespace Exchange

/-- Where a list node lives. -/
abbrev Addr : Type := ℕ

/-- A list node: its address and the order it owns. -/
structure Node where
  addr : Addr
  order : Order
deriving DecidableEq, Repr

structure PriceLevel where
  price : Price
  orders : List Node := []
  totalQty : Quantity := 0
  visibleQty : Quantity := 0
deriving DecidableEq, Repr

namespace PriceLevel

def empty (l : PriceLevel) : Bool := l.orders.isEmpty

def orderCount (l : PriceLevel) : ℕ := l.orders.length

/-- Dereference an iterator. -/
def at? (l : PriceLevel) (position : Addr) : Option Order :=
  (l.orders.find? fun n => n.addr = position).map Node.order

/-- Unlinks the node and hands back its order. -/
def extract (l : PriceLevel) (position : Addr) : Option (Order × PriceLevel) := do
  let order ← l.at? position
  return (order,
    { l with orders := l.orders.filter fun n => n.addr ≠ position
             totalQty := l.totalQty - order.remaining
             visibleQty := l.visibleQty - order.visibleQty })

/-- Rewrite the order of one node where it stands. -/
def rewrite (orders : List Node) (position : Addr) (order : Order) : List Node :=
  orders.map fun n => if n.addr = position then { n with order } else n

/-- Executes `qty` against the order at `position`. -/
def applyFill (l : PriceLevel) (position : Addr) (qty : Quantity) :
    Option PriceLevel := do
  let order ← l.at? position
  return { l with orders := rewrite l.orders position (order.onPartialFill qty)
                  totalQty := l.totalQty - qty
                  visibleQty := l.visibleQty - qty }

/-- Refreshes an exhausted tranche and splices the node to the back. -/
def replenishAndRequeue (l : PriceLevel) (position : Addr) : Option PriceLevel := do
  let order ← l.at? position
  return { l with
    orders := (l.orders.filter fun n => n.addr ≠ position) ++
      [⟨position, order.replenish⟩]
    visibleQty := l.visibleQty + order.replenish.visibleQty }

/-- Rewrites the quantity of a resting order without moving it. -/
def reduceQuantity (l : PriceLevel) (position : Addr) (newQty : Quantity) :
    Option PriceLevel := do
  let order ← l.at? position
  let reduced := order.reduceTo newQty
  return { l with
    orders := rewrite l.orders position reduced
    totalQty := l.totalQty - order.remaining + reduced.remaining
    visibleQty := l.visibleQty - order.visibleQty + reduced.visibleQty }

/-- Splices a node owned elsewhere to the back of this queue. -/
def adopt (l : PriceLevel) (node : Node) : PriceLevel :=
  { l with orders := l.orders ++ [node]
           totalQty := l.totalQty + node.order.remaining
           visibleQty := l.visibleQty + node.order.visibleQty }

/-! ## The operations at a linked position

Addresses are distinct, so an iterator names one place in the queue. -/

section Split

variable {l : PriceLevel} {as bs : List Node} {n : Node}

theorem addr_ne_of_split (hnd : ((as ++ n :: bs).map Node.addr).Nodup) :
    (∀ x ∈ as, x.addr ≠ n.addr) ∧ ∀ x ∈ bs, x.addr ≠ n.addr := by
  simp only [List.map_append, List.map_cons, List.nodup_append, List.nodup_cons,
    List.mem_cons, List.mem_map] at hnd
  refine ⟨fun x hx heq => ?_, fun x hx heq => ?_⟩
  · exact hnd.2.2 x.addr ⟨x, hx, rfl⟩ n.addr (Or.inl rfl) heq
  · exact hnd.2.1.1 ⟨x, hx, heq⟩

theorem filter_split (hnd : ((as ++ n :: bs).map Node.addr).Nodup) :
    ((as ++ n :: bs).filter fun x => x.addr ≠ n.addr) = as ++ bs := by
  obtain ⟨has, hbs⟩ := addr_ne_of_split hnd
  rw [List.filter_append, List.filter_cons_of_neg (by simp)]
  rw [List.filter_eq_self.mpr (by simpa using has),
    List.filter_eq_self.mpr (by simpa using hbs)]

theorem rewrite_split (o : Order) (hnd : ((as ++ n :: bs).map Node.addr).Nodup) :
    rewrite (as ++ n :: bs) n.addr o = as ++ ⟨n.addr, o⟩ :: bs := by
  obtain ⟨has, hbs⟩ := addr_ne_of_split hnd
  have hid : ∀ xs : List Node, (∀ x ∈ xs, x.addr ≠ n.addr) →
      xs.map (fun x => if x.addr = n.addr then { x with order := o } else x) = xs := by
    intro xs hxs
    conv_rhs => rw [← List.map_id xs]
    exact List.map_congr_left fun x hx => by simp [hxs x hx]
  unfold rewrite
  rw [List.map_append, List.map_cons, hid as has, hid bs hbs, if_pos rfl]

theorem at?_split (hl : l.orders = as ++ n :: bs)
    (hnd : ((as ++ n :: bs).map Node.addr).Nodup) : l.at? n.addr = some n.order := by
  obtain ⟨has, _⟩ := addr_ne_of_split hnd
  unfold at?
  rw [hl, List.find?_append, List.find?_eq_none.mpr (by simpa using has)]
  simp

variable (hl : l.orders = as ++ n :: bs) (hnd : ((as ++ n :: bs).map Node.addr).Nodup)

include hl hnd

theorem extract_split : l.extract n.addr = some (n.order,
    { l with orders := as ++ bs
             totalQty := l.totalQty - n.order.remaining
             visibleQty := l.visibleQty - n.order.visibleQty }) := by
  unfold extract
  rw [at?_split hl hnd, hl, filter_split hnd]
  rfl

theorem applyFill_split (qty : Quantity) : l.applyFill n.addr qty = some
    { l with orders := as ++ ⟨n.addr, n.order.onPartialFill qty⟩ :: bs
             totalQty := l.totalQty - qty
             visibleQty := l.visibleQty - qty } := by
  unfold applyFill
  rw [at?_split hl hnd, hl]
  simp only [Option.bind_eq_bind, Option.bind_some, rewrite_split _ hnd]
  rfl

theorem replenishAndRequeue_split : l.replenishAndRequeue n.addr = some
    { l with orders := as ++ bs ++ [⟨n.addr, n.order.replenish⟩]
             visibleQty := l.visibleQty + n.order.replenish.visibleQty } := by
  unfold replenishAndRequeue
  rw [at?_split hl hnd, hl, filter_split hnd]
  rfl

theorem reduceQuantity_split (newQty : Quantity) : l.reduceQuantity n.addr newQty = some
    { l with orders := as ++ ⟨n.addr, n.order.reduceTo newQty⟩ :: bs
             totalQty := l.totalQty - n.order.remaining +
               (n.order.reduceTo newQty).remaining
             visibleQty := l.visibleQty - n.order.visibleQty +
               (n.order.reduceTo newQty).visibleQty } := by
  unfold reduceQuantity
  rw [at?_split hl hnd, hl]
  simp only [Option.bind_eq_bind, Option.bind_some, rewrite_split _ hnd]
  rfl

end Split

/-! ## Cached aggregates -/

def sumRemaining (orders : List Node) : Quantity :=
  (orders.map fun n => n.order.remaining).sum

def sumVisible (orders : List Node) : Quantity :=
  (orders.map fun n => n.order.visibleQty).sum

/-- The two counters are the sums over the queue, as 64-bit values. -/
structure Balanced (l : PriceLevel) : Prop where
  total : l.totalQty = sumRemaining l.orders
  visible : l.visibleQty = sumVisible l.orders

section Balanced

variable {l : PriceLevel} {as bs : List Node} {n : Node}

theorem sumRemaining_split :
    sumRemaining (as ++ n :: bs) = sumRemaining (as ++ bs) + n.order.remaining := by
  simp only [sumRemaining, List.map_append, List.map_cons, List.sum_append, List.sum_cons]
  abel

theorem sumVisible_split :
    sumVisible (as ++ n :: bs) = sumVisible (as ++ bs) + n.order.visibleQty := by
  simp only [sumVisible, List.map_append, List.map_cons, List.sum_append, List.sum_cons]
  abel

theorem balanced_empty (price : Price) : Balanced { price } := ⟨rfl, rfl⟩

theorem Balanced.adopt (h : l.Balanced) (n : Node) : (l.adopt n).Balanced := by
  constructor
  · show l.totalQty + n.order.remaining = sumRemaining (l.orders ++ [n])
    rw [h.total, sumRemaining_split, List.append_nil]
  · show l.visibleQty + n.order.visibleQty = sumVisible (l.orders ++ [n])
    rw [h.visible, sumVisible_split, List.append_nil]

variable (h : l.Balanced) (hl : l.orders = as ++ n :: bs)

include h hl

theorem Balanced.extract : Balanced
    { l with orders := as ++ bs
             totalQty := l.totalQty - n.order.remaining
             visibleQty := l.visibleQty - n.order.visibleQty } := by
  constructor
  · show l.totalQty - n.order.remaining = sumRemaining (as ++ bs)
    rw [h.total, hl, sumRemaining_split]
    abel
  · show l.visibleQty - n.order.visibleQty = sumVisible (as ++ bs)
    rw [h.visible, hl, sumVisible_split]
    abel

/-- An execution consumes displayed quantity, so both counters fall alike. -/
theorem Balanced.applyFill (qty : Quantity) : Balanced
    { l with orders := as ++ ⟨n.addr, n.order.onPartialFill qty⟩ :: bs
             totalQty := l.totalQty - qty
             visibleQty := l.visibleQty - qty } := by
  constructor
  · show l.totalQty - qty = sumRemaining (as ++ ⟨n.addr, n.order.onPartialFill qty⟩ :: bs)
    rw [h.total, hl, sumRemaining_split, sumRemaining_split,
      Order.onPartialFill_remaining]
    abel
  · show l.visibleQty - qty = sumVisible (as ++ ⟨n.addr, n.order.onPartialFill qty⟩ :: bs)
    rw [h.visible, hl, sumVisible_split, sumVisible_split,
      Order.onPartialFill_visibleQty]
    abel

/-- Only the displayed counter moves, and from an exhausted tranche. -/
theorem Balanced.replenishAndRequeue (hv : n.order.visibleQty = 0) : Balanced
    { l with orders := as ++ bs ++ [⟨n.addr, n.order.replenish⟩]
             visibleQty := l.visibleQty + n.order.replenish.visibleQty } := by
  constructor
  · show l.totalQty = sumRemaining (as ++ bs ++ [⟨n.addr, n.order.replenish⟩])
    rw [h.total, hl, sumRemaining_split, sumRemaining_split, List.append_nil,
      Order.replenish_remaining]
  · show l.visibleQty + _ = sumVisible (as ++ bs ++ [⟨n.addr, n.order.replenish⟩])
    rw [h.visible, hl, sumVisible_split, sumVisible_split, List.append_nil, hv]
    abel

theorem Balanced.reduceQuantity (newQty : Quantity) : Balanced
    { l with orders := as ++ ⟨n.addr, n.order.reduceTo newQty⟩ :: bs
             totalQty := l.totalQty - n.order.remaining +
               (n.order.reduceTo newQty).remaining
             visibleQty := l.visibleQty - n.order.visibleQty +
               (n.order.reduceTo newQty).visibleQty } := by
  constructor
  · show l.totalQty - _ + _ = sumRemaining (as ++ ⟨n.addr, n.order.reduceTo newQty⟩ :: bs)
    rw [h.total, hl, sumRemaining_split, sumRemaining_split]
    abel
  · show l.visibleQty - _ + _ = sumVisible (as ++ ⟨n.addr, n.order.reduceTo newQty⟩ :: bs)
    rw [h.visible, hl, sumVisible_split, sumVisible_split]
    abel

end Balanced

end PriceLevel

end Exchange
