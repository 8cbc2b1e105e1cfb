import Exchange.Core.BookIterator
import Mathlib.Data.List.MinMax

/-!
# Queries over the orders of a side

The functions of `analytics/side_stats.hpp` that look at single orders. Each is a standard
algorithm over the range from `begin()` to `end()` of a side, so each is as good as the
iterator: that the loops end, read only orders and read every order once is what the
flattened iterator has to provide. The allocations of the result vectors are left out.
-/

namespace Exchange

open Framework

namespace BookIterator

variable {levels : List (Price × PriceLevel)}

/-- An iterator over the map, as an algorithm is handed one. -/
abbrev Position (levels : List (Price × PriceLevel)) : Type :=
  { it : BookIterator // Over levels it }

/-- How many orders are ahead of an iterator. -/
def remaining (levels : List (Price × PriceLevel)) (it : BookIterator) : ℕ :=
  match it.level, it.order with
  | .into _ l, .into _ k => (ahead (queues levels) l k).length
  | _, _ => 0

theorem Settled.remaining {it : BookIterator} {xs : List (Price × Node)}
    (h : Settled levels it xs) : remaining levels it = xs.length := by
  cases h with
  | stop => rfl
  | seat => rfl

namespace Position

/-- The iterator an operation leads to, where every such iterator is over the map. -/
def of (found : Option BookIterator) (h : ∀ it, found = some it → Over levels it) :
    Option (Position levels) :=
  match found, h with
  | none, _ => none
  | some it, h => some ⟨it, h it rfl⟩

theorem of_eq_some {found : Option BookIterator} {h : ∀ it, found = some it → Over levels it}
    {p : Position levels} : of found h = some p ↔ found = some p.1 := by
  cases found with
  | none => simp [of]
  | some it => simp [of, Subtype.ext_iff]

def next (p : Position levels) : Option (Position levels) :=
  of (p.1.increment levels) fun _ h => .increment p.2 h

theorem next_settled {p : Position levels} {x : Price × Node} {xs : List (Price × Node)}
    (h : Settled levels p.1 (x :: xs)) : ∃ q, p.next = some q ∧ Settled levels q.1 xs := by
  obtain ⟨it, hit, hsettled⟩ := h.increment
  exact ⟨⟨it, .increment p.2 hit⟩, of_eq_some.mpr hit, hsettled⟩

theorem remaining_next {p q : Position levels} (h : p.next = some q) :
    remaining levels q.1 < remaining levels p.1 := by
  obtain ⟨xs, hxs⟩ := p.2.settled
  obtain ⟨x, rest, rfl, hrest⟩ := hxs.increment_eq_some (of_eq_some.mp h)
  rw [hxs.remaining, hrest.remaining]
  exact Nat.lt_succ_self _

end Position

/-- Iterators over the map as the algorithms use them. -/
def walk (levels : List (Price × PriceLevel)) : Walk (Position levels) where
  next := Position.next
  equals p q := p.1.equals q.1
  size p := remaining levels p.1
  decreases _ _ := Position.remaining_next

end BookIterator

open BookIterator

namespace OrderBook

variable {s : Side} (b : OrderBook s)

def first : Option (Position b.levels.entries) :=
  Position.of b.cbegin fun _ h => .construct (Nat.zero_le _) h

def last : Option (Position b.levels.entries) :=
  Position.of b.cend fun _ h => .construct (Nat.le_refl _) h

theorem exists_first : ∃ p, b.first = some p ∧ Settled b.levels.entries p.1 b.flattened := by
  obtain ⟨it, hit, hsettled⟩ := construct_settled (Nat.zero_le b.levels.entries.length)
  rw [b.ahead_cbegin] at hsettled
  exact ⟨⟨it, .construct (Nat.zero_le _) hit⟩, Position.of_eq_some.mpr hit, hsettled⟩

theorem exists_last : ∃ p, b.last = some p ∧ Settled b.levels.entries p.1 [] := by
  obtain ⟨it, hit, hsettled⟩ := construct_settled (Nat.le_refl b.levels.entries.length)
  rw [ahead_end] at hsettled
  exact ⟨⟨it, .construct (Nat.le_refl _) hit⟩, Position.of_eq_some.mpr hit, hsettled⟩

end OrderBook

/-! ## The queries -/

/-- Resting orders split by a predicate, as pointers. -/
structure OrderPartition where
  matching : List Node := []
  rest : List Node := []
deriving DecidableEq, Repr

namespace Analytics

variable {s : Side} {levels : List (Price × PriceLevel)}

/-- One element of `partition_copy`: the predicate is asked about the order, its address
goes to the back of one of the vectors. -/
def copyTo (predicate : Order → Bool) (split : OrderPartition) (it : Position levels) :
    Option OrderPartition := do
  let order ← it.1.arrow levels
  if predicate order.order then
    return { split with matching := split.matching ++ [order] }
  return { split with rest := split.rest ++ [order] }

/-- Splits resting orders by a predicate. -/
def partitionOrders (side : OrderBook s) (predicate : Order → Bool) :
    Option OrderPartition := do
  (walk side.levels.entries).each (← side.last) (copyTo predicate) {} (← side.first)

/-- One element of `count_if`. -/
def countOne (predicate : Order → Bool) (n : ℕ) (it : Position levels) : Option ℕ := do
  return if predicate (← it.1.deref levels) then n + 1 else n

/-- Resting orders satisfying `predicate`, across every level. -/
def countOrders (side : OrderBook s) (predicate : Order → Bool) : Option ℕ := do
  (walk side.levels.entries).each (← side.last) (countOne predicate) 0 (← side.first)

/-- One element of `max_element`, compared with the one held. -/
def largerOf (largest it : Position levels) : Option (Position levels) := do
  let held ← largest.1.deref levels
  let order ← it.1.deref levels
  return if held.remaining < order.remaining then it else largest

/-- `std::ranges::max_element` over the side, by what remains of the orders. -/
def maxElement (side : OrderBook s) : Option (Position side.levels.entries) := do
  let first ← side.first
  let last ← side.last
  if ← first.1.equals last.1 then return first
  (walk side.levels.entries).each last largerOf first (← first.next)

/-- The single largest resting order by remaining quantity, or `nullptr`. -/
def largestOrder (side : OrderBook s) : Option (Option Node) := do
  let largest ← maxElement side
  if ← largest.1.equals (← side.last).1 then return none
  return some (← largest.1.arrow side.levels.entries)

/-! ## What they answer -/

section

variable {β : Type} {last it : Position levels} {x : Price × Node} {xs : List (Price × Node)}

/-- The range rule, at the iterators over a map. -/
theorem walk_induction {f : β → Position levels → Option β}
    {I : β → List (Price × Node) → Prop}
    (hlast : Settled levels last.1 [])
    (hbody : ∀ {acc read it x xs}, I acc read → Settled levels it.1 (x :: xs) →
      ∃ acc', f acc it = some acc' ∧ I acc' (read ++ [x]))
    {acc : β} {read : List (Price × Node)} (hacc : I acc read) (hit : Settled levels it.1 xs) :
    ∃ acc', (walk levels).each last f acc it = some acc' ∧ I acc' (read ++ xs) := by
  refine Walk.each_induction (R := fun p xs => Settled levels p.1 xs) ?_ ?_ hbody hacc hit
  · intro p xs hp
    show p.1.equals last.1 = _
    rw [hp.equals hlast]
    cases xs with
    | nil => rfl
    | cons => rfl
  · intro p x xs hp
    exact Position.next_settled hp

theorem arrow_settled (h : Settled levels it.1 (x :: xs)) : it.1.arrow levels = some x.2 :=
  h.reads.2

theorem deref_settled (h : Settled levels it.1 (x :: xs)) :
    it.1.deref levels = some x.2.order := by
  rw [deref_eq, arrow_settled h]
  rfl

end

section Queries

variable (b : OrderBook s) (predicate : Order → Bool) {it : Position levels}
  {x : Price × Node} {xs : List (Price × Node)}

/-- A loop over the whole side, when what it holds is a function of what it has read. -/
theorem walk_side {β : Type} {f : β → Position b.levels.entries → Option β}
    {F : List (Price × Node) → β}
    (hbody : ∀ {it x xs} (read : List (Price × Node)),
      Settled b.levels.entries it.1 (x :: xs) → f (F read) it = some (F (read ++ [x]))) :
    (do (walk b.levels.entries).each (← b.last) f (F []) (← b.first)) =
      some (F b.flattened) := by
  obtain ⟨first, hfirst, hsettled⟩ := b.exists_first
  obtain ⟨last, hlast, hend⟩ := b.exists_last
  obtain ⟨acc, hacc, rfl⟩ : ∃ acc, (walk b.levels.entries).each last f (F []) first = some acc ∧
      acc = F ([] ++ b.flattened) := by
    refine walk_induction (I := fun acc read => acc = F read) hend ?_ rfl hsettled
    rintro _ read it x xs rfl hit
    exact ⟨_, hbody read hit, rfl⟩
  rw [hlast, hfirst]
  exact hacc

/-- What `partitionOrders` should give for some orders. -/
def splitOf (orders : List (Price × Node)) : OrderPartition where
  matching := (orders.map Prod.snd).filter fun n => predicate n.order
  rest := (orders.map Prod.snd).filter fun n => !predicate n.order

theorem copyTo_splitOf (read : List (Price × Node)) (h : Settled levels it.1 (x :: xs)) :
    copyTo predicate (splitOf predicate read) it =
      some (splitOf predicate (read ++ [x])) := by
  unfold copyTo
  rw [arrow_settled h]
  simp only [Option.bind_eq_bind, Option.bind_some, splitOf, List.map_append,
    List.map_singleton, List.filter_append, List.filter_singleton]
  by_cases hx : predicate x.2.order = true
  · simp [hx]
  · simp [hx]

/-- The halves are the orders that satisfy the predicate and those that do not, both in
book order. -/
theorem partitionOrders_eq :
    partitionOrders b predicate = some (splitOf predicate b.flattened) :=
  walk_side b (copyTo_splitOf predicate)

/-- How many of some orders satisfy the predicate. -/
def countOf (orders : List (Price × Node)) : ℕ := orders.countP fun x => predicate x.2.order

theorem countOne_countOf (read : List (Price × Node)) (h : Settled levels it.1 (x :: xs)) :
    countOne predicate (countOf predicate read) it =
      some (countOf predicate (read ++ [x])) := by
  unfold countOne countOf
  rw [deref_settled h, List.countP_append, List.countP_singleton]
  show some (if predicate x.2.order then _ else _) = _
  split
  · rfl
  · rfl

theorem countOrders_eq : countOrders b predicate = some (countOf predicate b.flattened) :=
  walk_side b (countOne_countOf predicate)

/-- `max_element` holds an iterator at the first of the largest orders so far. -/
def Largest (largest : Position levels) (read : List (Price × Node)) : Prop :=
  ∃ y ys, Settled levels largest.1 (y :: ys) ∧
    (read.map Prod.snd).argmax (fun n => n.order.remaining.toNat) = some y.2

theorem Largest.largerOf {largest : Position levels} {read : List (Price × Node)}
    (hread : Largest largest read) (h : Settled levels it.1 (x :: xs)) :
    ∃ largest', largerOf largest it = some largest' ∧ Largest largest' (read ++ [x]) := by
  obtain ⟨y, ys, hy, hmax⟩ := hread
  unfold Analytics.largerOf
  rw [deref_settled hy, deref_settled h]
  refine ⟨_, rfl, ?_⟩
  unfold Largest
  rw [List.map_append, List.map_singleton, List.argmax_concat, hmax]
  by_cases hlt : y.2.order.remaining < x.2.order.remaining
  · rw [if_pos hlt]
    exact ⟨x, xs, h, if_pos (UInt64.lt_iff_toNat_lt.mp hlt)⟩
  · rw [if_neg hlt]
    exact ⟨y, ys, hy, if_neg fun hlt' => hlt (UInt64.lt_iff_toNat_lt.mpr hlt')⟩

theorem maxElement_eq : ∃ largest, maxElement b = some largest ∧
    (b.flattened = [] ∧ Settled b.levels.entries largest.1 [] ∨ Largest largest b.flattened) := by
  obtain ⟨first, hfirst, hsettled⟩ := b.exists_first
  obtain ⟨last, hlast, hend⟩ := b.exists_last
  unfold maxElement
  rw [hfirst, hlast]
  simp only [Option.bind_eq_bind, Option.bind_some]
  rw [hsettled.equals hend]
  generalize b.flattened = orders at hsettled ⊢
  cases orders with
  | nil => exact ⟨first, rfl, Or.inl ⟨rfl, hsettled⟩⟩
  | cons x xs =>
      obtain ⟨second, hsecond, hit⟩ := Position.next_settled hsettled
      have hone : Largest first [x] := ⟨x, xs, hsettled, rfl⟩
      obtain ⟨largest, hlargest, hmax⟩ := walk_induction (I := Largest) (f := largerOf) hend
        Largest.largerOf hone hit
      refine ⟨largest, ?_, Or.inr hmax⟩
      rw [hsecond]
      exact hlargest

/-- The first of the orders no other has more left than. -/
theorem largestOrder_eq : largestOrder b =
    some ((b.flattened.map Prod.snd).argmax fun n => n.order.remaining.toNat) := by
  obtain ⟨largest, hlargest, hmax⟩ := maxElement_eq b
  obtain ⟨last, hlast, hend⟩ := b.exists_last
  unfold largestOrder
  rw [hlargest, hlast]
  simp only [Option.bind_eq_bind, Option.bind_some]
  rcases hmax with ⟨hnil, hsettled⟩ | ⟨y, ys, hsettled, hmax⟩
  · rw [hsettled.equals hend, hnil]
    rfl
  · rw [hsettled.equals hend, arrow_settled hsettled, hmax]
    rfl

end Queries

theorem length_splitOf (predicate : Order → Bool) (orders : List (Price × Node)) :
    (splitOf predicate orders).matching.length = countOf predicate orders ∧
      (splitOf predicate orders).matching.length + (splitOf predicate orders).rest.length =
        orders.length := by
  unfold splitOf countOf
  constructor
  · rw [← List.countP_eq_length_filter, List.countP_map]
    rfl
  · rw [← List.countP_eq_length_filter, ← List.countP_eq_length_filter]
    have hall := List.length_eq_countP_add_countP (fun n : Node => predicate n.order)
      (l := orders.map Prod.snd)
    rw [List.length_map] at hall
    simp only [hall, Bool.not_eq_true, Bool.decide_eq_false]

/-- **On a reachable book** every query has its answer, the two halves of a partition hold
all resting orders between them, and there is a largest order unless none rests. -/
theorem queries_exact {m : BookMemory} (h : Reachable anyOp m) (s : Side)
    (predicate : Order → Bool) :
    (∃ split, partitionOrders (m.state.side s) predicate = some split ∧
      countOrders (m.state.side s) predicate = some split.matching.length ∧
      split.matching.length + split.rest.length = (m.state.side s).orderCount) ∧
    ∃ largest, largestOrder (m.state.side s) = some largest ∧
      (largest = none ↔ (m.state.side s).orderCount = 0) ∧
      ∀ n ∈ largest, ∀ e ∈ (m.state.side s).levels.entries, ∀ n' ∈ e.2.orders,
        n'.order.remaining ≤ n.order.remaining := by
  have hcount := h.wellFormed.length_flattened s
  constructor
  · obtain ⟨hmatching, hboth⟩ := length_splitOf predicate (m.state.side s).flattened
    refine ⟨_, partitionOrders_eq _ predicate, ?_, hboth.trans hcount⟩
    rw [countOrders_eq, hmatching]
  · refine ⟨_, largestOrder_eq _, ?_, ?_⟩
    · rw [List.argmax_eq_none, List.map_eq_nil_iff, ← hcount, List.length_eq_zero_iff]
    · intro n hn e he n' hn'
      have hmem : (e.2.price, n') ∈ (m.state.side s).flattened :=
        List.mem_flatMap.mpr ⟨e, he, List.mem_map.mpr ⟨n', hn', rfl⟩⟩
      have hle := List.le_of_mem_argmax (List.mem_map.mpr ⟨_, hmem, rfl⟩) hn
      exact UInt64.le_iff_toNat_le.mpr hle

example : countOrders (quotes.state.side .buy) (fun o => o.account = 7) = some 1 := by
  decide +kernel

end Analytics

end Exchange
