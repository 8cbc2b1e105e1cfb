import Exchange.Core.Runs
import Exchange.Framework.Iterator

/-!
# The flattened iterator

A book side is a map of levels and each level a queue; `BookIteratorImpl` presents them as
one sequence of orders. It holds an iterator of the map, the end of the map and an iterator
of a queue, which have to be moved together: the order iterator is of the queue of the
level the other one is at, never at the end of that queue, and value-initialised at the
end of the map. Const and non-const are one template in the source and one type here.

The model leaves open what the source does where it is undefined: an operation that would
read past a queue, move a singular iterator or compare iterators of two queues has no
result. A level is told by its place in the map, and its queue by the place of the level.

`Settled` relates an iterator to the orders still ahead of it. It holds of every iterator
over a map, and everything said here of the traversal follows from it.
-/

namespace Exchange

open Framework

abbrev LevelIterator : Type := Iterator Unit

abbrev OrderIterator : Type := Iterator ℕ

structure BookIterator where
  level : LevelIterator := .singular
  levelEnd : LevelIterator := .singular
  order : OrderIterator := .singular
deriving DecidableEq, Repr

namespace BookIterator

/-! ## The code -/

section Code

variable (levels : List (Price × PriceLevel))

/-- The queue of the level at this place of the map. -/
def queue (place : ℕ) : List Node := (levels[place]?.map fun e => e.2.orders).getD []

/-- `level->second.begin()` -/
def queueBegin : LevelIterator → Option OrderIterator
  | .singular => none
  | .into _ place => levels[place]?.map fun _ => .first place

/-- `level->second.end()` -/
def queueEnd : LevelIterator → Option OrderIterator
  | .singular => none
  | .into _ place => levels[place]?.map fun _ => .last (queue levels) place

/-- The condition of the loop in `skipExhaustedLevels`. -/
def exhausted (it : BookIterator) : Option Bool := do
  if ← it.level.equals it.levelEnd then return false
  it.order.equals (← queueEnd levels it.level)

/-- `level == levelEnd ? OrderIterator{} : level->second.begin()` -/
def firstOrder (level levelEnd : LevelIterator) : Option OrderIterator := do
  if ← level.equals levelEnd then return .singular
  queueBegin levels level

/-- The body of that loop: on to the next level. -/
def enterNextLevel (it : BookIterator) : Option BookIterator := do
  let level ← it.level.next fun _ => levels
  let order ← firstOrder levels level it.levelEnd
  return { it with level, order }

def skipTurn (it : BookIterator) : Turn BookIterator (Option BookIterator) :=
  match exhausted levels it with
  | none => .done none
  | some false => .done (some it)
  | some true =>
      match enterNextLevel levels it with
      | none => .done none
      | some it' => .next it'

theorem enterNextLevel_level {levels : List (Price × PriceLevel)} {it it' : BookIterator}
    (h : enterNextLevel levels it = some it') :
    it.level.next (fun _ => levels) = some it'.level := by
  unfold enterNextLevel at h
  simp only [Option.bind_eq_bind, Option.bind_eq_some_iff] at h
  obtain ⟨level, hlevel, order, _, hit⟩ := h
  cases hit
  exact hlevel

def skipLoop : Loop BookIterator (Option BookIterator) where
  body := skipTurn levels
  rank it := it.level.room fun _ => levels
  decreases it it' h := by
    unfold skipTurn at h
    split at h
    · cases h
    · cases h
    · split at h
      · cases h
      · rename_i hnext
        cases h
        exact Iterator.room_next (enterNextLevel_level hnext)

/-- Advances past levels whose queue is spent. -/
def skipExhaustedLevels (it : BookIterator) : Option BookIterator := (skipLoop levels).run it

/-- `BookIteratorImpl(level, levelEnd)` -/
def construct (level levelEnd : LevelIterator) : Option BookIterator := do
  if ← level.equals levelEnd then return { level, levelEnd }
  skipExhaustedLevels levels { level, levelEnd, order := ← queueBegin levels level }

/-- `operator->`: the order pointed to is that of the list node. -/
def arrow (it : BookIterator) : Option Node := do
  if ← it.level.equals it.levelEnd then none
  it.order.deref (queue levels)

/-- `operator*` -/
def deref (it : BookIterator) : Option Order := do
  if ← it.level.equals it.levelEnd then none
  return (← it.order.deref (queue levels)).order

/-- `operator++` -/
def increment (it : BookIterator) : Option BookIterator := do
  if ← it.level.equals it.levelEnd then none
  skipExhaustedLevels levels { it with order := ← it.order.next (queue levels) }

/-- The price of the level the iterator sits on. -/
def price (it : BookIterator) : Option Price :=
  (it.level.deref fun _ => levels).map fun e => e.2.price

end Code

/-- `operator==` -/
def equals (lhs rhs : BookIterator) : Option Bool := do
  if !(← lhs.level.equals rhs.level) then return false
  if ← lhs.level.equals lhs.levelEnd then return true
  lhs.order.equals rhs.order

end BookIterator

namespace OrderBook

variable {s : Side}

/-- `begin()` and `cbegin()` -/
def cbegin (b : OrderBook s) : Option BookIterator :=
  BookIterator.construct b.levels.entries (.first ()) (.last (fun _ => b.levels.entries) ())

/-- `end()` and `cend()` -/
def cend (b : OrderBook s) : Option BookIterator :=
  BookIterator.construct b.levels.entries (.last (fun _ => b.levels.entries) ())
    (.last (fun _ => b.levels.entries) ())

end OrderBook

namespace BookIterator

/-- The iterators over a map: built at one of its levels or at its end, and moved on. -/
inductive Over (levels : List (Price × PriceLevel)) : BookIterator → Prop where
  | construct {place : ℕ} {it : BookIterator} (hplace : place ≤ levels.length)
      (h : construct levels (.into () place) (.last (fun _ => levels) ()) = some it) :
      Over levels it
  | increment {it it' : BookIterator} (hit : Over levels it)
      (h : it.increment levels = some it') : Over levels it'

/-! ## What is ahead of an iterator -/

/-- The queues, each order with the price of its level. -/
def queues (levels : List (Price × PriceLevel)) : List (List (Price × Node)) :=
  levels.map fun e => e.2.orders.map fun n => (e.2.price, n)

section Settled

variable (levels : List (Price × PriceLevel))

def stop : BookIterator :=
  { level := .last (fun _ => levels) (), levelEnd := .last (fun _ => levels) () }

/-- At place `k` of the queue of the level at place `l`. -/
def seat (l k : ℕ) : BookIterator :=
  { level := .into () l, levelEnd := .last (fun _ => levels) (), order := .into l k }

/-- At the first order of a level, should it have one. -/
def entry (place : ℕ) : BookIterator :=
  if place = levels.length then stop levels else seat levels place 0

theorem entry_eq (place : ℕ) :
    { seat levels place 0 with order := (entry levels place).order } = entry levels place := by
  unfold entry
  split
  · rename_i hlast
    rw [hlast]
    rfl
  · rfl

/-- Inside `skipExhaustedLevels`: the order iterator may be at the end of its queue. -/
inductive Underway : BookIterator → List (Price × Node) → Prop where
  | stop : Underway (stop levels) []
  | seat {l k : ℕ} {e : Price × PriceLevel} (hl : levels[l]? = some e)
      (hk : k ≤ e.2.orders.length) : Underway (seat levels l k) (ahead (queues levels) l k)

/-- Between calls it is at an order, or the iterator is at the end. -/
inductive Settled : BookIterator → List (Price × Node) → Prop where
  | stop : Settled (stop levels) []
  | seat {l k : ℕ} {e : Price × PriceLevel} {n : Node} (hl : levels[l]? = some e)
      (hk : e.2.orders[k]? = some n) : Settled (seat levels l k) (ahead (queues levels) l k)

variable {levels} {l k : ℕ} {e : Price × PriceLevel} {n : Node} {it it' : BookIterator}
  {rest : List (Price × Node)}

theorem queue_eq (hl : levels[l]? = some e) : queue levels l = e.2.orders := by
  rw [queue, hl]
  rfl

theorem queues_eq (hl : levels[l]? = some e) :
    (queues levels)[l]? = some (e.2.orders.map fun n => (e.2.price, n)) := by
  rw [queues, List.getElem?_map, hl]
  rfl

theorem ahead_seat (hl : levels[l]? = some e) (hk : e.2.orders[k]? = some n) :
    ahead (queues levels) l k = (e.2.price, n) :: ahead (queues levels) l (k + 1) := by
  refine ahead_cons (queues_eq hl) ?_
  rw [List.getElem?_map, hk]
  rfl

variable (levels) in
theorem ahead_end : ahead (queues levels) levels.length 0 = [] := by
  have hle : (queues levels).length ≤ levels.length := by rw [queues, List.length_map]
  rw [ahead_start, List.drop_of_length_le hle]
  rfl

theorem level_equals_end (levels : List (Price × PriceLevel)) (place : ℕ) :
    Iterator.equals (.into () place) (.last (fun _ => levels) ()) =
      some (decide (place = levels.length)) :=
  Iterator.equals_into () _ _

theorem queueBegin_into {place : ℕ} (h : place < levels.length) :
    queueBegin levels (.into () place) = some (.into place 0) := by
  rw [queueBegin, List.getElem?_eq_getElem h]
  rfl

theorem seat_level (hl : levels[l]? = some e) :
    (seat levels l k).level.equals (seat levels l k).levelEnd = some false := by
  have hlt := (List.getElem?_eq_some_iff.mp hl).1
  exact (level_equals_end levels l).trans (congrArg some (decide_eq_false (Nat.ne_of_lt hlt)))

theorem stop_level : (stop levels).level.equals (stop levels).levelEnd = some true :=
  (level_equals_end levels _).trans (congrArg some (decide_eq_true rfl))

/-! ### One turn of the loop -/

theorem exhausted_stop : exhausted levels (stop levels) = some false := by
  unfold exhausted
  rw [stop_level]
  rfl

theorem exhausted_seat (hl : levels[l]? = some e) :
    exhausted levels (seat levels l k) = some (decide (k = e.2.orders.length)) := by
  have hend : queueEnd levels (seat levels l k).level = some (.into l e.2.orders.length) := by
    show (levels[l]?).map _ = _
    rw [hl, ← queue_eq hl]
    rfl
  unfold exhausted
  rw [seat_level hl, hend]
  exact Iterator.equals_into l k _

theorem firstOrder_eq {place : ℕ} (hplace : place ≤ levels.length) :
    firstOrder levels (.into () place) (.last (fun _ => levels) ()) =
      some (entry levels place).order := by
  unfold firstOrder entry
  rw [level_equals_end]
  by_cases hlast : place = levels.length
  · rw [decide_eq_true hlast, if_pos hlast]
    rfl
  · have hlt : place < levels.length := by omega
    rw [decide_eq_false hlast, if_neg hlast]
    exact queueBegin_into hlt

theorem enterNextLevel_seat (hl : levels[l]? = some e) :
    enterNextLevel levels (seat levels l k) = some (entry levels (l + 1)) := by
  have hlt := (List.getElem?_eq_some_iff.mp hl).1
  have hnext : (seat levels l k).level.next (fun _ => levels) = some (.into () (l + 1)) :=
    Iterator.next_into hlt
  unfold enterNextLevel
  rw [hnext]
  show (firstOrder levels (.into () (l + 1)) (.last (fun _ => levels) ())).bind _ = _
  rw [firstOrder_eq hlt]
  exact congrArg some (entry_eq levels (l + 1))

theorem Underway.entry {place : ℕ} (hplace : place ≤ levels.length) :
    Underway levels (entry levels place) (ahead (queues levels) place 0) := by
  unfold BookIterator.entry
  split
  · rename_i hlast
    rw [hlast, ahead_end]
    exact .stop
  · have hlt : place < levels.length := by omega
    exact .seat (List.getElem?_eq_getElem hlt) (Nat.zero_le _)

/-- One turn ends the loop at an order, or keeps what is ahead. -/
theorem Underway.skipTurn (h : Underway levels it rest) :
    (skipTurn levels it = .done (some it) ∧ Settled levels it rest) ∨
      ∃ it', skipTurn levels it = .next it' ∧ Underway levels it' rest := by
  unfold BookIterator.skipTurn
  cases h with
  | stop =>
      rw [exhausted_stop]
      exact Or.inl ⟨rfl, .stop⟩
  | @seat l k e hl hk =>
      rw [exhausted_seat hl]
      by_cases hend : k = e.2.orders.length
      · subst hend
        rw [decide_eq_true rfl, enterNextLevel_seat hl]
        refine Or.inr ⟨_, rfl, ?_⟩
        have hahead := ahead_length (queues_eq hl)
        rw [List.length_map] at hahead
        rw [hahead]
        exact .entry (List.getElem?_eq_some_iff.mp hl).1
      · have hlt : k < e.2.orders.length := by omega
        rw [decide_eq_false hend]
        exact Or.inl ⟨rfl, .seat hl (List.getElem?_eq_getElem hlt)⟩

/-- `skipExhaustedLevels` comes to an order or to the end, and skips no order. -/
theorem Underway.skipExhaustedLevels (h : Underway levels it rest) :
    ∃ it', skipExhaustedLevels levels it = some it' ∧ Settled levels it' rest := by
  unfold BookIterator.skipExhaustedLevels
  refine Loop.run_induction (I := fun it => Underway levels it rest)
    (P := fun r => ∃ it', r = some it' ∧ Settled levels it' rest) (skipLoop levels) h ?_ ?_
  · intro it it' hit hbody
    rcases hit.skipTurn with ⟨hdone, _⟩ | ⟨it'', hnext, hit''⟩
    · cases hdone.symm.trans hbody
    · cases hnext.symm.trans hbody
      exact hit''
  · intro it r hit hbody
    rcases hit.skipTurn with ⟨hdone, hsettled⟩ | ⟨it'', hnext, _⟩
    · cases hdone.symm.trans hbody
      exact ⟨it, rfl, hsettled⟩
    · cases hnext.symm.trans hbody

/-! ### The operations -/

theorem construct_settled {place : ℕ} (hplace : place ≤ levels.length) :
    ∃ it, construct levels (.into () place) (.last (fun _ => levels) ()) = some it ∧
      Settled levels it (ahead (queues levels) place 0) := by
  unfold construct
  rw [level_equals_end]
  by_cases hlast : place = levels.length
  · subst hlast
    rw [decide_eq_true rfl]
    refine ⟨stop levels, rfl, ?_⟩
    rw [ahead_end]
    exact .stop
  · have hlt : place < levels.length := by omega
    obtain ⟨it, hskip, hit⟩ := (Underway.seat (List.getElem?_eq_getElem hlt)
      (Nat.zero_le _)).skipExhaustedLevels
    refine ⟨it, ?_, hit⟩
    rw [decide_eq_false hlast, queueBegin_into hlt]
    exact hskip

theorem arrow_stop : arrow levels (stop levels) = none := by
  unfold arrow
  rw [stop_level]
  rfl

theorem increment_stop : increment levels (stop levels) = none := by
  unfold increment
  rw [stop_level]
  rfl

theorem price_stop : price levels (stop levels) = none := by
  show (levels[levels.length]?).map _ = none
  rw [List.getElem?_eq_none_iff.mpr (Nat.le_refl _)]
  rfl

theorem arrow_seat (hl : levels[l]? = some e) :
    arrow levels (seat levels l k) = e.2.orders[k]? := by
  unfold arrow
  rw [seat_level hl]
  show (queue levels l)[k]? = _
  rw [queue_eq hl]

theorem price_seat (hl : levels[l]? = some e) :
    price levels (seat levels l k) = some e.2.price := by
  show (levels[l]?).map _ = _
  rw [hl]
  rfl

theorem increment_seat (hl : levels[l]? = some e) (hk : k < e.2.orders.length) :
    increment levels (seat levels l k) = skipExhaustedLevels levels (seat levels l (k + 1)) := by
  have hnext : (seat levels l k).order.next (queue levels) = some (.into l (k + 1)) :=
    Iterator.next_into (by rw [queue_eq hl]; exact hk)
  unfold increment
  rw [seat_level hl, hnext]
  rfl

theorem equals_stop : (stop levels).equals (stop levels) = some true := by
  have hlevel : (stop levels).level.equals (stop levels).level = some true := stop_level
  unfold equals
  rw [hlevel, stop_level]
  rfl

theorem equals_seat {j : ℕ} (hl : levels[l]? = some e) :
    (seat levels l k).equals (seat levels l j) = some (decide (k = j)) := by
  have hlevel : (seat levels l k).level.equals (seat levels l j).level = some true :=
    (Iterator.equals_into () l l).trans (congrArg some (decide_eq_true rfl))
  unfold equals
  rw [hlevel, seat_level hl]
  exact Iterator.equals_into l k j

/-- The order iterators of two levels are not compared. -/
theorem equals_apart {jt : BookIterator} {p p' : ℕ} (hi : it.level = .into () p)
    (hj : jt.level = .into () p') (hne : p ≠ p') : it.equals jt = some false := by
  unfold equals
  rw [hi, hj, Iterator.equals_into, decide_eq_false hne]
  rfl

theorem length_ahead_seat {l' : ℕ} (hl : levels[l]? = some e) (hk : k < e.2.orders.length)
    (hlt : l < l') (k' : ℕ) :
    (ahead (queues levels) l' k').length < (ahead (queues levels) l k).length := by
  refine length_ahead_lt (queues_eq hl) ?_ hlt
  rw [List.length_map]
  exact hk

theorem deref_eq (it : BookIterator) :
    it.deref levels = (it.arrow levels).map fun n => n.order := by
  unfold deref arrow
  rcases it.level.equals it.levelEnd with _ | _ | _
  · rfl
  · exact (Option.map_eq_bind ..).symm
  · rfl

end Settled

namespace Settled

variable {levels : List (Price × PriceLevel)} {it jt : BookIterator}
  {xs ys : List (Price × Node)}

theorem reads (h : Settled levels it xs) :
    it.price levels = xs.head?.map Prod.fst ∧ it.arrow levels = xs.head?.map Prod.snd := by
  cases h with
  | stop => exact ⟨price_stop, arrow_stop⟩
  | @seat l k e n hl hk =>
      rw [ahead_seat hl hk, price_seat hl, arrow_seat hl, hk]
      exact ⟨rfl, rfl⟩

theorem increment {x : Price × Node} (h : Settled levels it (x :: xs)) :
    ∃ it', it.increment levels = some it' ∧ Settled levels it' xs := by
  generalize hys : x :: xs = ys at h
  cases h with
  | stop => cases hys
  | @seat l k e n hl hk =>
      rw [ahead_seat hl hk] at hys
      cases hys
      have hlt := (List.getElem?_eq_some_iff.mp hk).1
      rw [increment_seat hl hlt]
      exact (Underway.seat hl hlt).skipExhaustedLevels

theorem eq_stop (h : Settled levels it []) : it = BookIterator.stop levels := by
  generalize hys : [] = ys at h
  cases h with
  | stop => rfl
  | seat hl hk =>
      rw [ahead_seat hl hk] at hys
      cases hys

/-- Only an iterator with an order ahead moves, and it leaves that order behind. -/
theorem increment_eq_some (h : Settled levels it xs) (hit : it.increment levels = some jt) :
    ∃ x rest, xs = x :: rest ∧ Settled levels jt rest := by
  cases xs with
  | nil =>
      rw [h.eq_stop, increment_stop] at hit
      cases hit
  | cons x rest =>
      obtain ⟨it', hit', hsettled⟩ := h.increment
      cases hit.symm.trans hit'
      exact ⟨x, rest, rfl, hsettled⟩

theorem traverses (levels : List (Price × PriceLevel)) :
    Traverses (BookIterator.increment levels) (BookIterator.stop levels) (Settled levels) where
  nil := eq_stop
  cons := increment
  stuck := increment_stop

/-- Two iterators compare equal when as much is ahead of both. -/
theorem equals (hi : Settled levels it xs) (hj : Settled levels jt ys) :
    it.equals jt = some (decide (xs.length = ys.length)) := by
  cases hi with
  | stop =>
      cases hj with
      | stop => exact equals_stop
      | seat hl hk =>
          have hlt := (List.getElem?_eq_some_iff.mp hl).1
          rw [equals_apart rfl rfl (Nat.ne_of_gt hlt), ahead_seat hl hk, List.length_cons]
          rfl
  | @seat l k e _ hl hk =>
      have hk' := (List.getElem?_eq_some_iff.mp hk).1
      cases hj with
      | stop =>
          have hlt := (List.getElem?_eq_some_iff.mp hl).1
          rw [equals_apart rfl rfl (Nat.ne_of_lt hlt), ahead_seat hl hk, List.length_cons]
          rfl
      | @seat l' j e' _ hl' hj =>
          have hj' := (List.getElem?_eq_some_iff.mp hj).1
          rcases Nat.lt_trichotomy l l' with hlt | rfl | hgt
          · have hmore := length_ahead_seat hl hk' hlt j
            rw [equals_apart rfl rfl (Nat.ne_of_lt hlt), decide_eq_false (Nat.ne_of_gt hmore)]
          · cases hl.symm.trans hl'
            -- in one queue the places decide, and what is ahead counts down with them
            rw [equals_seat hl, length_ahead (queues_eq hl), length_ahead (queues_eq hl),
              List.length_map]
            congr 1
            apply decide_eq_decide.mpr
            omega
          · have hmore := length_ahead_seat hl' hj' hgt k
            rw [equals_apart rfl rfl (Nat.ne_of_gt hgt), decide_eq_false (Nat.ne_of_lt hmore)]

/-- Where `k` moves lead: to the `k`-th of the orders ahead, or to the end behind all. -/
theorem after {stop : BookIterator} (h : Settled levels it xs) (hstop : Settled levels stop [])
    {k : ℕ} (hk : k ≤ xs.length) :
    ∃ it', steps (BookIterator.increment levels) k it = some it' ∧
      it'.equals stop = some (decide (k = xs.length)) ∧
      it'.price levels = xs[k]?.map Prod.fst ∧ it'.arrow levels = xs[k]?.map Prod.snd ∧
      it'.deref levels = xs[k]?.map fun x => x.2.order := by
  obtain ⟨it', hsteps, hit'⟩ := (traverses levels).steps_drop h hk
  obtain ⟨hprice, harrow⟩ := hit'.reads
  rw [List.head?_drop] at hprice harrow
  refine ⟨it', hsteps, ?_, hprice, harrow, ?_⟩
  · rw [hit'.equals hstop, List.length_drop]
    congr 1
    apply decide_eq_decide.mpr
    show xs.length - k = 0 ↔ _
    omega
  · rw [deref_eq, harrow, Option.map_map]
    rfl

end Settled

/-- Whatever it was built at and however often it was moved, an iterator is settled. -/
theorem Over.settled {levels : List (Price × PriceLevel)} {it : BookIterator}
    (h : Over levels it) : ∃ xs, Settled levels it xs := by
  induction h with
  | construct hplace h =>
      obtain ⟨it, hit, hsettled⟩ := construct_settled hplace
      cases h.symm.trans hit
      exact ⟨_, hsettled⟩
  | @increment it it' _ h ih =>
      obtain ⟨xs, hsettled⟩ := ih
      obtain ⟨x, rest, _, hrest⟩ := hsettled.increment_eq_some h
      exact ⟨rest, hrest⟩

end BookIterator

/-! ## The traversal of a side -/

namespace OrderBook

variable {s : Side}

/-- The orders of a side, best level first and in queue order within a level, each with
the price of its level. -/
def flattened (b : OrderBook s) : List (Price × Node) :=
  b.levels.entries.flatMap fun e => e.2.orders.map fun n => (e.2.price, n)

theorem ahead_cbegin (b : OrderBook s) :
    ahead (BookIterator.queues b.levels.entries) 0 0 = b.flattened := by
  rw [ahead_start, List.drop_zero, flattened, List.flatMap_def]
  rfl

theorem length_flattened (b : OrderBook s) :
    b.flattened.length = (b.levels.entries.map fun e => e.2.orderCount).sum := by
  rw [flattened, List.length_flatMap]
  simp only [List.length_map]
  rfl

end OrderBook

theorem WellFormed.length_flattened {m : BookMemory} (h : WellFormed m) (s : Side) :
    (m.state.side s).flattened.length = (m.state.side s).orderCount := by
  rw [OrderBook.length_flattened, h.orderCount s]

open BookIterator in
/-- **The flattened iterator enumerates the side.** `++` is defined at every order of the
side and takes `begin()` through them one by one to `end()`: after `k` moves it is at the
`k`-th order, under the price of that order's level. Iterators over one map compare equal
when as many moves bring both to the end. On a side of a reachable book the number of moves
is `orderCount()`, and the price of a level is the one the map has it under. -/
theorem iterator_enumerates {s : Side} (b : OrderBook s) :
    Entries.Sorted (ordering s) b.levels.entries ∧
    ∃ start stop, b.cbegin = some start ∧ b.cend = some stop ∧
      (∀ k ≤ b.flattened.length, ∃ it, steps (increment b.levels.entries) k start = some it ∧
        it.equals stop = some (decide (k = b.flattened.length)) ∧
        it.price b.levels.entries = b.flattened[k]?.map Prod.fst ∧
        it.arrow b.levels.entries = b.flattened[k]?.map Prod.snd ∧
        it.deref b.levels.entries = b.flattened[k]?.map fun x => x.2.order) ∧
      (∀ it, Over b.levels.entries it →
        ∃ n, steps (increment b.levels.entries) n it = some stop) ∧
      (∀ it jt, Over b.levels.entries it → Over b.levels.entries jt → ∀ n n',
        steps (increment b.levels.entries) n it = some stop →
        steps (increment b.levels.entries) n' jt = some stop →
          it.equals jt = some (decide (n = n'))) ∧
      ∀ m, Reachable anyOp m → m.state.side s = b →
        steps (increment b.levels.entries) b.orderCount start = some stop ∧
          ∀ e ∈ b.levels.entries, e.2.price = e.1 := by
  obtain ⟨start, hstart, hsettled⟩ := construct_settled (Nat.zero_le b.levels.entries.length)
  obtain ⟨stop, hstop, hend⟩ := construct_settled (Nat.le_refl b.levels.entries.length)
  have T := Settled.traverses b.levels.entries
  rw [b.ahead_cbegin] at hsettled
  rw [ahead_end] at hend
  obtain rfl := hend.eq_stop
  refine ⟨b.levels.sorted, start, BookIterator.stop b.levels.entries, hstart, hstop,
    ?_, ?_, ?_, ?_⟩
  · intro k hk
    exact hsettled.after hend hk
  · intro it hit
    obtain ⟨xs, hxs⟩ := hit.settled
    exact ⟨xs.length, (T.steps_eq_stop hxs).mpr rfl⟩
  · intro it jt hit hjt n n' hn hn'
    obtain ⟨xs, hxs⟩ := hit.settled
    obtain ⟨ys, hys⟩ := hjt.settled
    rw [(T.steps_eq_stop hxs).mp hn, (T.steps_eq_stop hys).mp hn']
    exact hxs.equals hys
  · rintro m hm rfl
    have hwf := hm.wellFormed
    refine ⟨(T.steps_eq_stop hsettled).mpr ?_, (hwf.sound s).keyed⟩
    rw [hwf.length_flattened s]

/-- Bids with an empty level before, between and behind the others. -/
def gappedLevels : List (Price × PriceLevel) :=
  [(103, { price := 103 }),
   (102, { price := 102, orders := [⟨1, limitOrder 1 .buy 7 5 102⟩,
                                    ⟨2, limitOrder 2 .buy 8 5 102⟩] }),
   (101, { price := 101 }),
   (100, { price := 100, orders := [⟨3, limitOrder 3 .buy 7 5 100⟩] }),
   (99, { price := 99 })]

theorem gappedLevels_sorted : Entries.Sorted (ordering .buy) gappedLevels := by
  unfold Entries.Sorted
  decide +kernel

def gapped : OrderBook .buy := { levels := ⟨gappedLevels, gappedLevels_sorted⟩ }

open BookIterator in
/-- Two moves through `gapped`: the second order of 102 and the one of 100, which are told
apart across the empty level. And the one move through the bids of `quotes`. -/
theorem iterator_enumerates_gapped :
    (∃ it jt,
      gapped.cbegin = some (seat gappedLevels 1 0) ∧
      increment gappedLevels (seat gappedLevels 1 0) = some it ∧
      increment gappedLevels it = some jt ∧
      it.equals jt = some false ∧ jt.price gappedLevels = some 100) ∧
    ∃ start stop, (quotes.state.side .buy).cbegin = some start ∧
      (quotes.state.side .buy).cend = some stop ∧
      steps (increment (quotes.state.side .buy).levels.entries) 1 start = some stop := by
  constructor
  · obtain ⟨_, start, stop, hstart, hstop, hwalk, _, hequals, _⟩ := iterator_enumerates gapped
    have hbegin : gapped.cbegin = some (seat gappedLevels 1 0) := by decide +kernel
    have hend : gapped.cend = some (BookIterator.stop gappedLevels) := by decide +kernel
    cases hbegin.symm.trans hstart
    cases hend.symm.trans hstop
    have hit : increment gappedLevels (seat gappedLevels 1 0) = some (seat gappedLevels 1 1) := by
      decide +kernel
    have hjt : increment gappedLevels (seat gappedLevels 1 1) = some (seat gappedLevels 3 0) := by
      decide +kernel
    have hover : Over gappedLevels (seat gappedLevels 1 1) :=
      .increment (.construct (Nat.zero_le _) hstart) hit
    obtain ⟨it, hsteps, _, hprice, _⟩ := hwalk 2 (by decide +kernel)
    cases hsteps
    refine ⟨_, _, hbegin, hit, hjt, ?_, hprice⟩
    exact hequals _ _ hover (.increment hover hjt) 2 1 (by decide +kernel) (by decide +kernel)
  · obtain ⟨_, start, stop, hstart, hstop, _, _, _, hcount⟩ :=
      iterator_enumerates (quotes.state.side .buy)
    exact ⟨start, stop, hstart, hstop, (hcount quotes quotes_reachable rfl).1⟩

end Exchange
