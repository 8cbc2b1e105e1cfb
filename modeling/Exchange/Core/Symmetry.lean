import Exchange.Core.Book
import Exchange.Framework.Relational

/-!
# Two books that look alike

Two ways in which one book can stand for another. Under `mirror` the sides are
swapped and every price `p` becomes `-1 - p`, which reverses the order of
prices. Under `same` nothing is renamed. In both cases the cached aggregates of
a level are left out of the comparison: no operation reads them.

Everything up to one side of the book is here; the operations of the book are
compared in `Mirror`.
-/

namespace Exchange

open Framework

inductive Symmetry : Type where
  | same
  | mirror
deriving DecidableEq, Repr

namespace Symmetry

variable (σ : Symmetry)

/-! ## Sides and prices -/

def side : Symmetry → Side → Side
  | .same, s => s
  | .mirror, s => opposite s

def price : Symmetry → Price → Price
  | .same, p => p
  | .mirror, p => -1 - p

theorem opposite_side (s : Side) : opposite (σ.side s) = σ.side (opposite s) := by
  cases σ <;> rfl

theorem toInt_mirror (p : Price) : (Symmetry.mirror.price p).toInt = -1 - p.toInt := by
  have hlow := p.le_toInt
  have hhigh := p.toInt_lt
  have hone : (-1 : Int64).toInt = -1 := rfl
  show (-1 - p).toInt = _
  rw [Int64.toInt_sub, hone]
  refine Int.bmod_eq_of_le ?_ ?_ <;> omega

theorem mirror_lt (p q : Price) :
    Symmetry.mirror.price p < Symmetry.mirror.price q ↔ q < p := by
  rw [Int64.lt_iff_toInt_lt, Int64.lt_iff_toInt_lt, toInt_mirror, toInt_mirror]
  omega

theorem mirror_le (p q : Price) :
    Symmetry.mirror.price p ≤ Symmetry.mirror.price q ↔ q ≤ p := by
  rw [Int64.le_iff_toInt_le, Int64.le_iff_toInt_le, toInt_mirror, toInt_mirror]
  omega

theorem price_injective : σ.price.Injective := by
  cases σ with
  | same => exact fun _ _ h => h
  | mirror =>
      intro p q h
      have hint := congrArg Int64.toInt h
      rw [toInt_mirror, toInt_mirror] at hint
      exact Int64.toInt_inj.mp (by omega)

/-- The comparator of a side orders prices as the other one orders their
mirror images. -/
theorem ordering_price (s : Side) (p q : Price) :
    ordering (σ.side s) (σ.price p) (σ.price q) ↔ ordering s p q := by
  cases σ with
  | same => exact Iff.rfl
  | mirror =>
      cases s with
      | buy => exact mirror_lt p q
      | sell => exact mirror_lt q p

/-! ## Orders -/

def kind : OrderKind → OrderKind
  | .limit limit => .limit (σ.price limit)
  | .market => .market
  | .iceberg limit display visible => .iceberg (σ.price limit) display visible

def order (o : Order) : Order := { o with side := σ.side o.side, kind := σ.kind o.kind }

section Order

variable (o : Order) (q : Quantity)

@[simp] theorem order_id : (σ.order o).id = o.id := rfl

@[simp] theorem order_account : (σ.order o).account = o.account := rfl

@[simp] theorem order_remaining : (σ.order o).remaining = o.remaining := rfl

@[simp] theorem order_visibleQty : (σ.order o).visibleQty = o.visibleQty := by
  obtain ⟨_, _, _, _, _, kind⟩ := o
  cases kind <;> rfl

@[simp] theorem order_displaySize : (σ.order o).displaySize = o.displaySize := by
  obtain ⟨_, _, _, _, _, kind⟩ := o
  cases kind <;> rfl

@[simp] theorem order_needsReplenish : (σ.order o).needsReplenish = o.needsReplenish := by
  unfold Order.needsReplenish
  rw [order_remaining, order_visibleQty]

@[simp] theorem order_restingPrice :
    (σ.order o).restingPrice = o.restingPrice.map σ.price := by
  obtain ⟨_, _, _, _, _, kind⟩ := o
  cases kind <;> rfl

@[simp] theorem order_onPartialFill :
    (σ.order o).onPartialFill q = σ.order (o.onPartialFill q) := by
  obtain ⟨_, _, _, _, _, kind⟩ := o
  cases kind <;> rfl

@[simp] theorem order_replenish : (σ.order o).replenish = σ.order o.replenish := by
  obtain ⟨_, _, _, _, _, kind⟩ := o
  cases kind <;> rfl

@[simp] theorem order_reduceTo : (σ.order o).reduceTo q = σ.order (o.reduceTo q) := by
  obtain ⟨_, _, _, _, _, kind⟩ := o
  cases kind <;> rfl

@[simp] theorem order_cloneAmended (p : Price) :
    (σ.order o).cloneAmended q (σ.price p) = σ.order (o.cloneAmended q p) := by
  obtain ⟨_, _, _, _, _, kind⟩ := o
  cases kind <;> rfl

/-- Which prices an order reaches. -/
@[simp] theorem order_crosses (p : Price) :
    (σ.order o).crosses (σ.price p) = o.crosses p := by
  obtain ⟨_, _, _, _, side, kind⟩ := o
  unfold Order.crosses
  cases σ with
  | same => cases kind <;> rfl
  | mirror =>
      cases kind with
      | market => rfl
      | limit limit | iceberg limit _ _ =>
          cases side with
          | buy => exact decide_eq_decide.mpr (mirror_le limit p)
          | sell => exact decide_eq_decide.mpr (mirror_le p limit)

end Order

/-! ## Levels -/

def node (n : Node) : Node := ⟨n.addr, σ.order n.order⟩

def locator (loc : Locator) : Locator := ⟨σ.price loc.price, loc.position⟩

/-- The same queue at the corresponding price. -/
structure LevelAlike (l l' : PriceLevel) : Prop where
  price : l'.price = σ.price l.price
  orders : l'.orders = l.orders.map σ.node

namespace LevelAlike

variable {σ} {l l' : PriceLevel}

theorem empty (h : σ.LevelAlike l l') : l'.empty = l.empty := by
  unfold PriceLevel.empty
  rw [h.orders, List.isEmpty_map]

theorem at? (h : σ.LevelAlike l l') (a : Addr) :
    Option.Rel (fun o o' => o' = σ.order o) (l.at? a) (l'.at? a) := by
  have heq : l'.at? a = (l.at? a).map σ.order := by
    unfold PriceLevel.at?
    rw [h.orders, List.find?_map, Option.map_map, Option.map_map]
    rfl
  rw [heq]
  exact rel_map σ.order _

theorem filter (h : σ.LevelAlike l l') (a : Addr) :
    (l'.orders.filter fun n => n.addr ≠ a) =
      (l.orders.filter fun n => n.addr ≠ a).map σ.node := by
  rw [h.orders, List.filter_map]
  rfl

theorem rewrite (h : σ.LevelAlike l l') (a : Addr) (o : Order) :
    PriceLevel.rewrite l'.orders a (σ.order o) =
      (PriceLevel.rewrite l.orders a o).map σ.node := by
  unfold PriceLevel.rewrite
  rw [h.orders, List.map_map, List.map_map]
  refine List.map_congr_left fun n _ => ?_
  show (if n.addr = a then _ else _) = σ.node (if n.addr = a then _ else _)
  split <;> rfl

theorem extract (h : σ.LevelAlike l l') (a : Addr) :
    Option.Rel (fun r r' => r'.1 = σ.order r.1 ∧ σ.LevelAlike r.2 r'.2)
      (l.extract a) (l'.extract a) := by
  refine rel_bind (h.at? a) ?_
  rintro o _ rfl
  exact .some ⟨rfl, h.price, h.filter a⟩

theorem unlink (h : σ.LevelAlike l l') (a : Addr) :
    Option.Rel σ.LevelAlike ((l.extract a).map Prod.snd) ((l'.extract a).map Prod.snd) := by
  have hext := h.extract a
  generalize l.extract a = r at hext
  generalize l'.extract a = r' at hext
  cases hext with
  | none => exact .none
  | some hr => exact .some hr.2

theorem applyFill (h : σ.LevelAlike l l') (a : Addr) (q : Quantity) :
    Option.Rel σ.LevelAlike (l.applyFill a q) (l'.applyFill a q) := by
  refine rel_bind (h.at? a) ?_
  rintro o _ rfl
  refine .some ⟨h.price, ?_⟩
  rw [order_onPartialFill]
  exact h.rewrite a _

theorem replenishAndRequeue (h : σ.LevelAlike l l') (a : Addr) :
    Option.Rel σ.LevelAlike (l.replenishAndRequeue a) (l'.replenishAndRequeue a) := by
  refine rel_bind (h.at? a) ?_
  rintro o _ rfl
  refine .some ⟨h.price, ?_⟩
  rw [h.filter a, order_replenish, List.map_append]
  rfl

theorem reduceQuantity (h : σ.LevelAlike l l') (a : Addr) (q : Quantity) :
    Option.Rel σ.LevelAlike (l.reduceQuantity a q) (l'.reduceQuantity a q) := by
  refine rel_bind (h.at? a) ?_
  rintro o _ rfl
  refine .some ⟨h.price, ?_⟩
  rw [order_reduceTo]
  exact h.rewrite a _

theorem adopt (h : σ.LevelAlike l l') (n : Node) :
    σ.LevelAlike (l.adopt n) (l'.adopt (σ.node n)) := by
  refine ⟨h.price, ?_⟩
  show l'.orders ++ [σ.node n] = (l.orders ++ [n]).map σ.node
  rw [h.orders, List.map_append]
  rfl

end LevelAlike

/-! ## Planning -/

def planned (f : PlannedFill) : PlannedFill :=
  { f with level := σ.price f.level, price := σ.price f.price }

def plan (p : MatchPlan) : MatchPlan := { p with fills := p.fills.map σ.planned }

def fill (f : Fill) : Fill :=
  { f with price := σ.price f.price, aggressorSide := σ.side f.aggressorSide }

section Planning

variable {σ} {l l' : PriceLevel}

open PriceTimeStrategy

/-- The working copy of a queue holds no price. -/
theorem ofNode_node (n : Node) : Pending.ofNode (σ.node n) = Pending.ofNode n := by
  unfold Pending.ofNode node
  simp

/-- The planner's loop variables, renamed. -/
def planState (σ : Symmetry) (st : PlanState) : PlanState :=
  { st with into := σ.plan st.into }

theorem advance_alike (h : σ.LevelAlike l l') (handle : Price) (st : PlanState)
    (front : Pending) (behind : List Pending) (q : Quantity) :
    advance (σ.price handle) l' (σ.planState st) front behind q =
      σ.planState (advance handle l st front behind q) := by
  have hfill : plannedFill (σ.price handle) l' front q =
      σ.planned (plannedFill handle l front q) := by
    unfold plannedFill planned
    rw [h.price]
  unfold advance
  dsimp only
  rw [hfill]
  split
  · simp [planState, plan]
  · split <;> simp [planState, plan]

/-- One turn of the planner against corresponding levels. -/
theorem planTurn_alike (h : σ.LevelAlike l l') (agg : Order) (handle : Price)
    (st : PlanState) :
    planTurn (σ.order agg) (σ.price handle) l' (σ.planState st) =
      match planTurn agg handle l st with
      | .next st' => .next (σ.planState st')
      | .done r => .done (r.map σ.plan) := by
  unfold planTurn
  show (if 0 < st.available then _ else _) = _
  split
  · have hqueue : (σ.planState st).queue = st.queue := rfl
    rw [hqueue]
    cases st.queue with
    | nil => rfl
    | cons front behind =>
        dsimp only
        rw [order_account]
        split
        · rfl
        · show (if 0 < min st.available front.visible then _ else _) = _
          split
          · exact congrArg Turn.next (advance_alike h handle st front behind _)
          · rfl
  · rfl

theorem plan_alike (h : σ.LevelAlike l l') (agg : Order) (available : Quantity)
    (handle : Price) (into : MatchPlan) :
    PriceTimeStrategy.plan (σ.order agg) available (σ.price handle) l' (σ.plan into) =
      (PriceTimeStrategy.plan agg available handle l into).map σ.plan := by
  unfold PriceTimeStrategy.plan
  refine (planLoop (σ.order agg) (σ.price handle) l').run_related (planLoop agg handle l)
    (R := fun st' st => st' = σ.planState st) (Q := fun r' r => r' = r.map σ.plan) ?_ ?_
  · rw [h.orders, List.map_map, List.length_map]
    have hqueue : Pending.ofNode ∘ σ.node = Pending.ofNode := funext ofNode_node
    rw [hqueue]
    rfl
  · rintro st' st rfl
    have hturn := planTurn_alike h agg handle st
    cases hb : planTurn agg handle l st with
    | next t =>
        rw [hb] at hturn
        exact Or.inl ⟨_, _, hturn, hb, rfl⟩
    | done r =>
        rw [hb] at hturn
        exact Or.inr ⟨_, _, hturn, hb, rfl⟩

theorem sum_planned (fills : List PlannedFill) (n : ℕ) :
    (((fills.map σ.planned).drop n).map PlannedFill.quantity).sum =
      ((fills.drop n).map PlannedFill.quantity).sum := by
  rw [← List.map_drop, List.map_map]
  rfl

abbrev LevelsAlike (σ : Symmetry) :
    List (Price × PriceLevel) → List (Price × PriceLevel) → Prop :=
  Entries.Alike σ.price σ.LevelAlike

theorem planLevels_alike (agg : Order) {entries entries' : List (Price × PriceLevel)}
    (h : σ.LevelsAlike entries entries') (available : Quantity) (into : MatchPlan) :
    planLevels (σ.order agg) entries' available (σ.plan into) =
      (planLevels agg entries available into).map fun r => (r.1, σ.plan r.2) := by
  induction h generalizing available into with
  | nil => rfl
  | @cons e e' rest rest' he _ ih =>
      obtain ⟨price, level⟩ := e
      obtain ⟨price', level'⟩ := e'
      obtain ⟨rfl, hlevel⟩ := he
      unfold planLevels
      rw [order_crosses, plan_alike hlevel agg available price into]
      split
      · rfl
      · split
        · rfl
        · cases PriceTimeStrategy.plan agg available price level into with
          | error p => rfl
          | ok plan =>
              show (if (σ.plan plan).selfMatchBlocked then _ else _) =
                Except.map _ (if plan.selfMatchBlocked then _ else _)
              have hsum : (((σ.plan plan).fills.drop (σ.plan into).fills.length).map
                  PlannedFill.quantity).sum =
                  ((plan.fills.drop into.fills.length).map PlannedFill.quantity).sum := by
                rw [show (σ.plan into).fills.length = into.fills.length from
                  List.length_map _]
                exact sum_planned plan.fills _
              rw [hsum]
              show (if plan.selfMatchBlocked then _ else _) = _
              split
              · rfl
              · split
                · rfl
                · exact ih _ plan

theorem planAgainst_alike (agg : Order) {entries entries' : List (Price × PriceLevel)}
    (h : σ.LevelsAlike entries entries') :
    planAgainst entries' (σ.order agg) = (planAgainst entries agg).map σ.plan := by
  have hlevels : planLevels (σ.order agg) entries' agg.remaining {} = _ :=
    planLevels_alike agg h agg.remaining {}
  unfold planAgainst
  rw [order_remaining, hlevels]
  cases planLevels agg entries agg.remaining {} <;> rfl

end Planning

/-! ## One side -/

/-- Corresponding levels and locators, and room for as many entries. -/
structure SideAlike {s t : Side} (b : OrderBook s) (b' : OrderBook t) : Prop where
  levels : σ.LevelsAlike b.levels.entries b'.levels.entries
  index : ∀ id, b'.index.lookup id = (b.index.lookup id).map σ.locator
  buckets : b'.buckets = b.buckets

namespace SideAlike

variable {σ} {s t : Side} {b : OrderBook s} {b' : OrderBook t}

theorem mem_index (h : σ.SideAlike b b') (id : OrderId) : id ∈ b'.index ↔ id ∈ b.index := by
  rw [← Finmap.lookup_isSome, ← Finmap.lookup_isSome, h.index, Option.isSome_map]

theorem orderCount (h : σ.SideAlike b b') : b'.orderCount = b.orderCount := by
  unfold OrderBook.orderCount
  congr 1
  ext id
  rw [Finmap.mem_keys, Finmap.mem_keys, h.mem_index]

theorem bestPrice (h : σ.SideAlike b b') : b'.bestPrice = b.bestPrice.map σ.price := by
  have hl := h.levels
  unfold OrderBook.bestPrice
  generalize b.levels.entries = l at hl
  generalize b'.levels.entries = l' at hl
  rcases hl with _ | ⟨he, _⟩
  · rfl
  · exact congrArg some he.1

theorem find? (h : σ.SideAlike b b') (p : Price) :
    Option.Rel σ.LevelAlike (b.levels.find? p) (b'.levels.find? (σ.price p)) :=
  h.levels.find? σ.price_injective p

theorem deref (h : σ.SideAlike b b') (loc : Locator) :
    Option.Rel (fun o o' => o' = σ.order o) (b.deref loc) (b'.deref (σ.locator loc)) :=
  rel_bind (h.find? loc.price) fun _ _ hl => hl.at? loc.position

theorem setLevel (h : σ.SideAlike b b') (p : Price) {l l' : PriceLevel}
    (hl : σ.LevelAlike l l') : σ.SideAlike (b.setLevel p l) (b'.setLevel (σ.price p) l') where
  levels := h.levels.modify σ.price_injective fun _ _ _ => hl
  index := h.index
  buckets := h.buckets

/-- An operation on one level. -/
theorem edit (h : σ.SideAlike b b') (p : Price) {f f' : PriceLevel → Option PriceLevel}
    (hf : ∀ l l', σ.LevelAlike l l' → Option.Rel σ.LevelAlike (f l) (f' l')) :
    Option.Rel σ.SideAlike (b.edit p f) (b'.edit (σ.price p) f') :=
  rel_bind (h.find? p) fun _ _ hl =>
    rel_bind (hf _ _ hl) fun _ _ hl' => .some (h.setLevel p hl')

theorem dropEmptyLevelsFromFront (h : σ.SideAlike b b') :
    σ.SideAlike b.dropEmptyLevelsFromFront b'.dropEmptyLevelsFromFront where
  levels := h.levels.dropWhile fun _ _ hl => hl.empty
  index := h.index
  buckets := h.buckets

theorem installLevel (h : σ.SideAlike b b') (ht : t = σ.side s) {l l' : PriceLevel}
    (hl : σ.LevelAlike l l') : σ.SideAlike (b.installLevel l) (b'.installLevel l') where
  levels := by
    subst ht
    show σ.LevelsAlike (Entries.insert _ l.price l _) (Entries.insert _ l'.price l' _)
    rw [hl.price]
    exact h.levels.insert σ.price_injective (σ.ordering_price s) hl
  index := h.index
  buckets := h.buckets

theorem installIndex (h : σ.SideAlike b b') (id : OrderId) (p : Price) (a : Addr) :
    σ.SideAlike (b.installIndex id p a) (b'.installIndex id (σ.price p) a) := by
  unfold OrderBook.installIndex
  by_cases hid : id ∈ b.index
  · rw [if_pos hid, if_pos ((h.mem_index id).mpr hid)]
    exact h
  · rw [if_neg hid, if_neg ((h.mem_index id).not.mpr hid)]
    refine ⟨h.levels, fun j => ?_, h.buckets⟩
    by_cases hj : j = id
    · subst hj
      rw [Finmap.lookup_insert, Finmap.lookup_insert]
      rfl
    · rw [Finmap.lookup_insert_of_ne _ hj, Finmap.lookup_insert_of_ne _ hj]
      exact h.index j

theorem unindex (h : σ.SideAlike b b') (id : OrderId) :
    σ.SideAlike (b.unindex id) (b'.unindex id) := by
  refine ⟨h.levels, fun j => ?_, h.buckets⟩
  show (b'.index.erase id).lookup j = ((b.index.erase id).lookup j).map _
  by_cases hj : j = id
  · subst hj
    rw [Finmap.lookup_erase, Finmap.lookup_erase]
    rfl
  · rw [Finmap.lookup_erase_ne hj, Finmap.lookup_erase_ne hj]
    exact h.index j

theorem withdraw (h : σ.SideAlike b b') (id : OrderId) (loc : Locator) :
    Option.Rel (fun r r' => r'.1 = σ.order r.1 ∧ σ.SideAlike r.2 r'.2)
      (b.withdraw id loc) (b'.withdraw id (σ.locator loc)) := by
  refine rel_bind (h.find? loc.price) fun l l' hl => ?_
  refine rel_bind (hl.extract loc.position) fun r r' hr => ?_
  have hu := h.unindex id
  dsimp only
  rw [hr.2.empty]
  split
  · exact .some ⟨hr.1, hu.levels.erase σ.price_injective, hu.index, hu.buckets⟩
  · exact .some ⟨hr.1, hu.setLevel loc.price hr.2⟩

end SideAlike

end Symmetry

end Exchange
