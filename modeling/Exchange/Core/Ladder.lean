import Exchange.Core.Matching
import Exchange.Framework.OrderedMap

/-!
# Ladders and direct matching

One side of a market without its representation. A side is a *ladder*: prices
best first, each with the queue of orders resting there. There are no list
nodes, no index, no counters, and no plan: an incoming order trades with the
head of the best queue, one execution at a time, until it is done, cannot
cross, or meets its own account.
-/

namespace Exchange

open Framework

abbrev Queue : Type := List Order

/-- One side: prices best first, each with its queue. -/
abbrev Ladder : Type := List (Price × Queue)

/-! ## Direct matching -/

namespace Direct

structure MatchState where
  left : Quantity
  ladder : Ladder
  fills : List Fill

structure MatchResult where
  left : Quantity
  ladder : Ladder
  fills : List Fill
  blocked : Bool
deriving DecidableEq, Repr

/-- The queue once its head has traded and stands as `head`: a filled order
leaves, a spent tranche is refreshed and goes to the back. -/
def settle (head : Order) (tail : Queue) : Queue :=
  if head.isFilled then tail
  else if head.needsReplenish then tail ++ [head.replenish]
  else head :: tail

/-- Put a queue back at the front; an empty one takes its level with it. -/
def pushLevel (price : Price) (queue : Queue) (rest : Ladder) : Ladder :=
  if queue.isEmpty then rest else (price, queue) :: rest

def fillOf (aggressor head : Order) (price : Price) (qty : Quantity) : Fill :=
  { aggressorId := aggressor.id
    restingId := head.id
    price
    quantity := qty
    aggressorAccount := aggressor.account
    restingAccount := head.account
    aggressorSide := aggressor.side }

/-- Trade `qty` with the head of the best queue. -/
def trade (aggressor : Order) (st : MatchState) (price : Price) (head : Order)
    (tail : Queue) (rest : Ladder) (qty : Quantity) : MatchState :=
  { left := st.left - qty
    ladder := pushLevel price (settle (head.onPartialFill qty) tail) rest
    fills := st.fills ++ [fillOf aggressor head price qty] }

def stop (st : MatchState) (blocked : Bool) : MatchResult :=
  { left := st.left, ladder := st.ladder, fills := st.fills, blocked }

/-- One turn of direct matching. -/
def matchTurn (aggressor : Order) (st : MatchState) :
    Turn MatchState (Except Precondition MatchResult) :=
  if 0 < st.left then
    match st.ladder with
    | [] => .done (.ok (stop st false))
    | (_, []) :: _ => .done (.ok (stop st false))
    | (price, head :: tail) :: rest =>
        if !aggressor.crosses price then .done (.ok (stop st false))
        else if head.account = aggressor.account then .done (.ok (stop st true))
        else
          let qty := min st.left head.visibleQty
          if 0 < qty then .next (trade aggressor st price head tail rest qty)
          else .done (.error .positiveQuantity)
  else .done (.ok (stop st false))

theorem matchTurn_next {aggressor : Order} {st st' : MatchState}
    (h : matchTurn aggressor st = .next st') :
    ∃ price head tail rest, st.ladder = (price, head :: tail) :: rest ∧
      0 < st.left ∧ aggressor.crosses price = true ∧
      head.account ≠ aggressor.account ∧ 0 < min st.left head.visibleQty ∧
      st' = trade aggressor st price head tail rest (min st.left head.visibleQty) := by
  unfold matchTurn at h
  split at h
  · rename_i hleft
    split at h
    · cases h
    · cases h
    · rename_i price head tail rest hl
      split at h
      · cases h
      · rename_i hcross
        split at h
        · cases h
        · rename_i hacc
          dsimp only at h
          split at h
          · rename_i hqty
            cases h
            exact ⟨price, head, tail, rest, hl, hleft, by simpa using hcross, hacc,
              hqty, rfl⟩
          · cases h
  · cases h

/-- Direct matching: while the aggressor has quantity left and crosses the best
price, trade with the head of the best queue. -/
def matchLoop (aggressor : Order) :
    Loop MatchState (Except Precondition MatchResult) where
  body := matchTurn aggressor
  rank st := st.left.toNat
  decreases st st' h := by
    obtain ⟨price, head, tail, rest, _, _, _, _, hqty, rfl⟩ := matchTurn_next h
    exact toNat_sub_lt hqty (by grind)

/-- Match `aggressor` against the opposite ladder. -/
def sweep (aggressor : Order) (ladder : Ladder) : Except Precondition MatchResult :=
  (matchLoop aggressor).run { left := aggressor.remaining, ladder, fills := [] }

end Direct

/-! ## Entering and leaving a ladder -/

namespace Ladder

def orders (l : Ladder) : List Order := l.flatMap Prod.snd

def ids (l : Ladder) : List OrderId := l.orders.map Order.id

def prices (l : Ladder) : List Price := l.map Prod.fst

def find? (l : Ladder) (id : OrderId) : Option Order := l.orders.find? fun o => o.id = id

/-- Queue `o` behind everything else at `price`. -/
def rest (s : Side) (l : Ladder) (price : Price) (o : Order) : Ladder :=
  Entries.modify price (· ++ [o]) (Entries.insert (ordering s) price [] l)

/-- Take out the order with this id, and its level if that was the last. -/
def remove (l : Ladder) (id : OrderId) : Ladder :=
  (l.map fun e => (e.1, e.2.filter fun o => o.id ≠ id)).filter fun e => !e.2.isEmpty

/-- Shrink the order with this id where it stands. -/
def reduce (l : Ladder) (id : OrderId) (newQty : Quantity) : Ladder :=
  l.map fun e => (e.1, e.2.map fun o => if o.id = id then o.reduceTo newQty else o)

end Ladder

namespace Direct

theorem mem_pushLevel {e : Price × Queue} {price : Price} {queue : Queue}
    {rest : Ladder} (h : e ∈ pushLevel price queue rest) :
    e = (price, queue) ∧ queue ≠ [] ∨ e ∈ rest := by
  unfold pushLevel at h
  split at h
  · exact Or.inr h
  · rename_i hq
    rcases List.mem_cons.mp h with h | h
    · exact Or.inl ⟨h, by simpa using hq⟩
    · exact Or.inr h

theorem pushLevel_orders (price : Price) (queue : Queue) (rest : Ladder) :
    (pushLevel price queue rest).orders = queue ++ rest.orders := by
  unfold pushLevel
  split
  · rename_i hq
    rw [List.isEmpty_iff] at hq
    rw [hq, List.nil_append]
  · rfl

theorem pushLevel_prices (price : Price) (queue : Queue) (rest : Ladder) :
    (pushLevel price queue rest).prices.Sublist (price :: rest.prices) := by
  unfold pushLevel
  split
  · exact List.sublist_cons_self _ _
  · exact List.Sublist.refl _

theorem mem_pushLevel_of_mem {e : Price × Queue} {rest : Ladder} (price : Price)
    (queue : Queue) (h : e ∈ rest) : e ∈ pushLevel price queue rest := by
  unfold pushLevel
  split
  · exact h
  · exact List.mem_cons_of_mem _ h

end Direct

/-! ## Ladders in order -/

namespace Ladder

/-- Prices best first, and no level without an order. -/
structure Ordered (s : Side) (l : Ladder) : Prop where
  sorted : l.prices.Pairwise (ordering s)
  full : ∀ e ∈ l, e.2 ≠ []

/-- Every order of the ladder satisfies `P` at its price. -/
def All (P : Price → Order → Prop) (l : Ladder) : Prop :=
  ∀ e ∈ l, ∀ o ∈ e.2, P e.1 o

theorem mem_orders {l : Ladder} {o : Order} :
    o ∈ l.orders ↔ ∃ e ∈ l, o ∈ e.2 := List.mem_flatMap

end Ladder

/-! ## The operations at a resting order -/

namespace Ladder

variable {l pre post : Ladder} {p : Price} {as bs : Queue} {o : Order}

theorem orders_append (l l' : Ladder) : Ladder.orders (l ++ l') = l.orders ++ l'.orders :=
  List.flatMap_append

theorem orders_split : Ladder.orders (pre ++ (p, as ++ o :: bs) :: post) =
    (pre.orders ++ as) ++ o :: (bs ++ post.orders) := by
  simp [orders]

theorem find?_eq_none {id : OrderId} : l.find? id = none ↔ id ∉ l.ids := by
  simp [find?, ids, List.find?_eq_none]

/-- A lookup that succeeds exhibits the order's place. -/
theorem split_of_find? {id : OrderId} (h : l.find? id = some o) :
    o.id = id ∧ ∃ pre p as bs post, l = pre ++ (p, as ++ o :: bs) :: post := by
  refine ⟨by simpa using List.find?_some h, ?_⟩
  obtain ⟨e, he, ho⟩ := mem_orders.mp (List.mem_of_find?_eq_some h)
  obtain ⟨pre, post, rfl⟩ := List.append_of_mem he
  obtain ⟨as, bs, hsplit⟩ := List.append_of_mem ho
  exact ⟨pre, e.1, as, bs, post, by rw [← hsplit]⟩

theorem id_ne_of_split (h : (Ladder.ids (pre ++ (p, as ++ o :: bs) :: post)).Nodup) :
    (∀ x ∈ pre.orders ++ as, x.id ≠ o.id) ∧ ∀ x ∈ bs ++ post.orders, x.id ≠ o.id := by
  rw [ids, orders_split, List.map_append, List.map_cons, List.nodup_append,
    List.nodup_cons] at h
  refine ⟨fun x hx heq => ?_, fun x hx heq => ?_⟩
  · exact h.2.2 x.id (List.mem_map_of_mem hx) o.id List.mem_cons_self heq
  · exact h.2.1.1 (heq ▸ List.mem_map_of_mem hx)

theorem find?_split (h : (Ladder.ids (pre ++ (p, as ++ o :: bs) :: post)).Nodup) :
    Ladder.find? (pre ++ (p, as ++ o :: bs) :: post) o.id = some o := by
  obtain ⟨hpre, _⟩ := id_ne_of_split h
  unfold find?
  rw [orders_split, List.find?_append, List.find?_eq_none.mpr (by simpa using hpre)]
  simp

theorem remove_append (l l' : Ladder) (id : OrderId) :
    Ladder.remove (l ++ l') id = l.remove id ++ l'.remove id := by
  simp [remove]

theorem remove_cons (p : Price) (q : Queue) (l : Ladder) (id : OrderId) :
    Ladder.remove ((p, q) :: l) id =
      Direct.pushLevel p (q.filter fun o => o.id ≠ id) (l.remove id) := by
  unfold remove Direct.pushLevel
  rw [List.map_cons, List.filter_cons]
  cases (q.filter fun o => o.id ≠ id).isEmpty <;> simp

theorem remove_eq_self {id : OrderId} (hfull : ∀ e ∈ l, e.2 ≠ [])
    (h : ∀ x ∈ l.orders, x.id ≠ id) : l.remove id = l := by
  induction l with
  | nil => rfl
  | cons e l ih =>
      have he : ∀ x ∈ e.2, x.id ≠ id := fun x hx =>
        h x (mem_orders.mpr ⟨e, List.mem_cons_self, hx⟩)
      have hl : ∀ x ∈ Ladder.orders l, x.id ≠ id := fun x hx =>
        h x (List.mem_append_right _ hx)
      have hq : e.2.filter (fun o => o.id ≠ id) = e.2 :=
        List.filter_eq_self.mpr (by simpa using he)
      rw [show (e :: l : Ladder) = (e.1, e.2) :: l from rfl, remove_cons, hq,
        ih (fun x hx => hfull x (List.mem_cons_of_mem _ hx)) hl]
      unfold Direct.pushLevel
      rw [if_neg]
      simpa using hfull e List.mem_cons_self

theorem remove_split (h : (Ladder.ids (pre ++ (p, as ++ o :: bs) :: post)).Nodup)
    (hfull : ∀ e ∈ pre ++ (p, as ++ o :: bs) :: post, e.2 ≠ []) :
    Ladder.remove (pre ++ (p, as ++ o :: bs) :: post) o.id =
      pre ++ Direct.pushLevel p (as ++ bs) post := by
  obtain ⟨h₁, h₂⟩ := id_ne_of_split h
  have hpre : pre.remove o.id = pre := by
    refine remove_eq_self (fun e he => hfull e (List.mem_append_left _ he)) ?_
    exact fun x hx => h₁ x (List.mem_append_left _ hx)
  have hpost : post.remove o.id = post := by
    refine remove_eq_self (fun e he => hfull e ?_) ?_
    · exact List.mem_append_right _ (List.mem_cons_of_mem _ he)
    · exact fun x hx => h₂ x (List.mem_append_right _ hx)
  have has : as.filter (fun x => x.id ≠ o.id) = as :=
    List.filter_eq_self.mpr fun x hx => by simpa using h₁ x (List.mem_append_right _ hx)
  have hbs : bs.filter (fun x => x.id ≠ o.id) = bs :=
    List.filter_eq_self.mpr fun x hx => by simpa using h₂ x (List.mem_append_left _ hx)
  rw [remove_append, remove_cons, hpre, hpost, List.filter_append,
    List.filter_cons_of_neg (by simp), has, hbs]

theorem reduce_eq_self {id : OrderId} (q : Quantity)
    (h : ∀ x ∈ l.orders, x.id ≠ id) : l.reduce id q = l := by
  unfold reduce
  conv_rhs => rw [← List.map_id l]
  refine List.map_congr_left fun e he => Prod.ext rfl ?_
  conv_rhs => rw [id_eq, ← List.map_id e.2]
  exact List.map_congr_left fun x hx =>
    if_neg (h x (mem_orders.mpr ⟨e, he, hx⟩))

theorem reduce_split (q : Quantity)
    (h : (Ladder.ids (pre ++ (p, as ++ o :: bs) :: post)).Nodup) :
    Ladder.reduce (pre ++ (p, as ++ o :: bs) :: post) o.id q =
      pre ++ (p, as ++ o.reduceTo q :: bs) :: post := by
  obtain ⟨h₁, h₂⟩ := id_ne_of_split h
  have hpre := reduce_eq_self (l := pre) q fun x hx => h₁ x (List.mem_append_left _ hx)
  have hpost := reduce_eq_self (l := post) q fun x hx => h₂ x (List.mem_append_right _ hx)
  have hq : ∀ xs : Queue, (∀ x ∈ xs, x.id ≠ o.id) →
      xs.map (fun x => if x.id = o.id then x.reduceTo q else x) = xs := by
    intro xs hxs
    conv_rhs => rw [← List.map_id xs]
    exact List.map_congr_left fun x hx => if_neg (hxs x hx)
  unfold reduce at *
  rw [List.map_append, List.map_cons, hpre, hpost, List.map_append, List.map_cons,
    hq as fun x hx => h₁ x (List.mem_append_right _ hx),
    hq bs fun x hx => h₂ x (List.mem_append_left _ hx), if_pos rfl]

/-! ## What the operations keep -/

section Keep

variable {s : Side} {P : Price → Order → Prop} {id : OrderId} {q : Quantity}

theorem remove_prices : (l.remove id).prices.Sublist l.prices := by
  have hmap : l.prices =
      Ladder.prices (l.map fun e => (e.1, e.2.filter fun o => o.id ≠ id)) := by
    simp [prices]
  rw [hmap]
  exact List.Sublist.map _ List.filter_sublist

theorem Ordered.remove (h : l.Ordered s) : (l.remove id).Ordered s where
  sorted := h.sorted.sublist remove_prices
  full e he := by simpa using (List.mem_filter.mp he).2

theorem mem_remove {e : Price × Queue} (h : e ∈ l.remove id) :
    ∃ e' ∈ l, e'.1 = e.1 ∧ e.2 = e'.2.filter fun o => o.id ≠ id := by
  obtain ⟨e', he', rfl⟩ := List.mem_map.mp (List.mem_filter.mp h).1
  exact ⟨e', he', rfl, rfl⟩

theorem All.remove (h : l.All P) : (l.remove id).All P := by
  intro e he o ho
  obtain ⟨e', he', hp, hq⟩ := mem_remove he
  rw [hq] at ho
  exact hp ▸ h e' he' o (List.mem_filter.mp ho).1

theorem remove_orders : (l.remove id).orders = l.orders.filter fun o => o.id ≠ id := by
  induction l with
  | nil => rfl
  | cons e l ih =>
      rw [show (e :: l : Ladder) = (e.1, e.2) :: l from rfl, remove_cons]
      rw [Direct.pushLevel_orders, ih]
      exact (List.filter_append _ _).symm

theorem remove_ids : (l.remove id).ids.Sublist l.ids := by
  unfold ids
  rw [remove_orders]
  exact List.Sublist.map _ List.filter_sublist

theorem not_mem_remove_ids : id ∉ (l.remove id).ids := by
  unfold ids
  rw [remove_orders]
  simp

theorem reduce_prices : (l.reduce id q).prices = l.prices := by
  simp [reduce, prices]

theorem Ordered.reduce (h : l.Ordered s) : (l.reduce id q).Ordered s where
  sorted := by
    rw [reduce_prices]
    exact h.sorted
  full e he := by
    obtain ⟨e', he', rfl⟩ := List.mem_map.mp he
    simpa using h.full e' he'

theorem All.reduce (h : l.All P)
    (hP : ∀ p, ∀ o ∈ l.orders, o.id = id → P p o → P p (o.reduceTo q)) :
    (l.reduce id q).All P := by
  intro e he o ho
  obtain ⟨e', he', rfl⟩ := List.mem_map.mp he
  obtain ⟨o', ho', rfl⟩ := List.mem_map.mp ho
  have hold := h e' he' o' ho'
  dsimp only
  split
  · rename_i hid
    exact hP _ _ (mem_orders.mpr ⟨e', he', ho'⟩) hid hold
  · exact hold

theorem reduce_ids : (l.reduce id q).ids = l.ids := by
  unfold ids orders reduce
  simp only [List.flatMap_map, List.map_flatMap, List.map_map]
  congr 1
  funext e
  refine List.map_congr_left fun o _ => ?_
  dsimp only [Function.comp]
  split <;> simp

/-- Where a resting order lands: behind the queue of its price, in a level of
its own if there was none. -/
theorem rest_split {s : Side} (h : l.Ordered s) (p : Price) (o : Order) :
    ∃ pre queue post, l = pre ++ Direct.pushLevel p queue post ∧
      Ladder.rest s l p o = pre ++ (p, queue ++ [o]) :: post ∧
      Entries.Sorted (ordering s) (Ladder.rest s l p o) := by
  have hs : Entries.Sorted (ordering s) l := List.pairwise_map.mp h.sorted
  have hi : Entries.Sorted (ordering s) (Entries.insert (ordering s) p [] l) := hs.insert
  unfold rest
  cases hf : Entries.find? p l with
  | some queue =>
      have hne : queue ≠ [] := h.full (p, queue) (Entries.mem_of_find? hf)
      obtain ⟨pre, post, hl⟩ := Entries.split_of_find? hf
      refine ⟨pre, queue, post, ?_, ?_, hi.modify _⟩
      · simp [hl, Direct.pushLevel, hne]
      · rw [Entries.insert_of_find? hs hf, hl]
        exact Entries.modify_split _ (hl ▸ hs.nodup_keys)
  | none =>
      obtain ⟨pre, post, hl, hins⟩ := Entries.insert_split (ordering s) ([] : Queue) hf
      refine ⟨pre, [], post, hl, ?_, hi.modify _⟩
      rw [hins]
      exact Entries.modify_split _ (hins ▸ hi.nodup_keys)

theorem Ordered.rest (h : l.Ordered s) : (Ladder.rest s l p o).Ordered s := by
  obtain ⟨pre, queue, post, hl, hrest, hsorted⟩ := rest_split h p o
  refine ⟨List.pairwise_map.mpr hsorted, fun e he => ?_⟩
  rw [hrest] at he
  rcases List.mem_append.mp he with he | he
  · exact h.full e (hl ▸ List.mem_append_left _ he)
  · rcases List.mem_cons.mp he with rfl | he
    · simp
    · exact h.full e (hl ▸ List.mem_append_right _ (Direct.mem_pushLevel_of_mem _ _ he))

theorem rest_orders (h : l.Ordered s) :
    (Ladder.rest s l p o).orders.Perm (o :: l.orders) := by
  obtain ⟨pre, queue, post, hl, hrest, _⟩ := rest_split h p o
  rw [hrest, orders_split, hl, orders_append, Direct.pushLevel_orders, List.nil_append]
  exact List.perm_middle.trans (by rw [List.append_assoc])

theorem mem_rest (h : l.Ordered s) {e : Price × Queue} (he : e ∈ Ladder.rest s l p o) :
    (e.1 = p ∨ e.1 ∈ l.prices) ∧
      ∀ x ∈ e.2, x = o ∧ e.1 = p ∨ ∃ e' ∈ l, e'.1 = e.1 ∧ x ∈ e'.2 := by
  obtain ⟨pre, queue, post, hl, hrest, _⟩ := rest_split h p o
  have hold : ∀ e ∈ l, (e.1 = p ∨ e.1 ∈ l.prices) ∧
      ∀ x ∈ e.2, x = o ∧ e.1 = p ∨ ∃ e' ∈ l, e'.1 = e.1 ∧ x ∈ e'.2 := fun e he =>
    ⟨Or.inr (List.mem_map_of_mem he), fun x hx => Or.inr ⟨e, he, rfl, hx⟩⟩
  rw [hrest] at he
  rcases List.mem_append.mp he with he | he
  · exact hold e (hl ▸ List.mem_append_left _ he)
  · rcases List.mem_cons.mp he with rfl | he
    · refine ⟨Or.inl rfl, fun x hx => ?_⟩
      rcases List.mem_append.mp hx with hx | hx
      · have hne : ¬ queue.isEmpty = true := by
          rw [List.isEmpty_iff]
          exact List.ne_nil_of_mem hx
        refine Or.inr ⟨(p, queue), ?_, rfl, hx⟩
        rw [hl, Direct.pushLevel, if_neg hne]
        exact List.mem_append_right _ List.mem_cons_self
      · exact Or.inl ⟨List.mem_singleton.mp hx, rfl⟩
    · exact hold e (hl ▸ List.mem_append_right _ (Direct.mem_pushLevel_of_mem _ _ he))

theorem All.rest (h : l.Ordered s) (hP : l.All P) (ho : P p o) :
    (Ladder.rest s l p o).All P := by
  intro e he x hx
  rcases (mem_rest h he).2 x hx with ⟨rfl, hp⟩ | ⟨e', he', hp, hx'⟩
  · exact hp ▸ ho
  · exact hp ▸ hP e' he' x hx'

end Keep

end Ladder

end Exchange
