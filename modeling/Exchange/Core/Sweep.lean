import Exchange.Core.Ladder

/-!
# What direct matching keeps

Facts about the ladder a sweep leaves behind. All of them go through one rule,
`sweep_induction`: a sweep is a sequence of trades with the head of the best
queue, and it ends for one of the reasons `Halted` lists.
-/

namespace Exchange

open Framework

/-! ## Which prices an order reaches -/

/-- An order of side `s` resting at `p` does not reach `q` exactly if `p` and
`q` are apart. -/
theorem crosses_eq_false {o : Order} {p q : Price} (hp : o.restingPrice = some p) :
    o.crosses q = false ↔ ordering (opposite o.side) p q := by
  obtain ⟨_, _, _, _, side, kind⟩ := o
  cases kind with
  | market => cases hp
  | limit limit =>
      cases hp
      cases side <;>
        simp [Order.crosses, opposite, ordering, AskOrdering, BidOrdering]
  | iceberg limit display visible =>
      cases hp
      cases side <;>
        simp [Order.crosses, opposite, ordering, AskOrdering, BidOrdering]

theorem crosses_of_market {o : Order} (hp : o.restingPrice = none) (q : Price) :
    o.crosses q = true := by
  obtain ⟨_, _, _, _, _, kind⟩ := o
  cases kind with
  | market => rfl
  | limit _ => cases hp
  | iceberg _ _ _ => cases hp

/-- An order that does not reach a price does not reach a worse one. -/
theorem crosses_antitone {o : Order} {p q : Price}
    (h : o.crosses p = false) (hpq : ordering (opposite o.side) p q) :
    o.crosses q = false := by
  cases hr : o.restingPrice with
  | none => rw [crosses_of_market hr] at h; cases h
  | some limit =>
      rw [crosses_eq_false hr] at h ⊢
      exact ordering_trans h hpq

namespace Direct

variable {agg : Order} {ladder : Ladder}

/-! ## The induction rule -/

/-- Why a sweep ends: the order is done, the side is exhausted, the best price
is out of reach, or the head belongs to the same account. -/
inductive Halted (agg : Order) (st : MatchState) : Bool → Prop where
  | filled (h : st.left = 0) : Halted agg st false
  | exhausted (h : st.ladder = []) : Halted agg st false
  | vacant (price : Price) (rest : Ladder) (h : st.ladder = (price, []) :: rest) :
      Halted agg st false
  | outOfReach (price : Price) (queue : Queue) (rest : Ladder)
      (h : st.ladder = (price, queue) :: rest) (hc : agg.crosses price = false) :
      Halted agg st false
  | ownAccount (price : Price) (head : Order) (tail : Queue) (rest : Ladder)
      (h : st.ladder = (price, head :: tail) :: rest) (hleft : 0 < st.left)
      (hc : agg.crosses price = true) (hacc : head.account = agg.account) :
      Halted agg st true

/-- A head that shows nothing. -/
def Stuck (agg : Order) (st : MatchState) : Prop :=
  ∃ price head tail rest, st.ladder = (price, head :: tail) :: rest ∧ 0 < st.left ∧
    agg.crosses price = true ∧ head.account ≠ agg.account ∧ head.visibleQty = 0

theorem matchTurn_done {st : MatchState} {res : Except Precondition MatchResult}
    (h : matchTurn agg st = .done res) :
    (∃ b, Halted agg st b ∧ res = .ok (stop st b)) ∨
      Stuck agg st ∧ res = .error .positiveQuantity := by
  unfold matchTurn at h
  split at h
  · rename_i hleft
    split at h
    · rename_i hl
      cases h
      exact Or.inl ⟨false, .exhausted hl, rfl⟩
    · rename_i price rest hl
      cases h
      exact Or.inl ⟨false, .vacant price rest hl, rfl⟩
    · rename_i price head tail rest hl
      split at h
      · rename_i hcross
        cases h
        exact Or.inl ⟨false, .outOfReach price _ rest hl (by simpa using hcross), rfl⟩
      · rename_i hcross
        split at h
        · rename_i hacc
          cases h
          exact Or.inl ⟨true,
            .ownAccount price head tail rest hl hleft (by simpa using hcross) hacc, rfl⟩
        · rename_i hacc
          dsimp only at h
          split at h
          · cases h
          · rename_i hqty
            cases h
            refine Or.inr ⟨⟨price, head, tail, rest, hl, hleft, by simpa using hcross,
              hacc, ?_⟩, rfl⟩
            grind
  · rename_i hleft
    cases h
    exact Or.inl ⟨false, .filled (by grind), rfl⟩

/-- **Induction over the trades of a sweep.** -/
theorem sweep_induction (agg : Order) (ladder : Ladder) {I : MatchState → Prop}
    {P : Except Precondition MatchResult → Prop}
    (entry : I { left := agg.remaining, ladder, fills := [] })
    (step : ∀ (st : MatchState) (price : Price) (head : Order) (tail : Queue)
      (rest : Ladder), I st →
      st.ladder = (price, head :: tail) :: rest → agg.crosses price = true →
      head.account ≠ agg.account → 0 < min st.left head.visibleQty →
      I (trade agg st price head tail rest (min st.left head.visibleQty)))
    (halt : ∀ st b, I st → Halted agg st b → P (.ok (stop st b)))
    (stuck : ∀ st, I st → Stuck agg st → P (.error .positiveQuantity)) :
    P (sweep agg ladder) := by
  refine (matchLoop agg).run_induction (I := I) (P := P) entry ?_ ?_
  · intro st st' hst ht
    obtain ⟨price, head, tail, rest, hl, _, hc, hacc, hqty, rfl⟩ := matchTurn_next ht
    exact step st price head tail rest hst hl hc hacc hqty
  · intro st res hst ht
    rcases matchTurn_done ht with ⟨b, hb, rfl⟩ | ⟨hs, rfl⟩
    · exact halt st b hst hb
    · exact stuck st hst hs

/-- The rule for a property of the state that does not look at how the sweep
ends. -/
theorem sweep_invariant {I : MatchState → Prop} {r : MatchResult}
    (h : sweep agg ladder = .ok r)
    (entry : I { left := agg.remaining, ladder, fills := [] })
    (step : ∀ (st : MatchState) (price : Price) (head : Order) (tail : Queue)
      (rest : Ladder), I st →
      st.ladder = (price, head :: tail) :: rest → agg.crosses price = true →
      head.account ≠ agg.account → 0 < min st.left head.visibleQty →
      I (trade agg st price head tail rest (min st.left head.visibleQty))) :
    I { left := r.left, ladder := r.ladder, fills := r.fills } := by
  have key := sweep_induction agg ladder (P := fun res => ∀ r, res = .ok r →
      I { left := r.left, ladder := r.ladder, fills := r.fills }) entry step
    (fun st b hst _ r hr => by cases hr; exact hst)
    (fun st _ _ r hr => by cases hr)
  exact key r h

/-! ## The queues -/

theorem mem_settle {o head : Order} {tail : Queue} :
    o ∈ settle head tail ↔ o ∈ tail ∨ o ∈ settle head [] := by
  unfold settle
  split
  · simp
  · split
    · simp
    · simp [or_comm]

theorem settle_perm (head : Order) (tail : Queue) :
    (settle head tail).Perm (settle head [] ++ tail) := by
  unfold settle
  split
  · simp
  · split
    · exact List.perm_append_singleton _ _
    · exact List.Perm.refl _

end Direct

namespace Direct

variable {agg : Order} {ladder : Ladder} {r : MatchResult}

/-! ## The ladder a sweep leaves -/

theorem sweep_left_le (h : sweep agg ladder = .ok r) : r.left ≤ agg.remaining := by
  refine sweep_invariant (I := fun st => st.left ≤ agg.remaining) h
    (UInt64.le_refl _) ?_
  intro st price head tail rest hst _ _ _ _
  show st.left - min st.left head.visibleQty ≤ agg.remaining
  grind

theorem trade_ordered {s : Side} {st : MatchState} {price : Price} {head : Order}
    {tail : Queue} {rest : Ladder} {qty : Quantity} (hst : st.ladder.Ordered s)
    (hl : st.ladder = (price, head :: tail) :: rest) :
    (trade agg st price head tail rest qty).ladder.Ordered s := by
  rw [hl] at hst
  refine ⟨hst.sorted.sublist (pushLevel_prices _ _ _), fun e he => ?_⟩
  rcases mem_pushLevel he with ⟨rfl, hq⟩ | he
  · exact hq
  · exact hst.full e (List.mem_cons_of_mem _ he)

theorem sweep_ordered {s : Side} (h : sweep agg ladder = .ok r)
    (hl : ladder.Ordered s) : r.ladder.Ordered s := by
  refine sweep_invariant (I := fun st => st.ladder.Ordered s) h hl ?_
  exact fun st price head tail rest hst hladder _ _ _ => trade_ordered hst hladder

/-- What trading keeps of the orders it leaves behind. -/
def Kept (P : Price → Order → Prop) : Prop :=
  ∀ price head left, P price head → 0 < min left head.visibleQty →
    ∀ o ∈ settle (head.onPartialFill (min left head.visibleQty)) [], P price o

theorem Kept.trade {P : Price → Order → Prop} (hP : Kept P) {st : MatchState}
    {price : Price} {head : Order} {tail : Queue} {rest : Ladder}
    (hst : st.ladder.All P) (hl : st.ladder = (price, head :: tail) :: rest)
    (hqty : 0 < min st.left head.visibleQty) :
    (trade agg st price head tail rest (min st.left head.visibleQty)).ladder.All P := by
  rw [hl] at hst
  have hq := hst (price, head :: tail) List.mem_cons_self
  intro e he o ho
  rcases mem_pushLevel he with ⟨rfl, _⟩ | he
  · rcases mem_settle.mp ho with ho | ho
    · exact hq o (List.mem_cons_of_mem _ ho)
    · exact hP price head st.left (hq head List.mem_cons_self) hqty o ho
  · exact hst e (List.mem_cons_of_mem _ he) o ho

theorem sweep_all {P : Price → Order → Prop} (hP : Kept P)
    (h : sweep agg ladder = .ok r) (hl : ladder.All P) : r.ladder.All P :=
  sweep_invariant (I := fun st => st.ladder.All P) h hl
    fun _ _ _ _ _ hst hladder _ _ hqty => hP.trade hst hladder hqty

theorem settle_ids (head : Order) : ((settle head []).map Order.id).Sublist [head.id] := by
  unfold settle
  split
  · exact List.nil_sublist _
  · split
    · simp
    · exact List.Sublist.refl _

/-- A trade brings in no id, and none twice. -/
theorem trade_ids {st : MatchState} {price : Price} {head : Order} {tail : Queue}
    {rest : Ladder} {qty : Quantity} (hl : st.ladder = (price, head :: tail) :: rest) :
    (trade agg st price head tail rest qty).ladder.ids.Subperm st.ladder.ids := by
  rw [hl]
  set head' := head.onPartialFill qty with hhead
  have hid : head'.id = head.id := Order.onPartialFill_id _ _
  show List.Subperm (List.map _ (pushLevel price (settle head' tail) rest).orders) _
  rw [pushLevel_orders]
  have hperm : ((settle head' tail ++ rest.orders).map Order.id).Perm
      ((settle head' []).map Order.id ++ (tail ++ rest.orders).map Order.id) := by
    rw [← List.map_append, ← List.append_assoc]
    exact ((settle_perm head' tail).append_right _).map _
  refine hperm.subperm.trans ?_
  show List.Subperm _ (head.id :: (tail ++ rest.orders).map Order.id)
  rw [← hid]
  exact ((settle_ids head').append_right _).subperm

/-- No id appears, and none twice that did not before. -/
theorem sweep_ids (h : sweep agg ladder = .ok r) : r.ladder.ids.Subperm ladder.ids := by
  refine sweep_invariant (I := fun st => st.ladder.ids.Subperm ladder.ids) h
    (List.Subperm.refl _) ?_
  intro st price head tail rest hst hladder _ _ _
  exact (trade_ids hladder).trans hst

theorem sweep_prices (h : sweep agg ladder = .ok r) :
    r.ladder.prices.Sublist ladder.prices := by
  refine sweep_invariant (I := fun st => st.ladder.prices.Sublist ladder.prices) h
    (List.Sublist.refl _) ?_
  intro st price head tail rest hst hladder _ _ _
  rw [hladder] at hst
  exact (pushLevel_prices _ _ _).trans hst

/-! ## Where a sweep ends -/

/-- A sweep that was not stopped by its own account used up the order or every
level it reaches. -/
theorem sweep_exhausts (h : sweep agg ladder = .ok r)
    (hl : ladder.Ordered (opposite agg.side)) (hb : r.blocked = false) :
    r.left = 0 ∨ ∀ p ∈ r.ladder.prices, agg.crosses p = false := by
  have hr := sweep_ordered h hl
  have hhalt : ∃ st, Halted agg st false ∧ r = stop st false := by
    have key := sweep_induction agg ladder (I := fun _ => True)
      (P := fun res => ∀ r, res = .ok r → ∃ st, Halted agg st r.blocked ∧
        r = stop st r.blocked) trivial (fun _ _ _ _ _ _ _ _ _ _ => trivial)
      (fun st b _ hb r hr => by cases hr; exact ⟨st, hb, rfl⟩)
      (fun _ _ _ r hr => by cases hr)
    simpa [hb] using key r h
  obtain ⟨st, hst, rfl⟩ := hhalt
  cases hst with
  | filled h => exact Or.inl h
  | exhausted h =>
      refine Or.inr fun p hp => ?_
      rw [show (stop st false).ladder = [] from h] at hp
      cases hp
  | vacant price rest h =>
      have hmem : (price, ([] : Queue)) ∈ (stop st false).ladder := by
        show _ ∈ st.ladder
        rw [h]
        exact List.mem_cons_self
      exact absurd rfl (hr.full _ hmem)
  | outOfReach price queue rest h hc =>
      refine Or.inr fun p hp => ?_
      have hs := hr.sorted
      rw [show (stop st false).ladder = (price, queue) :: rest from h] at hp hs
      rcases List.mem_cons.mp hp with rfl | hp
      · exact hc
      · exact crosses_antitone hc ((List.pairwise_cons.mp hs).1 p hp)

/-- Only an order with quantity left is stopped by its own account. -/
theorem sweep_blocked (h : sweep agg ladder = .ok r) (hb : r.blocked = true) :
    0 < r.left := by
  have key := sweep_induction agg ladder (I := fun _ => True)
    (P := fun res => ∀ r, res = .ok r → r.blocked = true → 0 < r.left)
    trivial (fun _ _ _ _ _ _ _ _ _ _ => trivial)
    (fun st b _ hst r hr hrb => by
      cases hr
      cases hst with
      | ownAccount _ _ _ _ _ hleft => exact hleft
      | filled | exhausted | vacant | outOfReach => cases hrb)
    (fun _ _ _ r hr => by cases hr)
  exact key r h hb

theorem sweep_error {p : Precondition} (h : sweep agg ladder = .error p) :
    p = .positiveQuantity := by
  have key := sweep_induction agg ladder (I := fun _ => True)
    (P := fun res => ∀ p, res = .error p → p = .positiveQuantity)
    trivial (fun _ _ _ _ _ _ _ _ _ _ => trivial)
    (fun _ _ _ _ p hp => by cases hp) (fun _ _ _ p hp => by cases hp; rfl)
  exact key p h

end Direct

end Exchange
