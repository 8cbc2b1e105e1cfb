import Exchange.Core.Tranche
import Mathlib.Data.List.TakeWhile

/-!
# How far an order reaches

What a sweep trades, in closed form, summed over the levels it crosses. A level
without an order of the same account gives all it has, one tranche after the
other. In a level with one, the tranches ahead of it trade once, are refreshed
behind it, and the sweep is blocked. The closed form holds on every ladder, those
with an order that shows more than it has included.
-/

namespace Exchange

open Framework Framework.Exec OrderBook

/-- The total an order can give. One that shows more than it has is not used up by its
tranche: what remains of it wraps round. -/
def Order.supply (o : Order) : ℕ :=
  if o.visibleQty ≤ o.remaining then o.remaining.toNat else 2 ^ 64 + o.remaining.toNat

/-- The total a queue can give to `agg`, and whether `agg` is then blocked. -/
def queueReach (agg : Order) (q : Queue) : ℕ × Bool :=
  if q.any (fun o => o.account = agg.account) then
    (((q.takeWhile fun o => o.account ≠ agg.account).map
      fun o => o.visibleQty.toNat).sum, true)
  else ((q.map Order.supply).sum, false)

/-- A queue, and what lies behind it. -/
def joinReach (here behind : ℕ × Bool) : ℕ × Bool :=
  if here.2 then here else (here.1 + behind.1, behind.2)

/-- The total a ladder can give to `agg`, and whether `agg` is then blocked. -/
def reach (agg : Order) : Ladder → ℕ × Bool
  | [] => (0, false)
  | (price, queue) :: rest =>
      if agg.crosses price then joinReach (queueReach agg queue) (reach agg rest)
      else (0, false)

section Supply

variable {o : Order}

theorem Shown.supply (h : Shown o) : o.supply = o.remaining.toNat := if_pos h.within

/-- No order shows more than it can give. -/
theorem visibleQty_le_supply : o.visibleQty.toNat ≤ o.supply := by
  unfold Order.supply
  split
  · rename_i hwithin
    exact UInt64.le_iff_toNat_le.mp hwithin
  · have hword := o.visibleQty.toNat_lt
    omega

/-- What an order has left once its tranche is spent. -/
theorem supply_spent :
    o.supply = o.visibleQty.toNat + (o.remaining - o.visibleQty).toNat := by
  have hrem := o.remaining.toNat_lt
  have hvis := o.visibleQty.toNat_lt
  unfold Order.supply
  rw [UInt64.toNat_sub]
  split
  · rename_i hwithin
    have hle := UInt64.le_iff_toNat_le.mp hwithin
    omega
  · rename_i hbeyond
    have hlt : ¬ o.visibleQty.toNat ≤ o.remaining.toNat := fun hle =>
      hbeyond (UInt64.le_iff_toNat_le.mpr hle)
    omega

/-- A fresh tranche is cut out of what remains. -/
theorem replenish_supply (hspent : o.visibleQty = 0) :
    o.replenish.supply = o.remaining.toNat := by
  rw [Order.supply, Order.replenish_remaining, if_pos]
  obtain ⟨_, _, _, _, _, kind⟩ := o
  cases kind with
  | limit | market => exact UInt64.le_refl _
  | iceberg limit display visible =>
      show min display _ ≤ _
      grind

/-- With its tranche spent an order is filled, or shows a fresh tranche at the back. -/
theorem settle_spent (tail : Queue) :
    o.remaining = o.visibleQty ∧
        Direct.settle (o.onPartialFill o.visibleQty) tail = tail ∨
      Direct.settle (o.onPartialFill o.visibleQty) tail =
        tail ++ [(o.onPartialFill o.visibleQty).replenish] := by
  unfold Direct.settle
  by_cases hfilled : (o.onPartialFill o.visibleQty).isFilled = true
  · left
    rw [if_pos hfilled]
    simp only [Order.isFilled, Order.onPartialFill_remaining, decide_eq_true_eq] at hfilled
    exact ⟨sub_eq_zero.mp hfilled, rfl⟩
  · right
    rw [if_neg hfilled, if_pos]
    simp only [Order.isFilled, decide_eq_true_eq] at hfilled
    simp only [Order.needsReplenish, Order.onPartialFill_visibleQty, sub_self, decide_true,
      Bool.and_true, decide_eq_true_eq]
    exact UInt64.pos_iff_ne_zero.mpr hfilled

end Supply

section Reach

variable {agg head : Order} {tail : Queue} {qty : Quantity}

theorem queueReach_cons (hacc : head.account ≠ agg.account) :
    queueReach agg (head :: tail) =
      if tail.any (fun o => o.account = agg.account) then
        (head.visibleQty.toNat + (queueReach agg tail).1, true)
      else (head.supply + (queueReach agg tail).1, false) := by
  unfold queueReach
  rw [List.any_cons, decide_eq_false hacc, Bool.false_or,
    List.takeWhile_cons_of_pos (by simpa using hacc)]
  split <;> simp

theorem queueReach_snoc (hacc : head.account ≠ agg.account) :
    queueReach agg (tail ++ [head]) =
      if tail.any (fun o => o.account = agg.account) then queueReach agg tail
      else ((queueReach agg tail).1 + head.supply, false) := by
  unfold queueReach
  rw [List.any_append, List.any_cons, List.any_nil, Bool.or_false,
    decide_eq_false hacc, Bool.or_false]
  by_cases hany : tail.any (fun o => o.account = agg.account) = true
  · obtain ⟨x, hx, hown⟩ := List.any_eq_true.mp hany
    simp only [hany, if_true]
    rw [List.takeWhile_append]
    have hlen : ¬ (tail.takeWhile fun o => o.account ≠ agg.account).length =
        tail.length := by
      intro hlen
      have hall := List.takeWhile_eq_self_iff.mp
        ((List.takeWhile_prefix _).eq_of_length hlen) x hx
      simp only [decide_eq_true_eq] at hown hall
      exact hall hown
    rw [if_neg hlen]
  · simp only [hany, Bool.false_eq_true, if_false]
    simp

/-- Only an order of its own account blocks `agg` in a queue. -/
theorem queueReach_blocked :
    (queueReach agg tail).2 = tail.any (fun o => o.account = agg.account) := by
  unfold queueReach
  split <;> simp_all

/-- A trade within the tranche takes its quantity out of the order and of the tranche. -/
theorem fill_toNat (hs : Shown head) (hq : qty ≤ head.visibleQty) :
    (head.onPartialFill qty).remaining.toNat + qty.toNat = head.remaining.toNat ∧
    (head.onPartialFill qty).visibleQty.toNat + qty.toNat = head.visibleQty.toNat := by
  have hle := UInt64.le_trans hq hs.within
  rw [Order.onPartialFill_remaining, UInt64.toNat_sub_of_le _ _ hle,
    Order.onPartialFill_visibleQty, UInt64.toNat_sub_of_le _ _ hq]
  exact ⟨Nat.sub_add_cancel (UInt64.le_iff_toNat_le.mp hle),
    Nat.sub_add_cancel (UInt64.le_iff_toNat_le.mp hq)⟩

/-- What stands in front can be taken. -/
theorem visibleQty_le_queueReach (hacc : head.account ≠ agg.account) :
    head.visibleQty.toNat ≤ (queueReach agg (head :: tail)).1 := by
  have hle := visibleQty_le_supply (o := head)
  rw [queueReach_cons hacc]
  split <;> dsimp only <;> omega

/-- A trade of the whole tranche takes its quantity out of the reach. -/
theorem queueReach_spent (hacc : head.account ≠ agg.account) :
    queueReach agg (head :: tail) =
      (head.visibleQty.toNat +
          (queueReach agg (Direct.settle (head.onPartialFill head.visibleQty) tail)).1,
        (queueReach agg (Direct.settle (head.onPartialFill head.visibleQty) tail)).2) := by
  have hsupply := supply_spent (o := head)
  rw [queueReach_cons hacc]
  rcases settle_spent (o := head) tail with ⟨hfilled, hsettle⟩ | hsettle
  · rw [hsettle, queueReach_blocked]
    split
    · rename_i hown
      rw [hown]
    · rename_i hown
      rw [Bool.eq_false_iff.mpr hown, hsupply, hfilled, sub_self]
      rfl
  · have hback : (head.onPartialFill head.visibleQty).replenish.supply =
        (head.remaining - head.visibleQty).toNat := by
      rw [replenish_supply (by simp), Order.onPartialFill_remaining]
    rw [hsettle, queueReach_snoc (by simpa using hacc)]
    split
    · rename_i hown
      rw [queueReach_blocked, hown]
    · refine Prod.ext ?_ rfl
      dsimp only
      omega

theorem reach_pushLevel {price : Price} {queue : Queue} {rest : Ladder}
    (hc : agg.crosses price = true) :
    reach agg (Direct.pushLevel price queue rest) =
      joinReach (queueReach agg queue) (reach agg rest) := by
  unfold Direct.pushLevel
  split
  · rename_i hq
    rw [List.isEmpty_iff.mp hq]
    simp [queueReach, joinReach]
  · rw [reach, if_pos hc]

theorem fst_le_joinReach (here behind : ℕ × Bool) : here.1 ≤ (joinReach here behind).1 := by
  unfold joinReach
  split
  · exact Nat.le_refl _
  · exact Nat.le_add_right _ _

/-- The state of a sweep against what the whole ladder can give. -/
structure Reaching (agg : Order) (ladder : Ladder) (st : Direct.MatchState) : Prop where
  full : ∀ e ∈ st.ladder, e.2 ≠ []
  bounded : st.left.toNat ≤ agg.remaining.toNat
  total : 0 < st.left → (agg.remaining.toNat - st.left.toNat) + (reach agg st.ladder).1 =
    (reach agg ladder).1
  blocked : 0 < st.left → (reach agg st.ladder).2 = (reach agg ladder).2
  /-- The last trade may leave a part of a tranche, of which nothing more is said. -/
  filled : st.left = 0 → agg.remaining.toNat ≤ (reach agg ladder).1

theorem Reaching.trade {ladder rest : Ladder} {st : Direct.MatchState} {price : Price}
    (h : Reaching agg ladder st) (hl : st.ladder = (price, head :: tail) :: rest)
    (hc : agg.crosses price = true) (hacc : head.account ≠ agg.account)
    (hqty : 0 < min st.left head.visibleQty) :
    Reaching agg ladder
      (Direct.trade agg st price head tail rest (min st.left head.visibleQty)) := by
  have hpos : 0 < st.left := by grind
  have hbefore : reach agg st.ladder =
      joinReach (queueReach agg (head :: tail)) (reach agg rest) := by
    rw [hl, reach, if_pos hc]
  have hfull : ∀ e ∈ (Direct.trade agg st price head tail rest
      (min st.left head.visibleQty)).ladder, e.2 ≠ [] := by
    intro e he
    have hfull := h.full
    rw [hl] at hfull
    rcases Direct.mem_pushLevel he with ⟨rfl, hq⟩ | he
    · exact hq
    · exact hfull e (List.mem_cons_of_mem _ he)
  have hbound := h.bounded
  have htotal := h.total hpos
  have hblocked := h.blocked hpos
  -- The whole tranche is taken, or the rest of the incoming order is.
  by_cases htranche : head.visibleQty ≤ st.left
  · have hle := UInt64.le_iff_toNat_le.mp htranche
    have hmin : min st.left head.visibleQty = head.visibleQty := by grind
    have hafter : reach agg (Direct.trade agg st price head tail rest
        head.visibleQty).ladder = joinReach (queueReach agg
          (Direct.settle (head.onPartialFill head.visibleQty) tail)) (reach agg rest) :=
      reach_pushLevel hc
    have hleft : (Direct.trade agg st price head tail rest head.visibleQty).left.toNat =
        st.left.toNat - head.visibleQty.toNat := UInt64.toNat_sub_of_le _ _ htranche
    rw [hbefore, queueReach_spent hacc] at htotal hblocked
    have hsum : (agg.remaining.toNat - (st.left.toNat - head.visibleQty.toNat)) +
        (joinReach (queueReach agg
          (Direct.settle (head.onPartialFill head.visibleQty) tail)) (reach agg rest)).1 =
        (reach agg ladder).1 := by
      rw [← htotal]
      unfold joinReach
      dsimp only
      split <;> dsimp only <;> omega
    rw [hmin] at hfull ⊢
    refine ⟨hfull, by omega, ?_, ?_, ?_⟩
    · intro _
      rw [hafter, hleft]
      exact hsum
    · intro _
      rw [hafter, ← hblocked]
      unfold joinReach
      dsimp only
      split <;> rfl
    · intro hzero
      rw [hzero] at hleft
      change 0 = _ at hleft
      omega
  · have hlt : ¬ head.visibleQty.toNat ≤ st.left.toNat := fun hle =>
      htranche (UInt64.le_iff_toNat_le.mpr hle)
    have hmin : min st.left head.visibleQty = st.left := by grind
    have hzero : (Direct.trade agg st price head tail rest st.left).left = 0 := sub_self _
    have hfront : head.visibleQty.toNat ≤ (queueReach agg (head :: tail)).1 :=
      visibleQty_le_queueReach hacc
    have hjoin := fst_le_joinReach (queueReach agg (head :: tail)) (reach agg rest)
    rw [hbefore] at htotal
    rw [hmin] at hfull ⊢
    refine ⟨hfull, ?_, ?_, ?_, fun _ => by omega⟩
    · rw [hzero]
      exact Nat.zero_le _
    · intro hleft
      rw [hzero] at hleft
      exact absurd hleft (UInt64.lt_irrefl 0)
    · intro hleft
      rw [hzero] at hleft
      exact absurd hleft (UInt64.lt_irrefl 0)

/-- **What a sweep trades, in closed form.** -/
theorem sweep_reach {ladder : Ladder} {swept : Direct.MatchResult}
    (hfull : ∀ e ∈ ladder, e.2 ≠ []) (h : Direct.sweep agg ladder = .ok swept) :
    agg.remaining.toNat - swept.left.toNat =
        min agg.remaining.toNat (reach agg ladder).1 ∧
      (swept.blocked = true ↔ (reach agg ladder).2 = true ∧
        (reach agg ladder).1 < agg.remaining.toNat) := by
  have key := Direct.sweep_induction agg ladder (I := Reaching agg ladder)
    (P := fun res => ∀ swept, res = .ok swept →
      agg.remaining.toNat - swept.left.toNat =
          min agg.remaining.toNat (reach agg ladder).1 ∧
        (swept.blocked = true ↔ (reach agg ladder).2 = true ∧
          (reach agg ladder).1 < agg.remaining.toNat))
    ⟨hfull, Nat.le_refl _, fun _ => by simp, fun _ => rfl, fun hzero => by
      change agg.remaining = 0 at hzero
      rw [hzero]
      exact Nat.zero_le _⟩
    (fun st price head tail rest hst hl hc hacc hqty => hst.trade hl hc hacc hqty)
    ?_ (fun _ _ _ _ hr => by cases hr)
  · exact key swept h
  · intro st b hst hhalt swept hr
    cases hr
    have hbound := hst.bounded
    show agg.remaining.toNat - st.left.toNat = _ ∧ (b = true ↔ _)
    by_cases hpos : 0 < st.left
    · have hpos' : 0 < st.left.toNat := UInt64.lt_iff_toNat_lt.mp hpos
      have htotal := hst.total hpos
      have hblocked := hst.blocked hpos
      -- Nothing more is reached where the loop halts.
      cases hhalt with
      | filled hz =>
          rw [hz] at hpos
          exact absurd hpos (UInt64.lt_irrefl 0)
      | exhausted hl =>
          rw [hl, reach] at htotal hblocked
          refine ⟨by omega, ⟨fun hb => (by cases hb), fun hb => ?_⟩⟩
          rw [← hblocked] at hb
          cases hb.1
      | vacant price rest hl =>
          exact absurd rfl (hst.full (price, []) (hl ▸ List.mem_cons_self))
      | outOfReach price queue rest hl hc =>
          rw [hl, reach, if_neg (by simp [hc])] at htotal hblocked
          refine ⟨by omega, ⟨fun hb => (by cases hb), fun hb => ?_⟩⟩
          rw [← hblocked] at hb
          cases hb.1
      | ownAccount price head tail rest hl hleft hc hacc =>
          have hzero : reach agg st.ladder = (0, true) := by
            rw [hl, reach, if_pos hc]
            simp [queueReach, joinReach, hacc]
          rw [hzero] at htotal hblocked
          refine ⟨by omega, ⟨fun _ => ⟨hblocked.symm, by omega⟩, fun _ => rfl⟩⟩
    · have hzero : st.left = 0 := by
        by_contra hne
        exact hpos (UInt64.pos_iff_ne_zero.mpr hne)
      have hall := hst.filled hzero
      have hzero' : st.left.toNat = 0 := by rw [hzero]; rfl
      refine ⟨by omega, ⟨fun hb => ?_, fun hb => ?_⟩⟩
      · -- Only an order with something left is blocked.
        rw [hb] at hhalt
        cases hhalt with
        | ownAccount _ _ _ _ _ hleft _ _ => exact absurd hleft hpos
      · omega

end Reach

end Exchange
