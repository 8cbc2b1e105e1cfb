import Exchange.Core.TrancheRuns
import Exchange.Core.Conservation

/-!
# An order in two parts

Sending an order in two parts, one after the other, trades as the whole order does: the
same resting orders lose the same quantities at the same prices, and the same is left over.
The second part goes on where the first one stopped. If that was within a tranche, what is
one trade of the whole order is two trades with the same head.
-/

namespace Exchange

open Framework Framework.Exec OrderBook

/-- What a list of fills took from a resting order at a price. -/
def volume (fills : List Fill) (id : OrderId) (price : Price) : ℕ :=
  filledWhere (fun f => f.restingId = id ∧ f.price = price) fills

/-- The share of one fill. -/
def Fill.volume (f : Fill) (id : OrderId) (price : Price) : ℕ :=
  if f.restingId = id ∧ f.price = price then f.quantity.toNat else 0

theorem volume_snoc (fills : List Fill) (f : Fill) (id : OrderId) (price : Price) :
    volume (fills ++ [f]) id price = volume fills id price + f.volume id price :=
  filledWhere_snoc _ fills f

theorem toNat_min (a b : Quantity) : (min a b).toNat = min a.toNat b.toNat := by
  rcases UInt64.le_total a b with h | h
  · rw [show min a b = a by grind, Nat.min_eq_left (UInt64.le_iff_toNat_le.mp h)]
  · rw [show min a b = b by grind, Nat.min_eq_right (UInt64.le_iff_toNat_le.mp h)]

namespace Direct

/-! ## Orders that match alike -/

/-- Orders of one account that reach the same prices. -/
structure Alike (a b : Order) : Prop where
  account : a.account = b.account
  crosses : ∀ price, a.crosses price = b.crosses price

theorem Alike.symm {a b : Order} (h : Alike a b) : Alike b a :=
  ⟨h.account.symm, fun price => (h.crosses price).symm⟩

theorem Alike.trans {a b c : Order} (h : Alike a b) (h' : Alike b c) : Alike a c :=
  ⟨h.account.trans h'.account, fun price => (h.crosses price).trans (h'.crosses price)⟩

section Turns

variable {agg : Order} {st : MatchState} {b : Bool} {price : Price} {head : Order}
  {tail : Queue} {rest : Ladder}

theorem turn_of_halted (h : Halted agg st b) :
    (matchLoop agg).body st = .done (.ok (stop st b)) := by
  show matchTurn agg st = _
  unfold matchTurn
  cases h with
  | filled h => simp [h]
  | exhausted h =>
      rw [h]
      split <;> rfl
  | vacant price rest h =>
      rw [h]
      split <;> rfl
  | outOfReach price queue rest h hc =>
      rw [h]
      cases queue <;> simp [hc]
  | ownAccount price head tail rest h hleft hc hacc =>
      rw [h]
      simp [hleft, hc, hacc]

theorem turn_of_trade (hl : st.ladder = (price, head :: tail) :: rest)
    (hc : agg.crosses price = true) (hacc : head.account ≠ agg.account)
    (hqty : 0 < min st.left head.visibleQty) :
    (matchLoop agg).body st =
      .next (trade agg st price head tail rest (min st.left head.visibleQty)) := by
  have hleft : 0 < st.left := by grind
  show matchTurn agg st = _
  unfold matchTurn
  rw [hl]
  simp [hleft, hc, hacc, hqty]

/-- An order that has quantity left halts at a ladder because of the ladder, and so does
any other order like it. -/
theorem Halted.elsewhere {agg' : Order} {st' : MatchState} (h : Halted agg st b)
    (halike : Alike agg agg') (hladder : st'.ladder = st.ladder) (hleft : st.left ≠ 0)
    (hleft' : 0 < st'.left) : Halted agg' st' b := by
  cases h with
  | filled h => exact absurd h hleft
  | exhausted h => exact .exhausted (hladder.trans h)
  | vacant price rest h => exact .vacant price rest (hladder.trans h)
  | outOfReach price queue rest h hc =>
      exact .outOfReach price queue rest (hladder.trans h) (halike.crosses price ▸ hc)
  | ownAccount price head tail rest h _ hc hacc =>
      exact .ownAccount price head tail rest (hladder.trans h) hleft'
        (halike.crosses price ▸ hc) (hacc.trans halike.account)

end Turns

/-- A head that shows something does not stop a match. -/
theorem Stuck.not_shown {agg : Order} {st : MatchState} (h : Stuck agg st) :
    ¬ st.ladder.All fun _ o => Shown o := by
  obtain ⟨price, head, tail, rest, hl, _, _, _, hv⟩ := h
  intro hst
  rw [hl] at hst
  have hshown := hst (price, head :: tail) List.mem_cons_self head List.mem_cons_self
  exact absurd hv (UInt64.pos_iff_ne_zero.mp hshown.shows)

/-- Where every order shows something, matching goes through. -/
theorem run_of_shown (agg : Order) (st : MatchState) (h : st.ladder.All fun _ o => Shown o) :
    ∃ r, (matchLoop agg).run st = .ok r := by
  refine (matchLoop agg).run_induction (I := fun st => st.ladder.All fun _ o => Shown o)
    (P := fun res => ∃ r, res = .ok r) h ?_ ?_
  · intro st st' hst hturn
    obtain ⟨price, head, tail, rest, hl, _, _, _, hqty, rfl⟩ := matchTurn_next hturn
    exact shown_kept.trade hst hl hqty
  · intro st res hst hturn
    rcases matchTurn_done hturn with ⟨b, _, rfl⟩ | ⟨hstuck, _⟩
    · exact ⟨_, rfl⟩
    · exact absurd hst hstuck.not_shown

/-! ## The order matters only by what it reaches -/

/-- Two results that differ in who traded at most, each after the fills it started with. -/
structure SameResult (before before' : List Fill) (r r' : MatchResult) : Prop where
  left : r.left = r'.left
  ladder : r.ladder = r'.ladder
  blocked : r.blocked = r'.blocked
  volume : ∀ id price, volume r.fills id price + volume before' id price =
    volume r'.fills id price + volume before id price

/-- **Matching does not look at the order's name.** -/
theorem run_alike {a b : Order} {st : MatchState} {r : MatchResult} (h : Alike a b)
    (st' : MatchState) (hr : (matchLoop a).run st = .ok r)
    (hshown : st.ladder.All fun _ o => Shown o)
    (hleft : st.left = st'.left) (hladder : st.ladder = st'.ladder) :
    ∃ r', (matchLoop b).run st' = .ok r' ∧ SameResult st.fills st'.fills r r' := by
  refine (matchLoop a).run_related (matchLoop b)
    (R := fun x x' => (x.ladder.All fun _ o => Shown o) ∧ x.left = x'.left ∧
      x.ladder = x'.ladder ∧
      ∀ id price, volume x.fills id price + volume st'.fills id price =
        volume x'.fills id price + volume st.fills id price)
    (Q := fun res res' => ∀ r, res = .ok r →
      ∃ r', res' = .ok r' ∧ SameResult st.fills st'.fills r r')
    ⟨hshown, hleft, hladder, fun _ _ => Nat.add_comm _ _⟩ ?_ r hr
  rintro x x' ⟨hs, hl, hlad, hvol⟩
  cases hturn : (matchLoop a).body x with
  | next y =>
      obtain ⟨price, head, tail, rest, hx, _, hc, hacc, hqty, rfl⟩ := matchTurn_next hturn
      refine Or.inl ⟨_, _, rfl, turn_of_trade (hlad ▸ hx) (h.crosses price ▸ hc)
        (h.account ▸ hacc) (hl ▸ hqty), shown_kept.trade hs hx hqty, ?_, ?_, ?_⟩
      · show x.left - _ = x'.left - _
        rw [hl]
      · show pushLevel _ _ _ = pushLevel _ _ _
        rw [hl]
      · intro id p
        have hold := hvol id p
        have hshare : (fillOf a head price (min x.left head.visibleQty)).volume id p =
            (fillOf b head price (min x.left head.visibleQty)).volume id p := rfl
        show volume (x.fills ++ [_]) id p + _ = volume (x'.fills ++ [_]) id p + _
        rw [volume_snoc, volume_snoc, ← hl, hshare]
        omega
  | done res =>
      rcases matchTurn_done hturn with ⟨b', hhalted, rfl⟩ | ⟨hstuck, _⟩
      · have hhalted' : Halted b x' b' := by
          by_cases hzero : x.left = 0
          · cases hhalted with
            | ownAccount _ _ _ _ _ hpos => exact absurd hzero (UInt64.pos_iff_ne_zero.mp hpos)
            | filled | exhausted | vacant | outOfReach => exact .filled (hl ▸ hzero)
          · exact hhalted.elsewhere h hlad.symm hzero (hl ▸ UInt64.pos_iff_ne_zero.mpr hzero)
        refine Or.inr ⟨_, _, rfl, turn_of_halted hhalted', ?_⟩
        rintro _ ⟨⟩
        exact ⟨_, rfl, hl, hlad, rfl, hvol⟩
      · exact absurd hs hstuck.not_shown

/-! ## The seam -/

/-- A result against those of the two parts, each after the fills it started with. -/
structure Joined (before₁ before₂ before : List Fill) (part : Quantity)
    (r₁ r₂ r : MatchResult) : Prop where
  left : r.left.toNat = r₁.left.toNat + r₂.left.toNat
  ladder : r.ladder = r₂.ladder
  blocked : r.blocked = (r₁.blocked || r₂.blocked)
  volume : ∀ id price, volume r.fills id price + volume before₁ id price +
    volume before₂ id price = volume r₁.fills id price + volume r₂.fills id price +
    volume before id price
  /-- What stops the first part stops the second. -/
  carried : r₁.left ≠ 0 → r₂.left = part ∧ r₂.blocked = r₁.blocked

/-- A trade within a tranche leaves the head where it is. -/
theorem settle_within {head : Order} {tail : Queue} {qty : Quantity} (hs : Shown head)
    (hq : qty < head.visibleQty) :
    settle (head.onPartialFill qty) tail = head.onPartialFill qty :: tail := by
  have hshown := hs.onPartialFill hq
  have hpos : 0 < (head.onPartialFill qty).remaining :=
    UInt64.lt_of_lt_of_le hshown.shows hshown.within
  have hfilled : ¬ (head.onPartialFill qty).isFilled = true := by
    simpa [Order.isFilled] using UInt64.pos_iff_ne_zero.mp hpos
  have hspent : ¬ (head.onPartialFill qty).needsReplenish = true := by
    have hne := UInt64.pos_iff_ne_zero.mp hshown.shows
    simp only [Order.needsReplenish, decide_eq_false hne, Bool.and_false, Bool.false_eq_true,
      not_false_eq_true]
  rw [settle, if_neg hfilled, if_neg hspent]

/-- One more trade ahead of both, that takes the same. -/
theorem Joined.trade {before₁ before₂ before : List Fill} {part : Quantity}
    {r₁ r₂ r : MatchResult} {f₁ f : Fill}
    (hshare : ∀ id price, f₁.volume id price = f.volume id price)
    (h : Joined (before₁ ++ [f₁]) before₂ (before ++ [f]) part r₁ r₂ r) :
    Joined before₁ before₂ before part r₁ r₂ r := by
  refine { h with volume := fun id price => ?_ }
  have hvol := h.volume id price
  rw [volume_snoc, volume_snoc, hshare] at hvol
  omega

section Seam

variable {agg₂ agg : Order} {part : Quantity} {st₁ st : MatchState} {price : Price}
  {head : Order} {tail : Queue} {rest : Ladder}

/-- Nothing is left of the first part: the whole goes on as the second part does. -/
theorem joined_filled (h₂ : Alike agg₂ agg) (before₂ : List Fill)
    (hshown : st₁.ladder.All fun _ o => Shown o) (hladder : st.ladder = st₁.ladder)
    (hleft : st.left = part) (hzero : st₁.left = 0) :
    ∃ r₂ r, (matchLoop agg₂).run ⟨part, st₁.ladder, before₂⟩ = .ok r₂ ∧
      (matchLoop agg).run st = .ok r ∧
      Joined st₁.fills before₂ st.fills part (stop st₁ false) r₂ r := by
  obtain ⟨r₂, hr₂⟩ := run_of_shown agg₂ ⟨part, st₁.ladder, before₂⟩ hshown
  obtain ⟨r, hr, hsame⟩ := run_alike h₂ st hr₂ hshown hleft.symm hladder.symm
  refine ⟨r₂, r, hr₂, hr, ?_, hsame.ladder.symm, hsame.blocked.symm, ?_,
    fun hne => absurd hzero hne⟩
  · rw [← hsame.left]
    show r₂.left.toNat = st₁.left.toNat + _
    rw [hzero]
    exact (Nat.zero_add _).symm
  · intro id price
    have hvol := hsame.volume id price
    dsimp only [stop] at hvol ⊢
    omega

/-- The first part ends within the tranche of the head, and the second part goes on with
what is left of that. -/
theorem joined_within (agg₁ : Order) (h₂ : Alike agg₂ agg) (hpart : part ≠ 0) (before₂ : List Fill)
    (hshown : st₁.ladder.All fun _ o => Shown o)
    (hl : st₁.ladder = (price, head :: tail) :: rest) (hladder : st.ladder = st₁.ladder)
    (hc : agg.crosses price = true) (hacc : head.account ≠ agg.account)
    (hleft : st.left.toNat = st₁.left.toNat + part.toNat) (hpos : 0 < st₁.left)
    (hwithin : st₁.left < head.visibleQty) :
    ∃ r₂ r, (matchLoop agg₂).run
        ⟨part, (price, head.onPartialFill st₁.left :: tail) :: rest, before₂⟩ = .ok r₂ ∧
      (matchLoop agg).run st = .ok r ∧
      Joined st₁.fills before₂ st.fills part
        ⟨0, (price, head.onPartialFill st₁.left :: tail) :: rest,
          st₁.fills ++ [fillOf agg₁ head price st₁.left], false⟩ r₂ r := by
  have hall : Ladder.All (fun _ o => Shown o)
      ((price, head.onPartialFill st₁.left :: tail) :: rest) := by
    rw [hl] at hshown
    have hqueue := hshown (price, head :: tail) List.mem_cons_self
    intro e he o ho
    rcases List.mem_cons.mp he with rfl | he
    · rcases List.mem_cons.mp ho with rfl | ho
      · exact (hqueue head List.mem_cons_self).onPartialFill hwithin
      · exact hqueue o (List.mem_cons_of_mem _ ho)
    · exact hshown e (List.mem_cons_of_mem _ he) o ho
  set head' := head.onPartialFill st₁.left with hhead'
  set qty := min part head'.visibleQty with hqtydef
  have hvisible : head'.visibleQty.toNat = head.visibleQty.toNat - st₁.left.toNat := by
    rw [hhead', Order.onPartialFill_visibleQty]
    exact UInt64.toNat_sub_of_le _ _ (UInt64.le_of_lt hwithin)
  have hlt := UInt64.lt_iff_toNat_lt.mp hwithin
  have hpart₀ := UInt64.lt_iff_toNat_lt.mp (UInt64.pos_iff_ne_zero.mpr hpart)
  have hqty : qty.toNat = min part.toNat head'.visibleQty.toNat := toNat_min _ _
  have hqtypos : 0 < qty := by
    rw [UInt64.lt_iff_toNat_lt, hqty]
    show 0 < _
    simp only [UInt64.toNat_zero] at hpart₀
    omega
  have htaken : (st₁.left + qty).toNat = st₁.left.toNat + qty.toNat := by
    have hsize := head.visibleQty.toNat_lt
    rw [UInt64.toNat_add, Nat.mod_eq_of_lt (by omega)]
  have hsum : min st.left head.visibleQty = st₁.left + qty := by
    refine UInt64.toNat_inj.mp ?_
    rw [toNat_min, htaken]
    omega
  -- the state after the second part's first trade, and after the one trade of the whole
  obtain ⟨r₂, hr₂⟩ := run_of_shown agg₂
    (Direct.trade agg₂ ⟨part, (price, head' :: tail) :: rest, before₂⟩ price head' tail rest qty)
    (shown_kept.trade hall rfl hqtypos)
  have hleft' : part - qty = st.left - (st₁.left + qty) := by
    refine UInt64.toNat_inj.mp ?_
    rw [UInt64.toNat_sub_of_le _ _ (UInt64.le_iff_toNat_le.mpr (by omega)),
      UInt64.toNat_sub_of_le _ _ (UInt64.le_iff_toNat_le.mpr (by omega))]
    omega
  obtain ⟨r, hr, hsame⟩ := run_alike h₂
    (Direct.trade agg st price head tail rest (st₁.left + qty)) hr₂
    (shown_kept.trade hall rfl hqtypos) hleft' (by
      show pushLevel price (settle (head'.onPartialFill qty) tail) rest = _
      rw [hhead', Order.onPartialFill_onPartialFill]
      rfl)
  have hacc' : head'.account ≠ agg₂.account := by
    rw [hhead', Order.onPartialFill_account, h₂.account]
    exact hacc
  refine ⟨r₂, r, ?_, ?_, ?_, hsame.ladder.symm, hsame.blocked.symm, ?_, fun hne => absurd rfl hne⟩
  · rw [(matchLoop agg₂).run_next (turn_of_trade rfl (h₂.crosses price ▸ hc) hacc' hqtypos)]
    exact hr₂
  · rw [(matchLoop agg).run_next (turn_of_trade (hladder.trans hl) hc hacc (by
      rw [hsum, UInt64.lt_iff_toNat_lt, htaken]
      have := UInt64.lt_iff_toNat_lt.mp hpos
      simp only [UInt64.toNat_zero] at this ⊢
      omega)), hsum]
    exact hr
  · rw [← hsame.left]
    exact (Nat.zero_add _).symm
  · intro id p
    have hvol := hsame.volume id p
    have hshare : (fillOf agg head price (st₁.left + qty)).volume id p =
        (fillOf agg₁ head price st₁.left).volume id p +
          (fillOf agg₂ head' price qty).volume id p := by
      show (if head.id = id ∧ price = p then (st₁.left + qty).toNat else 0) =
        (if head.id = id ∧ price = p then st₁.left.toNat else 0) +
          if head'.id = id ∧ price = p then qty.toNat else 0
      rw [hhead', Order.onPartialFill_id, htaken]
      split <;> rfl
    change volume r₂.fills id p +
        volume (st.fills ++ [fillOf agg head price (st₁.left + qty)]) id p =
      volume r.fills id p + volume (before₂ ++ [fillOf agg₂ head' price qty]) id p at hvol
    rw [volume_snoc, volume_snoc] at hvol
    rw [volume_snoc]
    omega

end Seam

/-- **The seam.** Matching a part and then the rest comes to where matching the whole
does. The induction is on what is left of the first part. -/
theorem run_joined {agg₁ agg₂ agg : Order} (h₁ : Alike agg₁ agg) (h₂ : Alike agg₂ agg)
    {part : Quantity} (hpart : part ≠ 0) (before₂ : List Fill) {st₁ st : MatchState}
    (hshown : st₁.ladder.All fun _ o => Shown o) (hladder : st.ladder = st₁.ladder)
    (hleft : st.left.toNat = st₁.left.toNat + part.toNat) :
    ∃ r₁ r₂ r, (matchLoop agg₁).run st₁ = .ok r₁ ∧
      (matchLoop agg₂).run ⟨part, r₁.ladder, before₂⟩ = .ok r₂ ∧
      (matchLoop agg).run st = .ok r ∧ Joined st₁.fills before₂ st.fills part r₁ r₂ r := by
  have hpart₀ : 0 < part.toNat := Nat.pos_of_ne_zero fun hzero => hpart (UInt64.toNat_inj.mp hzero)
  induction hn : st₁.left.toNat using Nat.strong_induction_on generalizing st₁ st with
  | _ n ih =>
  have hpos : 0 < st.left := by
    rw [UInt64.lt_iff_toNat_lt]
    show 0 < st.left.toNat
    omega
  cases hturn : (matchLoop agg₁).body st₁ with
  | done res =>
      rcases matchTurn_done hturn with ⟨b, hhalted, rfl⟩ | ⟨hstuck, _⟩
      · by_cases hzero : st₁.left = 0
        · obtain rfl : b = false := by
            cases hhalted with
            | ownAccount _ _ _ _ _ hpos => exact absurd hzero (UInt64.pos_iff_ne_zero.mp hpos)
            | filled | exhausted | vacant | outOfReach => rfl
          have hwhole : st.left = part := by
            rw [hzero] at hleft
            exact UInt64.toNat_inj.mp (by simpa using hleft)
          obtain ⟨r₂, r, hr₂, hr, hjoined⟩ := joined_filled h₂ before₂ hshown hladder hwhole hzero
          exact ⟨_, r₂, r, (matchLoop agg₁).run_done hturn, hr₂, hr, hjoined⟩
        · -- the ladder has stopped it, and stops the others
          have hhalted₂ : Halted agg₂ ⟨part, st₁.ladder, before₂⟩ b :=
            hhalted.elsewhere (h₁.trans h₂.symm) rfl hzero (UInt64.pos_iff_ne_zero.mpr hpart)
          refine ⟨_, _, _, (matchLoop agg₁).run_done hturn,
            (matchLoop agg₂).run_done (turn_of_halted hhalted₂),
            (matchLoop agg).run_done (turn_of_halted (hhalted.elsewhere h₁ hladder hzero hpos)),
            hleft, hladder, (Bool.or_self b).symm, ?_, fun _ => ⟨rfl, rfl⟩⟩
          intro id price
          dsimp only [stop]
          omega
      · exact absurd hshown hstuck.not_shown
  | next st₁' =>
      obtain ⟨price, head, tail, rest, hl, hleft₁, hc, hacc, hqty, rfl⟩ := matchTurn_next hturn
      have hhead : Shown head := by
        rw [hl] at hshown
        exact hshown (price, head :: tail) List.mem_cons_self head List.mem_cons_self
      have hc' : agg.crosses price = true := h₁.crosses price ▸ hc
      have hacc' : head.account ≠ agg.account := h₁.account ▸ hacc
      have hkept : (Direct.trade agg₁ st₁ price head tail rest _).ladder.All fun _ o => Shown o :=
        shown_kept.trade hshown hl hqty
      have hle : st₁.left ≤ st.left := UInt64.le_iff_toNat_le.mpr (by omega)
      rw [(matchLoop agg₁).run_next hturn]
      by_cases hv : head.visibleQty ≤ st₁.left
      · -- both take the tranche
        have hmin₁ : min st₁.left head.visibleQty = head.visibleQty := by grind
        have hmin : min st.left head.visibleQty = head.visibleQty := by grind
        have hnat := UInt64.le_iff_toNat_le.mp hv
        have hvpos : 0 < head.visibleQty.toNat := UInt64.lt_iff_toNat_lt.mp hhead.shows
        rw [(matchLoop agg).run_next (turn_of_trade (hladder.trans hl) hc' hacc'
          (by rw [hmin]; exact hhead.shows))]
        rw [hmin₁] at hkept ⊢
        rw [hmin]
        have hrest₁ : (st₁.left - head.visibleQty).toNat =
            st₁.left.toNat - head.visibleQty.toNat := UInt64.toNat_sub_of_le _ _ hv
        have hrest : (st.left - head.visibleQty).toNat =
            st.left.toNat - head.visibleQty.toNat :=
          UInt64.toNat_sub_of_le _ _ (UInt64.le_trans hv hle)
        obtain ⟨r₁, r₂, r, hr₁, hr₂, hr, hjoined⟩ := ih _
          (show (st₁.left - head.visibleQty).toNat < n by omega) hkept
          (rfl : (Direct.trade agg st price head tail rest head.visibleQty).ladder = _)
          (show (st.left - head.visibleQty).toNat = (st₁.left - head.visibleQty).toNat + _ by omega)
          rfl
        refine ⟨r₁, r₂, r, hr₁, hr₂, hr, Joined.trade (fun _ _ => ?_) hjoined⟩
        rfl
      · -- the first part ends there
        have hwithin : st₁.left < head.visibleQty := by grind
        have hmin₁ : min st₁.left head.visibleQty = st₁.left := by grind
        obtain ⟨r₂, r, hr₂, hr, hjoined⟩ := joined_within agg₁ h₂ hpart before₂ hshown
          hl hladder hc' hacc' hleft hleft₁ hwithin
        rw [hmin₁]
        have hended : (matchLoop agg₁).run (Direct.trade agg₁ st₁ price head tail rest st₁.left) =
            .ok ⟨0, (price, head.onPartialFill st₁.left :: tail) :: rest,
              st₁.fills ++ [fillOf agg₁ head price st₁.left], false⟩ := by
          rw [(matchLoop agg₁).run_done (turn_of_halted (.filled (UInt64.sub_self _)))]
          simp only [stop, Direct.trade, UInt64.sub_self, settle_within hhead hwithin, pushLevel,
            List.isEmpty_cons, Bool.false_eq_true, if_false]
        exact ⟨_, r₂, r, hended, hr₂, hr, hjoined⟩

/-- **A sweep in two parts.** -/
theorem sweep_joined {o o₁ o₂ : Order} {ladder : Ladder} (h₁ : Alike o₁ o) (h₂ : Alike o₂ o)
    (hshown : ladder.All fun _ o => Shown o) (hpart : o₂.remaining ≠ 0)
    (hsum : o.remaining.toNat = o₁.remaining.toNat + o₂.remaining.toNat) :
    ∃ r₁ r₂ r, sweep o₁ ladder = .ok r₁ ∧ sweep o₂ r₁.ladder = .ok r₂ ∧
      sweep o ladder = .ok r ∧ Joined [] [] [] o₂.remaining r₁ r₂ r :=
  run_joined h₁ h₂ hpart [] hshown rfl hsum

end Direct

/-! ## Submitting in parts -/

/-- Two orders that divide a third between them. -/
structure Order.Parts (o o₁ o₂ : Order) : Prop where
  side₁ : o₁.side = o.side
  side₂ : o₂.side = o.side
  account₁ : o₁.account = o.account
  account₂ : o₂.account = o.account
  price₁ : o₁.restingPrice = o.restingPrice
  price₂ : o₂.restingPrice = o.restingPrice
  remaining : o.remaining.toNat = o₁.remaining.toNat + o₂.remaining.toNat

theorem alike_of_terms {a b : Order} (hside : a.side = b.side) (haccount : a.account = b.account)
    (hprice : a.restingPrice = b.restingPrice) : Direct.Alike a b := by
  refine ⟨haccount, fun price => ?_⟩
  cases hp : a.restingPrice with
  | none => rw [crosses_of_market hp, crosses_of_market (hprice ▸ hp)]
  | some limit =>
      have hiff : a.crosses price = false ↔ b.crosses price = false := by
        rw [crosses_eq_false hp, crosses_eq_false (hprice ▸ hp), hside]
      cases ha : a.crosses price <;> cases hb : b.crosses price <;> simp_all

/-- An order that no side knows is matched, if memory does not run out. -/
theorem submit_entered {m : BookMemory} (h : WellFormed m) {o : Order}
    {swept : Direct.MatchResult} (hq : o.remaining ≠ 0) (hid : m.state.view.locate o.id = none)
    (hsw : Direct.sweep o (m.state.view.ladder (opposite o.side)) = .ok swept) :
    ∃ m', Book.submit (some o) (fun _ => false) m = (.ok (Market.submitResult o swept), m') ∧
      m'.state.view = m.state.view.settleEntry o.side o swept ∧ WellFormed m' := by
  have href := Book.submit_refines (fun _ => false) h (some o)
  rw [Market.submit, if_neg hq, if_neg (by simp [hid]), Market.enter, hsw] at href
  cases hx : Book.submit (some o) (fun _ => false) m with
  | mk r m' =>
      rw [hx] at href
      cases href with
      | starved _ _ hf =>
          obtain ⟨n, hn⟩ := hf
          cases hn
      | refused _ _ he _ => cases he
      | done res _ he hwf _ _ =>
          obtain ⟨rfl, hview⟩ := Prod.mk.inj (Except.ok.inj he)
          exact ⟨m', rfl, hview.symm, hwf⟩

namespace Market

variable {o : Order} {swept : Direct.MatchResult}

/-- What comes to rest is what is left, unless the order may not rest or was blocked. -/
theorem restingQty_eq :
    (submitResult o swept).restingQty =
      if o.restingPrice.isSome ∧ swept.blocked = false then swept.left else 0 := by
  cases hrest : restsAt o swept with
  | some price =>
      obtain ⟨_, hblocked, hprice⟩ := restsAt_eq_some hrest
      rw [(status_of_restsAt hrest).2, if_pos ⟨hprice ▸ rfl, hblocked⟩]
  | none =>
      rw [(status_of_restsAt_none hrest).1]
      split
      · rename_i hmay
        obtain ⟨price, hprice⟩ := Option.isSome_iff_exists.mp hmay.1
        by_contra hleft
        rw [restsAt_of_unblocked hprice hmay.2
          (UInt64.pos_iff_ne_zero.mpr (Ne.symm hleft))] at hrest
        cases hrest
      · rfl

/-- The ids of a market after an entry were there before, or are the new order's. -/
theorem locate_settleEntry {M : Market} {s : Side} {id : OrderId}
    (hord : (M.ladder s).Ordered s)
    (hsw : Direct.sweep o (M.ladder (opposite s)) = .ok swept) (hid : M.locate id = none)
    (hne : o.id ≠ id) : (M.settleEntry s o swept).locate id = none := by
  have hnone := locate_eq_none.mp hid
  refine locate_eq_none.mpr fun t => ?_
  rcases eq_or_eq_opposite s t with rfl | rfl
  · cases hrest : restsAt o swept with
    | none =>
        rw [settleEntry_own_none M _ hrest]
        exact hnone _
    | some price =>
        rw [settleEntry_own M _ hrest, Ladder.ids,
          ((Ladder.rest_orders hord).map Order.id).mem_iff, List.map_cons, List.mem_cons, not_or]
        refine ⟨fun heq => hne ?_, hnone _⟩
        rw [heq, Order.onPartialFill_id]
        rfl
  · rw [settleEntry_opposite]
    exact fun hmem => hnone _ ((Direct.sweep_ids hsw).subset hmem)

theorem filledQty_toNat {ladder : Ladder} (h : Direct.sweep o ladder = .ok swept) :
    (submitResult o swept).filledQty.toNat = o.remaining.toNat - swept.left.toNat :=
  UInt64.toNat_sub_of_le _ _ (Direct.sweep_left_le h)

/-- What stops the first part stops the second, so what rests adds up. -/
theorem restingQty_joined {o₁ o₂ : Order} {ladder : Ladder} {s₁ s₂ s : Direct.MatchResult}
    (hparts : o.Parts o₁ o₂) (hs₁ : Direct.sweep o₁ ladder = .ok s₁)
    (hjoined : Direct.Joined [] [] [] o₂.remaining s₁ s₂ s) :
    (submitResult o s).restingQty.toNat =
      (submitResult o₁ s₁).restingQty.toNat + (submitResult o₂ s₂).restingQty.toNat := by
  have hblocked := hjoined.blocked
  have hcarried := hjoined.carried
  rw [restingQty_eq, restingQty_eq, restingQty_eq, hparts.price₁, hparts.price₂]
  cases hb₁ : s₁.blocked with
  | true =>
      have hne₁ := UInt64.pos_iff_ne_zero.mp (Direct.sweep_blocked hs₁ hb₁)
      simp [hblocked, hb₁, (hcarried hne₁).2]
  | false =>
      cases hb₂ : s₂.blocked with
      | true =>
          have hzero : s₁.left = 0 := by
            by_contra hne₁
            rw [(hcarried hne₁).2, hb₁] at hb₂
            cases hb₂
          simp [hblocked, hb₁, hb₂, hzero]
      | false =>
          simp only [hblocked, hb₁, hb₂, Bool.or_self, and_true]
          split
          · exact hjoined.left
          · rfl

end Market

/-- **An order in two parts.** In every book of a run within the tranches, if no allocation
fails, two submits that divide an order between them trade as it does: each resting order
loses the same at the same price, as much is filled and as much comes to rest, and the
opposite side is the same afterwards; so is the own side, if the order cannot rest. -/
theorem parts_trade_alike {m : BookMemory} (h : Reachable WithinTranche m) {o o₁ o₂ : Order}
    (hparts : o.Parts o₁ o₂) (hq₁ : o₁.remaining ≠ 0) (hq₂ : o₂.remaining ≠ 0)
    (hid : m.state.view.locate o.id = none) (hid₁ : m.state.view.locate o₁.id = none)
    (hid₂ : m.state.view.locate o₂.id = none) (hne : o₁.id ≠ o₂.id) :
    ∃ r m' r₁ m₁ r₂ m₂, Book.submit (some o) (fun _ => false) m = (.ok r, m') ∧
      Book.submit (some o₁) (fun _ => false) m = (.ok r₁, m₁) ∧
      Book.submit (some o₂) (fun _ => false) m₁ = (.ok r₂, m₂) ∧
      m₂.state.view.ladder (opposite o.side) = m'.state.view.ladder (opposite o.side) ∧
      (o.restingPrice = none → m₂.state.view.ladder o.side = m'.state.view.ladder o.side) ∧
      r.filledQty.toNat = r₁.filledQty.toNat + r₂.filledQty.toNat ∧
      r.restingQty.toNat = r₁.restingQty.toNat + r₂.restingQty.toNat ∧
      ∀ id price, volume r.fills id price =
        volume r₁.fills id price + volume r₂.fills id price := by
  have hwf := h.wellFormed
  have hshown := (reachable_shown h).1 (opposite o.side)
  have hsum := hparts.remaining
  obtain ⟨s₁, s₂, s, hs₁, hs₂, hs, hjoined⟩ := Direct.sweep_joined
    (alike_of_terms hparts.side₁ hparts.account₁ hparts.price₁)
    (alike_of_terms hparts.side₂ hparts.account₂ hparts.price₂) hshown hq₂ hsum
  have hq : o.remaining ≠ 0 := by
    intro hzero
    rw [hzero] at hsum
    refine hq₁ (UInt64.toNat_inj.mp ?_)
    simp only [UInt64.toNat_zero] at hsum ⊢
    omega
  obtain ⟨m', hrun, hview, _⟩ := submit_entered hwf hq hid hs
  obtain ⟨m₁, hrun₁, hview₁, hwf₁⟩ := submit_entered hwf hq₁ hid₁ (hparts.side₁ ▸ hs₁)
  rw [hparts.side₁] at hview₁
  have hopp₁ : m₁.state.view.ladder (opposite o₂.side) = s₁.ladder := by
    rw [hview₁, hparts.side₂, Market.settleEntry_opposite]
  have hknown : m₁.state.view.locate o₂.id = none := by
    rw [hview₁]
    exact Market.locate_settleEntry (hwf.valid.ordered o.side) hs₁ hid₂ hne
  obtain ⟨m₂, hrun₂, hview₂, _⟩ := submit_entered hwf₁ hq₂ hknown (hopp₁ ▸ hs₂)
  rw [hparts.side₂] at hview₂
  refine ⟨_, m', _, m₁, _, m₂, hrun, hrun₁, hrun₂, ?_, ?_, ?_, ?_, ?_⟩
  · rw [hview, hview₂, Market.settleEntry_opposite, Market.settleEntry_opposite, hjoined.ladder]
  · intro hprice
    have hnone : ∀ {x : Order} {swept : Direct.MatchResult}, x.restingPrice = none →
        Market.restsAt x swept = none := fun hx => by simp [Market.restsAt, hx]
    rw [hview, hview₂, Market.settleEntry_own_none _ _ (hnone hprice),
      Market.settleEntry_own_none _ _ (hnone (hparts.price₂.trans hprice)), hview₁,
      Market.settleEntry_own_none _ _ (hnone (hparts.price₁.trans hprice))]
  · have hle := UInt64.le_iff_toNat_le.mp (Direct.sweep_left_le hs)
    have hle₁ := UInt64.le_iff_toNat_le.mp (Direct.sweep_left_le hs₁)
    have hle₂ := UInt64.le_iff_toNat_le.mp (Direct.sweep_left_le hs₂)
    have hleft := hjoined.left
    rw [Market.filledQty_toNat hs, Market.filledQty_toNat hs₁, Market.filledQty_toNat hs₂]
    omega
  · exact Market.restingQty_joined hparts hs₁ hjoined
  · intro id price
    have hnil : volume [] id price = 0 := rfl
    have hvol := hjoined.volume id price
    rw [hnil, Nat.add_zero, Nat.add_zero] at hvol
    exact hvol

/-- Four of the five on offer at 101, at once and as three and one. -/
theorem parts_trade_alike_quotes :
    ∃ r m' r₁ m₁ r₂ m₂,
      Book.submit (some (marketOrder 3 .buy 9 4)) (fun _ => false) quotes = (.ok r, m') ∧
      Book.submit (some (marketOrder 4 .buy 9 3)) (fun _ => false) quotes = (.ok r₁, m₁) ∧
      Book.submit (some (marketOrder 5 .buy 9 1)) (fun _ => false) m₁ = (.ok r₂, m₂) ∧
      m₂.state.view.ladder .sell = m'.state.view.ladder .sell ∧
      volume r.fills 2 101 = volume r₁.fills 2 101 + volume r₂.fills 2 101 := by
  have hquotes : Reachable WithinTranche quotes :=
    .step _ _ (.step _ _ .empty ⟨Order.Built.limit _ _ _ _ _, by decide +kernel⟩)
      ⟨Order.Built.limit _ _ _ _ _, by decide +kernel⟩
  have hparts : (marketOrder 3 .buy 9 4).Parts (marketOrder 4 .buy 9 3) (marketOrder 5 .buy 9 1) :=
    ⟨rfl, rfl, rfl, rfl, rfl, rfl, by decide⟩
  obtain ⟨r, m', r₁, m₁, r₂, m₂, hrun, hrun₁, hrun₂, hladder, _, _, _, hvolume⟩ :=
    parts_trade_alike hquotes hparts (by decide) (by decide) (by decide +kernel)
      (by decide +kernel) (by decide +kernel) (by decide)
  exact ⟨r, m', r₁, m₁, r₂, m₂, hrun, hrun₁, hrun₂, hladder, hvolume 2 101⟩

end Exchange
