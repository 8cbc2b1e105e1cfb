import Exchange.Core.Reach

/-!
# What a sweep does to each order

The account of every single order: each resting order loses exactly what the
fills that name it took, leaves when nothing is left, and is otherwise the
order it was; an order no fill names is untouched. All of it is kept by one
trade with the head of the best queue, so it holds where the sweep ends.
-/

namespace Exchange

open Framework

/-! ## The share of one order -/

/-- What a list of fills took altogether. -/
def filledTotal (fills : List Fill) : ℕ := (fills.map fun f => f.quantity.toNat).sum

/-- What those of the fills took that meet a condition. -/
def filledWhere (p : Fill → Prop) [DecidablePred p] (fills : List Fill) : ℕ :=
  filledTotal (fills.filter fun f => p f)

/-- What a list of fills took from the resting order `id`. -/
def filledOf (fills : List Fill) (id : OrderId) : ℕ :=
  filledWhere (fun f => f.restingId = id) fills

theorem filledWhere_snoc (p : Fill → Prop) [DecidablePred p] (fills : List Fill) (f : Fill) :
    filledWhere p (fills ++ [f]) =
      filledWhere p fills + if p f then f.quantity.toNat else 0 := by
  unfold filledWhere filledTotal
  rw [List.filter_append, List.map_append, List.sum_append]
  by_cases h : p f <;> simp [h]

theorem filledOf_snoc (fills : List Fill) (f : Fill) (id : OrderId) :
    filledOf (fills ++ [f]) id =
      filledOf fills id + if f.restingId = id then f.quantity.toNat else 0 :=
  filledWhere_snoc _ fills f

theorem filledTotal_snoc (fills : List Fill) (f : Fill) :
    filledTotal (fills ++ [f]) = filledTotal fills + f.quantity.toNat := by
  simp [filledTotal]

/-! ## Places -/

namespace Ladder

/-- Every order with the price it rests at. -/
def places (l : Ladder) : List (Price × Order) := l.flatMap fun e => e.2.map fun o => (e.1, o)

theorem mem_places {l : Ladder} {p : Price} {o : Order} :
    (p, o) ∈ l.places ↔ ∃ q, (p, q) ∈ l ∧ o ∈ q := by
  unfold places
  rw [List.mem_flatMap]
  constructor
  · rintro ⟨e, he, ho⟩
    obtain ⟨x, hx, heq⟩ := List.mem_map.mp ho
    cases heq
    exact ⟨e.2, he, hx⟩
  · rintro ⟨q, hq, ho⟩
    exact ⟨(p, q), hq, List.mem_map_of_mem ho⟩

theorem places_orders (l : Ladder) : l.places.map Prod.snd = l.orders := by
  unfold places orders
  rw [List.map_flatMap]
  congr 1
  funext e
  simp [Function.comp_def]

theorem places_ids (l : Ladder) : l.places.map (fun y => y.2.id) = l.ids := by
  unfold ids
  rw [← places_orders, List.map_map]
  rfl

/-- An id names one place. -/
theorem places_inj {l : Ladder} (h : l.ids.Nodup) {y z : Price × Order}
    (hy : y ∈ l.places) (hz : z ∈ l.places) (hid : y.2.id = z.2.id) : y = z := by
  rw [← places_ids] at h
  exact List.inj_on_of_nodup_map h hy hz hid

theorem places_cons (p : Price) (q : Queue) (l : Ladder) :
    places ((p, q) :: l) = q.map (fun o => (p, o)) ++ places l := rfl

theorem places_pushLevel (p : Price) (q : Queue) (l : Ladder) :
    places (Direct.pushLevel p q l) = q.map (fun o => (p, o)) ++ places l := by
  unfold Direct.pushLevel
  split
  · rename_i hq
    rw [List.isEmpty_iff.mp hq]
    rfl
  · rfl

end Ladder

namespace Direct

section Trade

variable {agg head : Order} {st : MatchState} {price : Price} {tail : Queue}
  {rest : Ladder} {qty : Quantity}

/-- After a trade, a place is what became of the head or an untouched place. -/
theorem mem_places_trade {y : Price × Order} :
    y ∈ (trade agg st price head tail rest qty).ladder.places ↔
      (y.1 = price ∧ y.2 ∈ settle (head.onPartialFill qty) []) ∨
        y ∈ tail.map (fun o => (price, o)) ++ Ladder.places rest := by
  show y ∈ Ladder.places (pushLevel price (settle (head.onPartialFill qty) tail) rest) ↔ _
  rw [Ladder.places_pushLevel, List.mem_append, List.mem_append, List.mem_map, List.mem_map]
  constructor
  · rintro (⟨o, ho, rfl⟩ | hy)
    · rcases mem_settle.mp ho with ho | ho
      · exact Or.inr (Or.inl ⟨o, ho, rfl⟩)
      · exact Or.inl ⟨rfl, ho⟩
    · exact Or.inr (Or.inr hy)
  · rintro (⟨hp, ho⟩ | ⟨o, ho, rfl⟩ | hy)
    · exact Or.inl ⟨y.2, mem_settle.mpr (Or.inr ho), Prod.ext hp.symm rfl⟩
    · exact Or.inl ⟨o, mem_settle.mpr (Or.inl ho), rfl⟩
    · exact Or.inr hy

/-- The untouched places belong to other orders. -/
theorem untouched_id_ne (hnd : st.ladder.ids.Nodup)
    (hl : st.ladder = (price, head :: tail) :: rest) {y : Price × Order}
    (hy : y ∈ tail.map (fun o => (price, o)) ++ Ladder.places rest) :
    y ∈ st.ladder.places ∧ y.2.id ≠ head.id := by
  have hplaces : st.ladder.places =
      (price, head) :: (tail.map (fun o => (price, o)) ++ Ladder.places rest) := by
    rw [hl, Ladder.places_cons]
    rfl
  rw [← Ladder.places_ids, hplaces, List.map_cons, List.nodup_cons] at hnd
  refine ⟨hplaces ▸ List.mem_cons_of_mem _ hy, fun heq => hnd.1 ?_⟩
  rw [← show y.2.id = head.id from heq]
  exact List.mem_map_of_mem hy

theorem head_mem_places (hl : st.ladder = (price, head :: tail) :: rest) :
    (price, head) ∈ st.ladder.places := by
  rw [hl]
  exact Ladder.mem_places.mpr ⟨_, List.mem_cons_self, List.mem_cons_self⟩

/-- What becomes of the head keeps its identity. -/
theorem settle_frame {x : Order} (hx : x ∈ settle (head.onPartialFill qty) []) :
    x.id = head.id ∧ x.account = head.account ∧ x.side = head.side ∧
      x.sequence = head.sequence ∧ x.restingPrice = head.restingPrice ∧
      x.remaining = head.remaining - qty := by
  unfold settle at hx
  split at hx
  · cases hx
  · split at hx
    · rw [List.nil_append, List.mem_singleton] at hx
      rw [hx]
      simp
    · rw [List.mem_singleton.mp hx]
      simp

/-- Nothing is left of a head that was filled. -/
theorem isFilled_of_settle (h : settle (head.onPartialFill qty) [] = []) :
    (head.onPartialFill qty).remaining.toNat = 0 := by
  unfold settle at h
  split at h
  · rename_i hfilled
    have hzero : (head.onPartialFill qty).remaining = 0 := by
      simpa [Order.isFilled] using hfilled
    rw [hzero]
    rfl
  · split at h <;> cases h

end Trade

end Direct

/-! ## The account of a sweep -/

/-- `x` is what the fills left of `x₀`. -/
structure Descends (fills : List Fill) (x₀ x : Order) : Prop where
  id : x.id = x₀.id
  account : x.account = x₀.account
  side : x.side = x₀.side
  sequence : x.sequence = x₀.sequence
  restingPrice : x.restingPrice = x₀.restingPrice
  remaining : x.remaining.toNat + filledOf fills x₀.id = x₀.remaining.toNat
  untouched : filledOf fills x₀.id = 0 → x = x₀

theorem Descends.refl (x : Order) : Descends [] x x :=
  ⟨rfl, rfl, rfl, rfl, rfl, rfl, fun _ => rfl⟩

/-- A fill against another order. -/
theorem Descends.snoc {fills : List Fill} {x₀ x : Order} {f : Fill}
    (h : Descends fills x₀ x) (hne : x.id ≠ f.restingId) :
    Descends (fills ++ [f]) x₀ x := by
  have hsame : filledOf (fills ++ [f]) x₀.id = filledOf fills x₀.id := by
    rw [filledOf_snoc, if_neg fun heq => hne (h.id.trans heq.symm), Nat.add_zero]
  refine { h with remaining := ?_, untouched := fun hzero => h.untouched ?_ }
  · rw [hsame]
    exact h.remaining
  · rw [← hsame]
    exact hzero

/-- A fill against the order itself, and what became of it. -/
theorem Descends.fill {fills : List Fill} {x₀ x y : Order} {f : Fill}
    (h : Descends fills x₀ x) (hid : f.restingId = x.id) (hpos : 0 < f.quantity)
    (hshown : Shown x) (hle : f.quantity ≤ x.visibleQty)
    (hy : y ∈ Direct.settle (x.onPartialFill f.quantity) []) :
    Descends (fills ++ [f]) x₀ y := by
  obtain ⟨hyid, haccount, hside, hseq, hprice, hleft⟩ := Direct.settle_frame hy
  obtain ⟨hrem, _⟩ := fill_toNat hshown hle
  have hold := h.remaining
  have hqty : 0 < f.quantity.toNat := UInt64.lt_iff_toNat_lt.mp hpos
  have hfilled : filledOf (fills ++ [f]) x₀.id =
      filledOf fills x₀.id + f.quantity.toNat := by
    rw [filledOf_snoc, if_pos (hid.trans h.id)]
  refine ⟨hyid.trans h.id, haccount.trans h.account, hside.trans h.side,
    hseq.trans h.sequence, hprice.trans h.restingPrice, ?_, ?_⟩
  · rw [Order.onPartialFill_remaining] at hrem
    rw [hfilled, hleft]
    omega
  · intro hzero
    rw [hfilled] at hzero
    omega

/-- The fill of `qty` against `x₀`. -/
structure FillsWith (agg : Order) (ladder : Ladder) (f : Fill) : Prop where
  positive : 0 < f.quantity
  aggressor : f.aggressorId = agg.id ∧ f.aggressorAccount = agg.account ∧
    f.aggressorSide = agg.side
  reached : agg.crosses f.price = true
  resting : ∃ x₀, (f.price, x₀) ∈ ladder.places ∧ f.restingId = x₀.id ∧
    f.restingAccount = x₀.account ∧ x₀.account ≠ agg.account

/-- The state of a sweep against the ladder it started from. -/
structure SweepAccount (agg : Order) (ladder : Ladder) (st : Direct.MatchState) : Prop where
  shown : st.ladder.All fun _ o => Shown o
  nodup : st.ladder.ids.Nodup
  kept : ∀ y ∈ st.ladder.places, ∃ x₀, (y.1, x₀) ∈ ladder.places ∧ Descends st.fills x₀ y.2
  gone : ∀ y₀ ∈ ladder.places, y₀.2.id ∉ st.ladder.ids →
    filledOf st.fills y₀.2.id = y₀.2.remaining.toNat
  fills : ∀ f ∈ st.fills, FillsWith agg ladder f

section Account

variable {agg head : Order} {ladder rest : Ladder} {st : Direct.MatchState} {price : Price}
  {tail : Queue}

theorem SweepAccount.start (hs : ladder.All fun _ o => Shown o) (hnd : ladder.ids.Nodup) :
    SweepAccount agg ladder { left := agg.remaining, ladder, fills := [] } where
  shown := hs
  nodup := hnd
  kept y hy := ⟨y.2, hy, Descends.refl y.2⟩
  gone y₀ hy₀ hid := by
    refine absurd ?_ hid
    show y₀.2.id ∈ ladder.ids
    rw [← Ladder.places_ids]
    exact List.mem_map_of_mem hy₀
  fills f hf := absurd hf List.not_mem_nil

/-- A place is still there after a trade, unless it was the head's. -/
theorem Direct.mem_ids_trade {qty : Quantity} {id : OrderId}
    (hl : st.ladder = (price, head :: tail) :: rest) (hne : head.id ≠ id)
    (hmem : id ∈ st.ladder.ids) :
    id ∈ (Direct.trade agg st price head tail rest qty).ladder.ids := by
  rw [← Ladder.places_ids] at hmem ⊢
  obtain ⟨y, hy, rfl⟩ := List.mem_map.mp hmem
  refine List.mem_map_of_mem (f := fun y : Price × Order => y.2.id)
    (Direct.mem_places_trade.mpr (Or.inr ?_))
  rw [hl, Ladder.places_cons] at hy
  rcases List.mem_cons.mp hy with rfl | hy
  · exact absurd rfl hne
  · exact hy

/-- A head that has left was filled by the trade. -/
theorem Direct.filled_of_left {qty : Quantity}
    (hgone : head.id ∉ (Direct.trade agg st price head tail rest qty).ladder.ids) :
    (head.onPartialFill qty).remaining.toNat = 0 := by
  refine Direct.isFilled_of_settle (List.eq_nil_iff_forall_not_mem.mpr fun x hx => hgone ?_)
  rw [← (Direct.settle_frame hx).1, ← Ladder.places_ids]
  exact List.mem_map_of_mem (f := fun y : Price × Order => y.2.id)
    (Direct.mem_places_trade.mpr (Or.inl ⟨rfl, hx⟩ : _ ∨ (price, x) ∈ _))

/-- **One trade keeps the account.** -/
theorem SweepAccount.trade (hlad : ladder.ids.Nodup) (h : SweepAccount agg ladder st)
    (hl : st.ladder = (price, head :: tail) :: rest) (hc : agg.crosses price = true)
    (hacc : head.account ≠ agg.account) (hqty : 0 < min st.left head.visibleQty) :
    SweepAccount agg ladder
      (Direct.trade agg st price head tail rest (min st.left head.visibleQty)) := by
  set qty := min st.left head.visibleQty with hqdef
  have hqv : qty ≤ head.visibleQty := by grind
  have hshown : Shown head := by
    have hall := h.shown
    rw [hl] at hall
    exact hall (price, head :: tail) List.mem_cons_self head List.mem_cons_self
  obtain ⟨x₀, hx₀, hdesc⟩ := h.kept (price, head) (Direct.head_mem_places hl)
  refine ⟨shown_kept.trade h.shown hl hqty, ?_, ?_, ?_, ?_⟩
  · obtain ⟨ids, hperm, hsub⟩ : (Direct.trade agg st price head tail rest qty).ladder.ids.Subperm
        st.ladder.ids := Direct.trade_ids hl
    exact hperm.nodup_iff.mp (h.nodup.sublist hsub)
  · intro y hy
    rcases Direct.mem_places_trade.mp hy with ⟨hp, hset⟩ | hy
    · exact ⟨x₀, hp ▸ hx₀, hdesc.fill rfl hqty hshown hqv hset⟩
    · obtain ⟨hmem, hne⟩ := Direct.untouched_id_ne h.nodup hl hy
      obtain ⟨x₁, hx₁, hd⟩ := h.kept y hmem
      exact ⟨x₁, hx₁, hd.snoc hne⟩
  · intro y₀ hy₀ hgone
    show filledOf (st.fills ++ [Direct.fillOf agg head price qty]) y₀.2.id = _
    rw [filledOf_snoc]
    by_cases hid : head.id = y₀.2.id
    · obtain rfl := Ladder.places_inj hlad hy₀ hx₀ (hid.symm.trans hdesc.id)
      have hzero := Direct.filled_of_left (hid ▸ hgone)
      obtain ⟨hrem, _⟩ := fill_toNat hshown hqv
      have hold := hdesc.remaining
      rw [if_pos (show (Direct.fillOf agg head price qty).restingId = _ from hid)]
      dsimp only [Direct.fillOf] at hold ⊢
      omega
    · rw [if_neg (show (Direct.fillOf agg head price qty).restingId ≠ _ from hid), Nat.add_zero]
      exact h.gone y₀ hy₀ fun hmem => hgone (Direct.mem_ids_trade hl hid hmem)
  · intro f hf
    rcases List.mem_append.mp hf with hf | hf
    · exact h.fills f hf
    · rw [List.mem_singleton.mp hf]
      exact ⟨hqty, ⟨rfl, rfl, rfl⟩, hc, x₀, hx₀, hdesc.id, hdesc.account,
        fun heq => hacc (hdesc.account.trans heq)⟩

/-- An order of the ladder is used up, or its remainder is still in its place. -/
theorem SweepAccount.used_or_kept (h : SweepAccount agg ladder st)
    (hlad : ladder.ids.Nodup) {p : Price} {x : Order} (hx : (p, x) ∈ ladder.places) :
    filledOf st.fills x.id = x.remaining.toNat ∧ x.id ∉ st.ladder.ids ∨
      ∃ x', (p, x') ∈ st.ladder.places ∧ Descends st.fills x x' ∧ 0 < x'.remaining := by
  by_cases hmem : x.id ∈ st.ladder.ids
  · rw [← Ladder.places_ids] at hmem
    obtain ⟨y, hy, hyid⟩ := List.mem_map.mp hmem
    obtain ⟨x₀, hx₀, hd⟩ := h.kept y hy
    obtain ⟨rfl, rfl⟩ := Prod.mk.inj
      (Ladder.places_inj hlad hx₀ hx (hd.id.symm.trans hyid))
    obtain ⟨q, hq, hyq⟩ := Ladder.mem_places.mp hy
    have hs := h.shown (y.1, q) hq y.2 hyq
    exact Or.inr ⟨y.2, hy, hd, UInt64.lt_of_lt_of_le hs.shows hs.within⟩
  · exact Or.inl ⟨h.gone (p, x) hx hmem, hmem⟩

/-- **The account of a sweep.** -/
theorem sweep_account {swept : Direct.MatchResult} (hs : ladder.All fun _ o => Shown o)
    (hnd : ladder.ids.Nodup) (h : Direct.sweep agg ladder = .ok swept) :
    SweepAccount agg ladder
      { left := swept.left, ladder := swept.ladder, fills := swept.fills } :=
  Direct.sweep_invariant (I := SweepAccount agg ladder) h (.start hs hnd)
    fun _ _ _ _ _ hst hl hc hacc hqty => hst.trade hnd hl hc hacc hqty

/-- What the fills took is what the order no longer has. -/
theorem sweep_total {swept : Direct.MatchResult} (h : Direct.sweep agg ladder = .ok swept) :
    filledTotal swept.fills + swept.left.toNat = agg.remaining.toNat := by
  refine Direct.sweep_invariant
    (I := fun st => filledTotal st.fills + st.left.toNat = agg.remaining.toNat) h ?_ ?_
  · simp [filledTotal]
  · intro st price head tail rest hst _ _ _ _
    set qty := min st.left head.visibleQty
    have hql : qty ≤ st.left := by grind
    have hle := UInt64.le_iff_toNat_le.mp hql
    show filledTotal (st.fills ++ [_]) + (st.left - qty).toNat = _
    rw [filledTotal_snoc, UInt64.toNat_sub_of_le _ _ hql]
    show filledTotal st.fills + qty.toNat + _ = _
    omega

end Account

/-! ## Prices along a sweep -/

/-- `q` is no better than `p` on side `s`. -/
def NoBetter (s : Side) (p q : Price) : Prop := p = q ∨ ordering s p q

/-- The prices of the fills so far, against each other and against what is left
of the ladder. -/
structure Descending (s : Side) (st : Direct.MatchState) : Prop where
  ordered : st.ladder.Ordered s
  fills : st.fills.Pairwise fun f g => NoBetter s f.price g.price
  ahead : ∀ f ∈ st.fills, ∀ p ∈ st.ladder.prices, NoBetter s f.price p

theorem sweep_descending {agg : Order} {ladder : Ladder} {s : Side}
    {swept : Direct.MatchResult} (hord : ladder.Ordered s)
    (h : Direct.sweep agg ladder = .ok swept) :
    swept.fills.Pairwise fun f g => NoBetter s f.price g.price := by
  have key := Direct.sweep_invariant (I := Descending s) h
    ⟨hord, List.Pairwise.nil, fun f hf => absurd hf List.not_mem_nil⟩ ?_
  · exact key.fills
  intro st price head tail rest hst hl _ _ _
  have hprices := hst.ordered.sorted
  have hahead := hst.ahead
  rw [hl] at hprices hahead
  have hsub := Direct.pushLevel_prices price
    (Direct.settle (head.onPartialFill (min st.left head.visibleQty)) tail) rest
  refine ⟨Direct.trade_ordered hst.ordered hl, ?_, ?_⟩
  · refine List.pairwise_append.mpr ⟨hst.fills, List.pairwise_singleton _ _, ?_⟩
    intro f hf g hg
    rw [List.mem_singleton.mp hg]
    exact hahead f hf price List.mem_cons_self
  · intro f hf p hp
    have hp' := hsub.subset hp
    rcases List.mem_append.mp hf with hf | hf
    · exact hahead f hf p hp'
    · rw [List.mem_singleton.mp hf]
      rcases List.mem_cons.mp hp' with rfl | hp'
      · exact Or.inl rfl
      · exact Or.inr ((List.pairwise_cons.mp hprices).1 p hp')

end Exchange
