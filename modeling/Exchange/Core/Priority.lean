import Exchange.Core.Descent

/-!
# Time priority

A queue moves in two ways only. Orders leave it from where they stand, and
orders join it at the back: a new arrival with the next sequence number, or an
order whose tranche was used up and refreshed. Everything about priority follows
from that one description of what an operation does to a queue.
-/

namespace Exchange

open Framework

/-! ## What rotates in a sweep -/

/-- The fills have taken all that `x` showed. Such an order has left the book or was
refreshed: `Waits` and `Rotated` below say that no other was. -/
def Exhausted (fills : List Fill) (x : Order) : Prop :=
  0 < filledOf fills x.id ∧ x.visibleQty.toNat ≤ filledOf fills x.id

instance (fills : List Fill) (x : Order) : Decidable (Exhausted fills x) :=
  inferInstanceAs (Decidable (_ ∧ _))

theorem Exhausted.snoc {fills : List Fill} {x : Order} (h : Exhausted fills x) (f : Fill) :
    Exhausted (fills ++ [f]) x := by
  unfold Exhausted at *
  rw [filledOf_snoc]
  omega

/-- What an order keeps for as long as it rests. -/
def Order.tag (o : Order) : OrderId × Sequence := (o.id, o.sequence)

@[simp] theorem Order.onPartialFill_tag (o : Order) (qty : Quantity) :
    (o.onPartialFill qty).tag = o.tag := by
  simp [Order.tag]

@[simp] theorem Order.replenish_tag (o : Order) : o.replenish.tag = o.tag := by
  simp [Order.tag]

@[simp] theorem Order.reduceTo_tag (o : Order) (q : Quantity) : (o.reduceTo q).tag = o.tag := by
  simp [Order.tag]

/-- `x` is `x₀` with part of its tranche gone: never refreshed. -/
structure Waits (fills : List Fill) (x₀ x : Order) : Prop where
  tag : x.tag = x₀.tag
  tranche : x.visibleQty.toNat + filledOf fills x₀.id = x₀.visibleQty.toNat
  live : ¬ Exhausted fills x₀

/-- The queue `q₀` after the fills: a tail of it that still waits, and behind it orders
whose tranche was used up and refreshed. -/
def Rotated (fills : List Fill) (q₀ q : Queue) : Prop :=
  ∃ gone waiting₀ waiting refreshed, q₀ = gone ++ waiting₀ ∧ q = waiting ++ refreshed ∧
    List.Forall₂ (Waits fills) waiting₀ waiting ∧
    ∀ t ∈ refreshed, ∃ x₀ ∈ gone, t.tag = x₀.tag ∧ Exhausted fills x₀

section Waits

variable {fills : List Fill} {l₀ l : Queue} {f : Fill}

theorem waits_tags (h : List.Forall₂ (Waits fills) l₀ l) :
    l.map Order.tag = l₀.map Order.tag := by
  induction h with
  | nil => rfl
  | cons hw _ ih => rw [List.map_cons, List.map_cons, hw.tag, ih]

/-- A fill of some other order. -/
theorem waits_snoc (h : List.Forall₂ (Waits fills) l₀ l)
    (hne : ∀ x ∈ l₀, f.restingId ≠ x.id) : List.Forall₂ (Waits (fills ++ [f])) l₀ l := by
  induction h with
  | nil => exact .nil
  | @cons x₀ x _ _ hw _ ih =>
      have hsame : filledOf (fills ++ [f]) x₀.id = filledOf fills x₀.id := by
        rw [filledOf_snoc, if_neg (hne x₀ List.mem_cons_self), Nat.add_zero]
      refine .cons ⟨hw.tag, hsame ▸ hw.tranche, ?_⟩
        (ih fun y hy => hne y (List.mem_cons_of_mem _ hy))
      unfold Exhausted
      rw [hsame]
      exact hw.live

end Waits

namespace Rotated

variable {fills : List Fill} {q₀ q tail : Queue} {head : Order} {qty : Quantity} {f : Fill}

theorem refl (q : Queue) : Rotated [] q q := by
  refine ⟨[], q, q, [], rfl, (List.append_nil q).symm, ?_, fun t ht => absurd ht List.not_mem_nil⟩
  exact List.forall₂_same.mpr fun x _ => ⟨rfl, rfl, fun hex => Nat.lt_irrefl 0 hex.1⟩

/-- Every order of the queue was in it before. -/
theorem origin (h : Rotated fills q₀ q) {x : Order} (hx : x ∈ q) :
    ∃ x₀ ∈ q₀, x.tag = x₀.tag := by
  obtain ⟨gone, waiting₀, waiting, refreshed, rfl, rfl, hwait, hback⟩ := h
  rcases List.mem_append.mp hx with hx | hx
  · have htag : x.tag ∈ waiting₀.map Order.tag := waits_tags hwait ▸ List.mem_map_of_mem hx
    obtain ⟨x₀, hx₀, htag⟩ := List.mem_map.mp htag
    exact ⟨x₀, List.mem_append_right _ hx₀, htag.symm⟩
  · obtain ⟨x₀, hx₀, htag, _⟩ := hback x hx
    exact ⟨x₀, List.mem_append_left _ hx₀, htag⟩

/-- A fill elsewhere. -/
theorem other (h : Rotated fills q₀ q) (hne : ∀ x ∈ q₀, f.restingId ≠ x.id) :
    Rotated (fills ++ [f]) q₀ q := by
  obtain ⟨gone, waiting₀, waiting, refreshed, rfl, rfl, hwait, hback⟩ := h
  refine ⟨gone, waiting₀, waiting, refreshed, rfl, rfl,
    waits_snoc hwait fun x hx => hne x (List.mem_append_right _ hx), ?_⟩
  intro t ht
  obtain ⟨x₀, hx₀, htag, hex⟩ := hback t ht
  exact ⟨x₀, hx₀, htag, hex.snoc f⟩

theorem settle_tag {x : Order} (hx : x ∈ Direct.settle (head.onPartialFill qty) []) :
    x.tag = head.tag := by
  obtain ⟨hid, _, _, hseq, _⟩ := Direct.settle_frame hx
  exact Prod.ext hid hseq

/-- **One trade with the head.** -/
theorem trade (h : Rotated fills q₀ (head :: tail)) (hnd : (q₀.map Order.id).Nodup)
    (hid : f.restingId = head.id) (hf : f.quantity = qty) (hpos : 0 < qty)
    (hle : qty ≤ head.visibleQty) :
    Rotated (fills ++ [f]) q₀ (Direct.settle (head.onPartialFill qty) tail) := by
  obtain ⟨gone, waiting₀, waiting, refreshed, rfl, hq, hwait, hback⟩ := h
  have hback' : ∀ t ∈ refreshed, ∃ x₀ ∈ gone, t.tag = x₀.tag ∧ Exhausted (fills ++ [f]) x₀ := by
    intro t ht
    obtain ⟨x₀, hx₀, htag, hex⟩ := hback t ht
    exact ⟨x₀, hx₀, htag, hex.snoc f⟩
  cases hwait with
  | nil =>
      -- Only refreshed orders are left: the head is one, and stays one.
      rw [List.nil_append] at hq
      refine ⟨gone, [], [], _, rfl, rfl, .nil, fun t ht => ?_⟩
      rcases Direct.mem_settle.mp ht with ht | ht
      · exact hback' t (hq ▸ List.mem_cons_of_mem _ ht)
      · obtain ⟨x₀, hx₀, htag, hex⟩ := hback' head (hq ▸ List.mem_cons_self)
        exact ⟨x₀, hx₀, (settle_tag ht).trans htag, hex⟩
  | @cons x₀ x ws₀ ws hw hrest =>
      obtain ⟨rfl, rfl⟩ := List.cons.inj hq
      have hx₀ : x₀.id = head.id := (congrArg Prod.fst hw.tag).symm
      have hothers : ∀ y ∈ ws₀, f.restingId ≠ y.id := by
        intro y hy heq
        rw [List.map_append, List.map_cons] at hnd
        have hcons := (List.nodup_append.mp hnd).2.1
        refine (List.nodup_cons.mp hcons).1 ?_
        rw [hx₀, ← hid, heq]
        exact List.mem_map_of_mem hy
      have hrest' := waits_snoc hrest hothers
      have hfilled : filledOf (fills ++ [f]) x₀.id = filledOf fills x₀.id + qty.toNat := by
        rw [filledOf_snoc, if_pos (hid.trans hx₀.symm), hf]
      have htranche := hw.tranche
      have hqpos : 0 < qty.toNat := UInt64.lt_iff_toNat_lt.mp hpos
      have hqle := UInt64.le_iff_toNat_le.mp hle
      unfold Direct.settle
      split
      · exact ⟨gone ++ [x₀], ws₀, ws, refreshed, by simp, rfl, hrest', fun t ht => by
          obtain ⟨y, hy, hrefreshed⟩ := hback' t ht
          exact ⟨y, List.mem_append_left _ hy, hrefreshed⟩⟩
      · split
        · -- The tranche is used up: to the back of the queue.
          rename_i hspent
          have hall : qty = head.visibleQty := by
            simp only [Order.needsReplenish, Bool.and_eq_true, decide_eq_true_eq,
              Order.onPartialFill_visibleQty] at hspent
            grind
          refine ⟨gone ++ [x₀], ws₀, ws, refreshed ++ [(head.onPartialFill qty).replenish],
            by simp, by simp, hrest', fun t ht => ?_⟩
          rcases List.mem_append.mp ht with ht | ht
          · obtain ⟨y, hy, hrefreshed⟩ := hback' t ht
            exact ⟨y, List.mem_append_left _ hy, hrefreshed⟩
          · rw [List.mem_singleton.mp ht]
            refine ⟨x₀, List.mem_append_right _ List.mem_cons_self, ?_, ?_, ?_⟩
            · rw [Order.replenish_tag, Order.onPartialFill_tag]
              exact hw.tag
            · rw [hfilled]
              omega
            · rw [hfilled, hall]
              omega
        · -- The head stays where it is.
          refine ⟨gone, x₀ :: ws₀, head.onPartialFill qty :: ws, refreshed, rfl, rfl,
            .cons ⟨?_, ?_, ?_⟩ hrest', hback'⟩
          · rw [Order.onPartialFill_tag]
            exact hw.tag
          · rw [hfilled, Order.onPartialFill_visibleQty, UInt64.toNat_sub_of_le _ _ hle]
            omega
          · rename_i halive hspent
            have hpart : qty < head.visibleQty := by
              simp only [Order.isFilled, Order.needsReplenish, Bool.and_eq_true,
                decide_eq_true_eq, Order.onPartialFill_visibleQty] at halive hspent
              grind
            have hlt := UInt64.lt_iff_toNat_lt.mp hpart
            unfold Exhausted
            rw [hfilled]
            omega

end Rotated

theorem Ladder.queue_ids_nodup {l : Ladder} (h : l.ids.Nodup) {e : Price × Queue}
    (he : e ∈ l) : (e.2.map Order.id).Nodup := by
  unfold Ladder.ids Ladder.orders at h
  rw [List.map_flatMap] at h
  exact (List.nodup_flatMap.mp h).1 e he

/-- **What a sweep does to each queue.** -/
theorem sweep_rotated {agg : Order} {ladder : Ladder} {s : Side} {swept : Direct.MatchResult}
    (hord : ladder.Ordered s) (hnd : ladder.ids.Nodup)
    (h : Direct.sweep agg ladder = .ok swept) :
    ∀ e ∈ swept.ladder, ∃ q₀, (e.1, q₀) ∈ ladder ∧ Rotated swept.fills q₀ e.2 := by
  have key := Direct.sweep_invariant (I := fun st => st.ladder.Ordered s ∧
      ∀ e ∈ st.ladder, ∃ q₀, (e.1, q₀) ∈ ladder ∧ Rotated st.fills q₀ e.2) h
    ⟨hord, fun e he => ⟨e.2, he, .refl e.2⟩⟩ ?_
  · exact key.2
  rintro st price head tail rest ⟨hst, hrot⟩ hl _ _ hqty
  refine ⟨Direct.trade_ordered hst hl, fun e he => ?_⟩
  rw [hl] at hst hrot
  obtain ⟨q₀, hq₀, hhead⟩ := hrot (price, head :: tail) List.mem_cons_self
  rcases Direct.mem_pushLevel he with ⟨rfl, _⟩ | he
  · exact ⟨q₀, hq₀, hhead.trade (Ladder.queue_ids_nodup hnd hq₀) rfl rfl hqty (by grind)⟩
  · -- Another level: the head is not among the orders it had.
    obtain ⟨q₁, hq₁, hother⟩ := hrot e (List.mem_cons_of_mem _ he)
    refine ⟨q₁, hq₁, hother.other fun x hx heq => ?_⟩
    obtain ⟨x₀, hx₀, htag⟩ := hhead.origin List.mem_cons_self
    have hplace := Ladder.places_inj hnd (Ladder.mem_places.mpr ⟨q₁, hq₁, hx⟩)
      (Ladder.mem_places.mpr ⟨q₀, hq₀, hx₀⟩) (heq.symm.trans (congrArg Prod.fst htag))
    have hlt : ordering s price e.1 :=
      (List.pairwise_cons.mp hst.sorted).1 e.1 (List.mem_map_of_mem he)
    rw [show e.1 = price from congrArg Prod.fst hplace] at hlt
    exact irrefl_of (ordering s) _ hlt

/-! ## What an operation does to each queue -/

/-- The queue at a price. -/
def Ladder.queueAt (l : Ladder) (p : Price) : Queue := (Entries.find? p l).getD []

/-- The fills an operation reports. -/
def Outcome.fills : Outcome → List Fill
  | .submitted r => r.fills
  | .cancelled _ => []
  | .modified r => r.fills

/-- The operation brought in an order under this id: a new one, or one it requeued. -/
inductive Enters (M : Market) : Op → Outcome → OrderId → Prop where
  | submitted (o : Order) (r : SubmitResult) (h : M.locate o.id = none) :
      Enters M (.submit (some o)) (.submitted r) o.id
  | requeued (id : OrderId) (newQty : Quantity) (newPrice : Option Price) (r : ModifyResult)
      (h : r.status = .requeued) : Enters M (.modify id newQty newPrice) (.modified r) id

/-- How the queue `q` became `q'`: some of its orders, in their order, and behind them
those that were refreshed or the one that entered. -/
def Evolved (M : Market) (op : Op) (out : Outcome) (q q' : Queue) : Prop :=
  ∃ kept back, q' = kept ++ back ∧ (kept.map Order.tag).Sublist (q.map Order.tag) ∧
    ((∀ t ∈ back, ∃ x ∈ q, t.tag = x.tag ∧ Exhausted out.fills x) ∨
      ∃ t, back = [t] ∧ t.sequence = M.nextSequence ∧ Enters M op out t.id)

section Evolved

variable {M M' : Market} {op : Op} {out : Outcome} {q q₁ q' : Queue}

theorem Evolved.of_sublist (h : (q'.map Order.tag).Sublist (q.map Order.tag)) :
    Evolved M op out q q' :=
  ⟨q', [], (List.append_nil q').symm, h, Or.inl fun _ ht => absurd ht List.not_mem_nil⟩

theorem Evolved.of_rotated (h : Rotated out.fills q q') : Evolved M op out q q' := by
  obtain ⟨gone, waiting₀, waiting, refreshed, rfl, rfl, hwait, hback⟩ := h
  refine ⟨waiting, refreshed, rfl, ?_, Or.inl fun t ht => ?_⟩
  · rw [waits_tags hwait, List.map_append]
    exact List.sublist_append_right _ _
  · obtain ⟨x, hx, hrefreshed⟩ := hback t ht
    exact ⟨x, List.mem_append_left _ hx, hrefreshed⟩

end Evolved

namespace Ladder

variable {l : Ladder} {s : Side} {p : Price} {q : Queue}

theorem queueAt_of_mem (h : l.Ordered s) (hq : (p, q) ∈ l) : l.queueAt p = q := by
  have hs : Entries.Sorted (ordering s) l := List.pairwise_map.mp h.sorted
  unfold queueAt
  rw [hs.find?_eq_some.mpr hq]
  rfl

theorem queueAt_remove (h : l.Ordered s) (id : OrderId) (p : Price) :
    (((l.remove id).queueAt p).map Order.tag).Sublist ((l.queueAt p).map Order.tag) := by
  unfold queueAt
  cases hf : Entries.find? p (l.remove id) with
  | none => exact List.nil_sublist _
  | some q =>
      obtain ⟨e, hmem, hp, hq⟩ := mem_remove (Entries.mem_of_find? hf)
      obtain rfl : e.1 = p := hp
      have hat : l.queueAt e.1 = e.2 := queueAt_of_mem h hmem
      unfold queueAt at hat
      rw [hat, show q = _ from hq]
      exact List.filter_sublist.map _

theorem queueAt_reduce (l : Ladder) (id : OrderId) (q : Quantity) (p : Price) :
    ((l.reduce id q).queueAt p).map Order.tag = (l.queueAt p).map Order.tag := by
  unfold queueAt
  induction l with
  | nil => rfl
  | cons e l ih =>
      show List.map Order.tag ((Entries.find? p ((e.1, _) :: Ladder.reduce l id q)).getD []) = _
      rw [Entries.find?_cons, Entries.find?_cons]
      by_cases hp : e.1 = p
      · rw [if_pos hp, if_pos hp, Option.getD_some, Option.getD_some, List.map_map]
        refine List.map_congr_left fun x _ => ?_
        dsimp only [Function.comp]
        split
        · exact Order.reduceTo_tag x q
        · rfl
      · rw [if_neg hp, if_neg hp]
        exact ih

/-- Where an order comes to rest, and where it does not. -/
theorem mem_rest_queueAt (h : l.Ordered s) {o : Order} {e : Price × Queue}
    (he : e ∈ Ladder.rest s l p o) :
    e.2 = l.queueAt e.1 ∨ e.1 = p ∧ e.2 = l.queueAt p ++ [o] := by
  obtain ⟨pre, queue, post, hl, hrest, hsorted⟩ := rest_split h p o
  rw [hrest] at he
  rcases List.mem_append.mp he with he | he
  · refine Or.inl (queueAt_of_mem h ?_).symm
    exact hl ▸ List.mem_append_left _ he
  · rcases List.mem_cons.mp he with rfl | he
    · refine Or.inr ⟨rfl, congrArg (· ++ [o]) ?_⟩
      by_cases hq : queue = []
      · have hkeys := hsorted.nodup_keys
        rw [hrest] at hkeys
        obtain ⟨hpre, hpost⟩ := Entries.key_ne_of_split hkeys
        have hnone : Entries.find? p l = none := by
          rw [hl, Entries.find?_eq_none, hq]
          intro e he
          rcases List.mem_append.mp he with he | he
          · exact hpre e he
          · exact hpost e he
        unfold queueAt
        rw [hnone, hq]
        rfl
      · refine (queueAt_of_mem h ?_).symm
        rw [hl]
        refine List.mem_append_right _ ?_
        unfold Direct.pushLevel
        rw [if_neg (by simpa using hq)]
        exact List.mem_cons_self
    · refine Or.inl (queueAt_of_mem h ?_).symm
      exact hl ▸ List.mem_append_right _ (Direct.mem_pushLevel_of_mem _ _ he)

end Ladder

namespace Market

variable {M : Market} {s : Side} {o : Order} {swept : Direct.MatchResult}

/-- Every queue of `M₁` is one of `M` with orders taken out. -/
def Thinner (M M₁ : Market) : Prop :=
  ∀ t p, (((M₁.ladder t).queueAt p).map Order.tag).Sublist
    (((M.ladder t).queueAt p).map Order.tag)

theorem Thinner.setLadder (M : Market) (s : Side) {l : Ladder}
    (h : ∀ p, ((l.queueAt p).map Order.tag).Sublist
      (((M.ladder s).queueAt p).map Order.tag)) : Thinner M (M.setLadder s l) := by
  intro t p
  rcases eq_or_eq_opposite s t with rfl | rfl
  · rw [ladder_setLadder]
    exact h p
  · rw [opposite_ladder_setLadder]

theorem Thinner.evolved {M₁ : Market} {op : Op} {out : Outcome} (h : Thinner M M₁)
    (hv : M₁.Valid) (t : Side) :
    ∀ e ∈ M₁.ladder t, Evolved M op out ((M.ladder t).queueAt e.1) e.2 := by
  intro e he
  rw [← Ladder.queueAt_of_mem (hv.ordered t) he]
  exact .of_sublist (h t e.1)

/-- The queues an entry leaves, against those of a market that had as much. -/
theorem evolved_settleEntry {M₁ : Market} {op : Op} {out : Outcome} (hv : M₁.Valid)
    (hqueues : Thinner M M₁) (hopp : M₁.ladder (opposite s) = M.ladder (opposite s))
    (hseq : M₁.nextSequence = M.nextSequence)
    (hsw : Direct.sweep o (M₁.ladder (opposite s)) = .ok swept)
    (hfills : out.fills = swept.fills) (henters : Enters M op out o.id) (t : Side) :
    ∀ e ∈ (M₁.settleEntry s o swept).ladder t,
      Evolved M op out ((M.ladder t).queueAt e.1) e.2 := by
  rcases (eq_or_eq_opposite s t).symm with rfl | rfl
  · rw [settleEntry_opposite]
    intro e he
    obtain ⟨q₀, hq₀, hrot⟩ := sweep_rotated (hv.ordered _) (hv.ids_nodup _) hsw e he
    rw [hopp] at hq₀
    rw [Ladder.queueAt_of_mem (hopp ▸ hv.ordered _) hq₀]
    exact .of_rotated (hfills ▸ hrot)
  · cases hr : restsAt o swept with
    | none =>
        rw [settleEntry_own_none M₁ t hr]
        exact hqueues.evolved hv t
    | some price =>
        rw [settleEntry_own M₁ t hr]
        intro e he
        rcases Ladder.mem_rest_queueAt (hv.ordered t) he with hq | ⟨rfl, hq⟩
        · rw [hq]
          exact .of_sublist (hqueues t e.1)
        · rw [hq]
          refine ⟨_, [_], rfl, hqueues t e.1, Or.inr ⟨_, rfl, ?_, ?_⟩⟩
          · rw [Order.onPartialFill_sequence]
            exact hseq
          · rw [Order.onPartialFill_id]
            exact henters

/-- **What an operation does to each queue.** -/
theorem Transition.evolved {M' : Market} {op : Op} {out : Outcome} (hv : M.Valid)
    (ht : Transition M op out M') (t : Side) :
    ∀ e ∈ M'.ladder t, Evolved M op out ((M.ladder t).queueAt e.1) e.2 := by
  have hrefl : Thinner M M := fun _ _ => List.Sublist.refl _
  have hremove : ∀ s id, Thinner M (M.setLadder s ((M.ladder s).remove id)) := fun s id =>
    .setLadder M s fun p => Ladder.queueAt_remove (hv.ordered s) id p
  cases ht with
  | unknown | rejected | absent => exact hrefl.evolved hv t
  | entered o swept hq hid hsw =>
      exact evolved_settleEntry hv hrefl rfl rfl hsw rfl (.submitted o _ hid) t
  | withdrawn id s o hl => exact (hremove s id).evolved (hv.remove s id) t
  | reduced id newQty newPrice s o hq hl hk =>
      refine Thinner.evolved (.setLadder M s fun p => ?_) (hv.reduce s id hq) t
      rw [Ladder.queueAt_reduce]
  | requeued id newQty newPrice s o swept hq hl hk hsw =>
      refine evolved_settleEntry (hv.remove s id) (hremove s id)
        (opposite_ladder_setLadder _ _ _) (by cases s <;> rfl)
        (by rw [opposite_ladder_setLadder]; exact hsw) rfl ?_ t
      rw [replacement_id, locate_id hl]
      exact .requeued id newQty newPrice _ rfl

end Market

/-! ## The invariant -/

/-- The sequence numbers of the orders whose tranche the fills used up. -/
def Market.exhausted (M : Market) (fills : List Fill) : List Sequence :=
  ((M.bids.orders ++ M.asks.orders).filter fun x => Exhausted fills x).map Order.sequence

/-- Priority in a market, `spent` being the numbers of refreshed orders. -/
structure Prioritized (M : Market) (spent : List Sequence) : Prop where
  below : ∀ s, ∀ x ∈ (M.ladder s).orders, x.sequence < M.nextSequence
  distinct : ∀ s t, ∀ x ∈ (M.ladder s).orders, ∀ y ∈ (M.ladder t).orders,
    x.sequence = y.sequence → x.id = y.id
  inOrder : ∀ s, ∀ e ∈ M.ladder s,
    ((e.2.map Order.sequence).filter fun n => n ∉ spent).Pairwise (· < ·)

theorem Enters.unique {M : Market} {op : Op} {out : Outcome} {a b : OrderId}
    (ha : Enters M op out a) (hb : Enters M op out b) : a = b := by
  cases ha <;> cases hb <;> rfl

section Step

variable {M M' : Market} {op : Op} {out : Outcome} {spent : List Sequence}

/-- An operation that brings an order in takes the next number. -/
theorem Market.Transition.nextSequence (ht : Transition M op out M') :
    (M'.nextSequence = M.nextSequence ∧ ∀ id, ¬ Enters M op out id) ∨
      M'.nextSequence = M.nextSequence + 1 := by
  cases ht with
  | entered => exact Or.inr (settleEntry_nextSequence _ _ _ _)
  | requeued =>
      right
      rw [settleEntry_nextSequence, setLadder_nextSequence]
  | unknown => exact Or.inl ⟨rfl, nofun⟩
  | withdrawn => exact Or.inl ⟨setLadder_nextSequence _ _ _, nofun⟩
  | rejected | absent => exact Or.inl ⟨rfl, fun id h => by cases h; contradiction⟩
  | reduced =>
      exact Or.inl ⟨setLadder_nextSequence _ _ _, fun id h => by cases h; contradiction⟩

theorem Ladder.mem_orders_of_queueAt {l : Ladder} {p : Price} {x : Order}
    (h : x ∈ l.queueAt p) : x ∈ l.orders := by
  unfold Ladder.queueAt at h
  cases hf : Entries.find? p l with
  | none =>
      rw [hf] at h
      cases h
  | some q =>
      rw [hf] at h
      exact Ladder.mem_orders.mpr ⟨(p, q), Entries.mem_of_find? hf, h⟩

theorem Ladder.queueAt_ids_nodup {l : Ladder} (h : l.ids.Nodup) (p : Price) :
    ((l.queueAt p).map Order.id).Nodup := by
  unfold Ladder.queueAt
  cases hf : Entries.find? p l with
  | none => exact List.nodup_nil
  | some q => exact Ladder.queue_ids_nodup h (Entries.mem_of_find? hf)

/-- Where an order that rests came from. -/
theorem Evolved.origin {q q' : Queue} (h : Evolved M op out q q') {x : Order} (hx : x ∈ q') :
    (∃ x₀ ∈ q, x.tag = x₀.tag) ∨ x.sequence = M.nextSequence ∧ Enters M op out x.id := by
  obtain ⟨kept, back, rfl, hsub, hback⟩ := h
  rcases List.mem_append.mp hx with hx | hx
  · obtain ⟨x₀, hx₀, htag⟩ := List.mem_map.mp (hsub.subset (List.mem_map_of_mem hx))
    exact Or.inl ⟨x₀, hx₀, htag.symm⟩
  · rcases hback with hback | ⟨t, rfl, hseq, hent⟩
    · obtain ⟨x₀, hx₀, htag, _⟩ := hback x hx
      exact Or.inl ⟨x₀, hx₀, htag⟩
    · rw [List.mem_singleton.mp hx]
      exact Or.inr ⟨hseq, hent⟩

theorem Market.mem_exhausted (M : Market) {s : Side} {fills : List Fill} {x : Order}
    (hx : x ∈ (M.ladder s).orders) (h : Exhausted fills x) :
    x.sequence ∈ M.exhausted fills := by
  refine List.mem_map_of_mem (List.mem_filter.mpr ⟨List.mem_append.mpr ?_, by simpa using h⟩)
  cases s with
  | buy => exact Or.inl hx
  | sell => exact Or.inr hx

theorem Prioritized.queueAt (h : Prioritized M spent) (s : Side) (p : Price) :
    ((((M.ladder s).queueAt p).map Order.sequence).filter fun n => n ∉ spent).Pairwise
      (· < ·) := by
  unfold Ladder.queueAt
  cases hf : Entries.find? p (M.ladder s) with
  | none => exact List.Pairwise.nil
  | some q => exact h.inOrder s (p, q) (Entries.mem_of_find? hf)

/-- Where an order of the market came from. -/
theorem Market.Transition.origin (hv : M.Valid) (ht : Transition M op out M') (s : Side) :
    ∀ x ∈ (M'.ladder s).orders, (∃ x₀ ∈ (M.ladder s).orders, x.tag = x₀.tag) ∨
      x.sequence = M.nextSequence ∧ Enters M op out x.id := by
  intro x hx
  obtain ⟨e, he, hxe⟩ := Ladder.mem_orders.mp hx
  rcases (ht.evolved hv s e he).origin hxe with ⟨x₀, hx₀, htag⟩ | hnew
  · exact Or.inl ⟨x₀, Ladder.mem_orders_of_queueAt hx₀, htag⟩
  · exact Or.inr hnew

/-- While numbers last, the next one never falls, and it rises when an order enters. -/
theorem Market.Transition.nextSequence_le (ht : Transition M op out M')
    (hroom : M.nextSequence.toNat + 1 < 2 ^ 64) :
    M.nextSequence ≤ M'.nextSequence ∧
      ∀ id, Enters M op out id → M.nextSequence < M'.nextSequence := by
  have hsucc : (M.nextSequence + 1).toNat = M.nextSequence.toNat + 1 := by
    rw [UInt64.toNat_add]
    exact Nat.mod_eq_of_lt hroom
  rcases ht.nextSequence with ⟨heq, hno⟩ | heq
  · rw [heq]
    exact ⟨UInt64.le_refl _, fun id hid => absurd hid (hno id)⟩
  · rw [heq, UInt64.le_iff_toNat_le, UInt64.lt_iff_toNat_lt, hsucc]
    exact ⟨Nat.le_succ _, fun _ _ => Nat.lt_succ_self _⟩

/-- The orders of a queue that were never refreshed stay in the order of their numbers. -/
theorem Prioritized.evolved (h : Prioritized M spent) {s : Side} {p : Price} {q : Queue}
    (he : Evolved M op out ((M.ladder s).queueAt p) q) :
    ((q.map Order.sequence).filter
      fun n => n ∉ spent ++ M.exhausted out.fills).Pairwise (· < ·) := by
  obtain ⟨kept, back, rfl, hsub, hback⟩ := he
  have hkept : (kept.map Order.sequence).Sublist
      (((M.ladder s).queueAt p).map Order.sequence) := by
    have hsnd := hsub.map Prod.snd
    rwa [List.map_map, List.map_map] at hsnd
  have hfilter : ((kept.map Order.sequence).filter
      fun n => n ∉ spent ++ M.exhausted out.fills).Pairwise (· < ·) := by
    refine (h.queueAt s p).sublist ((List.monotone_filter_right _ fun n hn => ?_).trans
      (hkept.filter _))
    rw [decide_eq_true_eq] at hn ⊢
    exact fun hmem => hn (List.mem_append_left _ hmem)
  rw [List.map_append, List.filter_append]
  rcases hback with hback | ⟨t, rfl, hseq, _⟩
  · -- Everything behind was refreshed.
    have hnil : (back.map Order.sequence).filter
        (fun n => n ∉ spent ++ M.exhausted out.fills) = [] := by
      refine List.filter_eq_nil_iff.mpr fun n hn => ?_
      obtain ⟨t, ht, rfl⟩ := List.mem_map.mp hn
      obtain ⟨x, hx, htag, hex⟩ := hback t ht
      simp only [decide_eq_true_eq, not_not]
      refine List.mem_append_right _ ?_
      rw [show t.sequence = x.sequence from congrArg Prod.snd htag]
      exact M.mem_exhausted (Ladder.mem_orders_of_queueAt hx) hex
    rw [hnil, List.append_nil]
    exact hfilter
  · -- The last one entered, with a number above all others.
    refine List.pairwise_append.mpr ⟨hfilter,
      (List.pairwise_singleton _ t.sequence).sublist List.filter_sublist, ?_⟩
    intro n hn k hk
    obtain ⟨x, hx, rfl⟩ := List.mem_map.mp (hkept.subset (List.mem_filter.mp hn).1)
    rw [List.mem_singleton.mp (List.mem_filter.mp hk).1, hseq]
    exact h.below s x (Ladder.mem_orders_of_queueAt hx)

/-- **One operation keeps priority.** -/
theorem Prioritized.transition (h : Prioritized M spent) (hv : M.Valid)
    (ht : Market.Transition M op out M') (hroom : M.nextSequence.toNat + 1 < 2 ^ 64) :
    Prioritized M' (spent ++ M.exhausted out.fills) := by
  obtain ⟨hnext, hentered⟩ := ht.nextSequence_le hroom
  have horigin := ht.origin hv
  refine ⟨?_, ?_, fun s e he => h.evolved (ht.evolved hv s e he)⟩
  · intro s x hx
    rcases horigin s x hx with ⟨x₀, hx₀, htag⟩ | ⟨hseq, hent⟩
    · rw [show x.sequence = x₀.sequence from congrArg Prod.snd htag]
      exact UInt64.lt_of_lt_of_le (h.below s x₀ hx₀) hnext
    · rw [hseq]
      exact hentered _ hent
  · intro s t x hx y hy heq
    rcases horigin s x hx with ⟨x₀, hx₀, htx⟩ | ⟨hsx, hex⟩ <;>
      rcases horigin t y hy with ⟨y₀, hy₀, hty⟩ | ⟨hsy, hey⟩
    · have hseq : x₀.sequence = y₀.sequence :=
        (congrArg Prod.snd htx).symm.trans (heq.trans (congrArg Prod.snd hty))
      exact (congrArg Prod.fst htx).trans
        ((h.distinct s t x₀ hx₀ y₀ hy₀ hseq).trans (congrArg Prod.fst hty).symm)
    · have hlt := h.below s x₀ hx₀
      rw [← show x.sequence = x₀.sequence from congrArg Prod.snd htx, heq, hsy] at hlt
      exact absurd hlt (UInt64.lt_irrefl _)
    · have hlt := h.below t y₀ hy₀
      rw [← show y.sequence = y₀.sequence from congrArg Prod.snd hty, ← heq, hsx] at hlt
      exact absurd hlt (UInt64.lt_irrefl _)
    · exact hex.unique hey

end Step

/-! ## Who stays ahead -/

/-- What is ahead of another in a list stays ahead of it in a sublist that has both. -/
theorem pair_sublist {α : Type} {l l' : List α} (h : l'.Sublist l) (hnd : l.Nodup) {a b : α}
    (hab : [a, b].Sublist l) (ha : a ∈ l') (hb : b ∈ l') : [a, b].Sublist l' := by
  induction h with
  | slnil => cases ha
  | @cons l' l x hsub ih =>
      obtain ⟨hx, hnd⟩ := List.nodup_cons.mp hnd
      cases hab with
      | cons _ hab => exact ih hnd hab ha hb
      | cons_cons _ hb' => exact absurd (hsub.subset ha) hx
  | @cons_cons l' l x hsub ih =>
      obtain ⟨hx, hnd⟩ := List.nodup_cons.mp hnd
      cases hab with
      | cons _ hab =>
          have hne : ∀ y ∈ [a, b], y ≠ x := fun y hy heq => hx (heq ▸ hab.subset hy)
          have ha' := (List.mem_cons.mp ha).resolve_left (hne a (by simp))
          have hb' := (List.mem_cons.mp hb).resolve_left (hne b (by simp))
          exact (ih hnd hab ha' hb').cons x
      | cons_cons _ hb' =>
          have hmem : b ∈ l := hb'.subset List.mem_cons_self
          have hb'' := (List.mem_cons.mp hb).resolve_left fun heq => hx (heq ▸ hmem)
          exact (List.singleton_sublist.mpr hb'').cons_cons a

/-- The operation requeued this order. -/
def Requeues (op : Op) (out : Outcome) (id : OrderId) : Prop :=
  ∃ newQty newPrice r, op = .modify id newQty newPrice ∧ out = .modified r ∧
    r.status = .requeued

/-- An order that is neither refreshed nor requeued keeps its place. -/
theorem Evolved.ahead {M : Market} {op : Op} {out : Outcome} {q q' : Queue} {a b : OrderId}
    (h : Evolved M op out q q') (hnd : (q.map Order.id).Nodup)
    (hknown : M.locate a ≠ none) (hab : [a, b].Sublist (q.map Order.id))
    (ha : a ∈ q'.map Order.id) (hb : b ∈ q'.map Order.id) :
    [a, b].Sublist (q'.map Order.id) ∨
      (∃ x ∈ q, x.id = a ∧ Exhausted out.fills x) ∨ Requeues op out a := by
  obtain ⟨kept, back, rfl, hsub, hback⟩ := h
  have hkept : (kept.map Order.id).Sublist (q.map Order.id) := by
    have hfst := hsub.map Prod.fst
    rwa [List.map_map, List.map_map] at hfst
  rw [List.map_append] at ha hb ⊢
  rcases List.mem_append.mp ha with ha | ha
  · refine Or.inl ?_
    rcases List.mem_append.mp hb with hb | hb
    · exact (pair_sublist hkept hnd hab ha hb).trans (List.sublist_append_left _ _)
    · exact (List.singleton_sublist.mpr ha).append (List.singleton_sublist.mpr hb)
  · refine Or.inr ?_
    obtain ⟨t, ht, rfl⟩ := List.mem_map.mp ha
    rcases hback with hback | ⟨t', rfl, _, hent⟩
    · obtain ⟨x, hx, htag, hex⟩ := hback t ht
      exact Or.inl ⟨x, hx, (congrArg Prod.fst htag).symm, hex⟩
    · obtain rfl := List.mem_singleton.mp ht
      generalize t.id = id at hent hknown
      cases hent with
      | submitted o r hnone => exact absurd hnone hknown
      | requeued id newQty newPrice r hr => exact Or.inr ⟨newQty, newPrice, r, rfl, rfl, hr⟩

/-! ## Runs -/

/-- The sequence numbers an operation that ended this way refreshed the orders of. -/
def Market.refreshed (M : Market) : Except Ending Outcome → List Sequence
  | .ok out => M.exhausted out.fills
  | .error _ => []

/-- A run of `n` operations from the empty book, each with its own choice of the
allocations that fail, and the numbers of the orders it has refreshed so far. -/
inductive History : ℕ → BookMemory → List Sequence → Prop where
  | empty : History 0 { state := {} } []
  | step {n : ℕ} {m : BookMemory} {spent : List Sequence} (op : Op) (fails : ℕ → Bool)
      (h : History n m spent) : History (n + 1) (op.exec fails m).2
        (spent ++ m.state.view.refreshed (op.exec fails m).1)

theorem History.reachable {n : ℕ} {m : BookMemory} {spent : List Sequence}
    (h : History n m spent) : Reachable anyOp m := by
  induction h with
  | empty => exact .empty
  | step op fails _ ih => exact .step op fails ih trivial

/-- The counter is no further than the number of operations. -/
theorem History.nextSequence_le {n : ℕ} {m : BookMemory} {spent : List Sequence}
    (h : History n m spent) (hn : n < 2 ^ 64 - 1) : m.state.nextSequence.toNat ≤ n + 1 := by
  induction h with
  | empty => decide
  | @step n m spent op fails h ih =>
      have hle := ih (by omega)
      have hnext : (op.exec fails m).2.state.nextSequence = m.state.nextSequence ∨
          (op.exec fails m).2.state.nextSequence = m.state.nextSequence + 1 := by
        rcases h.reachable.wellFormed.transition op fails with ⟨out, _, ht⟩ | ⟨_, hsame⟩
        · exact ht.nextSequence.imp And.left id
        · exact Or.inl (congrArg Market.nextSequence hsame)
      rcases hnext with heq | heq
      · rw [heq]
        omega
      · rw [heq, UInt64.toNat_add]
        exact Nat.le_trans (Nat.mod_le _ _) (by simpa using Nat.succ_le_succ hle)

theorem prioritized_empty : Prioritized {} [] := by
  refine ⟨?_, ?_, ?_⟩ <;> intro s <;> cases s <;> intro x
  all_goals first
    | exact fun hx => absurd hx List.not_mem_nil
    | exact fun y hy => absurd hy List.not_mem_nil

/-- **Every run keeps priority.** -/
theorem History.prioritized {n : ℕ} {m : BookMemory} {spent : List Sequence}
    (h : History n m spent) (hn : n < 2 ^ 64 - 1) : Prioritized m.state.view spent := by
  induction h with
  | empty => exact prioritized_empty
  | @step n m spent op fails h ih =>
      have hp := ih (by omega)
      have hwf := h.reachable.wellFormed
      rcases hwf.transition op fails with ⟨out, hout, ht⟩ | ⟨⟨f, hf⟩, hsame⟩
      · rw [hout]
        refine hp.transition hwf.valid ht ?_
        have hle := h.nextSequence_le (by omega)
        show m.state.nextSequence.toNat + 1 < 2 ^ 64
        omega
      · rw [hf, hsame]
        show Prioritized _ (spent ++ [])
        rwa [List.append_nil]

/-- **Time priority.** In every run of fewer than 2^64 - 1 operations the resting orders
carry distinct sequence numbers below the counter, and in each queue those that were never
refreshed stand in the order of their numbers. Whatever operation comes next, an order
ahead of another stays ahead of it while both rest there, unless it is refreshed or
requeued. -/
theorem time_priority {n : ℕ} {m : BookMemory} {spent : List Sequence}
    (h : History n m spent) (hn : n < 2 ^ 64 - 1) :
    ((m.state.view.bids.orders ++ m.state.view.asks.orders).map Order.sequence).Nodup ∧
    (∀ s, ∀ x ∈ (m.state.view.ladder s).orders, x.sequence < m.state.nextSequence) ∧
    (∀ s, ∀ e ∈ m.state.view.ladder s,
      (e.2.filter fun x => x.sequence ∉ spent).Pairwise fun x y => x.sequence < y.sequence) ∧
    ∀ op fails s p a b,
      [a, b].Sublist (((m.state.view.ladder s).queueAt p).map Order.id) →
      a ∈ (((op.exec fails m).2.state.view.ladder s).queueAt p).map Order.id →
      b ∈ (((op.exec fails m).2.state.view.ladder s).queueAt p).map Order.id →
      [a, b].Sublist ((((op.exec fails m).2.state.view.ladder s).queueAt p).map Order.id) ∨
        ∃ out, (op.exec fails m).1 = .ok out ∧
          ((∃ x ∈ (m.state.view.ladder s).queueAt p, x.id = a ∧ Exhausted out.fills x) ∨
            Requeues op out a) := by
  have hp := h.prioritized hn
  have hwf := h.reachable.wellFormed
  refine ⟨?_, hp.below, ?_, ?_⟩
  -- Equal numbers mean equal ids, and no id rests twice.
  · have hids : ((m.state.view.bids.orders ++ m.state.view.asks.orders).map Order.id).Nodup := by
      rw [List.map_append]
      exact hwf.valid.ids .buy
    have hside : ∀ x ∈ m.state.view.bids.orders ++ m.state.view.asks.orders,
        ∃ s, x ∈ (m.state.view.ladder s).orders := by
      intro x hx
      rcases List.mem_append.mp hx with hx | hx
      · exact ⟨.buy, hx⟩
      · exact ⟨.sell, hx⟩
    refine List.Nodup.map_on (fun x hx y hy heq => ?_) (List.Nodup.of_map _ hids)
    obtain ⟨s, hxs⟩ := hside x hx
    obtain ⟨t, hyt⟩ := hside y hy
    exact List.inj_on_of_nodup_map hids hx hy (hp.distinct s t x hxs y hyt heq)
  · intro s e he
    have hsorted := hp.inOrder s e he
    rw [List.filter_map] at hsorted
    exact List.pairwise_map.mp hsorted
  · intro op fails s p a b hab ha hb
    rcases hwf.transition op fails with ⟨out, hout, ht⟩ | ⟨_, hsame⟩
    · unfold Ladder.queueAt at ha hb ⊢
      cases hf : Entries.find? p ((op.exec fails m).2.state.view.ladder s) with
      | none =>
          rw [hf] at ha
          cases ha
      | some q' =>
          rw [hf] at ha hb
          have hmem : a ∈ ((m.state.view.ladder s).queueAt p).map Order.id :=
            hab.subset List.mem_cons_self
          have hknown : m.state.view.locate a ≠ none := by
            intro hnone
            obtain ⟨x, hx, hxa⟩ := List.mem_map.mp hmem
            refine Market.locate_eq_none.mp hnone s ?_
            rw [← hxa]
            exact List.mem_map_of_mem (Ladder.mem_orders_of_queueAt hx)
          have hev := ht.evolved hwf.valid s (p, q') (Entries.mem_of_find? hf)
          rcases hev.ahead (Ladder.queueAt_ids_nodup (hwf.valid.ids_nodup s) p) hknown hab ha hb
            with hahead | hmoved
          · exact Or.inl hahead
          · exact Or.inr ⟨out, hout, hmoved⟩
    · rw [hsame]
      exact Or.inl hab

theorem stacked_history : History 3 stacked [] :=
  .step _ _ (.step _ _ (.step _ _ .empty))

/-- A buyer of the tranche that the iceberg in `stacked` shows. -/
def trancheBuyer : Op := .submit (some (limitOrder 6 .buy 7 2 101))

/-- The iceberg has gone behind the other ask, and a third one stands behind both. -/
def rotated : BookMemory :=
  ((Op.submit (some (limitOrder 7 .sell 8 3 101))).exec (fun _ => false)
    (trancheBuyer.exec (fun _ => false) stacked).2).2

theorem rotated_history : ∃ spent, History 5 rotated spent ∧ spent = [1] :=
  ⟨_, .step _ _ (.step _ _ stacked_history), by decide +kernel⟩

/-- The iceberg, which carries the number 1, is overtaken because its tranche was taken.
The asks that were never refreshed stand in the order of their numbers. -/
theorem time_priority_rotated :
    ((stacked.state.view.ladder .sell).queueAt 101).map (fun x => (x.id, x.sequence)) =
      [(3, 1), (4, 2)] ∧
    (∃ out, (trancheBuyer.exec (fun _ => false) stacked).1 = .ok out ∧
      ∃ x ∈ (stacked.state.view.ladder .sell).queueAt 101,
        x.id = 3 ∧ Exhausted out.fills x) ∧
    ((rotated.state.view.ladder .sell).queueAt 101).map (fun x => (x.id, x.sequence)) =
      [(4, 2), (3, 1), (7, 5)] ∧
    (((rotated.state.view.ladder .sell).queueAt 101).filter fun x =>
      x.sequence ∉ [1]).Pairwise (fun x y => x.sequence < y.sequence) := by
  obtain ⟨_, _, _, hahead⟩ := time_priority stacked_history (by norm_num)
  obtain ⟨_, hrotated, rfl⟩ := rotated_history
  obtain ⟨_, _, hordered, _⟩ := time_priority hrotated (by norm_num)
  refine ⟨by decide +kernel, ?_, by decide +kernel, ?_⟩
  · rcases hahead trancheBuyer (fun _ => false) .sell 101 3 4 (by decide +kernel)
      (by decide +kernel) (by decide +kernel) with hstays | ⟨out, hout, hspent | hrequeued⟩
    · exact absurd hstays (by decide +kernel)
    · exact ⟨out, hout, hspent⟩
    · obtain ⟨_, _, _, hop, _⟩ := hrequeued
      cases hop
  · obtain ⟨e, he, hqueue⟩ : ∃ e ∈ rotated.state.view.ladder .sell,
        e.2 = (rotated.state.view.ladder .sell).queueAt 101 := by decide +kernel
    rw [← hqueue]
    exact hordered .sell e he

end Exchange
