import Exchange.Core.Priority

/-!
# Order ids over a run

An id is meant to name one order for the life of the book. `validate` compares
the id of an incoming order with those that rest, and with no others: the id of
an order that has been filled or cancelled is accepted again, and fills before
and after then name two orders by one id. As long as no id of a departed order
comes back, ids are unique over the whole run.
-/

namespace Exchange

open Framework

/-! ## The parties of a fill

Nobody trades who was not there: what is true of every id and account in the
market and of the order that enters is true of both sides of every fill. -/

section Parties

variable {P : OrderId → AccountId → Prop}

/-- Both sides of a fill have `P`. -/
def Fill.Between (P : OrderId → AccountId → Prop) (f : Fill) : Prop :=
  P f.aggressorId f.aggressorAccount ∧ P f.restingId f.restingAccount

theorem party_kept : Direct.Kept fun _ x => P x.id x.account := by
  intro price head left h _ o ho
  obtain ⟨hid, hacc, _⟩ := Direct.settle_frame ho
  rwa [hid, hacc]

theorem sweep_between {agg : Order} {ladder : Ladder} {swept : Direct.MatchResult}
    (hagg : P agg.id agg.account) (hl : ladder.All fun _ x => P x.id x.account)
    (h : Direct.sweep agg ladder = .ok swept) : ∀ f ∈ swept.fills, f.Between P := by
  have key := Direct.sweep_invariant (I := fun st =>
      (st.ladder.All fun _ x => P x.id x.account) ∧ ∀ f ∈ st.fills, f.Between P) h
    ⟨hl, fun f hf => absurd hf List.not_mem_nil⟩ ?_
  · exact key.2
  rintro st price head tail rest ⟨hst, hfills⟩ hladder _ _ hqty
  refine ⟨party_kept.trade hst hladder hqty, fun f hf => ?_⟩
  rcases List.mem_append.mp hf with hf | hf
  · exact hfills f hf
  · rw [List.mem_singleton.mp hf]
    rw [hladder] at hst
    exact ⟨hagg, hst _ List.mem_cons_self head List.mem_cons_self⟩

/-- What an operation leaves in the market and reports has the parties it found and the
one it brought. -/
theorem Market.Transition.parties {M M' : Market} {op : Op} {out : Outcome}
    (ht : Market.Transition M op out M') (hv : M.Valid)
    (h : ∀ s, (M.ladder s).All fun _ x => P x.id x.account)
    (hop : ∀ o, op = .submit (some o) → P o.id o.account) :
    (∀ s, (M'.ladder s).All fun _ x => P x.id x.account) ∧ ∀ f ∈ out.fills, f.Between P := by
  have nothing : ∀ f ∈ ([] : List Fill), f.Between P := fun f hf => absurd hf List.not_mem_nil
  cases ht with
  | entered o swept _ _ hsw =>
      have ho := hop o rfl
      refine ⟨Market.all_settleEntry party_kept h (hv.ordered _) hsw fun _ _ => ?_,
        sweep_between ho (h _) hsw⟩
      simpa using ho
  | unknown | rejected | absent => exact ⟨h, nothing⟩
  | withdrawn id s o hl => exact ⟨Market.all_setLadder h (h s).remove, nothing⟩
  | reduced id newQty newPrice s o _ hl _ =>
      refine ⟨Market.all_setLadder h ((h s).reduce fun _ x _ _ hx => ?_), nothing⟩
      simpa using hx
  | requeued id newQty newPrice s o swept _ hl _ hsw =>
      -- the replacement is the order that rested, under its own id and account
      obtain ⟨e, he, ho⟩ := Ladder.mem_orders.mp
        (List.mem_of_find?_eq_some (Market.locate_eq_some hl))
      have hr : P (replacement o newQty newPrice).id (replacement o newQty newPrice).account := by
        simpa [replacement] using h s e he o ho
      refine ⟨Market.all_settleEntry party_kept (Market.all_setLadder h (h s).remove) ?_ ?_
        fun _ _ => ?_, sweep_between hr (h _) hsw⟩
      · rw [Market.ladder_setLadder]
        exact (hv.ordered s).remove
      · rw [Market.opposite_ladder_setLadder]
        exact hsw
      · simpa using hr

end Parties

/-! ## The orders of a run -/

/-- The order a submit brought in, if it returned. -/
def Op.accepted : Op → Except Ending Outcome → List Order
  | .submit (some o), .ok _ => [o]
  | _, _ => []

/-- The fills of an operation that returned. -/
def reportedFills : Except Ending Outcome → List Fill
  | .ok out => out.fills
  | .error _ => []

/-- A run from the empty book, the orders it accepted and the fills it reported.
`allowed` restricts an operation by the orders accepted before it and the book it finds. -/
inductive Recorded (allowed : List Order → Book → Op → Prop) :
    BookMemory → List Order → List Fill → Prop where
  | empty : Recorded allowed { state := {} } [] []
  | step {m : BookMemory} {accepted : List Order} {fills : List Fill} (op : Op)
      (fails : ℕ → Bool) (h : Recorded allowed m accepted fills)
      (hop : allowed accepted m.state op) :
      Recorded allowed (op.exec fails m).2 (accepted ++ op.accepted (op.exec fails m).1)
        (fills ++ reportedFills (op.exec fails m).1)

/-- A submit does not carry the id of an order that was accepted and has left the book. -/
def KeepsIds (accepted : List Order) (b : Book) (op : Op) : Prop :=
  ∀ o, op = .submit (some o) → o.id ∈ accepted.map Order.id → b.view.locate o.id ≠ none

/-- `id` and `account` are those of an accepted order. -/
def KnownAs (accepted : List Order) (id : OrderId) (account : AccountId) : Prop :=
  ∃ o ∈ accepted, o.id = id ∧ o.account = account

theorem KnownAs.append {accepted : List Order} {id : OrderId} {account : AccountId}
    (h : KnownAs accepted id account) (more : List Order) :
    KnownAs (accepted ++ more) id account := by
  obtain ⟨o, ho, hid⟩ := h
  exact ⟨o, List.mem_append_left _ ho, hid⟩

theorem Fill.Between.append {accepted : List Order} {f : Fill}
    (h : f.Between (KnownAs accepted)) (more : List Order) :
    f.Between (KnownAs (accepted ++ more)) :=
  ⟨h.1.append more, h.2.append more⟩

/-- What a recorded run keeps. -/
structure Identified (m : BookMemory) (accepted : List Order) (fills : List Fill) : Prop where
  wellFormed : WellFormed m
  nodup : (accepted.map Order.id).Nodup
  resting : ∀ s, (m.state.view.ladder s).All fun _ x => KnownAs accepted x.id x.account
  named : ∀ f ∈ fills, f.Between (KnownAs accepted)

/-- An accepted submit brings an id that no accepted order carried. -/
theorem Identified.accepted_nodup {m : BookMemory} {accepted : List Order} {fills : List Fill}
    (h : Identified m accepted fills) {op : Op} {out : Outcome} {M' : Market}
    (hop : KeepsIds accepted m.state op)
    (ht : Market.Transition m.state.view op out M') :
    ((accepted ++ op.accepted (.ok out)).map Order.id).Nodup := by
  cases ht with
  | entered o swept _ hid _ =>
      have hnew : o.id ∉ accepted.map Order.id := fun hmem => hop o rfl hmem hid
      rw [List.map_append]
      refine List.nodup_append'.mpr ⟨h.nodup, List.nodup_singleton _, ?_⟩
      simpa [Op.accepted, List.disjoint_singleton] using hnew
  | unknown | rejected | absent | withdrawn | reduced | requeued =>
      simpa [Op.accepted] using h.nodup

theorem Identified.step {m : BookMemory} {accepted : List Order} {fills : List Fill}
    (h : Identified m accepted fills) (op : Op) (fails : ℕ → Bool)
    (hop : KeepsIds accepted m.state op) :
    Identified (op.exec fails m).2 (accepted ++ op.accepted (op.exec fails m).1)
      (fills ++ reportedFills (op.exec fails m).1) := by
  have hwf := h.wellFormed.exec op fails
  rcases h.wellFormed.transition op fails with ⟨out, hout, ht⟩ | ⟨⟨f, hf⟩, hsame⟩
  · rw [hout]
    have hold : ∀ s, (m.state.view.ladder s).All fun _ x =>
        KnownAs (accepted ++ op.accepted (.ok out)) x.id x.account :=
      fun s e he x hx => (h.resting s e he x hx).append _
    obtain ⟨hrest, hfills⟩ := ht.parties h.wellFormed.valid hold (by
      rintro o rfl
      exact ⟨o, List.mem_append_right _ List.mem_cons_self, rfl, rfl⟩)
    refine ⟨hwf, h.accepted_nodup hop ht, hrest, fun f hf => ?_⟩
    rcases List.mem_append.mp hf with hf | hf
    · exact (h.named f hf).append _
    · exact hfills f hf
  · -- nothing was accepted and nothing moved
    have hnone : op.accepted (.error f) = [] := by
      unfold Op.accepted
      split <;> simp_all
    rw [hf, hnone, List.append_nil]
    refine ⟨hwf, h.nodup, ?_, ?_⟩
    · rw [hsame]
      exact h.resting
    · rw [reportedFills, List.append_nil]
      exact h.named

theorem Recorded.identified {m : BookMemory} {accepted : List Order} {fills : List Fill}
    (h : Recorded KeepsIds m accepted fills) : Identified m accepted fills := by
  induction h with
  | empty =>
      refine ⟨wellFormed_empty, List.nodup_nil, ?_, fun f hf => absurd hf List.not_mem_nil⟩
      intro s e he
      cases s <;> cases he
  | step op fails _ hop ih => exact ih.step op fails hop

/-- With distinct ids, a known party is one accepted order. -/
theorem KnownAs.existsUnique {accepted : List Order} (hn : (accepted.map Order.id).Nodup)
    {id : OrderId} {account : AccountId} (h : KnownAs accepted id account) :
    ∃ o, (o ∈ accepted ∧ o.id = id ∧ o.account = account) ∧
      ∀ o' ∈ accepted, o'.id = id → o' = o := by
  obtain ⟨o, ho, hid, hacc⟩ := h
  refine ⟨o, ⟨ho, hid, hacc⟩, fun o' ho' hid' => ?_⟩
  exact List.inj_on_of_nodup_map hn ho' ho (hid'.trans hid.symm)

/-- **Over a run that brings back no id of a departed order, no two accepted orders share
an id, and each side of every fill names exactly one accepted order, of the account the
fill gives.** -/
theorem ids_unique {m : BookMemory} {accepted : List Order} {fills : List Fill}
    (h : Recorded KeepsIds m accepted fills) :
    (accepted.map Order.id).Nodup ∧ ∀ f ∈ fills, f.Between fun id account =>
      ∃ o, (o ∈ accepted ∧ o.id = id ∧ o.account = account) ∧
        ∀ o' ∈ accepted, o'.id = id → o' = o := by
  have hi := h.identified
  exact ⟨hi.nodup, fun f hf =>
    ⟨(hi.named f hf).1.existsUnique hi.nodup, (hi.named f hf).2.existsUnique hi.nodup⟩⟩

/-- Account 9 buys from account 8's quote, and its order is gone. -/
theorem ids_unique_quotes :
    ∃ m accepted fills, Recorded KeepsIds m accepted fills ∧
      accepted.map Order.id = [1, 2, 3] ∧
      fills.map (fun f => (f.aggressorId, f.restingId)) = [(3, 2)] ∧
      (accepted.map Order.id).Nodup ∧ ∀ f ∈ fills, f.Between fun id account =>
        ∃ o, (o ∈ accepted ∧ o.id = id ∧ o.account = account) ∧
          ∀ o' ∈ accepted, o'.id = id → o' = o := by
  have h : Recorded KeepsIds _ _ _ :=
    .step (.submit (some (limitOrder 3 .buy 9 5 101))) (fun _ => false)
      (.step (.submit (some (limitOrder 2 .sell 8 5 101))) (fun _ => false)
        (.step (.submit (some (limitOrder 1 .buy 7 5 100))) (fun _ => false) .empty
          (by rintro o ⟨⟩ ho; revert ho; decide +kernel))
        (by rintro o ⟨⟩ ho; revert ho; decide +kernel))
      (by rintro o ⟨⟩ ho; revert ho; decide +kernel)
  exact ⟨_, _, _, h, by decide +kernel, by decide +kernel, ids_unique h⟩

/-- Account 8 takes account 7's order 1, and account 9 then offers an order 1 as well. It
is accepted, account 8 takes it too, and the two fills give one id to two orders. -/
theorem departed_id_accepted :
    ∃ m accepted fills, Recorded (fun _ _ _ => True) m accepted fills ∧
      accepted.map Order.id = [1, 2, 1, 3] ∧ ¬ (accepted.map Order.id).Nodup ∧
      fills.map (fun f => (f.restingId, f.restingAccount)) = [(1, 7), (1, 9)] := by
  refine ⟨_, _, _, .step (.submit (some (limitOrder 3 .buy 8 5 100))) (fun _ => false)
      (.step (.submit (some (limitOrder 1 .sell 9 5 100))) (fun _ => false)
        (.step (.submit (some (limitOrder 2 .buy 8 5 100))) (fun _ => false)
          (.step (.submit (some (limitOrder 1 .sell 7 5 100))) (fun _ => false) .empty
            trivial) trivial) trivial) trivial, ?_, ?_, ?_⟩ <;>
    decide +kernel

end Exchange
