import Exchange.Core.Market

/-!
# What a side shows

The ladder of a list of levels forgets addresses, counters and the index. On a
sound side the primitives of `OrderBook` are ladder operations: finding,
withdrawing, shrinking and resting an order.
-/

namespace Exchange

open Framework

/-- The ladder a list of levels shows. -/
def ladderOf (entries : List (Price × PriceLevel)) : Ladder :=
  entries.map fun e => (e.1, e.2.orders.map Node.order)

/-- The market a book shows. -/
def Book.view (b : Book) : Market :=
  { bids := ladderOf b.bids.levels.entries
    asks := ladderOf b.asks.levels.entries
    nextSequence := b.nextSequence }

namespace Book

variable (b : Book) (s : Side)

@[simp] theorem view_ladder :
    b.view.ladder s = ladderOf (b.side s).levels.entries := by
  cases s <;> rfl

@[simp] theorem view_setSide (ob : OrderBook s) :
    (b.setSide s ob).view = b.view.setLadder s (ladderOf ob.levels.entries) := by
  cases s <;> rfl

@[simp] theorem side_stamped (n : Sequence) :
    ({ b with nextSequence := n } : Book).side s = b.side s := by
  cases s <;> rfl

end Book

section Split

variable {pre post : List (Price × PriceLevel)} {p : Price} {level : PriceLevel}
  {as bs : List Node} {n : Node}

theorem ladderOf_split (hl : level.orders = as ++ n :: bs) :
    ladderOf (pre ++ (p, level) :: post) = ladderOf pre ++
      (p, as.map Node.order ++ n.order :: bs.map Node.order) :: ladderOf post := by
  simp [ladderOf, hl]

theorem ladderOf_prices (entries : List (Price × PriceLevel)) :
    (ladderOf entries).prices = entries.map Prod.fst := by
  simp [Ladder.prices, ladderOf, Function.comp_def]

theorem ladderOf_ids (entries : List (Price × PriceLevel)) :
    (ladderOf entries).ids = (OrderBook.occupants entries).map Prod.fst := by
  unfold Ladder.ids Ladder.orders ladderOf OrderBook.occupants
  simp only [List.flatMap_map, List.map_flatMap, List.map_map]
  rfl

/-- The ids a side of the market shows are those of the linked orders. -/
theorem Book.view_ids (b : Book) (s : Side) : (b.view.ladder s).ids =
    (b.side s).levels.entries.flatMap fun e => e.2.orders.map fun n => n.order.id := by
  rw [Book.view_ladder, ladderOf_ids, OrderBook.occupants, List.map_flatMap]
  simp only [List.map_map]
  rfl

theorem ladderOf_full {entries : List (Price × PriceLevel)}
    (h : ∀ e ∈ entries, e.2.orders ≠ []) : ∀ e ∈ ladderOf entries, e.2 ≠ [] := by
  intro e he
  obtain ⟨e', he', rfl⟩ := List.mem_map.mp he
  simpa using h e' he'

theorem full_of_ladderOf {entries : List (Price × PriceLevel)}
    (h : ∀ e ∈ ladderOf entries, e.2 ≠ []) : ∀ e ∈ entries, e.2.orders ≠ [] := by
  intro e he hnil
  exact h _ (List.mem_map_of_mem he) (by simp [hnil])

end Split

namespace OrderBook

variable {s : Side} {b : OrderBook s} {id : OrderId} {loc : Locator}

theorem Sound.ids_nodup (h : b.Sound) : (ladderOf b.levels.entries).ids.Nodup := by
  rw [ladderOf_ids]
  exact h.indexed.nodup

theorem Sound.mem_index_iff (h : b.Sound) :
    id ∈ b.index ↔ id ∈ (ladderOf b.levels.entries).ids := by
  rw [ladderOf_ids]
  exact h.indexed.mem_iff

theorem Sound.lookup_eq_none (h : b.Sound) :
    b.index.lookup id = none ↔ (ladderOf b.levels.entries).find? id = none := by
  rw [Ladder.find?_eq_none, ← h.mem_index_iff, Finmap.lookup_eq_none]

/-- A locator leads to a place in a level. -/
theorem Sound.locate (h : b.Sound) (hloc : b.index.lookup id = some loc) :
    ∃ pre level post as n bs, b.levels.entries = pre ++ (loc.price, level) :: post ∧
      level.orders = as ++ n :: bs ∧ n.order.id = id ∧ n.addr = loc.position := by
  have hmem := (h.indexed.lookup_iff id loc).mp hloc
  obtain ⟨e, he, ho⟩ := List.mem_flatMap.mp hmem
  obtain ⟨n, hn, hocc⟩ := List.mem_map.mp ho
  cases hocc
  obtain ⟨pre, post, hsplit⟩ := List.append_of_mem he
  obtain ⟨as, bs, hq⟩ := List.append_of_mem hn
  exact ⟨pre, e.2, post, as, n, bs, hsplit, hq, rfl, rfl⟩

/-- **Finding.** -/
theorem Sound.deref_of_lookup (h : b.Sound) (hloc : b.index.lookup id = some loc) :
    ∃ o, b.deref loc = some o ∧ (ladderOf b.levels.entries).find? id = some o := by
  obtain ⟨pre, level, post, as, n, bs, hb, hl, rfl, haddr⟩ := h.locate hloc
  refine ⟨n.order, ?_, ?_⟩
  · have hd := deref_split h hb hl
    rwa [haddr] at hd
  · have hnd := h.ids_nodup
    rw [hb, ladderOf_split hl] at hnd ⊢
    exact Ladder.find?_split hnd

/-- **Shrinking in place.** -/
theorem Sound.reduceQuantity (h : b.Sound) (hloc : b.index.lookup id = some loc)
    (q : Quantity) :
    ∃ b', b.edit loc.price (·.reduceQuantity loc.position q) = some b' ∧ b'.Sound ∧
      ladderOf b'.levels.entries = (ladderOf b.levels.entries).reduce id q ∧
      (∀ o ∈ occupants b'.levels.entries, o ∈ occupants b.levels.entries) := by
  obtain ⟨pre, level, post, as, n, bs, hb, hl, rfl, haddr⟩ := h.locate hloc
  have hnd : ((as ++ n :: bs).map Node.addr).Nodup := hl ▸ h.addrs_nodup hb
  have hids := h.ids_nodup
  obtain ⟨b', hedit, he, hs, _, hocc⟩ := h.edit_perm
    (f := (·.reduceQuantity n.addr q)) hb (PriceLevel.reduceQuantity_split hl hnd q) rfl
    ((h.balanced_of_split hb).reduceQuantity hl q) (by
      rw [hl]
      simp [occupant])
  refine ⟨b', haddr ▸ hedit, hs, ?_, fun o ho => hocc.mem_iff.mp ho⟩
  rw [hb, ladderOf_split hl] at hids ⊢
  rw [he, Ladder.reduce_split q hids]
  simp [ladderOf]

/-- What a withdrawal leaves behind. -/
structure Withdrawn (b b' : OrderBook s) (id : OrderId) : Prop where
  sound : b'.Sound
  shows : ladderOf b'.levels.entries = (ladderOf b.levels.entries).remove id
  occupied : ∀ o ∈ occupants b'.levels.entries, o ∈ occupants b.levels.entries
  buckets : b'.buckets = b.buckets
  count : b'.orderCount < b.orderCount

theorem Withdrawn.of_erase {b' : OrderBook s} {x : OrderId × Locator} (h : b.Sound)
    (hlevels : ∀ e ∈ b'.levels.entries, e.2.price = e.1 ∧ e.2.Balanced)
    (hindex : b'.index = b.index.erase x.1) (hbuckets : b'.buckets = b.buckets)
    (hocc : (occupants b.levels.entries).Perm (x :: occupants b'.levels.entries))
    (hshows : ladderOf b'.levels.entries = (ladderOf b.levels.entries).remove x.1) :
    Withdrawn b b' x.1 := by
  have hs := h.of_erase hlevels hindex hocc
  refine ⟨hs, hshows, fun o ho => ?_, hbuckets, ?_⟩
  · exact hocc.mem_iff.mpr (List.mem_cons_of_mem _ ho)
  · unfold orderCount
    rw [h.indexed.card_keys, hs.indexed.card_keys, hocc.length_eq]
    exact Nat.lt_succ_self _

/-- What is kept of a level: nothing, once it is empty. -/
def remnant (p : Price) (level : PriceLevel) : List (Price × PriceLevel) :=
  if level.empty then [] else [(p, level)]

section Remnant

variable {pre post : List (Price × PriceLevel)} {p : Price} {level : PriceLevel}

theorem occupants_remnant :
    occupants (pre ++ remnant p level ++ post) =
      occupants pre ++ level.orders.map (occupant p) ++ occupants post := by
  unfold remnant
  split
  · rename_i hempty
    have hnil : level.orders = [] := by simpa [PriceLevel.empty] using hempty
    simp [occupants, hnil]
  · rw [List.append_assoc]
    exact occupants_split pre post p level

theorem ladderOf_remnant :
    ladderOf (pre ++ remnant p level ++ post) =
      ladderOf pre ++ Direct.pushLevel p (level.orders.map Node.order) (ladderOf post) := by
  unfold remnant Direct.pushLevel
  by_cases hempty : level.orders = []
  · simp [ladderOf, PriceLevel.empty, hempty]
  · simp [ladderOf, PriceLevel.empty, hempty]

theorem mem_remnant {e : Price × PriceLevel} (he : e ∈ pre ++ remnant p level ++ post) :
    e ∈ pre ++ (p, level) :: post := by
  unfold remnant at he
  split at he
  · rw [List.append_nil] at he
    rcases List.mem_append.mp he with he | he
    · exact List.mem_append_left _ he
    · exact List.mem_append_right _ (List.mem_cons_of_mem _ he)
  · rwa [List.append_assoc] at he

end Remnant

/-- A withdrawal at a linked position: the other levels, queues and index entries
stay. -/
theorem withdraw_split {pre post : List (Price × PriceLevel)} {p : Price}
    {level : PriceLevel} {as bs : List Node} {n : Node}
    (hb : b.levels.entries = pre ++ (p, level) :: post)
    (hl : level.orders = as ++ n :: bs) (hnd : ((as ++ n :: bs).map Node.addr).Nodup)
    (id : OrderId) :
    ∃ b', b.withdraw id ⟨p, n.addr⟩ = some (n.order, b') ∧
      b'.levels.entries = pre ++ remnant p { level with
        orders := as ++ bs
        totalQty := level.totalQty - n.order.remaining
        visibleQty := level.visibleQty - n.order.visibleQty } ++ post ∧
      b'.index = b.index.erase id ∧ b'.buckets = b.buckets := by
  have hkeys := b.levels.sorted.nodup_keys
  rw [hb] at hkeys
  unfold OrderBook.withdraw remnant
  rw [find?_split hb]
  simp only [Option.bind_eq_bind, Option.bind_some, PriceLevel.extract_split hl hnd,
    Option.pure_def]
  split
  · refine ⟨_, rfl, ?_, rfl, rfl⟩
    show Entries.erase p b.levels.entries = _
    rw [hb, List.append_nil]
    exact Entries.erase_split hkeys
  · refine ⟨_, rfl, ?_, rfl, rfl⟩
    rw [List.append_assoc]
    exact setLevel_split _ hb

/-- **Withdrawing.** -/
theorem Sound.withdraw (h : b.Sound) (hfull : ∀ e ∈ b.levels.entries, e.2.orders ≠ [])
    (hloc : b.index.lookup id = some loc) :
    ∃ o b', b.withdraw id loc = some (o, b') ∧
      (ladderOf b.levels.entries).find? id = some o ∧ Withdrawn b b' id := by
  obtain ⟨pre, level, post, as, n, bs, hb, hl, rfl, haddr⟩ := h.locate hloc
  have hnd : ((as ++ n :: bs).map Node.addr).Nodup := hl ▸ h.addrs_nodup hb
  obtain ⟨b', hw, hentries, hindex, hbuckets⟩ := withdraw_split hb hl hnd n.order.id
  rw [haddr] at hw
  have hids := h.ids_nodup
  have hfull' := ladderOf_full hfull
  rw [hb, ladderOf_split hl] at hids hfull'
  refine ⟨n.order, b', hw, ?_, ?_⟩
  · rw [hb, ladderOf_split hl]
    exact Ladder.find?_split hids
  refine Withdrawn.of_erase (x := occupant loc.price n) h ?_ hindex hbuckets ?_ ?_
  · rw [hentries]
    have hbal := (h.balanced_of_split hb).extract hl
    exact fun e he => h.levels_of_replace hb (by rfl) hbal e (mem_remnant he)
  · rw [hentries, hb, occupants_remnant, occupants_split, hl, List.map_append, List.map_cons,
      List.map_append]
    simp only [List.append_assoc, List.cons_append]
    rw [← List.append_assoc, ← List.append_assoc (occupants pre)]
    exact List.perm_middle
  · rw [hentries, hb, ladderOf_remnant, ladderOf_split hl]
    refine Eq.trans ?_ (Ladder.remove_split hids hfull').symm
    rw [← List.map_append]

/-- What resting an order adds. -/
structure Rested (b b' : OrderBook s) (p : Price) (n : Node) : Prop where
  sound : b'.Sound
  shows : ladderOf b'.levels.entries =
    Ladder.rest s (ladderOf b.levels.entries) p n.order
  occupied : (occupants b'.levels.entries).Perm
    (occupant p n :: occupants b.levels.entries)

/-- The level a pre-built node finds or becomes. -/
theorem installLevel_split (b : OrderBook s) (p : Price) :
    ∃ pre level post,
      (b.installLevel { price := p }).levels.entries = pre ++ (p, level) :: post ∧
      (b.levels.entries = pre ++ (p, level) :: post ∨
        level = { price := p } ∧ b.levels.entries = pre ++ post) := by
  cases hf : Entries.find? p b.levels.entries with
  | some level =>
      obtain ⟨pre, post, hl⟩ := Entries.split_of_find? hf
      refine ⟨pre, level, post, ?_, Or.inl hl⟩
      show Entries.insert (ordering s) p { price := p } b.levels.entries = _
      rw [Entries.insert_of_find? b.levels.sorted hf, hl]
  | none =>
      obtain ⟨pre, post, hl, hins⟩ := Entries.insert_split (ordering s)
        ({ price := p } : PriceLevel) hf
      exact ⟨pre, { price := p }, post, hins, Or.inr ⟨rfl, hl⟩⟩

theorem Sound.installLevel (h : b.Sound) (p : Price) :
    ∃ pre level post,
      (b.installLevel { price := p }).levels.entries = pre ++ (p, level) :: post ∧
      (b.installLevel { price := p }).Sound ∧
      occupants (b.installLevel { price := p }).levels.entries =
        occupants b.levels.entries := by
  obtain ⟨pre, level, post, he, hold | ⟨rfl, hold⟩⟩ := installLevel_split b p
  · have hocc : occupants (b.installLevel { price := p }).levels.entries =
        occupants b.levels.entries := by rw [he, hold]
    refine ⟨pre, level, post, he, h.of_perm (fun e hmem => ?_) rfl (by rw [hocc]), hocc⟩
    rw [he, ← hold] at hmem
    exact ⟨h.keyed e hmem, h.balanced e hmem⟩
  · have hocc : occupants (b.installLevel { price := p }).levels.entries =
        occupants b.levels.entries := by
      rw [he, hold, occupants_split]
      simp [occupants]
    refine ⟨pre, _, post, he, h.of_perm (fun e hmem => ?_) rfl (by rw [hocc]), hocc⟩
    have hkept : ∀ e ∈ pre ++ post, e.2.price = e.1 ∧ e.2.Balanced := fun e he =>
      ⟨h.keyed e (hold ▸ he), h.balanced e (hold ▸ he)⟩
    rw [he] at hmem
    rcases List.mem_append.mp hmem with hmem | hmem
    · exact hkept e (List.mem_append_left _ hmem)
    · rcases List.mem_cons.mp hmem with rfl | hmem
      · exact ⟨rfl, PriceLevel.balanced_empty p⟩
      · exact hkept e (List.mem_append_right _ hmem)

/-- **Resting**: level node, index node, then the splice. -/
theorem Sound.rest (h : b.Sound) {p : Price} {n : Node} (hid : n.order.id ∉ b.index)
    (haddr : ∀ o ∈ occupants b.levels.entries, o.2.position ≠ n.addr) :
    ∃ b', ((b.installLevel { price := p }).installIndex n.order.id p n.addr).edit p
        (fun level => some (level.adopt n)) = some b' ∧ Rested b b' p n := by
  obtain ⟨pre, level, post, he, hs, hocc⟩ := h.installLevel p
  have hnot : n.order.id ∉ (b.installLevel { price := p }).index := hid
  have hinst : (b.installLevel { price := p }).installIndex n.order.id p n.addr =
      { b.installLevel { price := p } with
        index := b.index.insert n.order.id ⟨p, n.addr⟩ } := by
    unfold OrderBook.installIndex
    rw [if_neg hnot]
    rfl
  obtain ⟨b', hedit, he', hi, _⟩ := edit_split
    (b := (b.installLevel { price := p }).installIndex n.order.id p n.addr)
    (f := fun level => some (level.adopt n)) (by rw [hinst]; exact he) rfl
  have hperm : (occupants b'.levels.entries).Perm
      (occupant p n :: occupants b.levels.entries) := by
    rw [he', ← hocc, he, occupants_split, occupants_split]
    show List.Perm (_ ++ (level.orders ++ [n]).map _ ++ _) _
    rw [List.map_append, ← List.append_assoc, List.append_assoc (_ ++ _)]
    exact List.perm_middle
  refine ⟨b', hedit, ?_, ?_, hperm⟩
  · refine hs.of_insert (x := occupant p n) ?_ ?_ ?_ ?_ (by rw [hocc]; exact hperm)
    · rw [he']
      exact hs.levels_of_replace he rfl ((hs.balanced_of_split he).adopt n)
    · rw [hi, hinst]
      rfl
    · rw [hocc, ← ladderOf_ids, ← h.mem_index_iff]
      exact hid
    · rw [hocc, List.mem_map]
      rintro ⟨o, ho, heq⟩
      exact haddr o ho heq
  -- The ladder takes the level in where the map does, then the order at its back.
  · have hins : Entries.insert (ordering s) p ([] : Queue) (ladderOf b.levels.entries) =
        ladderOf (b.installLevel { price := p }).levels.entries :=
      Entries.insert_map p { price := p }
        (fun l : PriceLevel => l.orders.map Node.order) b.levels.entries
    have hkeys : (ladderOf (pre ++ (p, level) :: post)).prices.Nodup := by
      rw [ladderOf_prices, ← he]
      exact (b.installLevel { price := p }).levels.sorted.nodup_keys
    unfold Ladder.rest
    rw [hins, he', he]
    have hsplit : ladderOf (pre ++ (p, level) :: post) =
        ladderOf pre ++ (p, level.orders.map Node.order) :: ladderOf post := by
      simp [ladderOf]
    rw [hsplit] at hkeys ⊢
    rw [Entries.modify_split _ hkeys]
    simp [ladderOf, PriceLevel.adopt]

end OrderBook

end Exchange
