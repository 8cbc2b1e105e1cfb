import Exchange.Core.PriceLevel
import Exchange.Framework.OrderedMap
import Exchange.Framework.Index

/-!
# One side of the book

`OrderBook` is a class template over the price comparator; here it is indexed
by the side that fixes the comparator, so bids and asks are the same
definitions. The level map is an ordered map, the hash index a finite map: no
code depends on the order of its buckets, only on how many entries it takes
before it must grow.
-/

namespace Exchange

open Framework

/-- Where a resting order lives. -/
structure Locator where
  price : Price
  position : Addr
deriving DecidableEq, Repr

abbrev Levels (s : Side) : Type := OrderedMap Price PriceLevel (ordering s)

abbrev Index : Type := Finmap fun _ : OrderId => Locator

structure OrderBook (s : Side) where
  levels : Levels s := OrderedMap.empty
  index : Index := ∅
  /-- Entries the bucket array takes before an insertion must grow it. -/
  buckets : ℕ := 1
deriving DecidableEq

namespace OrderBook

variable {s : Side}

def orderCount (b : OrderBook s) : ℕ := b.index.keys.card

def bestPrice (b : OrderBook s) : Option Price := b.levels.entries.head?.map Prod.fst

/-- Total resting quantity across every level on this side. -/
def totalQty (b : OrderBook s) : Quantity :=
  b.levels.entries.foldl (fun total entry => total + entry.2.totalQty) 0

/-- The order a locator leads to. -/
def deref (b : OrderBook s) (loc : Locator) : Option Order := do
  (← b.levels.find? loc.price).at? loc.position

/-- Replace the level at `price`. -/
def setLevel (b : OrderBook s) (price : Price) (level : PriceLevel) : OrderBook s :=
  { b with levels := b.levels.modify price fun _ => level }

/-- Run a level operation on the level at `price`, in place. -/
def edit (b : OrderBook s) (price : Price) (f : PriceLevel → Option PriceLevel) :
    Option (OrderBook s) := do
  let level ← b.levels.find? price
  return b.setLevel price (← f level)

/-- Discards levels emptied by matching, from the front only. -/
def dropEmptyLevelsFromFront (b : OrderBook s) : OrderBook s :=
  { b with levels := b.levels.dropWhile PriceLevel.empty }

/-- Installs a pre-built level node, or discards it if the price already has a
level. -/
def installLevel (b : OrderBook s) (node : PriceLevel) : OrderBook s :=
  { b with levels := b.levels.insert node.price node }

/-- Points a pre-built index node at `position` and installs it. A hash table
that already holds the key keeps its entry. -/
def installIndex (b : OrderBook s) (id : OrderId) (price : Price) (position : Addr) :
    OrderBook s :=
  if id ∈ b.index then b
  else { b with index := b.index.insert id ⟨price, position⟩ }

/-- Drops an index entry for an order the matcher has unlinked. -/
def unindex (b : OrderBook s) (id : OrderId) : OrderBook s :=
  { b with index := b.index.erase id }

/-- What `cancel` does to an order the index knows: unlink it, and drop the
level if that emptied it. -/
def withdraw (b : OrderBook s) (id : OrderId) (loc : Locator) :
    Option (Order × OrderBook s) := do
  let level ← b.levels.find? loc.price
  let (order, level') ← level.extract loc.position
  let b' := b.unindex id
  if level'.empty then
    return (order, { b' with levels := b'.levels.erase loc.price })
  else
    return (order, b'.setLevel loc.price level')

/-! ## The representation invariant of one side

What has to agree is the index and the *occupants*: every linked order's id
with the locator that leads to it. Emptying, filling or splicing a queue is a
statement about occupants, and the order they come in does not matter. -/

def occupant (price : Price) (n : Node) : OrderId × Locator :=
  (n.order.id, ⟨price, n.addr⟩)

def occupants (entries : List (Price × PriceLevel)) : List (OrderId × Locator) :=
  entries.flatMap fun e => e.2.orders.map (occupant e.1)

structure Sound (b : OrderBook s) : Prop where
  keyed : ∀ e ∈ b.levels.entries, e.2.price = e.1
  balanced : ∀ e ∈ b.levels.entries, e.2.Balanced
  indexed : Indexes b.index (occupants b.levels.entries)
  positions : ((occupants b.levels.entries).map fun o => o.2.position).Nodup

theorem occupants_split (pre post : List (Price × PriceLevel)) (p : Price)
    (level : PriceLevel) :
    occupants (pre ++ (p, level) :: post) =
      occupants pre ++ level.orders.map (occupant p) ++ occupants post := by
  simp [occupants, List.flatMap_append]

section Rules

variable {b b' : OrderBook s} {x : OrderId × Locator}

/-- The queues may be rearranged. -/
theorem Sound.of_perm (h : b.Sound)
    (hlevels : ∀ e ∈ b'.levels.entries, e.2.price = e.1 ∧ e.2.Balanced)
    (hindex : b'.index = b.index)
    (hocc : (occupants b'.levels.entries).Perm (occupants b.levels.entries)) :
    b'.Sound where
  keyed e he := (hlevels e he).1
  balanced e he := (hlevels e he).2
  indexed := hindex ▸ h.indexed.perm hocc.symm
  positions := (hocc.map _).nodup_iff.mpr h.positions

/-- One order may leave, and its index entry with it. -/
theorem Sound.of_erase (h : b.Sound)
    (hlevels : ∀ e ∈ b'.levels.entries, e.2.price = e.1 ∧ e.2.Balanced)
    (hindex : b'.index = b.index.erase x.1)
    (hocc : (occupants b.levels.entries).Perm (x :: occupants b'.levels.entries)) :
    b'.Sound where
  keyed e he := (hlevels e he).1
  balanced e he := (hlevels e he).2
  indexed := by
    rw [hindex]
    exact (h.indexed.perm hocc).erase
  positions := by
    have hnd := (hocc.map fun o => o.2.position).nodup_iff.mp h.positions
    exact (List.nodup_cons.mp hnd).2

/-- One order may arrive, at a new position and under a new id. -/
theorem Sound.of_insert (h : b.Sound)
    (hlevels : ∀ e ∈ b'.levels.entries, e.2.price = e.1 ∧ e.2.Balanced)
    (hindex : b'.index = b.index.insert x.1 x.2)
    (hid : x.1 ∉ (occupants b.levels.entries).map Prod.fst)
    (hpos : x.2.position ∉ (occupants b.levels.entries).map fun o => o.2.position)
    (hocc : (occupants b'.levels.entries).Perm (x :: occupants b.levels.entries)) :
    b'.Sound where
  keyed e he := (hlevels e he).1
  balanced e he := (hlevels e he).2
  indexed := by
    rw [hindex]
    exact (h.indexed.insert hid).perm hocc.symm
  positions := by
    refine (hocc.map fun o => o.2.position).nodup_iff.mpr ?_
    exact List.nodup_cons.mpr ⟨hpos, h.positions⟩

end Rules

theorem sound_empty : ({} : OrderBook s).Sound where
  keyed _ he := absurd he List.not_mem_nil
  balanced _ he := absurd he List.not_mem_nil
  indexed := Indexes.nil
  positions := List.nodup_nil

/-- Levels without orders have no occupants to lose. -/
theorem occupants_dropEmpty (b : OrderBook s) :
    occupants b.dropEmptyLevelsFromFront.levels.entries = occupants b.levels.entries := by
  show occupants (b.levels.entries.dropWhile fun e => e.2.empty) = _
  induction b.levels.entries with
  | nil => rfl
  | cons e l ih =>
      rw [List.dropWhile_cons]
      split
      · rename_i he
        have hnil : e.2.orders = [] := by simpa [PriceLevel.empty] using he
        rw [ih]
        simp [occupants, hnil]
      · rfl

theorem Sound.dropEmpty {b : OrderBook s} (h : b.Sound) :
    b.dropEmptyLevelsFromFront.Sound := by
  refine h.of_perm (fun e he => ?_) rfl (by rw [occupants_dropEmpty])
  have hmem : e ∈ b.levels.entries := (List.dropWhile_sublist _).subset he
  exact ⟨h.keyed e hmem, h.balanced e hmem⟩

section Split

variable {b : OrderBook s} {pre post : List (Price × PriceLevel)} {p : Price}
  {level : PriceLevel}

/-- Addresses are distinct within a level. -/
theorem Sound.addrs_nodup (h : b.Sound)
    (hb : b.levels.entries = pre ++ (p, level) :: post) :
    (level.orders.map Node.addr).Nodup := by
  have hnd := h.positions
  rw [hb, occupants_split, List.map_append, List.map_append, List.map_map] at hnd
  exact (List.nodup_append.mp (List.nodup_append.mp hnd).1).2.1

theorem find?_split (hb : b.levels.entries = pre ++ (p, level) :: post) :
    b.levels.find? p = some level := by
  unfold OrderedMap.find?
  refine b.levels.sorted.find?_eq_some.mpr ?_
  rw [hb]
  exact List.mem_append_right _ List.mem_cons_self

theorem setLevel_split (level' : PriceLevel)
    (hb : b.levels.entries = pre ++ (p, level) :: post) :
    (b.setLevel p level').levels.entries = pre ++ (p, level') :: post := by
  show Entries.modify p (fun _ => level') b.levels.entries = _
  have hnd := b.levels.sorted.nodup_keys
  rw [hb] at hnd ⊢
  exact Entries.modify_split _ hnd

/-- The effect of an operation on one level: the others, the index and the
bucket array stay. -/
theorem edit_split {f : PriceLevel → Option PriceLevel} {level' : PriceLevel}
    (hb : b.levels.entries = pre ++ (p, level) :: post) (hf : f level = some level') :
    ∃ b', b.edit p f = some b' ∧ b'.levels.entries = pre ++ (p, level') :: post ∧
      b'.index = b.index ∧ b'.buckets = b.buckets := by
  refine ⟨b.setLevel p level', ?_, setLevel_split level' hb, rfl, rfl⟩
  unfold edit
  rw [find?_split hb]
  simp [hf]

/-- Replacing one level of a sound side by a well-made one. -/
theorem Sound.levels_of_replace (h : b.Sound)
    (hb : b.levels.entries = pre ++ (p, level) :: post) {level' : PriceLevel}
    (hprice : level'.price = level.price) (hbal : level'.Balanced) :
    ∀ e ∈ pre ++ (p, level') :: post, e.2.price = e.1 ∧ e.2.Balanced := by
  have hold : ∀ e ∈ pre ++ (p, level) :: post, e.2.price = e.1 ∧ e.2.Balanced :=
    fun e he => ⟨h.keyed e (hb ▸ he), h.balanced e (hb ▸ he)⟩
  intro e he
  rcases List.mem_append.mp he with he | he
  · exact hold e (List.mem_append_left _ he)
  · rcases List.mem_cons.mp he with rfl | he
    · refine ⟨?_, hbal⟩
      exact hprice.trans (hold (p, level) (List.mem_append_right _ List.mem_cons_self)).1
    · exact hold e (List.mem_append_right _ (List.mem_cons_of_mem _ he))

theorem Sound.balanced_of_split (h : b.Sound)
    (hb : b.levels.entries = pre ++ (p, level) :: post) : level.Balanced :=
  h.balanced (p, level) (hb ▸ List.mem_append_right _ List.mem_cons_self)

/-- An edit that rearranges one queue keeps the side sound. -/
theorem Sound.edit_perm (h : b.Sound) {f : PriceLevel → Option PriceLevel}
    {level' : PriceLevel} (hb : b.levels.entries = pre ++ (p, level) :: post)
    (hf : f level = some level') (hprice : level'.price = level.price)
    (hbal : level'.Balanced)
    (hq : (level'.orders.map (occupant p)).Perm (level.orders.map (occupant p))) :
    ∃ b', b.edit p f = some b' ∧ b'.levels.entries = pre ++ (p, level') :: post ∧
      b'.Sound ∧ b'.buckets = b.buckets ∧
      (occupants b'.levels.entries).Perm (occupants b.levels.entries) := by
  obtain ⟨b', hedit, he, hi, hk⟩ := edit_split hb hf
  have hocc : (occupants b'.levels.entries).Perm (occupants b.levels.entries) := by
    rw [he, hb, occupants_split, occupants_split]
    exact List.Perm.append_right _ (List.Perm.append_left _ hq)
  refine ⟨b', hedit, he, h.of_perm ?_ hi hocc, hk, hocc⟩
  rw [he]
  exact h.levels_of_replace hb hprice hbal

/-- An edit that takes one order out, after its index entry was dropped. -/
theorem Sound.edit_erase (h : b.Sound) {f : PriceLevel → Option PriceLevel}
    {level' : PriceLevel} {n : Node}
    (hb : b.levels.entries = pre ++ (p, level) :: post)
    (hf : f level = some level') (hprice : level'.price = level.price)
    (hbal : level'.Balanced)
    (hq : (level.orders.map (occupant p)).Perm
      (occupant p n :: level'.orders.map (occupant p))) :
    ∃ b', (b.unindex n.order.id).edit p f = some b' ∧
      b'.levels.entries = pre ++ (p, level') :: post ∧
      b'.Sound ∧ b'.buckets = b.buckets ∧
      (occupants b.levels.entries).Perm
        (occupant p n :: occupants b'.levels.entries) := by
  obtain ⟨b', hedit, he, hi, hk⟩ := edit_split (b := b.unindex n.order.id) hb hf
  have hocc : (occupants b.levels.entries).Perm
      (occupant p n :: occupants b'.levels.entries) := by
    rw [he, hb, occupants_split, occupants_split]
    refine ((hq.append_left _).append_right _).trans ?_
    rw [List.append_assoc, List.append_assoc, List.cons_append]
    exact List.perm_middle
  refine ⟨b', hedit, he, h.of_erase (x := occupant p n) ?_ hi hocc, hk, hocc⟩
  rw [he]
  exact h.levels_of_replace hb hprice hbal

theorem deref_linked {as bs : List Node} {n : Node}
    (hb : b.levels.entries = pre ++ (p, level) :: post)
    (hl : level.orders = as ++ n :: bs) (hnd : ((as ++ n :: bs).map Node.addr).Nodup) :
    b.deref ⟨p, n.addr⟩ = some n.order := by
  unfold deref
  rw [find?_split hb]
  exact PriceLevel.at?_split hl hnd

theorem deref_split {as bs : List Node} {n : Node} (h : b.Sound)
    (hb : b.levels.entries = pre ++ (p, level) :: post)
    (hl : level.orders = as ++ n :: bs) : b.deref ⟨p, n.addr⟩ = some n.order :=
  deref_linked hb hl (hl ▸ h.addrs_nodup hb)

end Split

end OrderBook

end Exchange
