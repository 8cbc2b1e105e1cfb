import Mathlib.Logic.Relation
import Mathlib.Tactic

/-!
# A line served by several hands

Items join a line with increasing tickets. A hand takes the one in front, letting
go of what it held, and later serves it or drops it; an item may also leave the
line without having been taken. A clock counts the moves. One hand deals with one
item at a time, so two items are served out of turn only if two hands held them
at once.
-/

namespace Exchange.Framework

/-- An item that left the line, with the hand that took it and when. -/
structure Taken (α : Type) where
  item : α
  hand : ℕ
  taken : ℕ
deriving DecidableEq, Repr

/-- A taken item that was served, with when. -/
structure Served (α : Type) extends Taken α where
  served : ℕ
deriving DecidableEq, Repr

structure Line (α : Type) where
  width : ℕ
  clock : ℕ
  /-- Everything that ever joined. -/
  arrived : List α
  waiting : List α
  hands : ℕ → Option (Taken α)
  done : List (Served α)

/-- Two members of a list stand in it one way or the other. -/
theorem pair_sublist {α : Type} {a b : α} : ∀ {l : List α}, a ∈ l → b ∈ l →
    a = b ∨ [a, b].Sublist l ∨ [b, a].Sublist l
  | x :: l, ha, hb => by
      rcases List.mem_cons.mp ha with rfl | ha'
      · rcases List.mem_cons.mp hb with rfl | hb'
        · exact Or.inl rfl
        · exact Or.inr (Or.inl ((List.singleton_sublist.mpr hb').cons_cons a))
      · rcases List.mem_cons.mp hb with rfl | hb'
        · exact Or.inr (Or.inr ((List.singleton_sublist.mpr ha').cons_cons b))
        · rcases pair_sublist ha' hb' with h | h | h
          · exact Or.inl h
          · exact Or.inr (Or.inl (h.cons x))
          · exact Or.inr (Or.inr (h.cons x))

namespace Line

variable {α : Type} (ticket : α → ℕ)

inductive Move (l : Line α) : Line α → Prop where
  | join (x : α) (hx : ticket x = l.arrived.length) :
      Move l { l with
        clock := l.clock + 1
        arrived := l.arrived ++ [x]
        waiting := l.waiting ++ [x] }
  | leave (waiting : List α) (h : waiting.Sublist l.waiting) :
      Move l { l with clock := l.clock + 1, waiting }
  | take (hand : ℕ) (x : α) (waiting : List α) (hw : hand < l.width)
      (h : l.waiting = x :: waiting) :
      Move l { l with
        clock := l.clock + 1, waiting
        hands := Function.update l.hands hand (some ⟨x, hand, l.clock⟩) }
  | serve (x : Taken α) (h : l.hands x.hand = some x) :
      Move l { l with
        clock := l.clock + 1
        hands := Function.update l.hands x.hand none
        done := l.done ++ [⟨x, l.clock⟩] }
  | drop (hand : ℕ) :
      Move l { l with clock := l.clock + 1, hands := Function.update l.hands hand none }

/-- Taken, and still in a hand or served. -/
def Out (l : Line α) (x : Taken α) : Prop :=
  l.hands x.hand = some x ∨ ∃ d ∈ l.done, d.toTaken = x

/-- What holds of a line at all times. -/
structure Sound (l : Line α) : Prop where
  arrived : l.arrived.map ticket = List.range l.arrived.length
  sorted : l.waiting.Pairwise fun x y => ticket x < ticket y
  issued : ∀ x ∈ l.waiting, ticket x < l.arrived.length
  out : ∀ x, l.Out x →
    ticket x.item < l.arrived.length ∧ x.taken < l.clock ∧ x.hand < l.width
  ahead : ∀ x, l.Out x → ∀ y ∈ l.waiting, ticket x.item < ticket y
  /-- Items are taken in the order of their tickets. -/
  inTurn : ∀ x y, l.Out x → l.Out y → ticket x.item < ticket y.item → x.taken < y.taken
  stamped : l.done.Pairwise fun d e => d.served < e.served
  past : ∀ d ∈ l.done, d.taken < d.served ∧ d.served < l.clock
  /-- What a hand holds it took after it was done with everything before. -/
  holding : ∀ d ∈ l.done, ∀ x, l.hands x.hand = some x → d.hand = x.hand →
    d.served < x.taken
  oneByOne : ∀ d ∈ l.done, ∀ e ∈ l.done, d.hand = e.hand → d.taken < e.taken →
    d.served < e.taken

variable {ticket} {l l' : Line α}

/-- Letting time pass and letting go of items keeps a line sound. -/
theorem Sound.shrink (h : Sound ticket l) (hwidth : l'.width = l.width)
    (hclock : l.clock ≤ l'.clock) (harrived : l'.arrived = l.arrived)
    (hwaiting : l'.waiting.Sublist l.waiting)
    (hhands : ∀ x, l'.hands x.hand = some x → l.hands x.hand = some x)
    (hdone : l'.done = l.done) : Sound ticket l' := by
  have hout : ∀ x, l'.Out x → l.Out x := by
    rintro x (hx | hx)
    · exact Or.inl (hhands x hx)
    · rw [hdone] at hx
      exact Or.inr hx
  constructor
  · rw [harrived]
    exact h.arrived
  · exact h.sorted.sublist hwaiting
  · intro x hx
    rw [harrived]
    exact h.issued x (hwaiting.subset hx)
  · intro x hx
    obtain ⟨hticket, htaken, hhand⟩ := h.out x (hout x hx)
    rw [harrived, hwidth]
    exact ⟨hticket, Nat.lt_of_lt_of_le htaken hclock, hhand⟩
  · intro x hx y hy
    exact h.ahead x (hout x hx) y (hwaiting.subset hy)
  · intro x y hx hy
    exact h.inTurn x y (hout x hx) (hout y hy)
  · rw [hdone]
    exact h.stamped
  · intro d hd
    rw [hdone] at hd
    obtain ⟨hserved, hpast⟩ := h.past d hd
    exact ⟨hserved, Nat.lt_of_lt_of_le hpast hclock⟩
  · intro d hd x hx
    rw [hdone] at hd
    exact h.holding d hd x (hhands x hx)
  · rw [hdone]
    exact h.oneByOne

theorem Sound.join (h : Sound ticket l) {x : α} (hx : ticket x = l.arrived.length) :
    Sound ticket { l with
      clock := l.clock + 1
      arrived := l.arrived ++ [x]
      waiting := l.waiting ++ [x] } := by
  have hlength : (l.arrived ++ [x]).length = l.arrived.length + 1 := List.length_append
  constructor
  · show (l.arrived ++ [x]).map ticket = List.range (l.arrived ++ [x]).length
    rw [hlength, List.map_append, h.arrived, List.range_succ, List.map_singleton, hx]
  · refine List.pairwise_append.mpr ⟨h.sorted, List.pairwise_singleton _ _, ?_⟩
    intro y hy z hz
    rw [List.mem_singleton.mp hz, hx]
    exact h.issued y hy
  · intro y hy
    rw [hlength]
    rcases List.mem_append.mp hy with hy | hy
    · exact Nat.lt_succ_of_lt (h.issued y hy)
    · rw [List.mem_singleton.mp hy, hx]
      exact Nat.lt_succ_self _
  · intro y hy
    obtain ⟨hticket, htaken, hhand⟩ := h.out y hy
    rw [hlength]
    exact ⟨Nat.lt_succ_of_lt hticket, Nat.lt_succ_of_lt htaken, hhand⟩
  · intro y hy z hz
    rcases List.mem_append.mp hz with hz | hz
    · exact h.ahead y hy z hz
    · rw [List.mem_singleton.mp hz, hx]
      exact (h.out y hy).1
  · exact h.inTurn
  · exact h.stamped
  · intro d hd
    obtain ⟨hserved, hpast⟩ := h.past d hd
    exact ⟨hserved, Nat.lt_succ_of_lt hpast⟩
  · exact h.holding
  · exact h.oneByOne

theorem Sound.take (h : Sound ticket l) {hand : ℕ} {x : α} {waiting : List α}
    (hw : hand < l.width) (hx : l.waiting = x :: waiting) :
    Sound ticket { l with
      clock := l.clock + 1, waiting
      hands := Function.update l.hands hand (some ⟨x, hand, l.clock⟩) } := by
  have hsorted := h.sorted
  rw [hx, List.pairwise_cons] at hsorted
  have hfront : x ∈ l.waiting := hx ▸ List.mem_cons_self
  have hbehind : ∀ y ∈ waiting, y ∈ l.waiting := fun y hy => hx ▸ List.mem_cons_of_mem x hy
  -- Whatever is out now was out before, or is the item just taken.
  have hheld : ∀ y : Taken α,
      Function.update l.hands hand (some ⟨x, hand, l.clock⟩) y.hand = some y →
        l.hands y.hand = some y ∨ y = ⟨x, hand, l.clock⟩ := by
    intro y hy
    by_cases hhand : y.hand = hand
    · rw [hhand, Function.update_self] at hy
      exact Or.inr (Option.some.inj hy).symm
    · rw [Function.update_of_ne hhand] at hy
      exact Or.inl hy
  have hout : ∀ y, Out { l with
      clock := l.clock + 1, waiting
      hands := Function.update l.hands hand (some ⟨x, hand, l.clock⟩) } y →
        l.Out y ∨ y = ⟨x, hand, l.clock⟩ := by
    rintro y (hy | hy)
    · exact (hheld y hy).imp Or.inl id
    · exact Or.inl (Or.inr hy)
  constructor
  · exact h.arrived
  · exact hsorted.2
  · exact fun y hy => h.issued y (hbehind y hy)
  · intro y hy
    rcases hout y hy with hy | rfl
    · obtain ⟨hticket, htaken, hhand⟩ := h.out y hy
      exact ⟨hticket, Nat.lt_succ_of_lt htaken, hhand⟩
    · exact ⟨h.issued x hfront, Nat.lt_succ_self _, hw⟩
  · intro y hy z hz
    rcases hout y hy with hy | rfl
    · exact h.ahead y hy z (hbehind z hz)
    · exact hsorted.1 z hz
  · intro y z hy hz hlt
    rcases hout y hy with hy | rfl <;> rcases hout z hz with hz | rfl
    · exact h.inTurn y z hy hz hlt
    · exact (h.out y hy).2.1
    · exact absurd (h.ahead z hz x hfront) (Nat.lt_asymm hlt)
    · exact absurd hlt (Nat.lt_irrefl _)
  · exact h.stamped
  · intro d hd
    obtain ⟨hserved, hpast⟩ := h.past d hd
    exact ⟨hserved, Nat.lt_succ_of_lt hpast⟩
  · intro d hd y hy hhand
    rcases hheld y hy with hy | rfl
    · exact h.holding d hd y hy hhand
    · exact (h.past d hd).2
  · exact h.oneByOne

theorem Sound.serve (h : Sound ticket l) {x : Taken α} (hx : l.hands x.hand = some x) :
    Sound ticket { l with
      clock := l.clock + 1
      hands := Function.update l.hands x.hand none
      done := l.done ++ [⟨x, l.clock⟩] } := by
  have hheld : ∀ y : Taken α, Function.update l.hands x.hand none y.hand = some y →
      l.hands y.hand = some y ∧ y.hand ≠ x.hand := by
    intro y hy
    by_cases hhand : y.hand = x.hand
    · rw [hhand, Function.update_self] at hy
      cases hy
    · rw [Function.update_of_ne hhand] at hy
      exact ⟨hy, hhand⟩
  have hout : ∀ y, Out { l with
      clock := l.clock + 1
      hands := Function.update l.hands x.hand none
      done := l.done ++ [⟨x, l.clock⟩] } y → l.Out y := by
    rintro y (hy | ⟨d, hd, rfl⟩)
    · exact Or.inl (hheld y hy).1
    · rcases List.mem_append.mp hd with hd | hd
      · exact Or.inr ⟨d, hd, rfl⟩
      · rw [List.mem_singleton.mp hd]
        exact Or.inl hx
  have htaken := (h.out x (Or.inl hx)).2.1
  constructor
  · exact h.arrived
  · exact h.sorted
  · exact h.issued
  · intro y hy
    obtain ⟨hticket, hy', hhand⟩ := h.out y (hout y hy)
    exact ⟨hticket, Nat.lt_succ_of_lt hy', hhand⟩
  · exact fun y hy => h.ahead y (hout y hy)
  · exact fun y z hy hz => h.inTurn y z (hout y hy) (hout z hz)
  · refine List.pairwise_append.mpr ⟨h.stamped, List.pairwise_singleton _ _, ?_⟩
    intro d hd e he
    rw [List.mem_singleton.mp he]
    exact (h.past d hd).2
  · intro d hd
    rcases List.mem_append.mp hd with hd | hd
    · obtain ⟨hserved, hpast⟩ := h.past d hd
      exact ⟨hserved, Nat.lt_succ_of_lt hpast⟩
    · rw [List.mem_singleton.mp hd]
      exact ⟨htaken, Nat.lt_succ_self _⟩
  · intro d hd y hy hhand
    obtain ⟨hy, hne⟩ := hheld y hy
    rcases List.mem_append.mp hd with hd | hd
    · exact h.holding d hd y hy hhand
    · rw [List.mem_singleton.mp hd] at hhand
      exact absurd hhand.symm hne
  · intro d hd e he hhand hlt
    -- A hand serves what it holds, so nothing it is done with was taken later.
    rcases List.mem_append.mp hd with hd | hd <;> rcases List.mem_append.mp he with he | he
    · exact h.oneByOne d hd e he hhand hlt
    · rw [List.mem_singleton.mp he] at hhand ⊢
      exact h.holding d hd x hx hhand
    · rw [List.mem_singleton.mp hd] at hhand hlt
      have hbefore := h.holding e he x hx hhand.symm
      have hserved := (h.past e he).1
      dsimp only at hlt
      omega
    · rw [List.mem_singleton.mp hd, List.mem_singleton.mp he] at hlt
      exact absurd hlt (Nat.lt_irrefl _)

/-- **One move.** -/
theorem Sound.move (h : Sound ticket l) (hm : Move ticket l l') : Sound ticket l' := by
  cases hm with
  | join x hx => exact h.join hx
  | leave waiting hwaiting =>
      exact h.shrink rfl (Nat.le_succ _) rfl hwaiting (fun _ hx => hx) rfl
  | take hand x waiting hw hx => exact h.take hw hx
  | serve x hx => exact h.serve hx
  | drop hand =>
      refine h.shrink rfl (Nat.le_succ _) rfl (List.Sublist.refl _) ?_ rfl
      intro x hx
      by_cases hhand : x.hand = hand
      · rw [hhand] at hx
        dsimp only at hx
        rw [Function.update_self] at hx
        cases hx
      · dsimp only at hx
        rwa [Function.update_of_ne hhand] at hx

theorem Move.width (hm : Move ticket l l') : l'.width = l.width := by
  cases hm <;> rfl

/-- **Any number of moves.** -/
theorem Sound.moves (h : Sound ticket l) (hm : Relation.ReflTransGen (Move ticket) l l') :
    Sound ticket l' ∧ l'.width = l.width := by
  induction hm with
  | refl => exact ⟨h, rfl⟩
  | tail _ hmove ih => exact ⟨ih.1.move hmove, hmove.width.trans ih.2⟩

theorem Sound.ticket_lt (h : Sound ticket l) {x y : α} (hxy : [x, y].Sublist l.arrived) :
    ticket x < ticket y := by
  have hsorted : (l.arrived.map ticket).Pairwise (· < ·) :=
    h.arrived ▸ List.pairwise_lt_range
  exact List.rel_of_pairwise_cons (hsorted.sublist (hxy.map ticket)) List.mem_cons_self

/-- **In turn, or in two hands at once.** -/
theorem Sound.order (h : Sound ticket l) {a b : Served α} (ha : a ∈ l.done)
    (hb : b ∈ l.done) (hab : [a.item, b.item].Sublist l.arrived) :
    [a, b].Sublist l.done ∨
      (a.hand ≠ b.hand ∧ a.taken < b.taken ∧ b.taken < b.served ∧ b.served < a.served) := by
  have hticket := h.ticket_lt hab
  have htaken := h.inTurn _ _ (Or.inr ⟨a, ha, rfl⟩) (Or.inr ⟨b, hb, rfl⟩) hticket
  rcases pair_sublist ha hb with rfl | hdone | hdone
  · exact absurd hticket (Nat.lt_irrefl _)
  · exact Or.inl hdone
  · right
    have hserved : b.served < a.served :=
      List.rel_of_pairwise_cons (h.stamped.sublist hdone) List.mem_cons_self
    have hb' := (h.past b hb).1
    refine ⟨fun hhand => ?_, htaken, hb', hserved⟩
    have := h.oneByOne a ha b hb hhand htaken
    omega

/-- With one hand everything is served in turn. -/
theorem Sound.order_of_one (h : Sound ticket l) (hone : l.width ≤ 1) {a b : Served α}
    (ha : a ∈ l.done) (hb : b ∈ l.done) (hab : [a.item, b.item].Sublist l.arrived) :
    [a, b].Sublist l.done := by
  rcases h.order ha hb hab with hdone | ⟨hne, _⟩
  · exact hdone
  · have hwa := (h.out _ (Or.inr ⟨a, ha, rfl⟩)).2.2
    have hwb := (h.out _ (Or.inr ⟨b, hb, rfl⟩)).2.2
    omega

end Line

end Exchange.Framework
