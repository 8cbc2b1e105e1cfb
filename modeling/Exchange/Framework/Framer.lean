import Exchange.Framework.Loop

/-!
# Items out of a stream that arrives in pieces

A framer looks at the front of a buffer: there is an item, or there is not enough to
tell, or there never will be one. What it saw it also sees when more has arrived. So
what is taken out of a stream does not depend on the pieces it arrives in: feeding the
pieces one by one and draining the buffer after each gives what draining the whole
stream gives.
-/

namespace Exchange.Framework

/-- What stands at the front of a buffer. -/
inductive Peek (β ε : Type) : Type where
  | more
  | bad (error : ε)
  /-- An item, with the symbols it takes. -/
  | got (item : β) (size : ℕ)
deriving DecidableEq, Repr

structure Framer (σ β ε : Type) where
  peek : List σ → Peek β ε
  peek_nil : peek [] = .more
  progress : ∀ {buf x n}, peek buf = .got x n → 0 < n
  bounded : ∀ {buf x n}, peek buf = .got x n → n ≤ buf.length
  got_append : ∀ {buf x n}, peek buf = .got x n → ∀ rest, peek (buf ++ rest) = .got x n
  bad_append : ∀ {buf e}, peek buf = .bad e → ∀ rest, peek (buf ++ rest) = .bad e

/-- What was taken off a buffer, what is left, and whether an error was in the way. -/
structure Drained (σ β ε : Type) where
  items : List β
  rest : List σ
  error : Option ε
deriving DecidableEq, Repr

/-- More items, taken before. -/
def Drained.after {σ β ε : Type} (items : List β) (d : Drained σ β ε) : Drained σ β ε :=
  { d with items := items ++ d.items }

namespace Framer

variable {σ β ε : Type} (F : Framer σ β ε)

def turn (st : List β × List σ) : Turn (List β × List σ) (Drained σ β ε) :=
  match F.peek st.2 with
  | .more => .done { items := st.1, rest := st.2, error := none }
  | .bad e => .done { items := st.1, rest := st.2, error := some e }
  | .got x n => .next (st.1 ++ [x], st.2.drop n)

def loop : Loop (List β × List σ) (Drained σ β ε) where
  body := F.turn
  rank st := st.2.length
  decreases st st' h := by
    unfold turn at h
    split at h
    · cases h
    · cases h
    · rename_i x n hpeek
      have hpos := F.progress hpeek
      have hle := F.bounded hpeek
      cases h
      rw [List.length_drop]
      omega

/-- Takes items off the front for as long as there are any. -/
def drain (buf : List σ) : Drained σ β ε := F.loop.run ([], buf)

/-- Feeds the pieces to a drained buffer and drains it after each, until an error. -/
def feed : List σ → List (List σ) → Drained σ β ε
  | buf, [] => { items := [], rest := buf, error := none }
  | buf, chunk :: chunks =>
      let d := F.drain (buf ++ chunk)
      match d.error with
      | some _ => d
      | none => (feed d.rest chunks).after d.items

/-! ## Draining in terms of the front -/

variable {buf : List σ}

theorem drain_more (h : F.peek buf = .more) :
    F.drain buf = { items := [], rest := buf, error := none } := by
  apply F.loop.run_done
  show F.turn ([], buf) = _
  rw [turn, h]

theorem drain_bad {e : ε} (h : F.peek buf = .bad e) :
    F.drain buf = { items := [], rest := buf, error := some e } := by
  apply F.loop.run_done
  show F.turn ([], buf) = _
  rw [turn, h]

/-- The items taken before only stand in front. -/
theorem run_after (seen : List β) : F.loop.run (seen, buf) = (F.drain buf).after seen := by
  refine F.loop.run_related F.loop
    (R := fun st st' => st = (seen ++ st'.1, st'.2)) (Q := fun d d' => d = d'.after seen)
    (by rw [List.append_nil]) ?_
  rintro _ ⟨xs, rest⟩ rfl
  have hbody : ∀ st, F.loop.body st = F.turn st := fun _ => rfl
  rw [hbody, hbody, turn, turn]
  cases F.peek rest with
  | more => exact Or.inr ⟨_, _, rfl, rfl, rfl⟩
  | bad e => exact Or.inr ⟨_, _, rfl, rfl, rfl⟩
  | got x n => exact Or.inl ⟨_, _, rfl, rfl, by rw [List.append_assoc]⟩

theorem drain_got {x : β} {n : ℕ} (h : F.peek buf = .got x n) :
    F.drain buf = (F.drain (buf.drop n)).after [x] := by
  have hturn : F.loop.body ([], buf) = .next ([x], buf.drop n) := by
    show F.turn ([], buf) = _
    rw [turn, h]
    rfl
  rw [drain, F.loop.run_next hturn, F.run_after]

/-- **Induction along a drain.** -/
theorem drain_induction {P : List σ → Prop}
    (more : ∀ buf, F.peek buf = .more → P buf)
    (bad : ∀ buf e, F.peek buf = .bad e → P buf)
    (got : ∀ buf x n, F.peek buf = .got x n → P (buf.drop n) → P buf) (buf : List σ) :
    P buf := by
  induction hn : buf.length using Nat.strong_induction_on generalizing buf with
  | _ k ih =>
      cases hpeek : F.peek buf with
      | more => exact more buf hpeek
      | bad e => exact bad buf e hpeek
      | got x n =>
          have hpos := F.progress hpeek
          have hle := F.bounded hpeek
          exact got buf x n hpeek (ih _ (by rw [List.length_drop]; omega) _ rfl)

/-! ## More arrives -/

/-- What a drain without an error leaves has no item in front. -/
theorem peek_rest (h : (F.drain buf).error = none) :
    F.peek (F.drain buf).rest = .more := by
  induction buf using F.drain_induction with
  | more buf hpeek =>
      rw [F.drain_more hpeek]
      exact hpeek
  | bad buf e hpeek =>
      rw [F.drain_bad hpeek] at h
      cases h
  | got buf x n hpeek ih =>
      rw [F.drain_got hpeek] at h ⊢
      exact ih h

/-- A buffer may be drained before the rest arrives. -/
theorem drain_append (h : (F.drain buf).error = none) (rest : List σ) :
    F.drain (buf ++ rest) =
      (F.drain ((F.drain buf).rest ++ rest)).after (F.drain buf).items := by
  induction buf using F.drain_induction with
  | more buf hpeek =>
      rw [F.drain_more hpeek]
      rfl
  | bad buf e hpeek =>
      rw [F.drain_bad hpeek] at h
      cases h
  | got buf x n hpeek ih =>
      have hdrop : (buf ++ rest).drop n = buf.drop n ++ rest :=
        List.drop_append_of_le_length (F.bounded hpeek)
      rw [F.drain_got hpeek] at h
      rw [F.drain_got (F.got_append hpeek rest), hdrop, ih h, F.drain_got hpeek]
      rfl

/-- What comes after an error changes nothing that came before it. -/
theorem drain_append_bad {e : ε} (h : (F.drain buf).error = some e) (rest : List σ) :
    (F.drain (buf ++ rest)).items = (F.drain buf).items ∧
    (F.drain (buf ++ rest)).error = some e := by
  induction buf using F.drain_induction with
  | more buf hpeek =>
      rw [F.drain_more hpeek] at h
      cases h
  | bad buf e' hpeek =>
      rw [F.drain_bad hpeek] at h ⊢
      rw [F.drain_bad (F.bad_append hpeek rest)]
      exact ⟨rfl, h⟩
  | got buf x n hpeek ih =>
      have hdrop : (buf ++ rest).drop n = buf.drop n ++ rest :=
        List.drop_append_of_le_length (F.bounded hpeek)
      rw [F.drain_got hpeek] at h ⊢
      rw [F.drain_got (F.got_append hpeek rest), hdrop]
      obtain ⟨hitems, herror⟩ := ih h
      exact ⟨congrArg (x :: ·) hitems, herror⟩

/-- **The pieces do not matter.** Feeding them to a drained buffer gives the items and
the error of the whole stream, and without an error what is left of it. -/
theorem feed_eq_drain (chunks : List (List σ)) (h : F.peek buf = .more) :
    (F.feed buf chunks).items = (F.drain (buf ++ chunks.flatten)).items ∧
    (F.feed buf chunks).error = (F.drain (buf ++ chunks.flatten)).error ∧
    ((F.feed buf chunks).error = none →
      (F.feed buf chunks).rest = (F.drain (buf ++ chunks.flatten)).rest) := by
  induction chunks generalizing buf with
  | nil =>
      rw [List.flatten_nil, List.append_nil, F.drain_more h]
      exact ⟨rfl, rfl, fun _ => rfl⟩
  | cons chunk chunks ih =>
      rw [feed, List.flatten_cons, ← List.append_assoc]
      cases herror : (F.drain (buf ++ chunk)).error with
      | some e =>
          obtain ⟨hitems, herror'⟩ := F.drain_append_bad herror chunks.flatten
          exact ⟨hitems.symm, herror.trans herror'.symm, fun hnone =>
            absurd (herror.symm.trans hnone) nofun⟩
      | none =>
          obtain ⟨hitems, hsame, hrest⟩ := ih (F.peek_rest herror)
          rw [F.drain_append herror]
          exact ⟨congrArg ((F.drain (buf ++ chunk)).items ++ ·) hitems, hsame, hrest⟩

/-- A stream of encoded items is drained to the last symbol. -/
theorem drain_stream {ρ : Type} (encode : ρ → List σ) (item : ρ → β) (rs : List ρ)
    (h : ∀ r ∈ rs, ∀ rest, F.peek (encode r ++ rest) = .got (item r) (encode r).length) :
    F.drain (rs.flatMap encode) = { items := rs.map item, rest := [], error := none } := by
  induction rs with
  | nil => exact F.drain_more F.peek_nil
  | cons r rs ih =>
      rw [List.flatMap_cons, F.drain_got (h r List.mem_cons_self _), List.drop_left,
        ih fun r' hr' => h r' (List.mem_cons_of_mem r hr')]
      rfl

/-- **A front of a stream of encoded items is drained to its whole items**, and what is left
is less than the next one takes. -/
theorem drain_front {ρ : Type} (encode : ρ → List σ) (item : ρ → β)
    (h : ∀ r rest, F.peek (encode r ++ rest) = .got (item r) (encode r).length)
    {rs : List ρ} {tail : List σ} (hstream : buf ++ tail = rs.flatMap encode) :
    ∃ k rest, buf = (rs.take k).flatMap encode ++ rest ∧
      F.drain buf = { items := (rs.take k).map item, rest, error := none } ∧
      (∀ r, rs[k]? = some r → rest.length < (encode r).length) ∧
      (tail = [] → k = rs.length) := by
  induction rs generalizing buf with
  | nil =>
      obtain ⟨rfl, _⟩ := List.append_eq_nil_iff.mp hstream
      exact ⟨0, [], rfl, F.drain_more F.peek_nil, nofun, fun _ => rfl⟩
  | cons r rs ih =>
      rw [List.flatMap_cons] at hstream
      by_cases hlen : (encode r).length ≤ buf.length
      · -- the first item is there
        obtain ⟨buf', rfl⟩ : encode r <+: buf :=
          List.prefix_of_prefix_length_le ⟨_, rfl⟩ ⟨tail, hstream⟩ hlen
        rw [List.append_assoc] at hstream
        obtain ⟨k, rest, hbuf, hdrain, hnext, hwhole⟩ := ih (List.append_cancel_left hstream)
        refine ⟨k + 1, rest, ?_, ?_, hnext, fun htail => congrArg (· + 1) (hwhole htail)⟩
        · rw [List.take_succ_cons, List.flatMap_cons, List.append_assoc, ← hbuf]
        · rw [F.drain_got (h r buf'), List.drop_left, hdrain]
          rfl
      · -- there is not enough to tell
        have hpeek := h r (rs.flatMap encode)
        rw [← hstream] at hpeek
        have hmore : F.peek buf = .more := by
          cases hfront : F.peek buf with
          | more => rfl
          | bad e => cases (F.bad_append hfront tail).symm.trans hpeek
          | got x n =>
              have hgot := (F.got_append hfront tail).symm.trans hpeek
              have hle := F.bounded hfront
              cases hgot
              exact absurd hle hlen
        refine ⟨0, buf, rfl, F.drain_more hmore, fun r' hr' => ?_, fun htail => ?_⟩
        · cases hr'
          exact Nat.lt_of_not_le hlen
        · subst htail
          rw [List.append_nil] at hstream
          rw [hstream, List.length_append] at hlen
          exact absurd (Nat.le_add_right _ _) hlen

end Framer

end Exchange.Framework
