import Exchange.Framework.Loop

/-!
# Scanning a buffer of self-delimiting records

A scanner takes records off the front of a buffer until the buffer is used up
or its front cannot be read. A format pairs a scanner with the encoder whose
records it reads: a whole record is read back whatever stands behind it, and a
record that was cut short is not read at all. What a scan makes of a cut stream
of encoded records follows: exactly the records that lie within the cut.
-/

namespace Exchange.Framework

/-- Reads one record off the front of a buffer, with the symbols it took. -/
structure Scanner (σ β : Type) where
  read : List σ → Option (β × ℕ)
  progress : ∀ {buf x n}, read buf = some (x, n) → 0 < n
  bounded : ∀ {buf x n}, read buf = some (x, n) → n ≤ buf.length

/-- What a scan found: the records, how far they reach, and whether something
unreadable stands behind them. -/
structure Scan (β : Type) where
  records : List β
  offset : ℕ
  damaged : Bool
deriving DecidableEq, Repr

/-- The loop variables of a scan. -/
structure ScanState (β : Type) where
  offset : ℕ := 0
  records : List β := []

namespace Scanner

variable {σ β : Type} (S : Scanner σ β)

def turn (buf : List σ) (st : ScanState β) : Turn (ScanState β) (Scan β) :=
  if st.offset < buf.length then
    match S.read (buf.drop st.offset) with
    | some (x, n) => .next { offset := st.offset + n, records := st.records ++ [x] }
    | none => .done { records := st.records, offset := st.offset, damaged := true }
  else .done { records := st.records, offset := st.offset, damaged := false }

def loop (buf : List σ) : Loop (ScanState β) (Scan β) where
  body := S.turn buf
  rank st := buf.length - st.offset
  decreases st st' h := by
    unfold turn at h
    split at h
    · rename_i hlt
      split at h
      · rename_i x n hread
        have hpos := S.progress hread
        cases h
        dsimp only
        omega
      · cases h
    · cases h

def scan (buf : List σ) : Scan β := (S.loop buf).run {}

/-! ## The scan of a buffer in terms of its front -/

@[simp] theorem scan_nil : S.scan [] = { records := [], offset := 0, damaged := false } :=
  (S.loop []).run_done rfl

theorem scan_stuck {buf : List σ} (hne : buf ≠ []) (h : S.read buf = none) :
    S.scan buf = { records := [], offset := 0, damaged := true } := by
  apply (S.loop buf).run_done
  show S.turn buf {} = _
  rw [turn, if_pos (List.length_pos_iff.mpr hne), List.drop_zero, h]

/-- A scan that is under way goes on as the scan of what lies ahead. -/
theorem run_append (pre buf : List σ) (seen : List β) :
    (S.loop (pre ++ buf)).run { offset := pre.length, records := seen } =
      { records := seen ++ (S.scan buf).records
        offset := pre.length + (S.scan buf).offset
        damaged := (S.scan buf).damaged } := by
  refine (S.loop (pre ++ buf)).run_related (S.loop buf)
    (R := fun st st' => st.offset = pre.length + st'.offset ∧
      st.records = seen ++ st'.records)
    (Q := fun r r' => r = { records := seen ++ r'.records,
                            offset := pre.length + r'.offset, damaged := r'.damaged })
    ⟨rfl, (List.append_nil _).symm⟩ ?_
  rintro ⟨k, xs⟩ ⟨k', xs'⟩ ⟨hk, hxs⟩
  dsimp only at hk hxs
  -- Both loops look at the same bytes.
  have hdrop : (pre ++ buf).drop k = buf.drop k' := by
    rw [hk, List.drop_append]
    simp
  have hlen : k < (pre ++ buf).length ↔ k' < buf.length := by
    rw [List.length_append]
    omega
  have hbody : (S.loop (pre ++ buf)).body ⟨k, xs⟩ = S.turn (pre ++ buf) ⟨k, xs⟩ := rfl
  have hbody' : (S.loop buf).body ⟨k', xs'⟩ = S.turn buf ⟨k', xs'⟩ := rfl
  rw [hbody, hbody', turn, turn]
  dsimp only
  rw [hdrop]
  by_cases hlt : k' < buf.length
  · rw [if_pos hlt, if_pos (hlen.mpr hlt)]
    cases S.read (buf.drop k') with
    | none => exact Or.inr ⟨_, _, rfl, rfl, by rw [hk, hxs]⟩
    | some r =>
        refine Or.inl ⟨_, _, rfl, rfl, ?_, ?_⟩
        · dsimp only
          omega
        · dsimp only
          rw [hxs, List.append_assoc]
  · rw [if_neg hlt, if_neg (mt hlen.mp hlt)]
    exact Or.inr ⟨_, _, rfl, rfl, by rw [hk, hxs]⟩

/-- A record that can be read is the first of the scan. -/
theorem scan_read {front buf : List σ} {x : β}
    (h : S.read (front ++ buf) = some (x, front.length)) :
    S.scan (front ++ buf) =
      { records := x :: (S.scan buf).records
        offset := front.length + (S.scan buf).offset
        damaged := (S.scan buf).damaged } := by
  have hpos := S.progress h
  have hturn : (S.loop (front ++ buf)).body {} =
      .next { offset := front.length, records := [x] } := by
    show S.turn (front ++ buf) {} = _
    rw [turn, if_pos (by rw [List.length_append]; exact Nat.add_pos_left hpos _),
      List.drop_zero, h]
    simp
  rw [scan, (S.loop _).run_next hturn, S.run_append]
  rfl

/-! ## Scanning record by record -/

/-- A scan as an induction: nothing is left, the front cannot be read, or a record
is read and the scan goes on behind it. -/
theorem scan_induction {P : List σ → Prop} (nil : P [])
    (stuck : ∀ buf, buf ≠ [] → S.read buf = none → P buf)
    (read : ∀ front buf x, S.read (front ++ buf) = some (x, front.length) → P buf →
      P (front ++ buf)) (buf : List σ) : P buf := by
  induction h : buf.length using Nat.strong_induction_on generalizing buf with
  | h len ih =>
      by_cases hne : buf = []
      · rw [hne]
        exact nil
      · rcases hr : S.read buf with _ | ⟨x, n⟩
        · exact stuck buf hne hr
        · have hpos := S.progress hr
          have hle := S.bounded hr
          have hfront : (buf.take n).length = n := List.length_take_of_le hle
          rw [← List.take_append_drop n buf]
          apply read _ _ x
          · rw [hfront, List.take_append_drop, hr]
          · apply ih (buf.drop n).length _ _ rfl
            rw [List.length_drop]
            omega

/-- An undamaged buffer was read to its end. -/
theorem scan_offset_eq {buf : List σ} (h : (S.scan buf).damaged = false) :
    (S.scan buf).offset = buf.length := by
  induction buf using S.scan_induction with
  | nil => simp
  | stuck buf hne hread =>
      rw [S.scan_stuck hne hread] at h
      cases h
  | read front buf x hread ih =>
      rw [S.scan_read hread] at h ⊢
      rw [List.length_append, ih h]

/-- Nothing can be read where a scan stopped. -/
theorem read_stopped (buf : List σ) : S.read (buf.drop (S.scan buf).offset) = none := by
  induction buf using S.scan_induction with
  | nil =>
      rw [List.drop_nil, Option.eq_none_iff_forall_not_mem]
      rintro ⟨x, n⟩ h
      exact Nat.not_lt.mpr (S.bounded h) (S.progress h)
  | stuck buf hne h =>
      rw [S.scan_stuck hne h]
      exact h
  | read front buf x h ih =>
      rw [S.scan_read h, List.drop_append, List.drop_eq_nil_of_le (Nat.le_add_right _ _),
        List.nil_append, Nat.add_sub_cancel_left]
      exact ih

/-- The first record of a scan was read off the front. -/
theorem read_of_scan {buf : List σ} {x : β} {xs : List β}
    (h : (S.scan buf).records = x :: xs) : ∃ n, S.read buf = some (x, n) := by
  induction buf using S.scan_induction with
  | nil =>
      rw [S.scan_nil] at h
      cases h
  | stuck buf hne hread =>
      rw [S.scan_stuck hne hread] at h
      cases h
  | read front buf y hread _ =>
      rw [S.scan_read hread] at h
      cases h
      exact ⟨front.length, hread⟩

/-- What is read depends only on the symbols that are taken. -/
def Local : Prop :=
  ∀ {front rest : List σ} {x : β}, S.read (front ++ rest) = some (x, front.length) →
    ∀ rest', S.read (front ++ rest') = some (x, front.length)

section Local

variable {S} (hS : S.Local)

include hS

/-- **The records of a scan are found again** in front of anything else. -/
theorem Local.scan_front (buf rest : List σ) :
    S.scan (buf.take (S.scan buf).offset ++ rest) =
      { records := (S.scan buf).records ++ (S.scan rest).records
        offset := (S.scan buf).offset + (S.scan rest).offset
        damaged := (S.scan rest).damaged } := by
  induction buf using S.scan_induction with
  | nil => simp
  | stuck buf hne h =>
      rw [S.scan_stuck hne h]
      simp
  | read front buf x h ih =>
      rw [S.scan_read h]
      dsimp only
      rw [List.take_length_add_append, List.append_assoc, S.scan_read (hS h _), ih]
      simp [Nat.add_assoc]

/-- A scan that stopped goes on from there when more stands behind the buffer. -/
theorem Local.scan_behind (buf rest : List σ) :
    S.scan (buf ++ rest) =
      { records := (S.scan buf).records ++
          (S.scan (buf.drop (S.scan buf).offset ++ rest)).records
        offset := (S.scan buf).offset +
          (S.scan (buf.drop (S.scan buf).offset ++ rest)).offset
        damaged := (S.scan (buf.drop (S.scan buf).offset ++ rest)).damaged } := by
  rw [← hS.scan_front, ← List.append_assoc, List.take_append_drop]

/-- Behind an undamaged buffer a scan goes on as if it began there. -/
theorem Local.scan_append {buf : List σ} (h : (S.scan buf).damaged = false)
    (rest : List σ) :
    S.scan (buf ++ rest) =
      { records := (S.scan buf).records ++ (S.scan rest).records
        offset := buf.length + (S.scan rest).offset
        damaged := (S.scan rest).damaged } := by
  have hfront := hS.scan_front buf rest
  rwa [S.scan_offset_eq h, List.take_length] at hfront

end Local

end Scanner

/-- A scanner together with the encoder whose records it reads. -/
structure Format (σ ρ β : Type) extends Scanner σ β where
  encode : ρ → List σ
  /-- What reading makes of a record. -/
  stored : ρ → β
  read_encode : ∀ r rest, read (encode r ++ rest) = some (stored r, (encode r).length)
  read_short : ∀ r front, front <+: encode r → front.length < (encode r).length →
    read front = none

namespace Format

variable {σ ρ β : Type} (F : Format σ ρ β)

/-- The records one behind the other. -/
def stream (rs : List ρ) : List σ := rs.flatMap F.encode

@[simp] theorem stream_nil : F.stream [] = [] := rfl

@[simp] theorem stream_cons (r : ρ) (rs : List ρ) :
    F.stream (r :: rs) = F.encode r ++ F.stream rs := List.flatMap_cons

theorem stream_append (rs rs' : List ρ) :
    F.stream (rs ++ rs') = F.stream rs ++ F.stream rs' := List.flatMap_append

theorem stream_take_le (rs : List ρ) {j k : ℕ} (h : j ≤ k) :
    (F.stream (rs.take j)).length ≤ (F.stream (rs.take k)).length := by
  have htake : rs.take k = rs.take j ++ (rs.drop j).take (k - j) := by
    rw [← List.take_add, Nat.add_sub_cancel' h]
  rw [htake, F.stream_append, List.length_append]
  exact Nat.le_add_right _ _

theorem encode_length_pos (r : ρ) : 0 < (F.encode r).length :=
  F.progress (F.read_encode r [])

/-- **A stream reads back**, and then whatever stands behind it. -/
theorem scan_stream (rs : List ρ) (tail : List σ) :
    F.scan (F.stream rs ++ tail) =
      { records := rs.map F.stored ++ (F.scan tail).records
        offset := (F.stream rs).length + (F.scan tail).offset
        damaged := (F.scan tail).damaged } := by
  induction rs with
  | nil => simp
  | cons r rs ih =>
      rw [stream_cons, List.append_assoc, F.scan_read (F.read_encode r _), ih]
      simp [Nat.add_assoc]

/-- A record cut short: nothing is read, and what is there counts as damage. -/
theorem scan_short {r : ρ} {front : List σ} (hpre : front <+: F.encode r)
    (hlt : front.length < (F.encode r).length) :
    F.scan front = { records := [], offset := 0, damaged := !front.isEmpty } := by
  cases front with
  | nil => exact F.scan_nil
  | cons a front => exact F.scan_stuck (by simp) (F.read_short r _ hpre hlt)

/-- How a cut falls into a stream: after `k` whole records, and perhaps some
way into the next. -/
structure Cut (rs : List ρ) (left : List σ) (k : ℕ) (torn : List σ) : Prop where
  bound : k ≤ rs.length
  split : left = F.stream (rs.take k) ++ torn
  torn : torn = [] ∨ ∃ r, rs.drop k = r :: rs.drop (k + 1) ∧ torn <+: F.encode r ∧
    torn.length < (F.encode r).length

/-- Every prefix of a stream is a cut. -/
theorem exists_cut : ∀ (rs : List ρ) (left : List σ), left <+: F.stream rs →
    ∃ k torn, F.Cut rs left k torn := by
  intro rs
  induction rs with
  | nil =>
      intro left h
      rw [stream_nil, List.prefix_nil] at h
      exact ⟨0, [], Nat.le_refl 0, by rw [h]; rfl, Or.inl rfl⟩
  | cons r rs ih =>
      intro left h
      rw [stream_cons] at h
      by_cases hlt : left.length < (F.encode r).length
      · have hpre : left <+: F.encode r :=
          List.prefix_of_prefix_length_le h (List.prefix_append _ _) (Nat.le_of_lt hlt)
        exact ⟨0, left, Nat.zero_le _, rfl, Or.inr ⟨r, rfl, hpre, hlt⟩⟩
      · -- The first record lies within the cut; the rest of it cuts the rest.
        have hfull : F.encode r <+: left :=
          List.prefix_of_prefix_length_le (List.prefix_append _ _) h (by omega)
        obtain ⟨rest, rfl⟩ := hfull
        obtain ⟨k, torn, hcut⟩ := ih rest ((List.prefix_append_right_inj _).mp h)
        refine ⟨k + 1, torn, ?_, ?_, ?_⟩
        · have := hcut.bound
          simpa using this
        · rw [List.take_succ_cons, stream_cons, List.append_assoc, ← hcut.split]
        · simpa using hcut.torn

namespace Cut

variable {F} {rs : List ρ} {left torn : List σ} {k : ℕ}

theorem scan_torn (h : F.Cut rs left k torn) :
    F.scan torn = { records := [], offset := 0, damaged := !torn.isEmpty } := by
  rcases h.torn with rfl | ⟨r, _, hpre, hlt⟩
  · exact F.scan_nil
  · exact F.scan_short hpre hlt

/-- A cut keeps every record that lies within it. -/
theorem covers (h : F.Cut rs left k torn) {j : ℕ} (hj : j ≤ rs.length)
    (hlen : (F.stream (rs.take j)).length ≤ left.length) : j ≤ k := by
  by_contra hlt
  rw [Nat.not_le] at hlt
  have hdrop : rs.drop k ≠ [] := by
    intro hnil
    have := List.length_drop ▸ congrArg List.length hnil
    simp at this
    omega
  have htake : rs.take j = rs.take k ++ (rs.drop k).take (j - k) := by
    rw [← List.take_add, Nat.add_sub_cancel' (Nat.le_of_lt hlt)]
  rw [htake, F.stream_append, h.split, List.length_append, List.length_append] at hlen
  obtain ⟨r, rest, hr⟩ := List.exists_cons_of_ne_nil hdrop
  obtain ⟨i, hi⟩ : ∃ i, j - k = i + 1 := ⟨j - k - 1, by omega⟩
  rw [hr, hi, List.take_succ_cons, F.stream_cons, List.length_append] at hlen
  have hpos := F.encode_length_pos r
  rcases h.torn with rfl | ⟨r', hr', _, hlt'⟩
  · rw [List.length_nil] at hlen
    omega
  · rw [hr] at hr'
    cases hr'
    omega

end Cut

end Format

end Exchange.Framework
