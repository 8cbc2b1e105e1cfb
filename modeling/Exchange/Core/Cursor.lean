import Exchange.Core.Wire

/-!
# Reading by position

`Wire` has a reader hold what lies ahead of it, where nothing can be read that is
not there. The reader of `core/wire.hpp` holds a span and a position and indexes
the span, which the language does not check. Here it is as it stands, with an
index outside the span as a way to stop. A decoder that follows its counterpart of
`Wire` field by field never stops that way.
-/

namespace Exchange

open Framework LittleEndian

/-- What stops a decoder. -/
inductive Stop : Type where
  /-- An index the span does not have: anything may follow. -/
  | outside
  | thrown (e : ProtocolError)
deriving DecidableEq, Repr

/-- Over the span `in_`, with the position `pos_`. -/
abbrev Cursor (α : Type) : Type := ReaderT Bytes (StateT ℕ (Except Stop)) α

namespace Cursor

/-- `in_[i]`. -/
def index (i : ℕ) : Cursor UInt8 := do
  match (← read)[i]? with
  | some b => return b
  | none => throw .outside

/-- A difference of two `size_t`, which wraps for a position behind the end. -/
def remaining : Cursor ℕ := do
  let size := (← read).length
  let pos ← get
  return if pos ≤ size then size - pos else size + 2 ^ 64 - pos

def require (bytes : ℕ) : Cursor Unit := do
  if (← remaining) < bytes then
    throw (.thrown ⟨"truncated message payload"⟩)

/-- The loop of `consume` from byte `i` on, with `left` bytes to go. -/
def gather (pos : ℕ) : ℕ → ℕ → UInt64 → Cursor UInt64
  | 0, _, value => return value
  | left + 1, i, value => do
      let b ← index (pos + i)
      gather pos left (i + 1) (value ||| (b.toUInt64 <<< (8 * UInt64.ofNat i)))

def consume (bytes : ℕ) : Cursor UInt64 := do
  require bytes
  let pos ← get
  let value ← gather pos bytes 0 0
  set (pos + bytes)
  return value

def u8 : Cursor UInt8 := do
  require 1
  let pos ← get
  let value ← index pos
  set (pos + 1)
  return value

def u32 : Cursor UInt32 := do return (← consume 4).toUInt32

def u64 : Cursor UInt64 := consume 8

def i64 : Cursor Int64 := do return (← u64).toInt64

def requireFullyConsumed : Cursor Unit := do
  if (← get) ≠ (← read).length then
    throw (.thrown ⟨"trailing bytes in message payload"⟩)

end Cursor

/-! ## Following a reader -/

/-- How a cursor ends against how a reader does: with the same value, at the
position where what the reader has left begins, or with the same exception. -/
inductive EndsAlike {α : Type} (bytes : Bytes) :
    Except Stop (α × ℕ) → Except ProtocolError (α × Bytes) → Prop where
  | ok (a : α) (pos : ℕ) (h : pos ≤ bytes.length) :
      EndsAlike bytes (.ok (a, pos)) (.ok (a, bytes.drop pos))
  | thrown (e : ProtocolError) : EndsAlike bytes (.error (.thrown e)) (.error e)

/-- From any position within the span, `c` does what `r` does with the bytes ahead. -/
def Follows {α : Type} (c : Cursor α) (r : Reader α) : Prop :=
  ∀ bytes pos, pos ≤ bytes.length →
    EndsAlike bytes ((c.run bytes).run pos) (r.run (bytes.drop pos))

namespace Follows

variable {α β : Type}

protected theorem pure (a : α) : Follows (pure a) (pure a) :=
  fun _ pos h => .ok a pos h

protected theorem throw (e : ProtocolError) : Follows (throw (.thrown e) : Cursor α) (throw e) :=
  fun _ _ _ => .thrown e

protected theorem bind {c : Cursor α} {r : Reader α} {f : α → Cursor β} {g : α → Reader β}
    (h : Follows c r) (hf : ∀ a, Follows (f a) (g a)) : Follows (c >>= f) (r >>= g) := by
  intro bytes pos hpos
  have hc := h bytes pos hpos
  rw [ReaderT.run_bind, StateT.run_bind, StateT.run_bind]
  generalize (c.run bytes).run pos = x at hc
  generalize r.run (bytes.drop pos) = y at hc
  rcases hc with ⟨a, pos', hpos'⟩ | ⟨e⟩
  · exact hf a bytes pos' hpos'
  · exact .thrown e

protected theorem map {c : Cursor α} {r : Reader α} (h : Follows c r) (f : α → β) :
    Follows (do return f (← c)) (do return f (← r)) :=
  h.bind fun a => Follows.pure (f a)

protected theorem ite {p : Prop} [Decidable p] {c c' : Cursor α} {r r' : Reader α}
    (h : Follows c r) (h' : Follows c' r') :
    Follows (if p then c else c') (if p then r else r') := by
  split
  · exact h
  · exact h'

/-! ## The fields -/

section Fields

variable {bytes : Bytes} {pos : ℕ} (hpos : pos ≤ bytes.length)

include hpos

/-- What is checked is what lies ahead. -/
theorem require_run (n : ℕ) :
    ((Cursor.require n).run bytes).run pos =
        (if bytes.length - pos < n then .error (.thrown ⟨"truncated message payload"⟩)
          else .ok ((), pos)) ∧
      (Reader.require n).run (bytes.drop pos) =
        if bytes.length - pos < n then .error ⟨"truncated message payload"⟩
        else .ok ((), bytes.drop pos) := by
  have hc : ((Cursor.require n).run bytes).run pos =
      ((if (if pos ≤ bytes.length then bytes.length - pos
          else bytes.length + 2 ^ 64 - pos) < n then
        throw (.thrown ⟨"truncated message payload"⟩) else pure () :
          Cursor Unit).run bytes).run pos := rfl
  have hr : (Reader.require n).run (bytes.drop pos) =
      (if (bytes.drop pos).length < n then throw ⟨"truncated message payload"⟩
        else pure () : Reader Unit).run (bytes.drop pos) := rfl
  rw [hc, hr, if_pos hpos, List.length_drop]
  constructor
  · split <;> rfl
  · split <;> rfl

/-- Behind a check that `n` bytes are there, both read them. -/
theorem after_require {α : Type} {n : ℕ} {c : Cursor α} {r : Reader α}
    (h : pos + n ≤ bytes.length →
      EndsAlike bytes ((c.run bytes).run pos) (r.run (bytes.drop pos))) :
    EndsAlike bytes (((Cursor.require n >>= fun _ => c).run bytes).run pos)
      ((Reader.require n >>= fun _ => r).run (bytes.drop pos)) := by
  obtain ⟨hc, hr⟩ := require_run hpos n
  rw [ReaderT.run_bind, StateT.run_bind, StateT.run_bind, hc, hr]
  by_cases hlt : bytes.length - pos < n
  · rw [if_pos hlt, if_pos hlt]
    exact .thrown _
  · rw [if_neg hlt, if_neg hlt]
    exact h (by omega)

omit hpos

theorem index_run {i p : ℕ} (h : i < bytes.length) :
    ((Cursor.index i).run bytes).run p = .ok (bytes[i], p) := by
  show ((match bytes[i]? with
    | some b => pure b
    | none => throw .outside : Cursor UInt8).run bytes).run p = _
  rw [List.getElem?_eq_getElem h]
  rfl

/-- The loop reads the bytes it is sent over, all of which are there. -/
theorem gather_run (p : ℕ) : ∀ (left i : ℕ) (value : UInt64),
    pos + i + left ≤ bytes.length →
    ((Cursor.gather pos left i value).run bytes).run p =
      .ok (assembleFrom i value ((bytes.drop (pos + i)).take left), p) := by
  intro left
  induction left with
  | zero =>
      intro i value _
      rw [List.take_zero]
      rfl
  | succ left ih =>
      intro i value h
      have hlt : pos + i < bytes.length := by omega
      have hdrop : bytes.drop (pos + i) = bytes[pos + i] :: bytes.drop (pos + (i + 1)) :=
        List.drop_eq_getElem_cons hlt
      rw [Cursor.gather, ReaderT.run_bind, StateT.run_bind, index_run hlt]
      show ((Cursor.gather pos left (i + 1) _).run bytes).run p = _
      rw [ih (i + 1) _ (by omega), hdrop, List.take_succ_cons, assembleFrom]

end Fields

theorem consume (n : ℕ) : Follows (Cursor.consume n) (Reader.consume n) := by
  intro bytes pos hpos
  apply after_require hpos
  intro hn
  show EndsAlike bytes (((Cursor.gather pos n 0 0 >>= fun value =>
      (do set (pos + n); return value : Cursor UInt64)).run bytes).run pos)
    (.ok (assemble ((bytes.drop pos).take n), (bytes.drop pos).drop n))
  rw [ReaderT.run_bind, StateT.run_bind, gather_run pos n 0 0 hn, List.drop_drop]
  exact .ok _ _ hn

theorem u8 : Follows Cursor.u8 Reader.u8 := by
  intro bytes pos hpos
  apply after_require hpos
  intro hn
  show EndsAlike bytes (((Cursor.index pos >>= fun value =>
      (do set (pos + 1); return value : Cursor UInt8)).run bytes).run pos)
    (.ok ((bytes.drop pos).headD 0, (bytes.drop pos).drop 1))
  rw [ReaderT.run_bind, StateT.run_bind, index_run hn, List.drop_drop,
    List.drop_eq_getElem_cons hn]
  exact .ok _ _ hn

theorem u32 : Follows Cursor.u32 Reader.u32 := (consume 4).map UInt64.toUInt32

theorem u64 : Follows Cursor.u64 Reader.u64 := consume 8

theorem i64 : Follows Cursor.i64 Reader.i64 := u64.map UInt64.toInt64

theorem requireFullyConsumed :
    Follows Cursor.requireFullyConsumed Reader.requireFullyConsumed := by
  intro bytes pos hpos
  have hend : (¬ (bytes.drop pos).isEmpty = true) ↔ pos ≠ bytes.length := by
    rw [List.isEmpty_iff, List.drop_eq_nil_iff]
    omega
  show EndsAlike bytes (((if pos ≠ bytes.length then
      throw (.thrown ⟨"trailing bytes in message payload"⟩) else pure () :
        Cursor Unit).run bytes).run pos)
    ((if ¬ (bytes.drop pos).isEmpty = true then
      throw ⟨"trailing bytes in message payload"⟩ else pure () :
        Reader Unit).run (bytes.drop pos))
  rw [if_congr hend rfl rfl]
  exact Follows.ite (Follows.throw _) (Follows.pure ()) bytes pos hpos

/-- A decoder over a whole span. -/
theorem run_span {α : Type} {c : Cursor α} {r : Reader α} (h : Follows c r)
    (bytes : Bytes) :
    (c.run bytes).run' 0 = (r.run' bytes).mapError .thrown := by
  have hall := h bytes 0 (Nat.zero_le _)
  rw [List.drop_zero] at hall
  show Prod.fst <$> (c.run bytes).run 0 = Except.mapError .thrown (Prod.fst <$> r.run bytes)
  generalize (c.run bytes).run 0 = x at hall
  generalize r.run bytes = y at hall
  rcases hall with ⟨a, pos, hpos⟩ | ⟨e⟩
  · rfl
  · rfl

end Follows

end Exchange
