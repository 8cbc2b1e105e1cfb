import Exchange.Framework.Framer
import Exchange.Net.Protocol

/-!
# Frames out of a byte stream

`FrameAssembler` keeps what has arrived in a buffer, and how far it has been read. The
part that was read is dropped only now and then, which no caller can tell: what the
next frame is depends on the unread bytes alone. Reading them is a framer, so the frames
and the first error do not depend on the pieces the bytes arrive in.
-/

namespace Exchange.Net

open Framework LittleEndian

/-- One complete message, still undecoded. -/
structure Frame where
  version : UInt8
  type : MessageType
  payload : Bytes
deriving DecidableEq, Repr

structure FrameAssembler where
  buffer : Bytes := []
  readPos : ℕ := 0
  maxBody : UInt32 := kMaxFrameBody
  /-- The read position stays within the buffer. -/
  bound : readPos ≤ buffer.length := by decide

/-- An assembler nothing has arrived at. -/
def FrameAssembler.fresh : FrameAssembler := {}

/-- Reads a frame off unread bytes that hold a whole header, unless its body is still in
flight. -/
def readFrame (maxBody : UInt32) (view : Bytes) : Reader (Option (Frame × ℕ)) := do
  let length ← Reader.u32
  if length > maxBody then
    throw ⟨"frame body " ++ toString length ++ " exceeds the " ++ toString maxBody ++
      " byte limit"⟩
  if length < 2 then
    throw ⟨"frame body " ++ toString length ++ " is too short to be valid"⟩
  let total := 4 + length.toNat
  if view.length < total then
    return none
  let version ← Reader.u8
  if version ≠ kProtocolVersion then
    throw ⟨"unsupported protocol version " ++ toString version⟩
  let type ← Reader.u8
  return some ({ version, type := ⟨type⟩,
                 payload := (view.drop kHeaderSize).take (length.toNat - 2) }, total)

/-- What `next` finds in the unread bytes. -/
def peekFrame (maxBody : UInt32) (view : Bytes) : Peek Frame ProtocolError :=
  if view.length < kHeaderSize then .more
  else
    match (readFrame maxBody view).run view with
    | .error e => .bad e
    | .ok (none, _) => .more
    | .ok (some (frame, total), _) => .got frame total

/-! ## The fields of a header -/

section Header

variable {maxBody : UInt32} {view : Bytes}

def lengthField (view : Bytes) : UInt32 := (assemble (view.take 4)).toUInt32

def versionField (view : Bytes) : UInt8 := (view.drop 4).headD 0

def typeField (view : Bytes) : UInt8 := (view.drop 5).headD 0

/-- What is read off a whole header, field by field. -/
theorem peekFrame_eq (h : kHeaderSize ≤ view.length) :
    peekFrame maxBody view =
      if lengthField view > maxBody then
        .bad ⟨"frame body " ++ toString (lengthField view) ++ " exceeds the " ++
          toString maxBody ++ " byte limit"⟩
      else if lengthField view < 2 then
        .bad ⟨"frame body " ++ toString (lengthField view) ++ " is too short to be valid"⟩
      else if view.length < 4 + (lengthField view).toNat then .more
      else if versionField view ≠ kProtocolVersion then
        .bad ⟨"unsupported protocol version " ++ toString (versionField view)⟩
      else
        .got { version := versionField view
               type := ⟨typeField view⟩
               payload := (view.drop kHeaderSize).take ((lengthField view).toNat - 2) }
          (4 + (lengthField view).toNat) := by
  obtain ⟨b0, b1, b2, b3, b4, b5, rest, rfl⟩ : ∃ b0 b1 b2 b3 b4 b5 rest,
      view = b0 :: b1 :: b2 :: b3 :: b4 :: b5 :: rest := by
    match view, h with
    | b0 :: b1 :: b2 :: b3 :: b4 :: b5 :: rest, _ => exact ⟨b0, b1, b2, b3, b4, b5, rest, rfl⟩
  have hu32 : Reader.u32.run (b0 :: b1 :: b2 :: b3 :: b4 :: b5 :: rest) =
      .ok (lengthField (b0 :: b1 :: b2 :: b3 :: b4 :: b5 :: rest), b4 :: b5 :: rest) := by
    have hconsume := consume_run (b4 :: b5 :: rest) (show [b0, b1, b2, b3].length = 4 from rfl)
    simp only [Reader.u32, StateT.run_bind]
    rw [show b0 :: b1 :: b2 :: b3 :: b4 :: b5 :: rest = [b0, b1, b2, b3] ++ b4 :: b5 :: rest
      from rfl, hconsume]
    rfl
  have hversion : Reader.u8.run (b4 :: b5 :: rest) = .ok (b4, b5 :: rest) :=
    u8_run (b5 :: rest) b4
  have htype : Reader.u8.run (b5 :: rest) = .ok (b5, rest) := u8_run rest b5
  rw [peekFrame, if_neg (Nat.not_lt.mpr h), readFrame, StateT.run_bind, hu32, ok_bind]
  generalize hview : b0 :: b1 :: b2 :: b3 :: b4 :: b5 :: rest = view
  have hb4 : versionField view = b4 := by rw [← hview]; rfl
  have hb5 : typeField view = b5 := by rw [← hview]; rfl
  rw [hb4, hb5]
  -- The checks in the order the source makes them: size, minimum, arrival, version.
  by_cases hlong : lengthField view > maxBody
  · rw [if_pos hlong]
    simp only [if_pos hlong]
    rfl
  rw [if_neg hlong]
  by_cases hshort : lengthField view < 2
  · rw [if_pos hshort]
    simp only [if_neg hlong, if_pos hshort]
    rfl
  rw [if_neg hshort]
  by_cases hflight : view.length < 4 + (lengthField view).toNat
  · rw [if_pos hflight]
    simp only [if_neg hlong, if_neg hshort, if_pos hflight]
    rfl
  rw [if_neg hflight]
  by_cases hv : b4 ≠ kProtocolVersion
  · rw [if_pos hv]
    simp only [if_neg hlong, if_neg hshort, if_neg hflight, StateT.run_bind, hversion, ok_bind,
      if_pos hv]
    rfl
  · rw [if_neg hv]
    simp only [if_neg hlong, if_neg hshort, if_neg hflight, StateT.run_bind, hversion, ok_bind,
      if_neg hv, htype]
    rfl

theorem header_of_ne_more (h : peekFrame maxBody view ≠ .more) :
    kHeaderSize ≤ view.length := by
  by_contra hlt
  exact h (by rw [peekFrame, if_pos (Nat.not_le.mp hlt)])

theorem peekFrame_got {frame : Frame} {n : ℕ} (h : peekFrame maxBody view = .got frame n) :
    n = 4 + (lengthField view).toNat ∧ n ≤ view.length := by
  have hmore : peekFrame maxBody view ≠ .more := by rw [h]; exact nofun
  rw [peekFrame_eq (header_of_ne_more hmore)] at h
  split at h
  · cases h
  split at h
  · cases h
  split at h
  · cases h
  rename_i hflight
  split at h
  · cases h
  · cases h
    exact ⟨rfl, Nat.not_lt.mp hflight⟩

/-- A header is the same whatever stands behind it. -/
theorem fields_append (h : kHeaderSize ≤ view.length) (rest : Bytes) :
    lengthField (view ++ rest) = lengthField view ∧
    versionField (view ++ rest) = versionField view ∧
    typeField (view ++ rest) = typeField view := by
  have hsix : 6 ≤ view.length := h
  refine ⟨?_, ?_, ?_⟩
  · rw [lengthField, List.take_append_of_le_length (by omega), lengthField]
  · rw [versionField, List.drop_append_of_le_length (by omega), versionField]
    cases hdrop : view.drop 4 with
    | nil =>
        rw [List.drop_eq_nil_iff] at hdrop
        omega
    | cons b bs => rfl
  · rw [typeField, List.drop_append_of_le_length (by omega), typeField]
    cases hdrop : view.drop 5 with
    | nil =>
        rw [List.drop_eq_nil_iff] at hdrop
        omega
    | cons b bs => rfl

end Header

/-- A frame, once it is there, and an error, once it shows, are there for good. -/
theorem peekFrame_append {maxBody : UInt32} {view : Bytes}
    (h : peekFrame maxBody view ≠ .more) (rest : Bytes) :
    peekFrame maxBody (view ++ rest) = peekFrame maxBody view := by
  have hheader := header_of_ne_more h
  obtain ⟨hlength, hversion, htype⟩ := fields_append hheader rest
  have hheader' : kHeaderSize ≤ (view ++ rest).length := by
    rw [List.length_append]
    omega
  rw [peekFrame_eq hheader] at h ⊢
  rw [peekFrame_eq hheader', hlength, hversion, htype]
  by_cases hlong : lengthField view > maxBody
  · rw [if_pos hlong, if_pos hlong]
  rw [if_neg hlong] at h ⊢
  rw [if_neg hlong]
  by_cases hshort : lengthField view < 2
  · rw [if_pos hshort, if_pos hshort]
  rw [if_neg hshort] at h ⊢
  rw [if_neg hshort]
  by_cases hflight : view.length < 4 + (lengthField view).toNat
  · rw [if_pos hflight] at h
    exact absurd rfl h
  -- The whole body is there, so the payload lies within what was there before.
  have hpayload : ((view ++ rest).drop kHeaderSize).take ((lengthField view).toNat - 2) =
      (view.drop kHeaderSize).take ((lengthField view).toNat - 2) := by
    rw [List.drop_append_of_le_length hheader, List.take_append_of_le_length]
    rw [List.length_drop, kHeaderSize]
    omega
  rw [if_neg hflight, if_neg (by rw [List.length_append]; omega), hpayload]

def framer (maxBody : UInt32) : Framer UInt8 Frame ProtocolError where
  peek := peekFrame maxBody
  peek_nil := rfl
  progress h := by
    have := (peekFrame_got h).1
    omega
  bounded h := (peekFrame_got h).2
  got_append h rest := (peekFrame_append (by rw [h]; exact nofun) rest).trans h
  bad_append h rest := (peekFrame_append (by rw [h]; exact nofun) rest).trans h

namespace FrameAssembler

/-- The bytes that have not been read yet. -/
def unread (a : FrameAssembler) : Bytes := a.buffer.drop a.readPos

def buffered (a : FrameAssembler) : ℕ := a.buffer.length - a.readPos

def append (a : FrameAssembler) (bytes : Bytes) : FrameAssembler :=
  { a with
    buffer := a.buffer ++ bytes
    bound := by
      rw [List.length_append]
      exact Nat.le_add_right_of_le a.bound }

/-- Drops the consumed front once it is at least half of the buffer. -/
def compact (a : FrameAssembler) : FrameAssembler :=
  if a.readPos = 0 then a
  else if a.readPos * 2 < a.buffer.length then a
  else { a with buffer := a.buffer.drop a.readPos, readPos := 0, bound := Nat.zero_le _ }

/-- Moves the read position past a frame. -/
def advance (a : FrameAssembler) {frame : Frame} {total : ℕ}
    (h : peekFrame a.maxBody a.unread = .got frame total) : FrameAssembler :=
  { a with
    readPos := a.readPos + total
    bound := by
      have hle := (peekFrame_got h).2
      have hbound := a.bound
      rw [unread, List.length_drop] at hle
      omega }

/-- The next complete frame, if one has arrived. -/
def next (a : FrameAssembler) : Except ProtocolError (Option Frame) × FrameAssembler :=
  let a := a.compact
  match h : peekFrame a.maxBody a.unread with
  | .more => (.ok none, a)
  | .bad e => (.error e, a)
  | .got frame _ => (.ok (some frame), a.advance h)

/-! ## What the calls do to the unread bytes -/

section Calls

variable (a : FrameAssembler)

theorem buffered_eq : a.buffered = a.unread.length := (List.length_drop ..).symm

@[simp] theorem append_unread (bytes : Bytes) :
    (a.append bytes).unread = a.unread ++ bytes :=
  List.drop_append_of_le_length a.bound

@[simp] theorem append_maxBody (bytes : Bytes) : (a.append bytes).maxBody = a.maxBody := rfl

@[simp] theorem compact_unread : a.compact.unread = a.unread := by
  unfold compact
  split
  · rfl
  · split <;> rfl

@[simp] theorem compact_maxBody : a.compact.maxBody = a.maxBody := by
  unfold compact
  split
  · rfl
  · split <;> rfl

variable {a}

theorem peek_compact :
    peekFrame a.compact.maxBody a.compact.unread = peekFrame a.maxBody a.unread := by
  rw [compact_unread, compact_maxBody]

theorem next_more (h : peekFrame a.maxBody a.unread = .more) :
    a.next = (.ok none, a.compact) := by
  rw [← peek_compact] at h
  unfold next
  dsimp only
  split <;> rename_i hpeek
  · rfl
  · rw [h] at hpeek
    cases hpeek
  · rw [h] at hpeek
    cases hpeek

theorem next_bad {e : ProtocolError} (h : peekFrame a.maxBody a.unread = .bad e) :
    a.next = (.error e, a.compact) := by
  rw [← peek_compact] at h
  unfold next
  dsimp only
  split <;> rename_i hpeek <;> rw [h] at hpeek <;> cases hpeek
  rfl

theorem next_got {frame : Frame} {n : ℕ} (h : peekFrame a.maxBody a.unread = .got frame n) :
    a.next.1 = .ok (some frame) ∧ a.next.2.unread = a.unread.drop n ∧
      a.next.2.maxBody = a.maxBody := by
  rw [← peek_compact] at h
  unfold next
  dsimp only
  split <;> rename_i hpeek <;> rw [h] at hpeek <;> cases hpeek
  refine ⟨rfl, ?_, compact_maxBody a⟩
  rw [← compact_unread a]
  exact List.drop_drop.symm

end Calls

/-! ## Draining and feeding -/

/-- What came out of an assembler, up to the first error. -/
structure Received where
  frames : List Frame
  error : Option ProtocolError
  assembler : FrameAssembler

def drainTurn (st : List Frame × FrameAssembler) :
    Turn (List Frame × FrameAssembler) Received :=
  match st.2.next with
  | (.ok (some frame), a) => .next (st.1 ++ [frame], a)
  | (.ok none, a) => .done { frames := st.1, error := none, assembler := a }
  | (.error e, a) => .done { frames := st.1, error := some e, assembler := a }

theorem drainTurn_cases (frames : List Frame) (a : FrameAssembler) :
    (peekFrame a.maxBody a.unread = .more ∧ drainTurn (frames, a) =
      .done { frames, error := none, assembler := a.compact }) ∨
    (∃ e, peekFrame a.maxBody a.unread = .bad e ∧ drainTurn (frames, a) =
      .done { frames, error := some e, assembler := a.compact }) ∨
    ∃ frame n, peekFrame a.maxBody a.unread = .got frame n ∧
      drainTurn (frames, a) = .next (frames ++ [frame], a.next.2) ∧
      a.next.2.unread = a.unread.drop n ∧ a.next.2.maxBody = a.maxBody := by
  cases hpeek : peekFrame a.maxBody a.unread with
  | more => exact Or.inl ⟨rfl, by rw [drainTurn, next_more hpeek]⟩
  | bad e => exact Or.inr (Or.inl ⟨e, rfl, by rw [drainTurn, next_bad hpeek]⟩)
  | got frame n =>
      obtain ⟨hframe, hunread, hmax⟩ := next_got hpeek
      refine Or.inr (Or.inr ⟨frame, n, rfl, ?_, hunread, hmax⟩)
      unfold drainTurn
      dsimp only
      rw [← Prod.eta a.next, hframe]

def drainLoop : Loop (List Frame × FrameAssembler) Received where
  body := drainTurn
  rank st := st.2.unread.length
  decreases := by
    rintro ⟨frames, a⟩ st' h
    rcases drainTurn_cases frames a with
      ⟨_, ht⟩ | ⟨e, _, ht⟩ | ⟨frame, n, hpeek, ht, hunread, _⟩
    · rw [ht] at h
      cases h
    · rw [ht] at h
      cases h
    · rw [ht] at h
      cases h
      obtain ⟨hn, hle⟩ := peekFrame_got hpeek
      rw [hunread, List.length_drop]
      dsimp only
      omega

/-- Calls `next` until it yields no frame. -/
def drain (a : FrameAssembler) : Received := drainLoop.run ([], a)

/-- Appends the pieces one by one and drains the assembler after each, until an error. -/
def feed (a : FrameAssembler) : List Bytes → Received
  | [] => { frames := [], error := none, assembler := a }
  | chunk :: chunks =>
      let r := (a.append chunk).drain
      match r.error with
      | some _ => r
      | none =>
          let r' := r.assembler.feed chunks
          { r' with frames := r.frames ++ r'.frames }

/-! ## The assembler as a framer -/

/-- The assembler came out as the framer did over the unread bytes. -/
structure Received.Matches (maxBody : UInt32) (r : Received)
    (d : Drained UInt8 Frame ProtocolError) : Prop where
  frames : r.frames = d.items
  error : r.error = d.error
  unread : r.assembler.unread = d.rest
  maxBody : r.assembler.maxBody = maxBody

theorem drain_matches (a : FrameAssembler) :
    a.drain.Matches a.maxBody ((framer a.maxBody).drain a.unread) := by
  refine drainLoop.run_related (framer a.maxBody).loop
    (R := fun st st' => st.1 = st'.1 ∧ st.2.unread = st'.2 ∧ st.2.maxBody = a.maxBody)
    ⟨rfl, rfl, rfl⟩ ?_
  rintro ⟨frames, b⟩ ⟨_, _⟩ ⟨rfl, rfl, hmax⟩
  have hbody : (framer a.maxBody).loop.body (frames, b.unread) =
      (framer a.maxBody).turn (frames, b.unread) := rfl
  have hbody' : drainLoop.body (frames, b) = drainTurn (frames, b) := rfl
  rw [hbody, hbody', Framer.turn]
  have hmax' : b.maxBody = a.maxBody := hmax
  have hpeek' : (framer a.maxBody).peek b.unread = peekFrame b.maxBody b.unread := by
    rw [hmax']
    rfl
  dsimp only
  rw [hpeek']
  rcases drainTurn_cases frames b with
    ⟨hpeek, ht⟩ | ⟨e, hpeek, ht⟩ | ⟨frame, n, hpeek, ht, hunread, hkeep⟩
  · rw [ht, hpeek]
    exact Or.inr ⟨_, _, rfl, rfl, rfl, rfl, compact_unread b, (compact_maxBody b).trans hmax'⟩
  · rw [ht, hpeek]
    exact Or.inr ⟨_, _, rfl, rfl, rfl, rfl, compact_unread b, (compact_maxBody b).trans hmax'⟩
  · rw [ht, hpeek]
    exact Or.inl ⟨_, _, rfl, rfl, rfl, hunread, hkeep.trans hmax'⟩

theorem feed_matches (a : FrameAssembler) (chunks : List Bytes) :
    (a.feed chunks).Matches a.maxBody ((framer a.maxBody).feed a.unread chunks) := by
  induction chunks generalizing a with
  | nil => exact ⟨rfl, rfl, rfl, rfl⟩
  | cons chunk chunks ih =>
      have hdrain := drain_matches (a.append chunk)
      rw [append_unread, append_maxBody] at hdrain
      rw [feed, Framer.feed]
      dsimp only
      rw [← hdrain.error]
      cases (a.append chunk).drain.error with
      | some e => exact hdrain
      | none =>
          have hrest := ih (a.append chunk).drain.assembler
          rw [hdrain.unread, hdrain.maxBody] at hrest
          exact { hrest with
            frames := congrArg₂ (· ++ ·) hdrain.frames hrest.frames }

/-- A fresh assembler gives what draining the whole stream gives. -/
theorem feed_fresh (a : FrameAssembler) (h : a.unread = []) (chunks : List Bytes) :
    (a.feed chunks).frames = ((framer a.maxBody).drain chunks.flatten).items ∧
    (a.feed chunks).error = ((framer a.maxBody).drain chunks.flatten).error ∧
    ((a.feed chunks).error = none →
      (a.feed chunks).assembler.unread = ((framer a.maxBody).drain chunks.flatten).rest) := by
  have hfeed := a.feed_matches chunks
  rw [h] at hfeed
  have hdrain := (framer a.maxBody).feed_eq_drain chunks (framer a.maxBody).peek_nil
  rw [List.nil_append] at hdrain
  rw [hfeed.frames, hfeed.error, hfeed.unread]
  exact hdrain

/-! ## After an error -/

/-- A call on an assembler. -/
inductive Call
  | append (bytes : Bytes)
  | next
deriving DecidableEq, Repr

def after (a : FrameAssembler) : Call → FrameAssembler
  | .append bytes => a.append bytes
  | .next => a.next.2

theorem peek_of_next_error {a : FrameAssembler} {e : ProtocolError}
    (h : a.next.1 = .error e) : peekFrame a.maxBody a.unread = .bad e := by
  cases hpeek : peekFrame a.maxBody a.unread with
  | more =>
      rw [next_more hpeek] at h
      cases h
  | bad e' =>
      rw [next_bad hpeek] at h
      cases h
      rfl
  | got frame n =>
      rw [(next_got hpeek).1] at h
      cases h

/-- Bad unread bytes stay bad under every call. -/
theorem peek_after {a : FrameAssembler} {e : ProtocolError}
    (h : peekFrame a.maxBody a.unread = .bad e) (call : Call) :
    peekFrame (a.after call).maxBody (a.after call).unread = .bad e := by
  cases call with
  | append bytes =>
      show peekFrame (a.append bytes).maxBody (a.append bytes).unread = .bad e
      rw [append_maxBody, append_unread]
      exact (framer a.maxBody).bad_append h bytes
  | next =>
      show peekFrame a.next.2.maxBody a.next.2.unread = .bad e
      rw [next_bad h]
      exact peek_compact.trans h

theorem peek_foldl {a : FrameAssembler} {e : ProtocolError}
    (h : peekFrame a.maxBody a.unread = .bad e) (calls : List Call) :
    peekFrame (calls.foldl after a).maxBody (calls.foldl after a).unread = .bad e := by
  induction calls generalizing a with
  | nil => exact h
  | cons call calls ih => exact ih (peek_after h call)

/-- **The pieces do not matter, on any input.** However the bytes are cut, the frames
before the first error, that error and, without one, the unread bytes are the same; and
once `next` has thrown, it throws again after any further calls. -/
theorem framing_cut (maxBody : UInt32) (bytes : Bytes) (chunks chunks' : List Bytes)
    (h : chunks.flatten = bytes) (h' : chunks'.flatten = bytes) :
    let fed := feed { maxBody } chunks
    let fed' := feed { maxBody } chunks'
    fed.frames = fed'.frames ∧ fed.error = fed'.error ∧
      (fed.error = none → fed.assembler.unread = fed'.assembler.unread) ∧
      ∀ (a : FrameAssembler) (e : ProtocolError), a.next.1 = .error e →
        ∀ calls : List Call, (calls.foldl after a.next.2).next.1 = .error e := by
  obtain ⟨hframes, herror, hrest⟩ := feed_fresh { maxBody } rfl chunks
  obtain ⟨hframes', herror', hrest'⟩ := feed_fresh { maxBody } rfl chunks'
  rw [h] at hframes herror hrest
  rw [h'] at hframes' herror' hrest'
  have hsame := herror.trans herror'.symm
  refine ⟨hframes.trans hframes'.symm, hsame, ?_, ?_⟩
  · intro hnone
    exact (hrest hnone).trans (hrest' (hsame.symm.trans hnone)).symm
  · intro a e hthrow calls
    have hbad := peek_foldl (peek_of_next_error hthrow) (.next :: calls)
    exact congrArg Prod.fst (next_bad hbad)

/-- A header that declares too much, cut in two ways. -/
theorem framing_cut_hostile :
    let fed := feed { maxBody := 8 } [[255, 0, 0], [0, 1, 1]]
    let fed' := feed { maxBody := 8 } [[255, 0, 0, 0, 1, 1]]
    let stuck := append { maxBody := 8 } [255, 0, 0, 0, 1, 1]
    fed.frames = fed'.frames ∧ fed.error = fed'.error ∧
      (stuck.after .next |>.append [1, 2, 3]).next.1 =
        .error ⟨"frame body 255 exceeds the 8 byte limit"⟩ :=
  have h := framing_cut 8 [255, 0, 0, 0, 1, 1] [[255, 0, 0], [0, 1, 1]]
    [[255, 0, 0, 0, 1, 1]] rfl rfl
  ⟨h.1, h.2.1, h.2.2.2 _ _ (by decide +kernel) [.append [1, 2, 3]]⟩

/-! ## How much is held -/

/-- What an assembler can be left with: less than a header or than the longest frame
there may be. -/
def limit (maxBody : UInt32) : ℕ := max kHeaderSize (maxBody.toNat + 4)

/-- The unread bytes stay below the limit, and the dead front below the unread bytes. -/
structure Compact (a : FrameAssembler) : Prop where
  buffered : a.buffered < limit a.maxBody
  buffer : a.buffer.length < 2 * limit a.maxBody

/-- Bytes that hold no frame yet are few. -/
theorem length_lt_of_more {maxBody : UInt32} {view : Bytes}
    (h : peekFrame maxBody view = .more) : view.length < limit maxBody := by
  by_cases hheader : kHeaderSize ≤ view.length
  · -- The header is there: it announced no more than is allowed.
    rw [peekFrame_eq hheader] at h
    split_ifs at h with hlong hshort hflight
    have hle := UInt32.le_iff_toNat_le.mp (UInt32.not_lt.mp hlong)
    exact lt_max_of_lt_right (by omega)
  · exact lt_max_of_lt_left (Nat.not_le.mp hheader)

/-- Compaction leaves a dead front shorter than what is live. -/
theorem compact_front (a : FrameAssembler) :
    a.compact.readPos = 0 ∨ a.compact.readPos < a.compact.buffered := by
  have hbound := a.bound
  unfold compact
  split
  · rename_i hzero
    exact Or.inl hzero
  · split
    · right
      unfold buffered
      omega
    · exact Or.inl rfl

theorem compact_of_more {a : FrameAssembler} (h : peekFrame a.maxBody a.unread = .more) :
    a.compact.Compact := by
  have hlive : a.compact.buffered < limit a.compact.maxBody := by
    rw [buffered_eq, compact_unread, compact_maxBody]
    exact length_lt_of_more h
  refine ⟨hlive, ?_⟩
  have hbound := a.compact.bound
  have hsplit : a.compact.buffer.length = a.compact.readPos + a.compact.buffered := by
    unfold buffered
    omega
  rcases a.compact_front with hfront | hfront <;> omega

/-- **One drain.** -/
theorem drain_compact (a : FrameAssembler) (h : a.drain.error = none) :
    a.drain.assembler.Compact ∧ a.drain.assembler.maxBody = a.maxBody := by
  have hdone : a.drain.error = none → a.drain.assembler.Compact := by
    refine drainLoop.run_induction (I := fun _ => True)
      (P := fun r => r.error = none → r.assembler.Compact) trivial (fun _ _ _ _ => trivial) ?_
    rintro ⟨frames, b⟩ r _ hturn herror
    rcases drainTurn_cases frames b with
      ⟨hpeek, ht⟩ | ⟨e, _, ht⟩ | ⟨_, _, _, ht, _⟩
    · cases ht.symm.trans hturn
      exact compact_of_more hpeek
    · cases ht.symm.trans hturn
      cases herror
    · cases ht.symm.trans hturn
  exact ⟨hdone h, (drain_matches a).maxBody⟩

theorem feed_compact {a : FrameAssembler} (ha : a.Compact) (chunks : List Bytes)
    (h : (a.feed chunks).error = none) :
    (a.feed chunks).assembler.Compact ∧ (a.feed chunks).assembler.maxBody = a.maxBody := by
  induction chunks generalizing a with
  | nil => exact ⟨ha, rfl⟩
  | cons chunk chunks ih =>
      rw [feed] at h ⊢
      dsimp only at h ⊢
      cases herror : (a.append chunk).drain.error with
      | some e =>
          rw [herror] at h
          cases herror.symm.trans h
      | none =>
          rw [herror] at h
          obtain ⟨hcompact, hmax⟩ := drain_compact _ herror
          obtain ⟨hrest, hmax'⟩ := ih hcompact h
          exact ⟨hrest, hmax'.trans hmax⟩

/-- **A session's inbound memory is bounded**, however long the stream: after every
drain that did not throw, by the limit for what is live and by twice as much for the
whole buffer. The read position never passes the end of the buffer, whatever is
called. -/
theorem inbound_bounded (maxBody : UInt32) (chunks : List Bytes)
    (h : (feed { maxBody } chunks).error = none) :
    (feed { maxBody } chunks).assembler.buffered < max 6 (maxBody.toNat + 4) ∧
    (feed { maxBody } chunks).assembler.buffer.length < 2 * max 6 (maxBody.toNat + 4) ∧
    ∀ calls : List Call, (calls.foldl after { maxBody }).readPos ≤
      (calls.foldl after { maxBody }).buffer.length := by
  have hfresh : Compact { maxBody } := by
    constructor
    · exact lt_max_of_lt_left (show 0 < kHeaderSize by decide)
    · exact Nat.mul_pos Nat.two_pos (lt_max_of_lt_left (show 0 < kHeaderSize by decide))
  obtain ⟨hcompact, hmax⟩ := feed_compact hfresh chunks h
  have hbuffered := hcompact.buffered
  have hbuffer := hcompact.buffer
  rw [hmax] at hbuffered hbuffer
  exact ⟨hbuffered, hbuffer, fun calls => (calls.foldl after { maxBody }).bound⟩

/-- Two cancels and half of a third, in two pieces. -/
theorem inbound_bounded_cancels :
    let cancel := (ClientMessage.cancel ⟨7⟩).encode
    let fed := feed { maxBody := 32 } [cancel ++ cancel.take 3, cancel.drop 3 ++ cancel.take 9]
    fed.error = none ∧ fed.assembler.buffered < 36 ∧ fed.assembler.buffer.length < 72 :=
  have herror : (feed { maxBody := 32 }
      [(ClientMessage.cancel ⟨7⟩).encode ++ (ClientMessage.cancel ⟨7⟩).encode.take 3,
        (ClientMessage.cancel ⟨7⟩).encode.drop 3 ++
          (ClientMessage.cancel ⟨7⟩).encode.take 9]).error = none := by decide +kernel
  have h := inbound_bounded 32 _ herror
  ⟨herror, h.1, h.2.1⟩

end FrameAssembler

/-! ## Messages over the stream -/

theorem lengthField_u32 (length : UInt32) (tail : Bytes) :
    lengthField (Writer.u32 length ++ tail) = length := by
  rw [lengthField, List.take_left' (u32_length length)]
  exact assemble_emit_half length

theorem drop_u32 (length : UInt32) (tail : Bytes) (n : ℕ) :
    (Writer.u32 length ++ tail).drop (4 + n) = tail.drop n := by
  rw [← List.drop_drop, List.drop_left' (u32_length length)]

/-- A header with its payload is found whole, whatever stands behind it. -/
theorem peekFrame_whole {maxBody length : UInt32} {type : UInt8} {payload : Bytes}
    (hlength : length.toNat = payload.length + 2) (hmax : length ≤ maxBody) (rest : Bytes) :
    peekFrame maxBody (Writer.u32 length ++ kProtocolVersion :: type :: (payload ++ rest)) =
      .got { version := kProtocolVersion, type := ⟨type⟩, payload } (payload.length + 6) := by
  generalize htail : kProtocolVersion :: type :: (payload ++ rest) = tail
  have hsize : (Writer.u32 length ++ tail).length = payload.length + rest.length + 6 := by
    rw [List.length_append, u32_length, ← htail, List.length_cons, List.length_cons,
      List.length_append]
    omega
  have hversion : versionField (Writer.u32 length ++ tail) = kProtocolVersion := by
    rw [versionField, drop_u32 length tail 0, ← htail]
    rfl
  have htype : typeField (Writer.u32 length ++ tail) = type := by
    rw [typeField, drop_u32 length tail 1, ← htail]
    rfl
  have hpayload : ((Writer.u32 length ++ tail).drop kHeaderSize).take (length.toNat - 2) =
      payload := by
    rw [kHeaderSize, drop_u32 length tail 2, hlength, ← htail]
    exact List.take_left
  have hshort : ¬ length < 2 := by
    rw [UInt32.lt_iff_toNat_lt, hlength]
    exact Nat.not_lt.mpr (Nat.le_add_left 2 _)
  rw [peekFrame_eq (by rw [hsize, kHeaderSize]; omega), lengthField_u32,
    if_neg (UInt32.not_lt.mpr hmax), if_neg hshort, if_neg (by rw [hsize, hlength]; omega),
    hversion, if_neg (not_not.mpr rfl), htype, hpayload, hlength]
  congr 1
  omega

/-- An encoded frame is found whole, whatever stands behind it. -/
theorem peekFrame_encodeFrame {type : MessageType} {payload : Bytes}
    (h : payload.length ≤ 38) (rest : Bytes) :
    peekFrame kMaxFrameBody (encodeFrame type payload ++ rest) =
      .got { version := kProtocolVersion, type, payload } (encodeFrame type payload).length := by
  have hlength : (UInt32.ofNat (payload.length + 2)).toNat = payload.length + 2 := by
    rw [UInt32.toNat_ofNat']
    omega
  have hmax : UInt32.ofNat (payload.length + 2) ≤ kMaxFrameBody := by
    rw [UInt32.le_iff_toNat_le, hlength]
    exact (Nat.add_le_add_right h 2).trans (by decide)
  have hsize : (encodeFrame type payload).length = payload.length + 6 := by
    rw [encodeFrame_eq]
    simp
    omega
  rw [hsize, encodeFrame_eq, List.append_assoc]
  exact peekFrame_whole hlength hmax rest

/-- **A stream of encoded messages comes out as its frames**, however it is cut. -/
theorem feed_stream {μ : Type} (type : μ → MessageType) (payload : μ → Bytes)
    (hpayload : ∀ m, (payload m).length ≤ 38) (messages : List μ) (chunks : List Bytes)
    (h : chunks.flatten = messages.flatMap fun m => encodeFrame (type m) (payload m)) :
    let fed := FrameAssembler.feed {} chunks
    fed.error = none ∧ fed.assembler.buffered = 0 ∧
      fed.frames = messages.map fun m =>
        { version := kProtocolVersion, type := type m, payload := payload m } := by
  have hdrain := (framer kMaxFrameBody).drain_stream (fun m => encodeFrame (type m) (payload m))
    (fun m => { version := kProtocolVersion, type := type m, payload := payload m }) messages
    fun m _ rest => peekFrame_encodeFrame (hpayload m) rest
  obtain ⟨hframes, herror, hrest⟩ := FrameAssembler.feed_fresh {} rfl chunks
  rw [h, hdrain] at hframes herror hrest
  refine ⟨herror, ?_, hframes⟩
  rw [FrameAssembler.buffered_eq, hrest herror]
  rfl

/-- Decoding every frame gives the messages back. -/
theorem mapM_decode {μ : Type} {type : μ → MessageType} {payload : μ → Bytes}
    {decode : MessageType → Bytes → Except ProtocolError μ}
    (hdecode : ∀ m, decode (type m) (payload m) = .ok m) (messages : List μ) :
    (messages.map fun m =>
      { version := kProtocolVersion, type := type m, payload := payload m : Frame }).mapM
        (fun frame => decode frame.type frame.payload) = .ok messages := by
  induction messages with
  | nil => rfl
  | cons m messages ih =>
      rw [List.map_cons, List.mapM_cons, hdecode, ih]
      rfl

/-- **Messages survive the byte stream**, in both directions and under every way of
cutting it. -/
theorem messages_survive :
    (∀ (messages : List ClientMessage) (chunks : List Bytes),
      chunks.flatten = messages.flatMap ClientMessage.encode →
        let fed := FrameAssembler.feed {} chunks
        fed.error = none ∧ fed.assembler.buffered = 0 ∧
          fed.frames.mapM (fun frame => decodeClientMessage frame.type frame.payload) =
            .ok messages) ∧
    ∀ (messages : List ServerMessage) (chunks : List Bytes),
      chunks.flatten = messages.flatMap ServerMessage.encode →
        let fed := FrameAssembler.feed {} chunks
        fed.error = none ∧ fed.assembler.buffered = 0 ∧
          fed.frames.mapM (fun frame => decodeServerMessage frame.type frame.payload) =
            .ok messages := by
  refine ⟨fun messages chunks h => ?_, fun messages chunks h => ?_⟩
  · obtain ⟨herror, hbuffered, hframes⟩ := feed_stream ClientMessage.type
      ClientMessage.payload ClientMessage.payload_length messages chunks h
    refine ⟨herror, hbuffered, ?_⟩
    rw [hframes]
    exact mapM_decode decodeClientMessage_payload messages
  · obtain ⟨herror, hbuffered, hframes⟩ := feed_stream ServerMessage.type
      ServerMessage.payload ServerMessage.payload_length messages chunks h
    refine ⟨herror, hbuffered, ?_⟩
    rw [hframes]
    exact mapM_decode decodeServerMessage_payload messages

/-- Two requests cut within a header and within a payload, and an answer cut in half. -/
theorem messages_survive_cut :
    let requests : List ClientMessage := [.cancel ⟨7⟩, .modify ⟨7, 30, some 2⟩]
    let stream := requests.flatMap ClientMessage.encode
    let fed := FrameAssembler.feed {} [stream.take 3, [], (stream.drop 3).take 20, stream.drop 23]
    let answer : ServerMessage := .accepted ⟨7, 30, 5⟩
    let fed' := FrameAssembler.feed {} [answer.encode.take 11, answer.encode.drop 11]
    fed.frames.mapM (fun frame => decodeClientMessage frame.type frame.payload) =
        .ok requests ∧
      fed'.frames.mapM (fun frame => decodeServerMessage frame.type frame.payload) =
        .ok [answer] :=
  ⟨(messages_survive.1 _ _ (by decide +kernel)).2.2,
    (messages_survive.2 [_] _ (by decide +kernel)).2.2⟩

end Exchange.Net
