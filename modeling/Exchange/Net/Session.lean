import Exchange.Framework.Threads
import Exchange.Net.FrameAssembler

/-!
# One client connection, and the threads that meet at it

A session is read and flushed by the reactor thread; the engine's and the workers'
threads send to it, and any of them may close it. Its outbound buffer has a mutex, its
closed flag is atomic, and what the reactor has to see to goes through the server's
pending lists. Each locked section, each access to the flag and each system call is an
operation of its own here, and the operations of all threads interleave.
-/

namespace Exchange.Net

open Framework

/-- One system call's worth of bytes. -/
def kReadChunk : ℕ := 16 * 1024

structure Session where
  maxOutbound : ℕ
  assembler : FrameAssembler := .fresh
  outbound : Bytes := []
  overflowed : ℕ := 0
  closed : Bool := false

namespace Session

/-- The locked part of `send`. -/
def enqueue (session : Session) (bytes : Bytes) : Bool × Session :=
  if session.outbound.length + bytes.length > session.maxOutbound then
    (false, { session with
      overflowed := session.overflowed + bytes.length
      closed := true })
  else
    (true, { session with outbound := session.outbound ++ bytes })

/-- What `flush` copies out for one system call. -/
def chunk (session : Session) : Bytes :=
  session.outbound.take (min session.outbound.length kReadChunk)

def erase (session : Session) (sent : ℕ) : Session :=
  { session with outbound := session.outbound.drop sent }

end Session

/-- A session, what the server holds for it, and what has become of its bytes. -/
structure Connection where
  session : Session
  /-- How often the descriptor stands in `needFlush_`. -/
  needFlush : ℕ := 0
  /-- How often the descriptor stands in `needClose_`. -/
  needClose : ℕ := 0
  /-- The reactor's eventfd has been written since it was last drained. -/
  wakeup : Bool := false
  droppedSlow : ℕ := 0
  /-- The reactor has a handler for the descriptor. -/
  registered : Bool := true
  /-- The session is in `sessions_`. -/
  held : Bool := true
  /-- Bytes the socket took, in that order. -/
  socket : Bytes := []
  /-- What was sent, with what `send` returned. -/
  sends : List (Bytes × Bool) := []
  /-- How often the close handler was invoked. -/
  closes : ℕ := 0
  /-- How often the reactor removed the descriptor and dropped the session. -/
  retirements : ℕ := 0

/-- Who called `send`. -/
inductive Caller : Type where
  | direct
  | deliver
deriving DecidableEq, Repr

inductive Op : Type where
  /-- `send`, up to the check of the flag. -/
  | send (caller : Caller) (bytes : Bytes)
  | enqueue (caller : Caller) (bytes : Bytes)
  /-- `deliver`, after a `send` that returned false. -/
  | dropSlow
  /-- `deliver`, after a `send` that returned true. -/
  | requestFlush
  | wake
  | close
  /-- The handler that `close` invokes. -/
  | closeHandler
  | onReadable
  | recv
  | next
  | onFrame (frame : Frame)
  /-- The check of the flag after a frame was handled. -/
  | afterFrame
  | onWritable
  /-- The head of `flush`'s loop: a chunk is copied out. -/
  | copy
  /-- The system call, outside the lock. -/
  | write (chunk : Bytes)
  | erase (sent : ℕ)
  /-- The reactor's handler for the descriptor. -/
  | ready (hup writable readable : Bool)
  | drainWakeup
  | servicePending
  /-- What is left of the loop over the descriptors to flush. -/
  | flushPending (count : ℕ)
  /-- What is left of the loop over the descriptors to close. -/
  | closePending (count : ℕ)
deriving DecidableEq, Repr

/-- What `::recv` returned. -/
inductive Incoming : Type where
  | got (bytes : Bytes)
  | eof
  | wouldBlock
  | interrupted
  | failed
deriving DecidableEq, Repr

/-- What `::send` returned. -/
inductive Written : Type where
  | sent (count : ℕ)
  | wouldBlock
  | interrupted
  | failed
deriving DecidableEq, Repr

/-- How the environment answers, should it be asked. -/
structure World where
  incoming : Incoming := .wouldBlock
  /-- The pool's queue has room for a task. -/
  room : Bool := true
  written : Written := .wouldBlock
deriving DecidableEq, Repr

/-- What a caller of `send` goes on to do. -/
def Caller.after : Caller → Bool → List Op
  | .direct, _ => []
  | .deliver, true => [.requestFlush]
  | .deliver, false => [.dropSlow]

namespace Connection

/-- `send` returned. -/
def returned (c : Connection) (bytes : Bytes) (result : Bool) : Connection :=
  { c with sends := c.sends ++ [(bytes, result)] }

/-- The reply to a task the pool has no room for. -/
def overloaded : Bytes := ServerMessage.encode (.rejected ⟨0, .overloaded⟩)

def exec (world : World) (op : Op) (c : Connection) : Option (Connection × List Op) :=
  match op with
  | .send caller bytes =>
      if c.session.closed then some (c.returned bytes false, caller.after false)
      else some (c, [.enqueue caller bytes])
  | .enqueue caller bytes =>
      let (result, session) := c.session.enqueue bytes
      some ({ c with session }.returned bytes result, caller.after result)
  | .dropSlow => some ({ c with droppedSlow := c.droppedSlow + 1 }, [.close])
  | .requestFlush => some ({ c with needFlush := c.needFlush + 1 }, [.wake])
  | .wake => some ({ c with wakeup := true }, [])
  | .close =>
      if c.session.closed then some (c, [])
      else some ({ c with session := { c.session with closed := true } }, [.closeHandler])
  | .closeHandler =>
      some ({ c with needClose := c.needClose + 1, closes := c.closes + 1 }, [.wake])
  | .onReadable => some (c, if c.session.closed then [] else [.recv])
  | .recv =>
      match world.incoming with
      | .got bytes =>
          if bytes ≠ [] ∧ bytes.length ≤ kReadChunk then
            let assembler := c.session.assembler.append bytes
            some ({ c with session := { c.session with assembler } }, [.next])
          else none
      | .eof => some (c, [.close])
      | .wouldBlock => some (c, [])
      | .interrupted => some (c, [.recv])
      | .failed => some (c, [.close])
  | .next =>
      let (result, assembler) := c.session.assembler.next
      some ({ c with session := { c.session with assembler } },
        match result with
        | .ok (some frame) => [.onFrame frame]
        | .ok none => [.recv]
        | .error _ => [.close])
  | .onFrame frame =>
      some (c,
        match decodeClientMessage frame.type frame.payload with
        | .error _ => [.close]
        | .ok _ =>
            if world.room then [.afterFrame]
            else [.send .deliver overloaded, .afterFrame])
  | .afterFrame => some (c, if c.session.closed then [] else [.next])
  | .onWritable => some (c, if c.session.closed then [] else [.copy])
  | .copy => some (c, if c.session.outbound.isEmpty then [] else [.write c.session.chunk])
  | .write chunk =>
      match world.written with
      | .sent count =>
          if 0 < count ∧ count ≤ chunk.length then
            some ({ c with socket := c.socket ++ chunk.take count }, [.erase count])
          else none
      | .wouldBlock => some (c, [])
      | .interrupted => some (c, [.copy])
      | .failed => some (c, [.close])
  | .erase sent => some ({ c with session := c.session.erase sent }, [.copy])
  | .ready hup writable readable =>
      some (c,
        if !c.registered || !c.held then []
        else if hup then [.close]
        else (if writable then [.onWritable] else []) ++
          if readable then [.onReadable] else [])
  | .drainWakeup => some ({ c with wakeup := false }, [.servicePending])
  | .servicePending =>
      some ({ c with needFlush := 0, needClose := 0 },
        [.flushPending c.needFlush, .closePending c.needClose])
  | .flushPending 0 => some (c, [])
  | .flushPending (count + 1) =>
      some (c, (if c.held then [.onWritable] else []) ++ [.flushPending count])
  | .closePending 0 => some (c, [])
  | .closePending (count + 1) =>
      some ({ c with
        registered := false
        held := false
        retirements := c.retirements + 1 }, [.closePending count])

/-- What a thread may call. The reactor calls the last two. -/
inductive Call : Type where
  | deliver (bytes : Bytes)
  | send (bytes : Bytes)
  | close
  | onReadable
  | onWritable
  | ready (hup writable readable : Bool)
  | drainWakeup
deriving DecidableEq, Repr

def Call.entry : Call → Op
  | .deliver bytes => .send .deliver bytes
  | .send bytes => .send .direct bytes
  | .close => .close
  | .onReadable => .onReadable
  | .onWritable => .onWritable
  | .ready hup writable readable => .ready hup writable readable
  | .drainWakeup => .drainWakeup

def program : Program Connection Op World Call where
  entry call := [call.entry]
  exec := exec

/-- A fresh connection with all threads elsewhere. -/
def accept (maxOutbound : ℕ) (n : ℕ) : Threads Connection Op n :=
  { shared := { session := { maxOutbound } } }

/-! ## What an operation can do -/

end Connection

/-- Reading the socket and handling what was read. -/
def Op.reads : Op → Bool
  | .onReadable | .recv | .next | .onFrame _ | .afterFrame => true
  | _ => false

namespace Connection

variable (c : Connection)

inductive Does : Op → Connection → List Op → Prop where
  | sendClosed {caller : Caller} {bytes : Bytes} (hclosed : c.session.closed = true) :
      Does (.send caller bytes) (c.returned bytes false) (caller.after false)
  | sendOpen {caller : Caller} {bytes : Bytes} (hopen : c.session.closed = false) :
      Does (.send caller bytes) c [.enqueue caller bytes]
  | overflow {caller : Caller} {bytes : Bytes} (session : Session)
      (hfull : ¬ c.session.outbound.length + bytes.length ≤ c.session.maxOutbound)
      (hsession : session = { c.session with
        overflowed := c.session.overflowed + bytes.length
        closed := true }) :
      Does (.enqueue caller bytes) ({ c with session }.returned bytes false)
        (caller.after false)
  | enqueue {caller : Caller} {bytes : Bytes} (session : Session)
      (hfits : c.session.outbound.length + bytes.length ≤ c.session.maxOutbound)
      (hsession : session = { c.session with outbound := c.session.outbound ++ bytes }) :
      Does (.enqueue caller bytes) ({ c with session }.returned bytes true)
        (caller.after true)
  | dropSlow : Does .dropSlow { c with droppedSlow := c.droppedSlow + 1 } [.close]
  | requestFlush : Does .requestFlush { c with needFlush := c.needFlush + 1 } [.wake]
  | wake : Does .wake { c with wakeup := true } []
  | closeAgain (hclosed : c.session.closed = true) : Does .close c []
  | close (hopen : c.session.closed = false) :
      Does .close { c with session := { c.session with closed := true } } [.closeHandler]
  | closeHandler :
      Does .closeHandler
        { c with needClose := c.needClose + 1, closes := c.closes + 1 } [.wake]
  /-- Reading changes nothing but the assembler. -/
  | read {op : Op} {ops : List Op} (assembler : FrameAssembler) (hop : op.reads = true)
      (hops : ∀ op' ∈ ops, op'.reads = true ∨ op' = .close ∨
        op' = .send .deliver overloaded) :
      Does op { c with session := { c.session with assembler } } ops
  | onWritable {ops : List Op} (hops : ∀ op' ∈ ops, op' = .copy) : Does .onWritable c ops
  | copyNone (hempty : c.session.outbound = []) : Does .copy c []
  | copy (hsome : c.session.outbound ≠ []) : Does .copy c [.write c.session.chunk]
  | write {chunk : Bytes} {count : ℕ} (hcount : 0 < count ∧ count ≤ chunk.length) :
      Does (.write chunk) { c with socket := c.socket ++ chunk.take count } [.erase count]
  | writeNone {chunk : Bytes} {ops : List Op}
      (hops : ∀ op' ∈ ops, op' = .copy ∨ op' = .close) : Does (.write chunk) c ops
  | erase {sent : ℕ} : Does (.erase sent) { c with session := c.session.erase sent } [.copy]
  | ready {hup writable readable : Bool} {ops : List Op}
      (hops : ∀ op' ∈ ops, op' = .close ∨ op' = .onWritable ∨ op' = .onReadable) :
      Does (.ready hup writable readable) c ops
  | drainWakeup : Does .drainWakeup { c with wakeup := false } [.servicePending]
  | servicePending :
      Does .servicePending { c with needFlush := 0, needClose := 0 }
        [.flushPending c.needFlush, .closePending c.needClose]
  | flushPending {count : ℕ} {ops : List Op}
      (hops : ∀ op' ∈ ops, op' = .onWritable ∨ ∃ rest, op' = .flushPending rest) :
      Does (.flushPending count) c ops
  | closeNone : Does (.closePending 0) c []
  | closePending {count : ℕ} :
      Does (.closePending (count + 1))
        { c with registered := false, held := false, retirements := c.retirements + 1 }
        [.closePending count]

variable {c} {c' : Connection} {op : Op} {ops : List Op} {world : World}

theorem exec_cases (h : exec world op c = some (c', ops)) : Does c op c' ops := by
  cases op with
  | send caller bytes =>
      rw [exec] at h
      split at h <;> cases h
      · exact .sendClosed ‹_›
      · exact .sendOpen (Bool.eq_false_of_not_eq_true ‹_›)
  | enqueue caller bytes =>
      rw [exec, Session.enqueue] at h
      by_cases hfull : c.session.outbound.length + bytes.length > c.session.maxOutbound
      · rw [if_pos hfull] at h
        cases h
        exact .overflow _ (Nat.not_le.mpr hfull) rfl
      · rw [if_neg hfull] at h
        cases h
        exact .enqueue _ (Nat.not_lt.mp hfull) rfl
  | dropSlow => cases h; exact .dropSlow
  | requestFlush => cases h; exact .requestFlush
  | wake => cases h; exact .wake
  | close =>
      rw [exec] at h
      split at h <;> cases h
      · exact .closeAgain ‹_›
      · exact .close (Bool.eq_false_of_not_eq_true ‹_›)
  | closeHandler => cases h; exact .closeHandler
  | onReadable =>
      cases h
      refine .read c.session.assembler rfl fun op' hop' => ?_
      split at hop' <;> simp_all [Op.reads]
  | recv =>
      rw [exec] at h
      split at h
      · split at h
        · cases h
          exact .read _ rfl (by simp [Op.reads])
        · cases h
      all_goals
        cases h
        exact .read c.session.assembler rfl (by simp [Op.reads])
  | next =>
      cases h
      refine .read _ rfl ?_
      split <;> simp [Op.reads]
  | onFrame frame =>
      cases h
      refine .read c.session.assembler rfl ?_
      split
      · simp
      · split <;> simp [Op.reads]
  | afterFrame =>
      cases h
      refine .read c.session.assembler rfl ?_
      split <;> simp [Op.reads]
  | onWritable =>
      cases h
      refine .onWritable ?_
      split <;> simp
  | copy =>
      rw [exec] at h
      split at h <;> cases h
      · exact .copyNone (List.isEmpty_iff.mp ‹_›)
      · exact .copy fun hempty => absurd (List.isEmpty_iff.mpr hempty) ‹_›
  | write chunk =>
      rw [exec] at h
      split at h
      · split at h
        · cases h
          exact .write ‹_›
        · cases h
      all_goals
        cases h
        exact .writeNone (by simp)
  | erase sent => cases h; exact .erase
  | ready hup writable readable =>
      cases h
      refine .ready ?_
      split
      · simp
      · split
        · simp
        · cases writable <;> cases readable <;> simp
  | drainWakeup => cases h; exact .drainWakeup
  | servicePending => cases h; exact .servicePending
  | flushPending count =>
      cases count with
      | zero => cases h; exact .flushPending (by simp)
      | succ count =>
          cases h
          refine .flushPending ?_
          split <;> simp
  | closePending count =>
      cases count with
      | zero => cases h; exact .closeNone
      | succ count => cases h; exact .closePending

end Connection

end Exchange.Net
