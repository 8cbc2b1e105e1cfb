import Exchange.Net.Outbound

/-!
# Input under edge-triggered readiness

Epoll reports that bytes have arrived once, and not again before more arrive. A read loop
that stops early leaves bytes in the socket that nobody will look at. Here is one session
with its receive buffer in the kernel: bytes arrive at any time, the reactor is told once,
`readAvailable` reads, frames and hands on what it finds, and other threads work on the
session in between. When the reactor is back at its wait with nothing to be told, an open
session has nothing unread, and every whole message that has arrived was handed on.
-/

namespace Exchange.Net

open Framework

/-- A session, its receive buffer in the kernel, and what the reactor does with it. -/
structure Inlet where
  connection : Connection
  /-- What the reactor has still to do on the session. -/
  todo : List Op := []
  /-- Bytes that arrived and were not read. -/
  inbox : Bytes := []
  /-- Bytes have arrived since epoll last reported the descriptor. -/
  edge : Bool := false
  /-- All bytes that have arrived. -/
  arrived : Bytes := []
  /-- The frames handed to the frame handler. -/
  handled : List Frame := []

namespace Inlet

/-- What `::recv` may return. It takes a front of the buffer, and waits or ends at an empty
one only. -/
def answers (inbox : Bytes) (world : World) : Op → Bool
  | .recv =>
      match world.incoming with
      | .got bytes => bytes.isPrefixOf inbox
      | .eof | .wouldBlock => inbox.isEmpty
      | .interrupted | .failed => true
  | _ => true

/-- Bytes an operation takes from the receive buffer. -/
def taken (world : World) : Op → ℕ
  | .recv =>
      match world.incoming with
      | .got bytes => bytes.length
      | _ => 0
  | _ => 0

/-- The frame an operation hands on. -/
def handed : Op → List Frame
  | .onFrame frame => [frame]
  | _ => []

/-- The reactor carries an operation out, which leads to `ops`. -/
def acted (i : Inlet) (world : World) (op : Op) (c : Connection) (ops : List Op) : Inlet :=
  { i with
    connection := c
    todo := ops
    inbox := i.inbox.drop (taken world op)
    handled := i.handled ++ handed op }

inductive Label : Type where
  | arrive (bytes : Bytes)
  /-- Epoll reports the descriptor, with what else it has to report of it. -/
  | event (hup writable : Bool)
  | act (world : World)
  /-- An operation of another thread, or of the reactor outside the event. -/
  | other (op : Op) (world : World)
deriving DecidableEq, Repr

def step (i : Inlet) : Label → Option Inlet
  | .arrive bytes =>
      if bytes = [] then none
      else some { i with
        inbox := i.inbox ++ bytes
        arrived := i.arrived ++ bytes
        edge := true }
  | .event hup writable =>
      if i.todo = [] ∧ i.edge = true then
        some { i with
          edge := false
          todo :=
            if hup then [.close]
            else (if writable then [.onWritable] else []) ++ [.onReadable] }
      else none
  | .act world =>
      match i.todo with
      | [] => none
      | op :: rest =>
          if answers i.inbox world op then
            (Connection.exec world op i.connection).map fun (c, ops) =>
              i.acted world op c (ops ++ rest)
          else none
  | .other op world =>
      if op.reads = true then none
      else (Connection.exec world op i.connection).map fun (c, _) =>
        { i with connection := c }

def machine : Machine Inlet Label where
  step := step

/-- A client has connected. -/
def accept (maxOutbound : ℕ) : Inlet :=
  { connection := { session := { maxOutbound } } }

end Inlet

/-! ## What an operation does to the reading -/

/-- What the reactor may have to do on a session before it goes on reading. -/
def Op.calm : Op → Bool
  | .send _ _ | .enqueue _ _ | .dropSlow | .requestFlush | .wake | .close | .closeHandler => true
  | .onWritable | .copy | .write _ | .erase _ => true
  | _ => false

theorem Op.reads_of_calm {op : Op} (h : op.calm = true) : op.reads = false := by
  cases op <;> first | rfl | cases h

namespace Connection

variable {c c' : Connection} {op : Op} {ops : List Op}

/-- Only reading changes the assembler, and nothing opens a session again. -/
theorem Does.untouched (h : Does c op c' ops) (hop : op.reads = false) :
    c'.session.assembler = c.session.assembler ∧
      (c.session.closed = true → c'.session.closed = true) := by
  cases h with
  | overflow session _ hsession =>
      subst hsession
      exact ⟨rfl, fun _ => rfl⟩
  | enqueue session _ hsession =>
      subst hsession
      exact ⟨rfl, id⟩
  | close _ => exact ⟨rfl, fun _ => rfl⟩
  | read _ hreads _ => cases hop.symm.trans hreads
  | _ => exact ⟨rfl, id⟩

theorem Does.calm (h : Does c op c' ops) (hop : op.calm = true) :
    (∀ op' ∈ ops, op'.calm = true) ∧ (op = .close → c'.session.closed = true) := by
  cases h with
  | sendClosed | overflow | enqueue =>
      refine ⟨fun op' hop' => ?_, (by simp)⟩
      rcases after_mem hop' with rfl | rfl <;> rfl
  | closeAgain hclosed => exact ⟨(by simp), fun _ => hclosed⟩
  | close _ => exact ⟨by simp [Op.calm], fun _ => rfl⟩
  | read _ hreads _ => cases (Op.reads_of_calm hop).symm.trans hreads
  | onWritable hops =>
      refine ⟨fun op' hop' => ?_, (by simp)⟩
      cases hops op' hop'
      rfl
  | writeNone hops =>
      refine ⟨fun op' hop' => ?_, (by simp)⟩
      rcases hops op' hop' with rfl | rfl <;> rfl
  | sendOpen | dropSlow | requestFlush | wake | closeHandler | copyNone | copy | write | erase =>
      exact ⟨by simp [Op.calm], (by simp)⟩
  | _ => cases hop

end Connection

/-! ## Nothing is left unread -/

namespace Inlet

variable {i i' : Inlet} {before rest : List Op} {stage : Option Op} {op : Op}

/-- What the session has taken in and not framed yet. -/
def unread (i : Inlet) : Bytes := i.connection.session.assembler.unread

/-- The session is closed, or about to be. -/
def Ends (i : Inlet) (before : List Op) : Prop :=
  i.connection.session.closed = true ∨ .close ∈ before

/-- The frame that was found and not handed on. -/
def inHand (stage : Option Op) : List Frame := stage.toList.flatMap handed

/-- Where the reactor is in its read loop, after other work on the session, and what that
says of the bytes. -/
structure Attentive (i : Inlet) (before : List Op) (stage : Option Op) : Prop where
  todo : i.todo = before ++ stage.toList
  calm : ∀ op ∈ before, op.calm = true
  reads : ∀ op, stage = some op → op.reads = true
  maxBody : i.connection.session.assembler.maxBody = kMaxFrameBody
  /-- What was read has been framed as far as the loop has come. -/
  framed : ∃ fed, i.arrived = fed ++ i.inbox ∧ (framer kMaxFrameBody).drain fed =
    ((framer kMaxFrameBody).drain i.unread).after (i.handled ++ inHand stage)
  settled : stage = none ∨ stage = some .onReadable →
    i.Ends before ∨ (framer kMaxFrameBody).peek i.unread = .more
  receiving : stage = some .recv → (framer kMaxFrameBody).peek i.unread = .more
  /-- A loop that has come to its end has emptied the buffer, or will be told again. -/
  emptied : stage = none → i.Ends before ∨ i.inbox = [] ∨ i.edge = true

/-- Work of others leaves the reading as it is. -/
theorem Attentive.other (h : Attentive i before stage) {c : Connection}
    (hassembler : c.session.assembler = i.connection.session.assembler)
    (hclosed : i.connection.session.closed = true → c.session.closed = true) :
    Attentive { i with connection := c } before stage := by
  have hunread : unread { i with connection := c } = i.unread := by
    unfold unread
    rw [hassembler]
  have hends : i.Ends before → Ends { i with connection := c } before := Or.imp_left hclosed
  refine ⟨h.todo, h.calm, h.reads, hassembler ▸ h.maxBody, ?_, fun hstage => ?_, fun hstage => ?_,
    fun hstage => (h.emptied hstage).imp_left hends⟩
  · rw [hunread]
    exact h.framed
  · rw [hunread]
    exact (h.settled hstage).imp_left hends
  · rw [hunread]
    exact h.receiving hstage

/-- Work on the session before the reading goes on. -/
theorem Attentive.calm_act (h : Attentive i (op :: rest) stage) {c : Connection}
    {ops : List Op} (hdoes : Connection.Does i.connection op c ops) :
    Attentive { i with connection := c, todo := ops ++ (rest ++ stage.toList) } (ops ++ rest)
      stage := by
  have hop : op.calm = true := h.calm op List.mem_cons_self
  obtain ⟨hassembler, hclosed⟩ := hdoes.untouched (Op.reads_of_calm hop)
  obtain ⟨hops, hclose⟩ := hdoes.calm hop
  have hother := h.other hassembler hclosed
  have hends : Ends { i with connection := c } (op :: rest) →
      Ends { i with connection := c, todo := ops ++ (rest ++ stage.toList) } (ops ++ rest) := by
    rintro (hset | hmem)
    · exact Or.inl hset
    · rcases List.mem_cons.mp hmem with hhead | hrest
      · exact Or.inl (hclose hhead.symm)
      · exact Or.inr (List.mem_append_right ops hrest)
  refine ⟨(List.append_assoc ..).symm, ?_, h.reads, hother.maxBody, hother.framed,
    fun hstage => (hother.settled hstage).imp_left hends, hother.receiving,
    fun hstage => (hother.emptied hstage).imp_left hends⟩
  intro op' hop'
  rcases List.mem_append.mp hop' with hnew | hold
  · exact hops op' hnew
  · exact h.calm op' (List.mem_cons_of_mem op hold)

section Reading

variable {c : Connection} {ops : List Op} {world : World} {handled : List Frame}

/-- The loop goes on, or the session ends, with the bytes framed as before. -/
theorem Attentive.go (h : Attentive i [] (some op)) (before : List Op) (stage : Option Op)
    (hunread : c.session.assembler.unread = i.unread)
    (hmax : c.session.assembler.maxBody = kMaxFrameBody)
    (hhandled : handled ++ inHand stage = i.handled ++ inHand (some op))
    (hcalm : ∀ op ∈ before, op.calm = true) (hreads : ∀ op, stage = some op → op.reads = true)
    (hends : stage = none → c.session.closed = true ∨ .close ∈ before)
    (hstart : stage ≠ some .onReadable)
    (hrecv : stage = some .recv → (framer kMaxFrameBody).peek i.unread = .more) :
    Attentive { i with connection := c, todo := before ++ stage.toList, handled } before
      stage := by
  refine ⟨rfl, hcalm, hreads, hmax, ?_, ?_, fun hstage => ?_, fun hstage => Or.inl (hends hstage)⟩
  · obtain ⟨fed, harrived, hdrain⟩ := h.framed
    refine ⟨fed, harrived, ?_⟩
    change _ = ((framer kMaxFrameBody).drain c.session.assembler.unread).after
      (handled ++ inHand stage)
    rw [hunread, hhandled, hdrain]
  · rintro (hstage | hstage)
    · exact Or.inl (hends hstage)
    · exact absurd hstage hstart
  · unfold unread
    rw [hunread]
    exact hrecv hstage

/-- Bytes are read, and framed next. -/
theorem Attentive.got (h : Attentive i [] (some .recv)) {bytes : Bytes}
    (hfront : bytes <+: i.inbox)
    (hassembler : c.session.assembler = i.connection.session.assembler.append bytes) :
    Attentive { i with
      connection := c, todo := [.next], inbox := i.inbox.drop bytes.length } [] (some .next) := by
  obtain ⟨late, hlate⟩ := hfront
  obtain ⟨fed, harrived, hdrain⟩ := h.framed
  have hunread : c.session.assembler.unread = i.unread ++ bytes := by
    rw [hassembler]
    exact FrameAssembler.append_unread ..
  have hmore := (framer kMaxFrameBody).drain_more (h.receiving rfl)
  rw [hmore] at hdrain
  refine ⟨rfl, by simp, by simp [Op.reads], hassembler ▸ h.maxBody, ⟨fed ++ bytes, ?_, ?_⟩,
    by simp, by simp, by simp⟩
  · rw [harrived, ← hlate, List.drop_left, List.append_assoc]
  · have herror : ((framer kMaxFrameBody).drain fed).error = none := by rw [hdrain]; rfl
    change _ = ((framer kMaxFrameBody).drain c.session.assembler.unread).after
      (i.handled ++ inHand (some .next))
    rw [hunread, (framer kMaxFrameBody).drain_append herror, hdrain]
    simp [Drained.after, inHand, handed]

/-- A frame is found. -/
theorem Attentive.found (h : Attentive i [] (some .next)) {frame : Frame} {n : ℕ}
    (hpeek : (framer kMaxFrameBody).peek i.unread = .got frame n)
    (hunread : c.session.assembler.unread = i.unread.drop n)
    (hmax : c.session.assembler.maxBody = kMaxFrameBody) :
    Attentive { i with connection := c, todo := [.onFrame frame] } []
      (some (.onFrame frame)) := by
  obtain ⟨fed, harrived, hdrain⟩ := h.framed
  refine ⟨rfl, by simp, by simp [Op.reads], hmax, ⟨fed, harrived, ?_⟩, by simp, by simp, by simp⟩
  change _ = ((framer kMaxFrameBody).drain c.session.assembler.unread).after
    (i.handled ++ inHand (some (.onFrame frame)))
  rw [hunread, hdrain, (framer kMaxFrameBody).drain_got hpeek]
  simp [Drained.after, inHand, handed]

/-- The loop stops at an empty buffer. -/
theorem Attentive.stop (h : Attentive i [] (some .recv)) (hempty : i.inbox = []) :
    Attentive { i with todo := [] } [] none := by
  have hmore := h.receiving rfl
  refine ⟨rfl, by simp, (by simp), h.maxBody, ?_, fun _ => Or.inr hmore, (by simp),
    fun _ => Or.inr (Or.inl hempty)⟩
  exact h.framed

theorem Attentive.onReadable_act (h : Attentive i [] (some .onReadable))
    (hexec : Connection.exec world .onReadable i.connection = some (c, ops)) :
    ∃ before stage, Attentive (i.acted world .onReadable c ops) before stage := by
  cases hexec
  simp only [acted, taken, handed, List.drop_zero, List.append_nil]
  cases hclosed : i.connection.session.closed with
  | true =>
      exact ⟨[], none, h.go [] none rfl h.maxBody rfl (by simp) (by simp)
        (fun _ => Or.inl hclosed) (by simp) (by simp)⟩
  | false =>
      have hmore : (framer kMaxFrameBody).peek i.unread = .more := by
        refine (h.settled (Or.inr rfl)).resolve_left ?_
        rintro (hset | hmem)
        · cases hclosed.symm.trans hset
        · cases hmem
      exact ⟨[], some .recv, h.go [] (some .recv) rfl h.maxBody rfl (by simp)
        (by simp [Op.reads]) (by simp) (by simp) fun _ => hmore⟩

/-- Each answer of `recv` leads on to framing, back to reading, or to an end. -/
theorem Attentive.recv_act (h : Attentive i [] (some .recv))
    (hanswers : answers i.inbox world .recv = true)
    (hexec : Connection.exec world .recv i.connection = some (c, ops)) :
    ∃ before stage, Attentive (i.acted world .recv c ops) before stage := by
  have hends : Attentive { i with todo := [.close] } [.close] none :=
    h.go [.close] none rfl h.maxBody rfl (by simp [Op.calm]) (by simp)
      (fun _ => Or.inr List.mem_cons_self) (by simp) (by simp)
  rw [Connection.exec] at hexec
  unfold answers at hanswers
  cases hincoming : world.incoming with
  | got bytes =>
      simp only [hincoming] at hexec hanswers
      split at hexec <;> cases hexec
      simp only [acted, taken, hincoming, handed, List.append_nil]
      exact ⟨[], some .next, h.got (List.isPrefixOf_iff_prefix.mp hanswers) rfl⟩
  | eof | failed =>
      simp only [hincoming] at hexec
      cases hexec
      simp only [acted, taken, hincoming, handed, List.drop_zero, List.append_nil]
      exact ⟨[.close], none, hends⟩
  | wouldBlock =>
      simp only [hincoming] at hexec hanswers
      cases hexec
      simp only [acted, taken, hincoming, handed, List.drop_zero, List.append_nil]
      exact ⟨[], none, h.stop (List.isEmpty_iff.mp hanswers)⟩
  | interrupted =>
      simp only [hincoming] at hexec
      cases hexec
      simp only [acted, taken, hincoming, handed, List.drop_zero, List.append_nil]
      exact ⟨[], some .recv, h.go [] (some .recv) rfl h.maxBody rfl (by simp)
        (by simp [Op.reads]) (by simp) (by simp) fun _ => h.receiving rfl⟩

theorem Attentive.next_act (h : Attentive i [] (some .next))
    (hexec : Connection.exec world .next i.connection = some (c, ops)) :
    ∃ before stage, Attentive (i.acted world .next c ops) before stage := by
  have hmax := h.maxBody
  have hpeek : (framer kMaxFrameBody).peek i.unread =
      peekFrame i.connection.session.assembler.maxBody
        i.connection.session.assembler.unread := by
    rw [hmax]
    rfl
  simp only [acted, taken, handed, List.drop_zero, List.append_nil]
  rw [Connection.exec] at hexec
  cases hfound : (framer kMaxFrameBody).peek i.unread with
  | more =>
      rw [FrameAssembler.next_more (hpeek.symm.trans hfound)] at hexec
      cases hexec
      exact ⟨[], some .recv, h.go [] (some .recv) (FrameAssembler.compact_unread _)
        ((FrameAssembler.compact_maxBody _).trans hmax) rfl (by simp) (by simp [Op.reads])
        (by simp) (by simp) fun _ => hfound⟩
  | bad e =>
      rw [FrameAssembler.next_bad (hpeek.symm.trans hfound)] at hexec
      cases hexec
      exact ⟨[.close], none, h.go [.close] none (FrameAssembler.compact_unread _)
        ((FrameAssembler.compact_maxBody _).trans hmax) rfl (by simp [Op.calm]) (by simp)
        (fun _ => Or.inr List.mem_cons_self) (by simp) (by simp)⟩
  | got frame n =>
      obtain ⟨hresult, hunread, hkeep⟩ := FrameAssembler.next_got (hpeek.symm.trans hfound)
      simp only [hresult] at hexec
      cases hexec
      exact ⟨[], some (.onFrame frame), h.found hfound hunread (hkeep.trans hmax)⟩

theorem Attentive.onFrame_act {frame : Frame} (h : Attentive i [] (some (.onFrame frame)))
    (hexec : Connection.exec world (.onFrame frame) i.connection = some (c, ops)) :
    ∃ before stage, Attentive (i.acted world (.onFrame frame) c ops) before stage := by
  cases hexec
  simp only [acted, taken, handed, List.drop_zero]
  cases decodeClientMessage frame.type frame.payload with
  | error e =>
      exact ⟨[.close], none, h.go [.close] none rfl h.maxBody (by simp [inHand, handed])
        (by simp [Op.calm]) (by simp) (fun _ => Or.inr List.mem_cons_self) (by simp) (by simp)⟩
  | ok message =>
      cases world.room with
      | true =>
          exact ⟨[], some .afterFrame, h.go [] (some .afterFrame) rfl h.maxBody
            (by simp [inHand, handed]) (by simp) (by simp [Op.reads]) (by simp) (by simp)
            (by simp)⟩
      | false =>
          exact ⟨[.send .deliver Connection.overloaded], some .afterFrame,
            h.go [.send .deliver Connection.overloaded] (some .afterFrame) rfl h.maxBody
              (by simp [inHand, handed]) (by simp [Op.calm]) (by simp [Op.reads]) (by simp)
              (by simp) (by simp)⟩

theorem Attentive.afterFrame_act (h : Attentive i [] (some .afterFrame))
    (hexec : Connection.exec world .afterFrame i.connection = some (c, ops)) :
    ∃ before stage, Attentive (i.acted world .afterFrame c ops) before stage := by
  cases hexec
  simp only [acted, taken, handed, List.drop_zero, List.append_nil]
  cases hclosed : i.connection.session.closed with
  | true =>
      exact ⟨[], none, h.go [] none rfl h.maxBody rfl (by simp) (by simp)
        (fun _ => Or.inl hclosed) (by simp) (by simp)⟩
  | false =>
      exact ⟨[], some .next, h.go [] (some .next) rfl h.maxBody rfl (by simp)
        (by simp [Op.reads]) (by simp) (by simp) (by simp)⟩

theorem Attentive.read_act (h : Attentive i [] (some op))
    (hanswers : answers i.inbox world op = true)
    (hexec : Connection.exec world op i.connection = some (c, ops)) :
    ∃ before stage, Attentive (i.acted world op c ops) before stage := by
  have hreads := h.reads op rfl
  cases op with
  | onReadable => exact h.onReadable_act hexec
  | recv => exact h.recv_act hanswers hexec
  | next => exact h.next_act hexec
  | onFrame frame => exact h.onFrame_act hexec
  | afterFrame => exact h.afterFrame_act hexec
  | _ => cases hreads

end Reading

/-! ## Runs -/

theorem Attentive.arrive (h : Attentive i before stage) (bytes : Bytes) :
    Attentive { i with
      inbox := i.inbox ++ bytes
      arrived := i.arrived ++ bytes
      edge := true } before stage := by
  refine ⟨h.todo, h.calm, h.reads, h.maxBody, ?_, h.settled, h.receiving,
    fun _ => Or.inr (Or.inr rfl)⟩
  obtain ⟨fed, harrived, hdrain⟩ := h.framed
  exact ⟨fed, by rw [harrived, List.append_assoc], hdrain⟩

/-- The reactor is told of the session, whose last event it is done with. -/
theorem Attentive.event (h : Attentive i [] none) (hup writable : Bool) :
    ∃ before stage, Attentive { i with
      edge := false
      todo :=
        if hup then [.close]
        else (if writable then [.onWritable] else []) ++ [.onReadable] } before stage := by
  cases hup with
  | true =>
      exact ⟨[.close], none, rfl, by simp [Op.calm], (by simp), h.maxBody, h.framed,
        fun _ => Or.inl (Or.inr List.mem_cons_self), (by simp),
        fun _ => Or.inl (Or.inr List.mem_cons_self)⟩
  | false =>
      refine ⟨if writable then [.onWritable] else [], some .onReadable, rfl, ?_, by simp [Op.reads],
        h.maxBody, h.framed, fun _ => ?_, by simp, (by simp)⟩
      · cases writable <;> simp [Op.calm]
      · refine (h.settled (Or.inl rfl)).imp_left ?_
        rintro (hset | hmem)
        · exact Or.inl hset
        · cases hmem

theorem taken_of_calm (world : World) (h : op.calm = true) : taken world op = 0 := by
  cases op <;> first | rfl | cases h

theorem handed_of_calm (h : op.calm = true) : handed op = [] := by
  cases op <;> first | rfl | cases h

theorem attentive_step {label : Label} (h : ∃ before stage, Attentive i before stage)
    (hstep : machine.step i label = some i') : ∃ before stage, Attentive i' before stage := by
  obtain ⟨before, stage, h⟩ := h
  change i.step label = some i' at hstep
  cases label with
  | arrive bytes =>
      rw [step] at hstep
      split at hstep <;> cases hstep
      exact ⟨before, stage, h.arrive bytes⟩
  | event hup writable =>
      rw [step] at hstep
      split at hstep <;> cases hstep
      rename_i hidle
      have htodo := h.todo
      rw [hidle.1] at htodo
      obtain ⟨rfl, hstage⟩ := List.append_eq_nil_iff.mp htodo.symm
      cases stage with
      | none => exact h.event hup writable
      | some op => cases hstage
  | act world =>
      rw [step] at hstep
      split at hstep
      · cases hstep
      · rename_i op rest htodo
        split at hstep
        · rename_i hanswers
          obtain ⟨⟨c, ops⟩, hexec, rfl⟩ := Option.map_eq_some_iff.mp hstep
          have hshape := h.todo.symm.trans htodo
          cases before with
          | cons op' before =>
              obtain ⟨rfl, rfl⟩ := List.cons.inj hshape
              have hop := h.calm op' List.mem_cons_self
              unfold acted
              rw [taken_of_calm world hop, handed_of_calm hop, List.drop_zero, List.append_nil]
              exact ⟨_, stage, h.calm_act (Connection.exec_cases hexec)⟩
          | nil =>
              cases stage with
              | none => cases hshape
              | some op' =>
                  obtain ⟨rfl, rfl⟩ := List.cons.inj hshape
                  dsimp only
                  rw [List.append_nil]
                  exact h.read_act hanswers hexec
        · cases hstep
  | other op world =>
      rw [step] at hstep
      split at hstep
      · cases hstep
      · rename_i hop
        obtain ⟨⟨c, ops⟩, hexec, rfl⟩ := Option.map_eq_some_iff.mp hstep
        obtain ⟨hassembler, hclosed⟩ :=
          (Connection.exec_cases hexec).untouched (Bool.eq_false_of_not_eq_true hop)
        exact ⟨before, stage, h.other hassembler hclosed⟩

theorem attentive_accept (maxOutbound : ℕ) :
    ∃ before stage, Attentive (accept maxOutbound) before stage := by
  have hmore : (framer kMaxFrameBody).peek (accept maxOutbound).unread = .more :=
    (framer kMaxFrameBody).peek_nil
  refine ⟨[], none, rfl, by simp, (by simp), rfl, ⟨[], rfl, ?_⟩, fun _ => Or.inr hmore, (by simp),
    fun _ => Or.inr (Or.inl rfl)⟩
  rw [(framer kMaxFrameBody).drain_more hmore]
  exact (framer kMaxFrameBody).drain_more (framer kMaxFrameBody).peek_nil

/-- **No stranded input.** However bytes arrive, whatever `recv` takes at a time, and
whatever other threads do to the session: when the reactor is done with the session's last
event, nothing has arrived since and the session is open, its socket is empty, all that has
arrived was framed without error, and the frames were handed on in order. So every message
a client has sent whole was handed on. -/
theorem no_stranded_input {labels : List Label} {maxOutbound : ℕ}
    (hrun : machine.run (accept maxOutbound) labels = some i) (hidle : i.todo = [])
    (hedge : i.edge = false) (hopen : i.connection.session.closed = false) :
    i.inbox = [] ∧
      (framer kMaxFrameBody).drain i.arrived =
        { items := i.handled, rest := i.unread, error := none } ∧
      ∀ messages : List ClientMessage, i.arrived = messages.flatMap ClientMessage.encode →
        i.handled.mapM (fun frame => decodeClientMessage frame.type frame.payload) =
          .ok messages := by
  obtain ⟨before, stage, h⟩ : ∃ before stage, Attentive i before stage :=
    Machine.run_invariant attentive_step (attentive_accept maxOutbound) hrun
  have htodo := h.todo
  rw [hidle] at htodo
  obtain ⟨rfl, hstage⟩ := List.append_eq_nil_iff.mp htodo.symm
  obtain rfl : stage = none := by
    cases stage with
    | none => rfl
    | some op => cases hstage
  have hends : ¬ i.Ends [] := by
    rintro (hset | hmem)
    · cases hopen.symm.trans hset
    · cases hmem
  have hempty : i.inbox = [] := by
    rcases (h.emptied rfl).resolve_left hends with hnone | hset
    · exact hnone
    · cases hedge.symm.trans hset
  have hmore := (h.settled (Or.inl rfl)).resolve_left hends
  obtain ⟨fed, harrived, hdrain⟩ := h.framed
  rw [hempty, List.append_nil] at harrived
  subst harrived
  have hframed : (framer kMaxFrameBody).drain i.arrived =
      { items := i.handled, rest := i.unread, error := none } := by
    rw [hdrain, (framer kMaxFrameBody).drain_more hmore]
    simp [Drained.after, inHand]
  refine ⟨hempty, hframed, fun messages hmessages => ?_⟩
  have hstream := (framer kMaxFrameBody).drain_stream ClientMessage.encode
    (fun m => { version := kProtocolVersion, type := m.type, payload := m.payload }) messages
    fun m _ rest => peekFrame_encodeFrame m.payload_length rest
  rw [← hmessages, hframed] at hstream
  obtain ⟨hhandled, _⟩ := Drained.mk.inj hstream
  rw [hhandled]
  exact mapM_decode decodeClientMessage_payload messages

/-- The two pieces in which the cancellation of an order arrives. -/
def firstPiece : Bytes := (ClientMessage.encode (.cancel ⟨7⟩)).take 9

def secondPiece : Bytes := (ClientMessage.encode (.cancel ⟨7⟩)).drop 9

/-- The second piece arrives while the first is being read, and is read with it; the event
it causes finds nothing more. -/
def inTwoPieces : List Label :=
  [.arrive firstPiece, .event false true, .act {}, .act {}, .act {},
    .act { incoming := .got firstPiece }, .act {}, .arrive secondPiece,
    .act { incoming := .got secondPiece }, .act {}, .act {}, .act {}, .act {}, .act {},
    .event false false, .act {}, .act {}]

theorem no_stranded_input_inTwoPieces :
    ∃ i, machine.run (accept 64) inTwoPieces = some i ∧ i.inbox = [] ∧
      i.handled.mapM (fun frame => decodeClientMessage frame.type frame.payload) =
        .ok [.cancel ⟨7⟩] := by
  have hrun : (machine.run (accept 64) inTwoPieces).map (fun i =>
      decide (i.todo = [] ∧ i.edge = false ∧ i.connection.session.closed = false ∧
        i.arrived = [ClientMessage.cancel ⟨7⟩].flatMap ClientMessage.encode)) = some true := by
    decide +kernel
  obtain ⟨i, hi, hstate⟩ := Option.map_eq_some_iff.mp hrun
  obtain ⟨hidle, hedge, hopen, harrived⟩ := of_decide_eq_true hstate
  obtain ⟨hempty, _, hhandled⟩ := no_stranded_input hi hidle hedge hopen
  exact ⟨i, hi, hempty, hhandled _ harrived⟩

end Inlet

end Exchange.Net
