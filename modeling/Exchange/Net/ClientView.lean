import Exchange.Net.FrameAssembler
import Exchange.Net.Outbound

/-!
# What a client reads

Threads send encoded messages, the reactor writes the buffer out in chunks of which the
socket takes a part, and the bytes arrive in any pieces. The client sees none of it: what
has arrived by any time decodes to a front of the messages that were accepted, in their
order, and the rest is the beginning of the next message.
-/

namespace Exchange.Net

open Framework

/-- What the operation sends is an encoded message. -/
def Op.Speaks : Op → Prop
  | .send _ bytes | .enqueue _ bytes => ∃ message : ServerMessage, bytes = message.encode
  | _ => True

namespace Connection

variable {n : ℕ} {c c' : Connection} {op : Op} {ops : List Op}
  {s s' : Threads Connection Op n} {reactor : Fin n} {maxOutbound : ℕ}

/-- Everything that was sent is an encoded message. -/
def Spoken (c : Connection) : Prop :=
  ∀ sent ∈ c.sends, ∃ message : ServerMessage, sent.1 = message.encode

theorem Spoken.returned (h : Spoken c) {bytes : Bytes}
    (hbytes : ∃ message : ServerMessage, bytes = message.encode) (result : Bool) :
    Spoken (c.returned bytes result) := by
  intro sent hsent
  rcases List.mem_append.mp hsent with hold | hnew
  · exact h sent hold
  · cases List.mem_singleton.mp hnew
    exact hbytes

theorem after_speaks {caller : Caller} {result : Bool} :
    ∀ op ∈ caller.after result, op.Speaks := by
  intro op hop
  rcases after_mem hop with rfl | rfl <;> exact trivial

theorem Does.speaks (h : Does c op c' ops) (hop : op.Speaks) (hc : Spoken c) :
    Spoken c' ∧ ∀ op' ∈ ops, op'.Speaks := by
  cases h with
  | sendClosed _ => exact ⟨hc.returned hop _, after_speaks⟩
  | overflow session _ _ | enqueue session _ _ =>
      have hsession : Spoken { c with session } := hc
      exact ⟨hsession.returned hop _, after_speaks⟩
  | sendOpen _ =>
      refine ⟨hc, fun op' hop' => ?_⟩
      cases List.mem_singleton.mp hop'
      exact hop
  | read _ _ hops =>
      refine ⟨hc, fun op' hop' => ?_⟩
      rcases hops op' hop' with hreads | rfl | rfl
      · cases op' <;> first | exact trivial | cases hreads
      · exact trivial
      · exact ⟨_, rfl⟩
  | onWritable hops =>
      refine ⟨hc, fun op' hop' => ?_⟩
      cases hops op' hop'
      exact trivial
  | writeNone hops =>
      refine ⟨hc, fun op' hop' => ?_⟩
      rcases hops op' hop' with rfl | rfl <;> exact trivial
  | ready hops =>
      refine ⟨hc, fun op' hop' => ?_⟩
      rcases hops op' hop' with rfl | rfl | rfl <;> exact trivial
  | flushPending hops =>
      refine ⟨hc, fun op' hop' => ?_⟩
      rcases hops op' hop' with rfl | ⟨rest, rfl⟩ <;> exact trivial
  | _ => exact ⟨hc, by simp [Op.Speaks]⟩

/-- What a thread is called on to send is an encoded message. -/
def Talks : Program.Label World Call n → Prop
  | .call _ call => call.entry.Speaks
  | .act _ _ => True

theorem speaks_step {label : Program.Label World Call n} (htalks : Talks label)
    (h : Spoken s.shared ∧ Program.Everywhere (fun _ op => op.Speaks) s)
    (hstep : (program.machine n).step s label = some s') :
    Spoken s'.shared ∧ Program.Everywhere (fun _ op => op.Speaks) s' := by
  obtain ⟨hspoken, hevery⟩ := h
  cases Program.step_cases hstep with
  | call ht =>
      refine ⟨hspoken, hevery.update fun op hop => ?_⟩
      cases List.mem_singleton.mp hop
      exact htalks
  | @act t env op rest ops c' ht hexec =>
      have hop : op.Speaks := hevery t op (by rw [ht]; exact List.mem_cons_self)
      obtain ⟨hspoken', hops⟩ := (exec_cases hexec).speaks hop hspoken
      exact ⟨hspoken', hevery.act ht fun _ => hops⟩

theorem speaks_accept :
    Spoken (accept maxOutbound n).shared ∧
      Program.Everywhere (fun _ op => op.Speaks) (accept maxOutbound n) := by
  constructor
  · intro sent hsent
    cases hsent
  · intro t op hop
    cases hop

/-- The accepted sends are messages. -/
theorem Spoken.messages (h : Spoken c) :
    ∃ messages : List ServerMessage,
      (c.sends.filter (·.2)).map (·.1) = messages.map ServerMessage.encode := by
  have hrange : (c.sends.filter (·.2)).map (·.1) ∈
      Set.range (List.map ServerMessage.encode) := by
    rw [Set.range_list_map]
    intro bytes hbytes
    obtain ⟨sent, hsent, rfl⟩ := List.mem_map.mp hbytes
    obtain ⟨message, hmessage⟩ := h sent (List.mem_filter.mp hsent).1
    exact ⟨message, hmessage.symm⟩
  obtain ⟨messages, hmessages⟩ := hrange
  exact ⟨messages, hmessages.symm⟩

/-- **The client reads a front of the messages.** While the reactor alone flushes and
threads send encoded messages, under every interleaving, whatever the socket takes at a
time and however the bytes arrive: what has arrived decodes to the first messages that were
accepted, followed by less than the next one; and to all of them once everything that was
accepted has left the buffer and arrived. -/
theorem client_reads_front {labels : List (Program.Label World Call n)}
    (hrun : ((program.machine n).within (FlushOn reactor)).run (accept maxOutbound n) labels =
      some s) (htalks : ∀ label ∈ labels, Talks label) :
    ∃ messages : List ServerMessage,
      (s.shared.sends.filter (·.2)).map (·.1) = messages.map ServerMessage.encode ∧
      ∀ chunks : List Bytes, chunks.flatten <+: s.shared.socket →
        let fed := FrameAssembler.feed {} chunks
        fed.error = none ∧ ∃ k,
          fed.frames.mapM (fun frame => decodeServerMessage frame.type frame.payload) =
            .ok (messages.take k) ∧
          chunks.flatten =
            (messages.take k).flatMap ServerMessage.encode ++ fed.assembler.unread ∧
          (∀ message, messages[k]? = some message →
            fed.assembler.buffered < message.encode.length) ∧
          (s.shared.session.outbound = [] → chunks.flatten = s.shared.socket →
            k = messages.length) := by
  have hflowing : Flowing reactor maxOutbound s :=
    Machine.run_invariant flowing_step flowing_accept hrun
  have hspoken : Spoken s.shared ∧ Program.Everywhere (fun _ op => op.Speaks) s :=
    Machine.run_invariant_of speaks_step htalks speaks_accept (Machine.run_of_within hrun)
  obtain ⟨messages, hmessages⟩ := hspoken.1.messages
  have haccepted : s.shared.accepted = messages.flatMap ServerMessage.encode := by
    rw [accepted, List.flatMap_def, hmessages, ← List.flatMap_def]
  refine ⟨messages, hmessages, fun chunks harrived => ?_⟩
  have hstream := hflowing.streaming.stream
  obtain ⟨late, hlate⟩ := harrived
  rw [haccepted, ← hlate, List.append_assoc] at hstream
  obtain ⟨k, rest, hbytes, hdrain, hnext, hwhole⟩ :=
    (framer kMaxFrameBody).drain_front ServerMessage.encode
      (fun m => { version := kProtocolVersion, type := m.type, payload := m.payload })
      (fun m rest => peekFrame_encodeFrame m.payload_length rest) hstream
  obtain ⟨hframes, herror, hunread⟩ := FrameAssembler.feed_fresh {} rfl chunks
  have hmax : ({} : FrameAssembler).maxBody = kMaxFrameBody := rfl
  rw [hmax, hdrain] at hframes herror hunread
  have hrest := hunread herror
  refine ⟨herror, k, ?_, ?_, ?_, ?_⟩
  · rw [hframes]
    exact mapM_decode decodeServerMessage_payload _
  · rw [hrest]
    exact hbytes
  · intro message hmessage
    rw [FrameAssembler.buffered_eq, hrest]
    exact hnext message hmessage
  · intro hempty hall
    apply hwhole
    have hnone : late = [] := List.append_right_eq_self.mp (hlate.trans hall.symm)
    rw [hnone, hempty]
    simp

/-- Two rejections are delivered, and the socket takes one and a part of the other. -/
def tornFlush : List (Program.Label World Call 3) :=
  [.call delivering (.deliver overloaded), .act delivering {}, .act delivering {},
    .call sending (.deliver overloaded), .act sending {}, .act sending {},
    .call flushing .onWritable, .act flushing {}, .act flushing {},
    .act flushing { written := .sent 20 }]

/-- The client reads the first rejection, and five bytes of the other wait for the rest. -/
theorem client_reads_front_torn :
    ∃ s, ((program.machine 3).within (FlushOn 0)).run (accept 64 3) tornFlush = some s ∧
      let fed := FrameAssembler.feed {} [s.shared.socket.take 7, s.shared.socket.drop 7]
      (fed.frames.mapM fun frame => decodeServerMessage frame.type frame.payload) =
        .ok [.rejected ⟨0, .overloaded⟩] ∧
      s.shared.socket = overloaded ++ fed.assembler.unread ∧
      fed.assembler.unread.length = 5 := by
  have hrun : (((program.machine 3).within (FlushOn 0)).run (accept 64 3) tornFlush).map
      (fun s => (((FrameAssembler.feed {}
        [s.shared.socket.take 7, s.shared.socket.drop 7]).frames.mapM fun frame =>
          decodeServerMessage frame.type frame.payload).toOption, s.shared.socket.length)) =
        some (some [.rejected ⟨0, .overloaded⟩], 20) := by
    decide +kernel
  have htalks : ∀ label ∈ tornFlush, Talks label := by
    simp [tornFlush, Talks, Call.entry, Op.Speaks, overloaded]
  obtain ⟨s, hs, hstate⟩ := Option.map_eq_some_iff.mp hrun
  obtain ⟨hread, hlength⟩ := Prod.mk.inj hstate
  obtain ⟨messages, _, hfed⟩ := client_reads_front hs htalks
  obtain ⟨_, k, hdecoded, hbytes, _⟩ :=
    hfed [s.shared.socket.take 7, s.shared.socket.drop 7] ⟨[], by simp⟩
  rw [hdecoded] at hread
  have hfirst : messages.take k = [.rejected ⟨0, .overloaded⟩] := Option.some.inj hread
  rw [hfirst] at hdecoded hbytes
  have hsocket : s.shared.socket = overloaded ++ (FrameAssembler.feed {}
      [s.shared.socket.take 7, s.shared.socket.drop 7]).assembler.unread := by
    simpa [overloaded] using hbytes
  refine ⟨s, hs, hdecoded, hsocket, ?_⟩
  have hsum := congrArg List.length hsocket
  have hfull : overloaded.length = 15 := by decide
  rw [List.length_append, hlength, hfull] at hsum
  omega

end Connection

end Exchange.Net
