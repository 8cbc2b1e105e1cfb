import Exchange.Net.Session

/-!
# The outbound stream of a session

Senders append to the outbound buffer under its lock. The reactor copies a chunk out,
lets the socket take what it likes of it with the lock released, and then erases that
much from the front, while others may have appended behind it. As long as one thread
alone flushes, what the socket took followed by what is left are the accepted sends, in
order: between the system call and the erasure the bytes just taken are still in front
of the buffer, and are not counted twice.
-/

namespace Exchange.Net

open Framework

/-- The operations that lead to a flush. -/
def Op.flushes : Op → Bool
  | .onWritable | .copy | .write _ | .erase _ => true
  | .ready _ _ _ | .drainWakeup | .servicePending | .flushPending _ => true
  | _ => false

/-- Between a chunk's copy and its erasure. -/
def Op.midFlush : Op → Bool
  | .write _ | .erase _ => true
  | _ => false

namespace Connection

/-- The bytes whose `send` returned true, in that order. -/
def accepted (c : Connection) : Bytes := (c.sends.filter (·.2)).flatMap (·.1)

/-- Bytes the socket took that still stand in front of the buffer. -/
def unerased : List Op → ℕ
  | .erase sent :: _ => sent
  | _ => 0

/-- Only the reactor starts what flushes. -/
def FlushOn {n : ℕ} (reactor : Fin n) (_ : Threads Connection Op n) :
    Program.Label World Call n → Prop
  | .call t call => call.entry.flushes = true → t = reactor
  | .act _ _ => True

instance {n : ℕ} (reactor : Fin n) (s : Threads Connection Op n)
    (label : Program.Label World Call n) : Decidable (FlushOn reactor s label) :=
  match label with
  | .call t call => inferInstanceAs (Decidable (call.entry.flushes = true → t = reactor))
  | .act _ _ => inferInstanceAs (Decidable True)

/-! ## What an operation does to the stream -/

section Does

variable {c c' : Connection} {op : Op} {ops : List Op}

theorem accepted_returned (bytes : Bytes) (result : Bool) :
    (c.returned bytes result).accepted = c.accepted ++ if result then bytes else [] := by
  rw [accepted, returned, List.filter_append, List.flatMap_append]
  cases result <;> simp [accepted]

theorem after_mem {caller : Caller} {result : Bool} (h : op ∈ caller.after result) :
    op = .requestFlush ∨ op = .dropSlow := by
  cases caller <;> cases result <;> simp_all [Caller.after]

/-- What does not lead to a flush never will. -/
theorem Does.flushes (h : Does c op c' ops) (hop : op.flushes = false) :
    ∀ op' ∈ ops, op'.flushes = false := by
  intro op' hop'
  cases h with
  | sendClosed | overflow | enqueue => rcases after_mem hop' with rfl | rfl <;> rfl
  | sendOpen | dropSlow | requestFlush | close | closeHandler | closePending =>
      cases List.mem_singleton.mp hop'
      rfl
  | wake | closeAgain | closeNone => cases hop'
  | read _ _ hops =>
      rcases hops op' hop' with hreads | rfl | rfl
      · cases op' <;> first | rfl | cases hreads
      · rfl
      · rfl
  | _ => cases hop

/-- Outside a flush the buffer grows by what was accepted, and the socket gets nothing. -/
structure Extends (c c' : Connection) : Prop where
  socket : c'.socket = c.socket
  grows : ∃ added, c'.session.outbound = c.session.outbound ++ added ∧
    c'.accepted = c.accepted ++ added

theorem Extends.of_same (hsocket : c'.socket = c.socket)
    (houtbound : c'.session.outbound = c.session.outbound) (hsends : c'.sends = c.sends) :
    Extends c c' where
  socket := hsocket
  grows := ⟨[], by rw [houtbound, List.append_nil],
    by rw [accepted, hsends, List.append_nil, accepted]⟩

theorem Does.extends (h : Does c op c' ops) (hop : op.midFlush = false) : Extends c c' := by
  cases h with
  | sendClosed _ => exact ⟨rfl, [], (List.append_nil _).symm, accepted_returned _ _⟩
  | overflow session _ hsession =>
      subst hsession
      exact ⟨rfl, [], (List.append_nil _).symm, accepted_returned _ _⟩
  | enqueue session _ hsession =>
      subst hsession
      exact ⟨rfl, _, rfl, accepted_returned _ _⟩
  | write | erase => cases hop
  | _ => exact .of_same rfl rfl rfl

/-- The chunk to write is a front of the buffer; only a copy leads to a write, and only a
write to an erasure. -/
theorem Does.midFlush (h : Does c op c' ops) (hop : op.midFlush = false) :
    (∀ op' ∈ ops, op'.midFlush = false) ∨ ops = [.write c'.session.chunk] := by
  cases h with
  | sendClosed | overflow | enqueue =>
      refine Or.inl fun op' hop' => ?_
      rcases after_mem hop' with rfl | rfl <;> rfl
  | read _ _ hops =>
      refine Or.inl fun op' hop' => ?_
      rcases hops op' hop' with hreads | rfl | rfl
      · cases op' <;> first | rfl | cases hreads
      · rfl
      · rfl
  | onWritable hops =>
      refine Or.inl fun op' hop' => ?_
      cases hops op' hop'
      rfl
  | copy _ => exact Or.inr rfl
  | write | writeNone | erase => cases hop
  | ready hops =>
      refine Or.inl fun op' hop' => ?_
      rcases hops op' hop' with rfl | rfl | rfl <;> rfl
  | flushPending hops =>
      refine Or.inl fun op' hop' => ?_
      rcases hops op' hop' with rfl | ⟨rest, rfl⟩ <;> rfl
  | _ => exact Or.inl (by simp [Op.midFlush])

theorem chunk_prefix : c.session.chunk <+: c.session.outbound := List.take_prefix _ _

/-- No operation puts more into the buffer than it may hold. -/
theorem Does.bounded (h : Does c op c' ops) :
    c'.session.maxOutbound = c.session.maxOutbound ∧
    (c.session.outbound.length ≤ c.session.maxOutbound →
      c'.session.outbound.length ≤ c.session.maxOutbound) := by
  cases h with
  | overflow session _ hsession =>
      subst hsession
      exact ⟨rfl, id⟩
  | enqueue session hfits hsession =>
      subst hsession
      exact ⟨rfl, fun _ => List.length_append.trans_le hfits⟩
  | erase =>
      refine ⟨rfl, fun hle => le_trans ?_ hle⟩
      rw [show (c.session.erase _).outbound = c.session.outbound.drop _ from rfl,
        List.length_drop]
      exact Nat.sub_le _ _
  | _ => exact ⟨rfl, id⟩

end Does

/-! ## The stream under every interleaving -/

/-- What holds of the reactor's flush and the buffer, with `todo` what the reactor still
has to do. -/
structure Streaming (c : Connection) (todo : List Op) : Prop where
  /-- A flush is the innermost of the calls the reactor is in. -/
  innermost : ∀ op ∈ todo.tail, op.midFlush = false
  chunk : ∀ {chunk rest}, todo = .write chunk :: rest → chunk <+: c.session.outbound
  erasable : unerased todo ≤ c.session.outbound.length
  stream : c.socket ++ c.session.outbound.drop (unerased todo) = c.accepted

section Streaming

variable {c c' : Connection} {op : Op} {ops rest : List Op}

theorem unerased_eq_zero {todo : List Op} (h : ∀ op ∈ todo, op.midFlush = false) :
    unerased todo = 0 := by
  match todo with
  | [] => rfl
  | op :: rest =>
      have hop := h op List.mem_cons_self
      cases op <;> first | rfl | cases hop

/-- With no flush under way there is nothing to say about one. -/
theorem Streaming.settled {todo : List Op} (h : ∀ op ∈ todo, op.midFlush = false)
    (hstream : c.socket ++ c.session.outbound = c.accepted) : Streaming c todo where
  innermost op hop := h op (List.mem_of_mem_tail hop)
  chunk := by
    rintro chunk rest rfl
    cases h _ List.mem_cons_self
  erasable := by
    rw [unerased_eq_zero h]
    exact Nat.zero_le _
  stream := by
    rw [unerased_eq_zero h]
    exact hstream

/-- Other threads append behind the reactor's flush. -/
theorem Streaming.extend {todo : List Op} (h : Streaming c todo) (hext : Extends c c') :
    Streaming c' todo := by
  obtain ⟨hsocket, added, houtbound, haccepted⟩ := hext
  refine ⟨h.innermost, ?_, ?_, ?_⟩
  · intro chunk rest htodo
    rw [houtbound]
    exact (h.chunk htodo).trans (List.prefix_append _ _)
  · rw [houtbound, List.length_append]
    exact Nat.le_add_right_of_le h.erasable
  · rw [hsocket, houtbound, haccepted, List.drop_append_of_le_length h.erasable,
      ← List.append_assoc, h.stream]

/-- The reactor's own operations. -/
theorem Streaming.act (h : Streaming c (op :: rest)) (hdoes : Does c op c' ops) :
    Streaming c' (ops ++ rest) := by
  have hrest : ∀ op' ∈ rest, op'.midFlush = false := h.innermost
  by_cases hop : op.midFlush = false
  · have hzero : unerased (op :: rest) = 0 :=
      unerased_eq_zero (List.forall_mem_cons.mpr ⟨hop, hrest⟩)
    have hstream := h.stream
    rw [hzero] at hstream
    obtain ⟨hsocket, added, houtbound, haccepted⟩ := hdoes.extends hop
    have hstream' : c'.socket ++ c'.session.outbound = c'.accepted := by
      rw [hsocket, houtbound, haccepted, ← List.append_assoc]
      exact congrArg (· ++ added) hstream
    rcases hdoes.midFlush hop with hnone | rfl
    · exact .settled (List.forall_mem_append.mpr ⟨hnone, hrest⟩) hstream'
    · refine ⟨hrest, ?_, Nat.zero_le _, hstream'⟩
      intro chunk rest' htodo
      cases htodo
      exact chunk_prefix
  · cases hdoes with
    | write hcount =>
        rename_i chunk count
        obtain ⟨behind, hbehind⟩ := h.chunk rfl
        have hstream : c.socket ++ c.session.outbound = c.accepted := h.stream
        refine ⟨hrest, nofun, ?_, ?_⟩
        · show count ≤ c.session.outbound.length
          rw [← hbehind, List.length_append]
          exact Nat.le_add_right_of_le hcount.2
        · show c.socket ++ chunk.take count ++ c.session.outbound.drop count = c.accepted
          rw [← hstream, ← hbehind, List.drop_append_of_le_length hcount.2,
            List.append_assoc, ← List.append_assoc (chunk.take count), List.take_append_drop]
    | writeNone hops =>
        refine .settled (List.forall_mem_append.mpr ⟨fun op' hop' => ?_, hrest⟩) h.stream
        rcases hops op' hop' with rfl | rfl <;> rfl
    | erase => exact .settled (List.forall_mem_append.mpr ⟨by simp [Op.midFlush], hrest⟩) h.stream
    | read _ hreads _ => cases op <;> first | exact absurd rfl hop | cases hreads
    | _ => exact absurd rfl hop

end Streaming

section Runs

variable {n : ℕ} {reactor : Fin n} {maxOutbound : ℕ} {s s' : Threads Connection Op n}
  {label : Program.Label World Call n}

structure Flowing (reactor : Fin n) (maxOutbound : ℕ) (s : Threads Connection Op n) :
    Prop where
  streaming : Streaming s.shared (s.todo reactor)
  /-- No other thread flushes. -/
  others : Program.Everywhere (fun t op => t ≠ reactor → op.flushes = false) s
  limit : s.shared.session.maxOutbound = maxOutbound
  bounded : s.shared.session.outbound.length ≤ maxOutbound

theorem flowing_accept : Flowing reactor maxOutbound (accept maxOutbound n) where
  streaming := .settled nofun rfl
  others := nofun
  limit := rfl
  bounded := Nat.zero_le _

theorem flowing_step (h : Flowing reactor maxOutbound s)
    (hstep : ((program.machine n).within (FlushOn reactor)).step s label = some s') :
    Flowing reactor maxOutbound s' := by
  obtain ⟨hflush, hstep⟩ := Machine.within_step hstep
  cases Program.step_cases hstep with
  | @call t call ht =>
      have hentry : ∀ op ∈ program.entry call, op.midFlush = false := by
        intro op hop
        cases List.mem_singleton.mp hop
        cases call <;> rfl
      refine ⟨?_, h.others.update ?_, h.limit, h.bounded⟩
      · by_cases hreactor : t = reactor
        · subst hreactor
          have hstreaming := h.streaming
          rw [ht] at hstreaming
          rw [Threads.move_self]
          exact .settled hentry hstreaming.stream
        · rw [Threads.move_of_ne _ _ _ (Ne.symm hreactor)]
          exact h.streaming
      · intro op hop hne
        cases List.mem_singleton.mp hop
        exact Bool.eq_false_of_not_eq_true fun hflushes => hne (hflush hflushes)
  | @act t world op rest ops c' ht hexec =>
      have hdoes := exec_cases hexec
      have hothers := h.others t op (by rw [ht]; exact List.mem_cons_self)
      obtain ⟨hlimit, hbounded⟩ := hdoes.bounded
      refine ⟨?_, h.others.act ht fun _ op' hop' hne => hdoes.flushes (hothers hne) op' hop',
        hlimit.trans h.limit, ?_⟩
      · by_cases hreactor : t = reactor
        · subst hreactor
          have hstreaming := h.streaming
          rw [ht] at hstreaming
          rw [Threads.move_self]
          exact hstreaming.act hdoes
        · rw [Threads.move_of_ne _ _ _ (Ne.symm hreactor)]
          refine h.streaming.extend (hdoes.extends ?_)
          have hflushes := hothers hreactor
          cases op <;> first | rfl | cases hflushes
      · rw [h.limit] at hbounded
        exact hbounded h.bounded

/-- **The outbound stream.** While the reactor alone flushes, under every interleaving
with any senders: what the socket took, followed by the buffer without what the socket
took and is not erased yet, are the accepted sends in order; what the socket took is a
front of them; and the buffer keeps its bound. -/
theorem outbound_stream {labels : List (Program.Label World Call n)}
    (h : ((program.machine n).within (FlushOn reactor)).run (accept maxOutbound n) labels =
      some s) :
    let c := s.shared
    let taken := unerased (s.todo reactor)
    taken ≤ c.session.outbound.length ∧
      c.socket ++ c.session.outbound.drop taken = c.accepted ∧
      c.socket <+: c.accepted ∧ c.session.outbound.length ≤ maxOutbound := by
  have hflowing := Machine.run_invariant (I := Flowing reactor maxOutbound) flowing_step
    flowing_accept h
  exact ⟨hflowing.streaming.erasable, hflowing.streaming.stream,
    ⟨_, hflowing.streaming.stream⟩, hflowing.bounded⟩

end Runs

/-- The reactor, and two threads beside it. -/
def flushing : Fin 3 := ⟨0, by decide⟩

def delivering : Fin 3 := ⟨1, by decide⟩

def sending : Fin 3 := ⟨2, by decide⟩

/-- Four bytes are delivered and the reactor flushes three of them while a further send is
on its way. -/
def partialFlush : List (Program.Label World Call 3) :=
  [.call delivering (.deliver [1, 2, 3, 4]), .act delivering {}, .act delivering {},
    .act delivering {}, .act delivering {},
    .call flushing .onWritable, .act flushing {}, .act flushing {},
    .act flushing { written := .sent 3 },
    .call sending (.send [5, 6]), .act sending {}, .act sending {}]

/-- The reactor is about to erase what the socket took. -/
theorem outbound_stream_partial :
    ∃ s, ((program.machine 3).within (FlushOn 0)).run (accept 8 3) partialFlush = some s ∧
      unerased (s.todo 0) = 3 ∧ s.shared.socket = [1, 2, 3] ∧
      s.shared.socket ++ s.shared.session.outbound.drop 3 = s.shared.accepted := by
  have hrun : (((program.machine 3).within (FlushOn 0)).run (accept 8 3) partialFlush).map
      (fun s => (unerased (s.todo 0), s.shared.socket)) = some (3, [1, 2, 3]) := by
    decide +kernel
  obtain ⟨s, hs, hsame⟩ := Option.map_eq_some_iff.mp hrun
  obtain ⟨hunerased, hsocket⟩ := Prod.mk.inj hsame
  refine ⟨s, hs, hunerased, hsocket, ?_⟩
  have hstream := (outbound_stream hs).2.1
  rw [hunerased] at hstream
  exact hstream

/-- Before the erasure the buffer still holds what the socket took. -/
theorem outbound_counted_twice :
    ∃ s, ((program.machine 3).within (FlushOn 0)).run (accept 8 3) partialFlush = some s ∧
      s.shared.socket ++ s.shared.session.outbound ≠ s.shared.accepted := by
  have hrun : (((program.machine 3).within (FlushOn 0)).run (accept 8 3) partialFlush).map
      (fun s => decide (s.shared.socket ++ s.shared.session.outbound ≠ s.shared.accepted)) =
        some true := by
    decide +kernel
  obtain ⟨s, hs, hne⟩ := Option.map_eq_some_iff.mp hrun
  exact ⟨s, hs, of_decide_eq_true hne⟩

end Connection

end Exchange.Net
