import Mathlib
import Exchange.Analytics.Depth
import Exchange.Framework.SharedMutex

/-!
# The market data feed

The engine thread changes the book and publishes snapshots of it; any number of other
threads read the last one. A publication builds both sides first and then stores them
and counts up, field by field, with the lock to itself; readers copy field by field
under the shared lock. What they get is nevertheless one publication as a whole, and
the numbers tell how many came in between.
-/

namespace Exchange.Analytics

open Framework

/-- A published view of the book at one instant. -/
structure L2Snapshot where
  bids : List L2Level := []
  asks : List L2Level := []
  /-- Increments on every publication. -/
  sequence : Sequence := 0
deriving DecidableEq, Repr

/-- What the two reading calls of a publisher return. -/
inductive Answer : Type where
  | snapshot (copy : L2Snapshot)
  | sequence (value : Sequence)
deriving DecidableEq, Repr

namespace L2Publisher

/-- `publish` once it holds the lock. -/
def store (bids asks : List L2Level) : List (L2Snapshot → L2Snapshot) :=
  [fun current => { current with bids }, fun current => { current with asks },
    fun current => { current with sequence := current.sequence + 1 }]

/-- `publish`: both sides are built before the lock is taken. -/
def publish (depth : ℕ) (book : Book) : List (L2Snapshot → L2Snapshot) :=
  store (l2Snapshot book.bids depth) (l2Snapshot book.asks depth)

/-- One field of the copy that `read` makes. -/
def copyField (field : L2Snapshot → L2Snapshot → L2Snapshot) (current : L2Snapshot) :
    Answer → Answer
  | .snapshot copy => .snapshot (field current copy)
  | .sequence value => .sequence value

def read : Reads L2Snapshot Answer where
  start := .snapshot {}
  steps :=
    [copyField fun current copy => { copy with bids := current.bids },
      copyField fun current copy => { copy with asks := current.asks },
      copyField fun current copy => { copy with sequence := current.sequence }]

def sequence : Reads L2Snapshot Answer where
  start := .sequence 0
  steps := [fun current _ => .sequence current.sequence]

theorem result_sequence (current : L2Snapshot) :
    sequence.result current = .sequence current.sequence := rfl

/-- The snapshot that stands when these books have been published. -/
def published (depth : ℕ) (books : List Book) : L2Snapshot :=
  match books.getLast? with
  | none => {}
  | some book =>
      { bids := l2Snapshot book.bids depth
        asks := l2Snapshot book.asks depth
        sequence := UInt64.ofNat books.length }

theorem sequence_published (depth : ℕ) (books : List Book) :
    (published depth books).sequence = UInt64.ofNat books.length := by
  unfold published
  split
  · rename_i hnone
    rw [List.getLast?_eq_none_iff.mp hnone]
    rfl
  · rfl

theorem version_publish (depth : ℕ) (books : List Book) :
    version {} (books.map (publish depth)) = published depth books := by
  induction books using List.reverseRecOn with
  | nil => rfl
  | append_singleton books book ih =>
      have hsequence := sequence_published depth books
      rw [List.map_append, List.map_singleton, version_append, ih]
      show L2Snapshot.mk (l2Snapshot book.bids depth) (l2Snapshot book.asks depth)
        ((published depth books).sequence + 1) = _
      rw [hsequence, published, List.getLast?_concat, List.length_append]
      dsimp only
      rw [List.length_singleton, UInt64.ofNat_add]
      rfl

end L2Publisher

/-! ## The engine and its readers -/

/-- The engine's book and its publisher, with `n` threads at it. -/
structure Feed (n : ℕ) where
  depth : ℕ
  memory : BookMemory := { state := {} }
  publisher : Guarded L2Snapshot Answer n := { data := {} }
  /-- The books `publish` was called with, in that order. No part of the source. -/
  books : List Book := []

namespace Feed

variable {n : ℕ}

inductive Label (n : ℕ) : Type where
  /-- The engine thread applies an operation to its book. -/
  | exec (op : Op) (fails : ℕ → Bool)
  | publish
  | read (t : Fin n)
  | sequence (t : Fin n)
  /-- Thread `t` goes on with its call. -/
  | move (t : Fin n)

variable (engine : Fin n)

/-- An operation on the book, between two publications. -/
def exec (feed : Feed n) (op : Op) (fails : ℕ → Bool) : Option (Feed n) :=
  match feed.publisher.threads engine with
  | .outside => some { feed with memory := (op.exec fails feed.memory).2 }
  | _ => none

def publish (feed : Feed n) : Option (Feed n) :=
  let steps := L2Publisher.publish feed.depth feed.memory.state
  (feed.publisher.act (.write engine steps)).map fun publisher =>
    { feed with publisher, books := feed.books ++ [feed.memory.state] }

def machine : Machine (Feed n) (Label n) where
  step feed label :=
    match label with
    | .exec op fails => feed.exec engine op fails
    | .publish => feed.publish engine
    | .read t => (feed.publisher.act (.read t L2Publisher.read)).map ({ feed with publisher := · })
    | .sequence t =>
        (feed.publisher.act (.read t L2Publisher.sequence)).map ({ feed with publisher := · })
    | .move t => (feed.publisher.act (.move t)).map ({ feed with publisher := · })

/-! ## What holds of every feed -/

/-- The calls of readers. -/
def Known (reads : Reads L2Snapshot Answer) : Prop :=
  reads = L2Publisher.read ∨ reads = L2Publisher.sequence

variable {engine} {feed feed' : Feed n}

structure Sound (depth : ℕ) (engine : Fin n) (feed : Feed n) : Prop where
  depth : feed.depth = depth
  reachable : Reachable anyOp feed.memory
  books : ∀ book ∈ feed.books, ∃ m, Reachable anyOp m ∧ m.state = book
  consistent : feed.publisher.Consistent {}
  authored : feed.publisher.Authored engine (feed.books.map (L2Publisher.publish feed.depth)) Known

theorem sound_start (depth : ℕ) (engine : Fin n) : Sound depth engine { depth } where
  depth := rfl
  reachable := .empty
  books := List.forall_mem_nil _
  consistent := Guarded.consistent_start _
  authored := ⟨rfl, fun _ _ => rfl, fun _ => trivial, List.forall_mem_nil _⟩

/-- A step of the publisher alone. -/
theorem Sound.publisher {depth : ℕ} (h : Sound depth engine feed)
    {publisher : Guarded L2Snapshot Answer n} (hconsistent : publisher.Consistent {})
    (hauthored : publisher.Authored engine
      (feed.books.map (L2Publisher.publish feed.depth)) Known) :
    Sound depth engine { feed with publisher } :=
  { h with consistent := hconsistent, authored := hauthored }

theorem Sound.step {depth : ℕ} {label : Label n} (h : Sound depth engine feed)
    (hstep : (machine engine).step feed label = some feed') : Sound depth engine feed' := by
  cases label with
  | exec op fails =>
      change feed.exec engine op fails = some feed' at hstep
      unfold exec at hstep
      split at hstep <;> cases hstep
      exact { h with reachable := .step op fails h.reachable trivial }
  | publish =>
      obtain ⟨publisher, hact, rfl⟩ := Option.map_eq_some_iff.mp hstep
      have hcases := Guarded.act_cases hact
      refine ⟨h.depth, h.reachable, ?_, h.consistent.step hcases, ?_⟩
      · intro book hbook
        rcases List.mem_append.mp hbook with hbook | hbook
        · exact h.books book hbook
        · exact ⟨feed.memory, h.reachable, (List.mem_singleton.mp hbook).symm⟩
      · rw [List.map_append]
        exact h.authored.write hcases
  | read t =>
      obtain ⟨publisher, hact, rfl⟩ := Option.map_eq_some_iff.mp hstep
      have hcases := Guarded.act_cases hact
      exact h.publisher (h.consistent.step hcases) (h.authored.read (Or.inl rfl) hcases)
  | sequence t =>
      obtain ⟨publisher, hact, rfl⟩ := Option.map_eq_some_iff.mp hstep
      have hcases := Guarded.act_cases hact
      exact h.publisher (h.consistent.step hcases) (h.authored.read (Or.inr rfl) hcases)
  | move t =>
      obtain ⟨publisher, hact, rfl⟩ := Option.map_eq_some_iff.mp hstep
      have hcases := Guarded.act_cases hact
      exact h.publisher (h.consistent.step hcases) (h.authored.move hcases)

/-- What a reader is told when `k` publications stand. -/
inductive Tells (depth : ℕ) (books : List Book) (k : ℕ) : Answer → Prop where
  | snapshot : Tells depth books k (.snapshot (L2Publisher.published depth (books.take k)))
  | sequence : Tells depth books k (.sequence (UInt64.ofNat k))

/-- The version a reader sees after `k` publications is the `k`-th of the books. -/
theorem Sound.tells {depth : ℕ} (h : Sound depth engine feed) {k : ℕ}
    (hk : k ≤ feed.publisher.written.length) {reads : Reads L2Snapshot Answer}
    (hreads : Known reads) :
    k ≤ feed.books.length ∧
      Tells depth feed.books k (reads.result (version {} (feed.publisher.written.take k))) := by
  have hwritten := h.authored.written
  have hlength : k ≤ feed.books.length := by
    have := congrArg List.length hwritten
    rw [List.length_append, List.length_map] at this
    omega
  have hversion : version {} (feed.publisher.written.take k) =
      L2Publisher.published depth (feed.books.take k) := by
    rw [← L2Publisher.version_publish, List.map_take, ← h.depth, ← hwritten,
      List.take_append_of_le_length hk]
  refine ⟨hlength, ?_⟩
  rw [hversion]
  rcases hreads with rfl | rfl
  · exact .snapshot
  · rw [L2Publisher.result_sequence, L2Publisher.sequence_published,
      List.length_take_of_le hlength]
    exact .sequence

/-- **The feed.** Under every interleaving of the engine with any readers, all books
published are books a run reaches, and every answer a reader got is that of one
publication as a whole: it was not superseded when the call began, and from one answer to
the next, whoever got it, publications do not go back. Short of 2^64 publications, two
snapshots of one number are the same. -/
theorem feed_linear {depth : ℕ} {labels : List (Label n)}
    (h : (machine engine).run { depth } labels = some feed) :
    (∀ book ∈ feed.books, ∃ m, Reachable anyOp m ∧ m.state = book) ∧
    (∃ versions : List ℕ, versions.Pairwise (· ≤ ·) ∧
      List.Forall₂ (fun k r => r.since ≤ k ∧ k ≤ feed.books.length ∧
        Tells depth feed.books k r.value) versions feed.publisher.returned) ∧
    (feed.books.length < 2 ^ 64 → ∀ r ∈ feed.publisher.returned,
      ∀ r' ∈ feed.publisher.returned, ∀ copy copy', r.value = .snapshot copy →
        r'.value = .snapshot copy' → copy.sequence = copy'.sequence → copy = copy') := by
  have hsound : Sound depth engine feed :=
    Machine.run_invariant Sound.step (sound_start depth engine) h
  obtain ⟨versions, hsorted, hbound, hlinear⟩ := hsound.consistent.linear
  have hanswers : List.Forall₂ (fun k r => r.since ≤ k ∧ k ≤ feed.books.length ∧
      Tells depth feed.books k r.value) versions feed.publisher.returned := by
    refine List.forall₂_iff_zip.mpr ⟨hlinear.length_eq, fun {k r} hmem => ?_⟩
    obtain ⟨hk, hr⟩ := List.of_mem_zip hmem
    obtain ⟨hsince, hvalue⟩ := List.forall₂_zip hlinear hmem
    obtain ⟨hle, htells⟩ := hsound.tells (hbound k hk) (hsound.authored.returned r hr)
    exact ⟨hsince, hle, hvalue ▸ htells⟩
  refine ⟨hsound.books, ⟨versions, hsorted, hanswers⟩, ?_⟩
  intro hfew r hr r' hr' copy copy' hcopy hcopy' hnumber
  -- a snapshot and its number are both given by how many publications it stands for
  have hgiven : ∀ r ∈ feed.publisher.returned, ∀ copy, r.value = .snapshot copy →
      ∃ k < 2 ^ 64, copy = L2Publisher.published depth (feed.books.take k) ∧
        copy.sequence = UInt64.ofNat k := by
    intro r hr copy hcopy
    obtain ⟨k, _, hle, htells⟩ := exists_of_forall₂ hanswers hr
    refine ⟨k, Nat.lt_of_le_of_lt hle hfew, ?_⟩
    rw [hcopy] at htells
    cases htells
    exact ⟨rfl, by rw [L2Publisher.sequence_published, List.length_take_of_le hle]⟩
  obtain ⟨k, hk, hat, hsequence⟩ := hgiven r hr copy hcopy
  obtain ⟨k', hk', hat', hsequence'⟩ := hgiven r' hr' copy' hcopy'
  have hsame : k = k' := by
    have := congrArg UInt64.toNat (hsequence.symm.trans (hnumber.trans hsequence'))
    rwa [UInt64.toNat_ofNat_of_lt' hk, UInt64.toNat_ofNat_of_lt' hk'] at this
  rw [hat, hat', hsame]

/-- The engine, and a thread that reads. -/
def publishing : Fin 2 := ⟨0, by decide⟩

def polling : Fin 2 := ⟨1, by decide⟩

/-- A bid is published; a reader takes the lock while the next publication is under way. -/
def readBetween : List (Label 2) :=
  [.exec (.submit (some (limitOrder 1 .buy 7 5 100))) (fun _ => false), .publish,
    .move publishing, .move publishing, .move publishing, .move publishing, .move publishing,
    .exec (.submit (some (limitOrder 2 .sell 8 3 101))) (fun _ => false), .publish,
    .read polling, .move polling, .move polling, .move polling, .move polling, .move polling]

theorem feed_linear_readBetween :
    ∃ feed, (machine publishing).run { depth := 5 } readBetween = some feed ∧
      feed.publisher.returned.map Returned.value =
        [.snapshot ⟨[⟨100, 5, 5, 1⟩], [], 1⟩] ∧ feed.books.length = 2 ∧
      ∃ versions : List ℕ, versions.Pairwise (· ≤ ·) ∧
        List.Forall₂ (fun k r => r.since ≤ k ∧ k ≤ feed.books.length ∧
          Tells 5 feed.books k r.value) versions feed.publisher.returned := by
  have hrun : ((machine publishing).run { depth := 5 } readBetween).map
      (fun feed => (feed.publisher.returned.map Returned.value, feed.books.length)) =
      some ([.snapshot ⟨[⟨100, 5, 5, 1⟩], [], 1⟩], 2) := by
    decide +kernel
  obtain ⟨feed, hfeed, heq⟩ := Option.map_eq_some_iff.mp hrun
  obtain ⟨hvalues, hbooks⟩ := Prod.mk.inj heq
  exact ⟨feed, hfeed, hvalues, hbooks, (feed_linear hfeed).2.1⟩

end Feed

end Exchange.Analytics
