import Exchange.Framework.Machine
import Mathlib

/-!
# Data behind a reader-writer lock

A section that writes holds the lock alone and one that reads shares it with other
readers; in between, each of them accesses the data piece by piece, and the threads
interleave at every access. Nobody sees a write section in the middle: what a read
section returns it could have read off one version of the data, one that was not older
than the last when its call began, and versions never go back from one answer to the
next.
-/

namespace Exchange.Framework

theorem exists_of_forall₂ {α β : Type} {R : α → β → Prop} {as : List α} {bs : List β} {b : β}
    (h : List.Forall₂ R as bs) (hb : b ∈ bs) : ∃ a, R a b := by
  induction h with
  | nil => cases hb
  | cons hab _ ih =>
      rcases List.mem_cons.mp hb with rfl | hb
      · exact ⟨_, hab⟩
      · exact ih hb

/-- A section that reads, accumulating what it will return. -/
structure Reads (δ ρ : Type) where
  start : ρ
  steps : List (δ → ρ → ρ)

/-- Accesses to data that stays as it is. -/
def readOn {δ ρ : Type} (data : δ) (steps : List (δ → ρ → ρ)) (acc : ρ) : ρ :=
  steps.foldl (fun acc step => step data acc) acc

def Reads.result {δ ρ : Type} (reads : Reads δ ρ) (data : δ) : ρ :=
  readOn data reads.steps reads.start

/-- A section that writes, at one go. -/
def writeOn {δ : Type} (steps : List (δ → δ)) (data : δ) : δ :=
  steps.foldl (fun data step => step data) data

/-- The data after these sections. -/
def version {δ : Type} (start : δ) (sections : List (List (δ → δ))) : δ :=
  sections.foldl (fun data steps => writeOn steps data) start

theorem version_append {δ : Type} (start : δ) (sections : List (List (δ → δ)))
    (steps : List (δ → δ)) :
    version start (sections ++ [steps]) = writeOn steps (version start sections) := by
  rw [version, List.foldl_append]
  rfl

/-- Where a thread stands. -/
inductive Access (δ ρ : Type) : Type where
  | outside
  | lockingExclusive (writes : List (δ → δ))
  /-- With the lock to itself, and `rest` of its accesses left. -/
  | writing (writes rest : List (δ → δ))
  /-- In a call that began when `since` sections had written. -/
  | lockingShared (since : ℕ) (reads : Reads δ ρ)
  | reading (since : ℕ) (reads : Reads δ ρ) (rest : List (δ → ρ → ρ)) (acc : ρ)

/-- What a reader got. -/
structure Returned (δ ρ : Type) where
  since : ℕ
  reads : Reads δ ρ
  value : ρ

/-- The data, its lock and the threads at it. -/
structure Guarded (δ ρ : Type) (n : ℕ) where
  data : δ
  exclusive : Option (Fin n) := none
  sharers : Finset (Fin n) := ∅
  threads : Fin n → Access δ ρ := fun _ => .outside
  /-- The write sections that are over, in that order. -/
  written : List (List (δ → δ)) := []
  /-- The answers given, in that order. -/
  returned : List (Returned δ ρ) := []

namespace Guarded

variable {δ ρ : Type} {n : ℕ}

def setThread (s : Guarded δ ρ n) (t : Fin n) (access : Access δ ρ) : Guarded δ ρ n :=
  { s with threads := Function.update s.threads t access }

inductive Label (δ ρ : Type) (n : ℕ) : Type where
  | write (t : Fin n) (writes : List (δ → δ))
  | read (t : Fin n) (reads : Reads δ ρ)
  | move (t : Fin n)

/-- The next thing thread `t` does in its call. -/
def move (s : Guarded δ ρ n) (t : Fin n) : Option (Guarded δ ρ n) :=
  match s.threads t with
  | .outside => none
  | .lockingExclusive writes =>
      if s.exclusive = none ∧ s.sharers = ∅ then
        some ({ s with exclusive := some t }.setThread t (.writing writes writes))
      else none
  | .writing writes (step :: rest) =>
      some ({ s with data := step s.data }.setThread t (.writing writes rest))
  | .writing writes [] =>
      some ({ s with exclusive := none, written := s.written ++ [writes] }.setThread t .outside)
  | .lockingShared since reads =>
      if s.exclusive = none then
        some ({ s with sharers := insert t s.sharers }.setThread t
          (.reading since reads reads.steps reads.start))
      else none
  | .reading since reads (step :: rest) acc =>
      some (s.setThread t (.reading since reads rest (step s.data acc)))
  | .reading since reads [] acc =>
      some ({ s with
        sharers := s.sharers.erase t
        returned := s.returned ++ [Returned.mk since reads acc] }.setThread t .outside)

def act (s : Guarded δ ρ n) : Label δ ρ n → Option (Guarded δ ρ n)
  | .write t writes =>
      match s.threads t with
      | .outside => some (s.setThread t (.lockingExclusive writes))
      | _ => none
  | .read t reads =>
      match s.threads t with
      | .outside => some (s.setThread t (.lockingShared s.written.length reads))
      | _ => none
  | .move t => s.move t

/-! ## What a step can do -/

variable (s : Guarded δ ρ n)

inductive Step : Label δ ρ n → Guarded δ ρ n → Prop where
  | write {t : Fin n} {writes : List (δ → δ)} (ht : s.threads t = .outside) :
      Step (.write t writes) (s.setThread t (.lockingExclusive writes))
  | read {t : Fin n} {reads : Reads δ ρ} (ht : s.threads t = .outside) :
      Step (.read t reads) (s.setThread t (.lockingShared s.written.length reads))
  | lock {t : Fin n} {writes : List (δ → δ)} (ht : s.threads t = .lockingExclusive writes)
      (hfree : s.exclusive = none) (hunshared : s.sharers = ∅) :
      Step (.move t) ({ s with exclusive := some t }.setThread t (.writing writes writes))
  | store {t : Fin n} {writes rest : List (δ → δ)} {step : δ → δ}
      (ht : s.threads t = .writing writes (step :: rest)) :
      Step (.move t) ({ s with data := step s.data }.setThread t (.writing writes rest))
  | unlock {t : Fin n} {writes : List (δ → δ)} (ht : s.threads t = .writing writes []) :
      Step (.move t)
        ({ s with exclusive := none, written := s.written ++ [writes] }.setThread t .outside)
  | lockShared {t : Fin n} {since : ℕ} {reads : Reads δ ρ}
      (ht : s.threads t = .lockingShared since reads) (hfree : s.exclusive = none) :
      Step (.move t) ({ s with sharers := insert t s.sharers }.setThread t
        (.reading since reads reads.steps reads.start))
  | load {t : Fin n} {since : ℕ} {reads : Reads δ ρ} {step : δ → ρ → ρ}
      {rest : List (δ → ρ → ρ)} {acc : ρ}
      (ht : s.threads t = .reading since reads (step :: rest) acc) :
      Step (.move t) (s.setThread t (.reading since reads rest (step s.data acc)))
  | unlockShared {t : Fin n} {since : ℕ} {reads : Reads δ ρ} {acc : ρ}
      (ht : s.threads t = .reading since reads [] acc) :
      Step (.move t) ({ s with
        sharers := s.sharers.erase t
        returned := s.returned ++ [Returned.mk since reads acc] }.setThread t .outside)

variable {s} {s' : Guarded δ ρ n}

theorem act_cases {label : Label δ ρ n} (h : s.act label = some s') :
    s.Step label s' := by
  cases label with
  | write t writes =>
      simp only [act] at h
      split at h <;> cases h
      exact .write ‹_›
  | read t reads =>
      simp only [act] at h
      split at h <;> cases h
      exact .read ‹_›
  | move t =>
      simp only [act, move] at h
      split at h
      · cases h
      · split at h <;> cases h
        rename_i hlock
        exact .lock ‹_› hlock.1 hlock.2
      · cases h
        exact .store ‹_›
      · cases h
        exact .unlock ‹_›
      · split at h <;> cases h
        exact .lockShared ‹_› ‹_›
      · cases h
        exact .load ‹_›
      · cases h
        exact .unlockShared ‹_›

/-! ## Nobody sees a section in the middle -/

/-- What a thread that stands so says about lock and data. -/
def Fits (start : δ) (s : Guarded δ ρ n) (t : Fin n) : Access δ ρ → Prop
  | .outside | .lockingExclusive _ => s.exclusive ≠ some t ∧ t ∉ s.sharers
  | .writing writes rest =>
      s.exclusive = some t ∧ t ∉ s.sharers ∧
        writeOn rest s.data = writeOn writes (version start s.written)
  | .lockingShared since _ =>
      s.exclusive ≠ some t ∧ t ∉ s.sharers ∧ since ≤ s.written.length
  | .reading since reads rest acc =>
      s.exclusive ≠ some t ∧ t ∈ s.sharers ∧ since ≤ s.written.length ∧
        readOn s.data rest acc = reads.result s.data

/-- The answers given are those of versions that never go back. -/
def Linear (start : δ) (written : List (List (δ → δ))) (returned : List (Returned δ ρ)) : Prop :=
  ∃ versions : List ℕ, versions.Pairwise (· ≤ ·) ∧ (∀ k ∈ versions, k ≤ written.length) ∧
    List.Forall₂ (fun k r => r.since ≤ k ∧
      r.value = r.reads.result (version start (written.take k))) versions returned

structure Consistent (start : δ) (s : Guarded δ ρ n) : Prop where
  apart : s.exclusive ≠ none → s.sharers = ∅
  settled : s.exclusive = none → s.data = version start s.written
  fits : ∀ t, s.Fits start t (s.threads t)
  linear : Linear start s.written s.returned

theorem consistent_start (start : δ) : Consistent start ({ data := start } : Guarded δ ρ n) where
  apart := nofun
  settled _ := rfl
  fits _ := ⟨nofun, Finset.notMem_empty _⟩
  linear := ⟨[], .nil, List.forall_mem_nil _, .nil⟩

section Step

variable {start : δ} {t u : Fin n} {s₁ : Guarded δ ρ n} {access : Access δ ρ}

/-- A thread that another one's step leaves at its lock and data still fits. -/
theorem Fits.mono (h : s.Fits start u access)
    (hexclusive : s₁.exclusive = some u ↔ s.exclusive = some u)
    (hsharers : u ∈ s₁.sharers ↔ u ∈ s.sharers)
    (hlength : s.written.length ≤ s₁.written.length)
    (hheld : s.exclusive = some u ∨ u ∈ s.sharers →
      s₁.data = s.data ∧ s₁.written = s.written) : s₁.Fits start u access := by
  cases access with
  | outside | lockingExclusive writes =>
      exact ⟨mt hexclusive.mp h.1, mt hsharers.mp h.2⟩
  | writing writes rest =>
      obtain ⟨hdata, hwritten⟩ := hheld (Or.inl h.1)
      refine ⟨hexclusive.mpr h.1, mt hsharers.mp h.2.1, ?_⟩
      rw [hdata, hwritten]
      exact h.2.2
  | lockingShared since reads =>
      exact ⟨mt hexclusive.mp h.1, mt hsharers.mp h.2.1, h.2.2.trans hlength⟩
  | reading since reads rest acc =>
      obtain ⟨hdata, _⟩ := hheld (Or.inr h.2.1)
      refine ⟨mt hexclusive.mp h.1, hsharers.mpr h.2.1, h.2.2.1.trans hlength, ?_⟩
      rw [hdata]
      exact h.2.2.2

/-- One thread moves, and the others still fit. -/
theorem fits_setThread (hthreads : s₁.threads = s.threads) (hmine : s₁.Fits start t access)
    (hothers : ∀ u, u ≠ t → s₁.Fits start u (s.threads u)) (u : Fin n) :
    (s₁.setThread t access).Fits start u ((s₁.setThread t access).threads u) := by
  show s₁.Fits start u (Function.update s₁.threads t access u)
  by_cases hu : u = t
  · subst hu
    rwa [Function.update_self]
  · rw [Function.update_of_ne hu, hthreads]
    exact hothers u hu

theorem Linear.write {written : List (List (δ → δ))} {returned : List (Returned δ ρ)}
    (h : Linear start written returned) (writes : List (δ → δ)) :
    Linear start (written ++ [writes]) returned := by
  obtain ⟨versions, hsorted, hbound, hanswers⟩ := h
  refine ⟨versions, hsorted, ?_, ?_⟩
  · intro k hk
    rw [List.length_append]
    exact Nat.le_add_right_of_le (hbound k hk)
  · refine ((List.forall₂_and_left _ _).mpr ⟨hbound, hanswers⟩).imp ?_
    rintro k r ⟨hk, hsince, hvalue⟩
    exact ⟨hsince, by rwa [List.take_append_of_le_length hk]⟩

theorem Linear.read {written : List (List (δ → δ))} {returned : List (Returned δ ρ)}
    (h : Linear start written returned) {r : Returned δ ρ} (hsince : r.since ≤ written.length)
    (hvalue : r.value = r.reads.result (version start written)) :
    Linear start written (returned ++ [r]) := by
  obtain ⟨versions, hsorted, hbound, hanswers⟩ := h
  refine ⟨versions ++ [written.length], ?_, ?_, ?_⟩
  · -- all that was answered before is of this version or an older one
    refine List.pairwise_append.mpr ⟨hsorted, List.pairwise_singleton _ _, ?_⟩
    intro k hk k' hk'
    rw [List.mem_singleton.mp hk']
    exact hbound k hk
  · intro k hk
    rcases List.mem_append.mp hk with hk | hk
    · exact hbound k hk
    · rw [List.mem_singleton.mp hk]
  · refine List.rel_append hanswers (.cons ⟨hsince, ?_⟩ .nil)
    rwa [List.take_length]

theorem Consistent.step {label : Label δ ρ n} (h : Consistent start s)
    (hstep : s.Step label s') : Consistent start s' := by
  cases hstep with
  | @write t writes ht =>
      have hmine := h.fits t
      rw [ht] at hmine
      exact { h with fits := fits_setThread rfl hmine fun u _ => h.fits u }
  | @read t reads ht =>
      have hmine := h.fits t
      rw [ht] at hmine
      exact { h with
        fits := fits_setThread rfl ⟨hmine.1, hmine.2, le_rfl⟩ fun u _ => h.fits u }
  | @lock t writes ht hfree hunshared =>
      have hmine := h.fits t
      rw [ht] at hmine
      refine { h with
        apart := fun _ => hunshared
        settled := nofun
        fits := fits_setThread rfl ⟨rfl, hmine.2, ?_⟩ fun u hu => (h.fits u).mono ?_ Iff.rfl
          le_rfl fun _ => ⟨rfl, rfl⟩ }
      · rw [← h.settled hfree]
      · rw [hfree]
        simpa using hu.symm
  | @store t writes rest step ht =>
      have hmine := h.fits t
      rw [ht] at hmine
      have hunshared := h.apart (by rw [hmine.1]; exact nofun)
      refine { h with
        settled := fun hfree => absurd (hmine.1.symm.trans hfree) nofun
        fits := fits_setThread rfl hmine fun u hu => (h.fits u).mono Iff.rfl Iff.rfl
          le_rfl fun hheld => ?_ }
      rcases hheld with hheld | hheld
      · exact absurd (Option.some.inj (hheld.symm.trans hmine.1)) hu
      · rw [hunshared] at hheld
        cases hheld
  | @unlock t writes ht =>
      have hmine := h.fits t
      rw [ht] at hmine
      have hunshared := h.apart (by rw [hmine.1]; exact nofun)
      have hdata : s.data = version start (s.written ++ [writes]) := by
        rw [version_append, ← hmine.2.2]
        rfl
      refine ⟨nofun, fun _ => hdata, fits_setThread rfl ⟨nofun, hmine.2.1⟩ fun u hu =>
        (h.fits u).mono ?_ Iff.rfl ?_ fun hheld => ?_, h.linear.write writes⟩
      · rw [hmine.1]
        simpa using hu.symm
      · exact (List.length_append ▸ Nat.le_add_right _ _)
      · rcases hheld with hheld | hheld
        · exact absurd (Option.some.inj (hheld.symm.trans hmine.1)) hu
        · rw [hunshared] at hheld
          cases hheld
  | @lockShared t since reads ht hfree =>
      have hmine := h.fits t
      rw [ht] at hmine
      refine { h with
        apart := fun hheld => absurd hfree hheld
        fits := fits_setThread rfl ⟨hmine.1, Finset.mem_insert_self _ _, hmine.2.2, rfl⟩
          fun u hu => (h.fits u).mono Iff.rfl ?_ le_rfl fun _ => ⟨rfl, rfl⟩ }
      exact ⟨fun hmem => (Finset.mem_insert.mp hmem).resolve_left hu, Finset.mem_insert_of_mem⟩
  | @load t since reads step rest acc ht =>
      have hmine := h.fits t
      rw [ht] at hmine
      exact { h with fits := fits_setThread rfl hmine fun u _ => h.fits u }
  | @unlockShared t since reads acc ht =>
      have hmine := h.fits t
      rw [ht] at hmine
      obtain ⟨hexclusive, hshares, hsince, hresult⟩ := hmine
      have hfree : s.exclusive = none := by
        by_contra hheld
        rw [h.apart hheld] at hshares
        cases hshares
      refine ⟨fun hheld => absurd hfree hheld, h.settled,
        fits_setThread rfl ⟨hexclusive, Finset.notMem_erase _ _⟩
          fun u hu => (h.fits u).mono Iff.rfl ?_ le_rfl fun _ => ⟨rfl, rfl⟩,
        h.linear.read hsince ?_⟩
      · exact ⟨Finset.mem_of_mem_erase, Finset.mem_erase_of_ne_of_mem hu⟩
      · rw [← h.settled hfree]
        exact hresult

end Step

/-! ## One writer -/

end Guarded

/-- What a thread has begun to write and is not done with. -/
def Access.pending {δ ρ : Type} : Access δ ρ → List (List (δ → δ))
  | .lockingExclusive writes | .writing writes _ => [writes]
  | _ => []

/-- A call that reads is one of a kind. -/
def Access.Reading {δ ρ : Type} (known : Reads δ ρ → Prop) : Access δ ρ → Prop
  | .lockingShared _ reads | .reading _ reads _ _ => known reads
  | _ => True

namespace Guarded

variable {δ ρ : Type} {n : ℕ} {s s' : Guarded δ ρ n}

/-- One thread alone writes, these sections one after the other, and all reads are of a
kind. -/
structure Authored (writer : Fin n) (begun : List (List (δ → δ))) (known : Reads δ ρ → Prop)
    (s : Guarded δ ρ n) : Prop where
  written : s.written ++ (s.threads writer).pending = begun
  alone : ∀ t, t ≠ writer → (s.threads t).pending = []
  reading : ∀ t, (s.threads t).Reading known
  returned : ∀ r ∈ s.returned, known r.reads

section Authored

variable {writer t : Fin n} {begun begun' : List (List (δ → δ))} {known : Reads δ ρ → Prop}
  {s₁ : Guarded δ ρ n} {access : Access δ ρ}

/-- One thread moves; what has been begun changes only with the writer. -/
theorem Authored.setThread (h : Authored writer begun known s) (hthreads : s₁.threads = s.threads)
    (hwriter : t = writer → s₁.written ++ access.pending = begun')
    (hother : t ≠ writer → s₁.written = s.written ∧ access.pending = [] ∧ begun' = begun)
    (hreading : access.Reading known) (hreturned : ∀ r ∈ s₁.returned, known r.reads) :
    Authored writer begun' known (s₁.setThread t access) := by
  have hself : (s₁.setThread t access).threads t = access := Function.update_self ..
  have hne : ∀ u, u ≠ t → (s₁.setThread t access).threads u = s.threads u := by
    intro u hu
    rw [← hthreads]
    exact Function.update_of_ne hu ..
  constructor
  · by_cases ht : t = writer
    · subst ht
      rw [hself]
      exact hwriter rfl
    · obtain ⟨hwritten, _, hbegun⟩ := hother ht
      rw [hne writer (Ne.symm ht), hbegun, ← h.written, ← hwritten]
      rfl
  · intro u hu
    by_cases hut : u = t
    · subst hut
      rw [hself]
      exact (hother hu).2.1
    · rw [hne u hut]
      exact h.alone u hu
  · intro u
    by_cases hut : u = t
    · rw [hut, hself]
      exact hreading
    · rw [hne u hut]
      exact h.reading u
  · exact hreturned

theorem Authored.move (h : Authored writer begun known s) (hstep : s.Step (.move t) s') :
    Authored writer begun known s' := by
  have hwritten := fun ht : t = writer => ht ▸ h.written
  have halone := h.alone t
  have hreading := h.reading t
  cases hstep with
  | lock ht | store ht =>
      rw [ht] at hwritten halone
      exact h.setThread rfl hwritten (fun hne => ⟨rfl, halone hne, rfl⟩) trivial h.returned
  | unlock ht =>
      rw [ht] at hwritten halone
      refine h.setThread rfl (fun heq => ?_) (fun hne => absurd (halone hne) nofun) trivial
        h.returned
      rw [← hwritten heq]
      exact List.append_nil _
  | lockShared ht | load ht =>
      rw [ht] at hwritten halone hreading
      exact h.setThread rfl hwritten (fun _ => ⟨rfl, rfl, rfl⟩) hreading h.returned
  | unlockShared ht =>
      rw [ht] at hwritten hreading
      refine h.setThread rfl hwritten (fun _ => ⟨rfl, rfl, rfl⟩) trivial ?_
      intro r hr
      rcases List.mem_append.mp hr with hr | hr
      · exact h.returned r hr
      · rw [List.mem_singleton.mp hr]
        exact hreading

theorem Authored.read {reads : Reads δ ρ} (h : Authored writer begun known s)
    (hknown : known reads) (hstep : s.Step (.read t reads) s') :
    Authored writer begun known s' := by
  have hwritten := fun ht : t = writer => ht ▸ h.written
  cases hstep with
  | read ht =>
      rw [ht] at hwritten
      exact h.setThread rfl hwritten (fun _ => ⟨rfl, rfl, rfl⟩) hknown h.returned

theorem Authored.write {writes : List (δ → δ)} (h : Authored writer begun known s)
    (hstep : s.Step (.write writer writes) s') :
    Authored writer (begun ++ [writes]) known s' := by
  have hwritten := h.written
  cases hstep with
  | write ht =>
      rw [ht] at hwritten
      refine h.setThread rfl (fun _ => ?_) (fun hne => absurd rfl hne) trivial h.returned
      rw [← hwritten]
      exact congrArg (· ++ [writes]) (List.append_nil _).symm

end Authored

end Guarded

end Exchange.Framework
