import LinuxEvfs.Tracker.Refine

/-! # The tracker without memory

`evfs_bm_alloc` returns `-ENOMEM` if it gets no memory, and `evfs_bit_wrapper` does not look at it: the call goes on to
the operation on the bit, of a slot that is still empty.

* `MemStep`: the steps of the tracker, and an allocation that fails.
* `Locks`: who holds the semaphores.
* `Stuck.step`: a call whose allocation has failed does not return, and no one else can fill its slot.
* `survives_iff`: so the calls work as on a set, in a run and as long as there is memory after it, exactly if no
  allocation in it has failed.
* `evfsBitWrapper_faults`: a call that applies its operation to a slot without a word. -/

namespace LinuxEvfs.Tracker

open LinuxEvfs.Errno Lib.Linear Lib.Runs

inductive Ev where
  | step (e : Option (Act Req ℤ))
  /-- `kzalloc` returns `NULL`. -/
  | enomem

/-- What a client sees of it. -/
def Ev.act : Ev → Option (Act Req ℤ)
  | .step e => e
  | .enomem => none

/-- The steps of the tracker; `evfs_bm_alloc` may fail, and is not asked whether it did. -/
inductive MemStep (w : Arch) (n : ℕ) : State → Ev → State → Prop
  | step {s s' : State} {e : Option (Act Req ℤ)} (h : Step w n s e s') : MemStep w n s (.step e) s'
  | enomem {s : State} {i : ℕ} {q : Req} {x : Slot} (h : s.phase i = .alloc q) (hx : s.slots (q.slot w) = x) :
      MemStep w n s .enomem (s.set (q.slot w) { x with allocs := x.allocs + 1 } i (.downgrade q))

/-- A run as its clients see it. -/
def visible (l : List (Ev × State)) : List (Option (Act Req ℤ) × State) := l.map fun x => (x.1.act, x.2)

/-- The state a run of the tracker ends in. -/
def final (l : List (Ev × State)) : State := last State.init (visible l)

/-- There was memory whenever the run asked for it. -/
def NoFailure (l : List (Ev × State)) : Prop := ∀ x ∈ l, x.1 ≠ .enomem

/-- **What is asked of a run**: no call has applied its operation to an empty slot, or is about to; who has returned has
released the semaphores; and the calls that took effect did so on a set of numbers. -/
structure Survives (w : Arch) (n : ℕ) (l : List (Ev × State)) : Prop where
  sound : ∀ i q, (final l).phase i ≠ .fault q
  word : ∀ i q, (final l).phase i = .bitop q → ((final l).slots (q.slot w)).bitmap ≠ none
  released : ∀ i, (final l).phase i = .returned →
    ∀ k, i ∉ ((final l).slots k).readers ∧ ((final l).slots k).writer ≠ some i
  effects : ∃ L, Linearizes (trackerObj w n) (history (visible l)) L ((final l).contents w)

variable {w : Arch} {n : ℕ} {s s' : State} {e : Ev} {l l' : List (Ev × State)} {i : ℕ} {q : Req}

theorem visible_cons (x : Ev × State) (l : List (Ev × State)) : visible (x :: l) = (x.1.act, x.2) :: visible l := rfl

/-! ### Who holds the semaphores -/

/-- The slot a call holds for reading; an oops does not release it. -/
@[grind]
def Phase.reads (w : Arch) : Phase → Option ℕ
  | .test q | .upReadNull q | .bitop q | .upRead q _ | .fault q => some (q.slot w)
  | .idle | .check _ | .downRead _ | .downWrite _ | .recheck _ | .alloc _ | .downgrade _ | .exit _ _ | .returned => none

structure Locks (w : Arch) (s : State) : Prop where
  writer : Writers w s
  readers : ∀ k i, i ∈ (s.slots k).readers ↔ (s.phase i).reads w = some k
  excludes : ∀ k i, (s.slots k).writer = some i → (s.slots k).readers = ∅
  alloc : ∀ i q, s.phase i = .alloc q → (s.slots (q.slot w)).bitmap = none

theorem Locks.init (w : Arch) : Locks w State.init := by
  constructor
  · exact (Inv.init w 0).writer
  · simp [State.init, Phase.reads]
  · simp [State.init]
  · exact (Inv.init w 0).alloc

theorem Locks.writer_alloc (hL : Locks w s) (h : s.phase i = .alloc q) : (s.slots (q.slot w)).writer = some i :=
  (hL.writer _ i).mpr (by rw [h, Phase.writes])

theorem Locks.step_writer (hL : Locks w s) (h : MemStep w n s e s') : Writers w s' := by
  cases h with
  | step h => exact hL.writer.step h
  | enomem h hx =>
    have hw := hL.writer
    unfold Writers at hw ⊢
    grind

theorem Locks.step_readers (hL : Locks w s) (h : MemStep w n s e s') (k i : ℕ) :
    i ∈ (s'.slots k).readers ↔ (s'.phase i).reads w = some k := by
  have hr := hL.readers
  cases h with
  | step h => cases h <;> grind
  | enomem h hx => grind

/-- A writer keeps the readers out, and becomes one as it lets go. -/
theorem Locks.step_excludes (hL : Locks w s) (h : MemStep w n s e s') (k i : ℕ)
    (hw : (s'.slots k).writer = some i) : (s'.slots k).readers = ∅ := by
  have hx := hL.excludes
  cases h with
  | step h => cases h <;> grind
  | enomem h hx => grind

/-- Between the second test and the allocation the slot stays empty. -/
theorem Locks.step_alloc (hL : Locks w s) (h : MemStep w n s e s') (i : ℕ) (q : Req)
    (hph : s'.phase i = .alloc q) : (s'.slots (q.slot w)).bitmap = none := by
  have ha := hL.alloc
  have hw := fun i q => hL.writer_alloc (i := i) (q := q)
  cases h with
  | step h => cases h <;> grind
  | enomem h hx => grind

theorem Locks.step (hL : Locks w s) (h : MemStep w n s e s') : Locks w s' :=
  ⟨hL.step_writer h, hL.step_readers h, hL.step_excludes h, hL.step_alloc h⟩

/-! ### A failed allocation -/

/-- A call behind an allocation that has failed. -/
structure Stuck (w : Arch) (s : State) (i : ℕ) (q : Req) : Prop where
  phase : s.phase i = .downgrade q ∨ s.phase i = .bitop q ∨ s.phase i = .fault q
  empty : (s.slots (q.slot w)).bitmap = none

/-- It holds the semaphore, for writing or for reading. -/
theorem Stuck.holds (hS : Stuck w s i q) (hL : Locks w s) :
    (s.slots (q.slot w)).writer = some i ∨ i ∈ (s.slots (q.slot w)).readers := by
  rcases hS.phase with h | h | h
  · exact .inl ((hL.writer _ i).mpr (by rw [h, Phase.writes]))
  · exact .inr ((hL.readers _ i).mpr (by rw [h, Phase.reads]))
  · exact .inr ((hL.readers _ i).mpr (by rw [h, Phase.reads]))

/-- So no call is about to fill the slot. -/
theorem Stuck.not_alloc (hS : Stuck w s i q) (hL : Locks w s) {j : ℕ} {q' : Req} (h : s.phase j = .alloc q') :
    q'.slot w ≠ q.slot w := by
  intro heq
  have hj := hL.writer_alloc h
  rw [heq] at hj
  rcases hS.holds hL with hw | hr
  · have hij : j = i := Option.some.inj (hj.symm.trans hw)
    subst hij
    rcases hS.phase with h' | h' | h' <;> rw [h] at h' <;> cases h'
  · rw [hL.excludes _ j hj] at hr
    exact absurd hr (Finset.notMem_empty i)

/-- It is stuck for good: it never returns, and it keeps the semaphore that others need to fill the slot. -/
theorem Stuck.step (hS : Stuck w s i q) (hL : Locks w s) (h : MemStep w n s e s') : Stuck w s' i q := by
  have hn : ∀ j q', s.phase j = .alloc q' → q'.slot w ≠ q.slot w := fun _ _ => hS.not_alloc hL
  obtain ⟨hph, hnone⟩ := hS
  cases h with
  | step h => constructor <;> cases h <;> grind
  | enomem h hx => constructor <;> grind

theorem Locks.stuck (hL : Locks w s) (h : MemStep w n s .enomem s') : ∃ i q, Stuck w s' i q := by
  cases h with
  | @enomem i q x h hx =>
    have hnone : x.bitmap = none := hx ▸ hL.alloc i q h
    refine ⟨i, q, .inl (Function.update_self ..), ?_⟩
    rw [State.set_slots, if_pos rfl]
    exact hnone

/-- The call does not return, and its slot is not filled, however the run goes on. -/
theorem Stuck.run (hr : Run (MemStep w n) s l) :
    Locks w s → Stuck w s i q → Stuck w (last s (visible l)) i q := by
  induction hr with
  | nil s => exact fun _ hS => hS
  | @cons s s' e l h hr ih =>
    intro hL hS
    rw [visible_cons, last_cons]
    exact ih (hL.step h) (hS.step hL h)

/-- It can go on to the operation, and does not survive it. -/
theorem Stuck.faults (hS : Stuck w s i q) :
    ∃ l, Run (MemStep w n) s l ∧ NoFailure l ∧ (last s (visible l)).phase i = .fault q := by
  -- from the operation on the bit
  have hbit : ∀ {s : State}, s.phase i = .bitop q → (s.slots (q.slot w)).bitmap = none →
      Run (MemStep w n) s [(.step none, s.goto i (.fault q))] := fun hph hnone =>
    .cons (.step (.fault hph hnone)) (.nil _)
  rcases hS.phase with h | h | h
  · have hdown := Step.downgrade (w := w) (n := n) h rfl
    refine ⟨_, .cons (.step hdown) (hbit (Function.update_self ..) ?_), ?_, Function.update_self ..⟩
    · rw [State.set_slots, if_pos rfl]
      exact hS.empty
    · simp [NoFailure]
  · exact ⟨_, hbit h hS.empty, by simp [NoFailure], Function.update_self ..⟩
  · exact ⟨[], .nil s, fun x hx => absurd hx List.not_mem_nil, h⟩

/-- **After a failure**, however the run goes on, a call can still come to apply its operation to an empty slot. -/
theorem exists_fault (hr : Run (MemStep w n) s l) :
    Locks w s → ((∃ i q, Stuck w s i q) ∨ ¬ NoFailure l) →
      ∃ l', Run (MemStep w n) s (l ++ l') ∧ NoFailure l' ∧
        ∃ i q, (last s (visible (l ++ l'))).phase i = .fault q := by
  induction hr with
  | nil s =>
    rintro - (⟨i, q, hS⟩ | hfail)
    · obtain ⟨l', hrun, hno, hph⟩ := hS.faults (n := n)
      exact ⟨l', hrun, hno, i, q, hph⟩
    · exact absurd (fun x hx => absurd hx List.not_mem_nil) hfail
  | @cons s s' e l h hr ih =>
    intro hL hbad
    have hbad' : (∃ i q, Stuck w s' i q) ∨ ¬ NoFailure l := by
      rcases hbad with ⟨i, q, hS⟩ | hfail
      · exact .inl ⟨i, q, hS.step hL h⟩
      · by_cases he : e = .enomem
        · subst he
          exact .inl (hL.stuck h)
        · exact .inr fun hno => hfail (List.forall_mem_cons.mpr ⟨he, hno⟩)
    obtain ⟨l', hrun, hno, hph⟩ := ih (hL.step h) hbad'
    refine ⟨l', .cons h hrun, hno, ?_⟩
    rwa [List.cons_append, visible_cons, last_cons]

/-! ### With memory -/

/-- Without a failure the run is one of the tracker that always gets memory. -/
theorem run_of_noFailure (hr : Run (MemStep w n) s l) : NoFailure l → Run (Step w n) s (visible l) := by
  induction hr with
  | nil s => exact fun _ => .nil s
  | @cons s s' e l h hr ih =>
    intro hno
    obtain ⟨he, hrest⟩ := List.forall_mem_cons.mp hno
    cases h with
    | step h => exact .cons h (ih hrest)
    | enomem h hx => exact absurd rfl he

theorem Locks.run (hr : Run (MemStep w n) s l) : Locks w s → Locks w (last s (visible l)) := by
  induction hr with
  | nil s => exact id
  | @cons s s' e l h hr ih =>
    intro hL
    rw [visible_cons, last_cons]
    exact ih (hL.step h)

theorem survives_of_noFailure (hr : Run (MemStep w n) State.init l) (hno : NoFailure l) : Survives w n l := by
  have hL : Locks w (final l) := Locks.run hr (Locks.init w)
  obtain ⟨hI, L, hlog⟩ := run_linearizes (I := Inv w n) (abs w) step_sim (run_of_noFailure hr hno) [] []
    (Inv.init w n) (Log.nil (trackerObj w n))
  refine ⟨hI.sound, fun i q hph => hI.needs i _ ?_, fun i hph k => ⟨?_, ?_⟩, L, hlog.toLinearizes⟩
  · rw [← final, hph, Phase.needs]
  · rw [hL.readers, hph, Phase.reads]
    exact Option.some_ne_none k ∘ Eq.symm
  · rw [Ne, hL.writer, hph, Phase.writes]
    exact Option.some_ne_none k ∘ Eq.symm

/-- **Allocation failure.** The calls work as on a set, in the run and in whatever follows it with memory available,
exactly if every allocation in the run has succeeded. -/
theorem survives_iff (w : Arch) (n : ℕ) {l : List (Ev × State)} (hr : Run (MemStep w n) State.init l) :
    (∀ l', Run (MemStep w n) State.init (l ++ l') → NoFailure l' → Survives w n (l ++ l')) ↔ NoFailure l := by
  constructor
  · intro h
    by_contra hfail
    obtain ⟨l', hrun, hno, i, q, hph⟩ := exists_fault hr (Locks.init w) (.inr hfail)
    exact (h l' hrun hno).sound i q hph
  · exact fun hno l' hrun hno' => survives_of_noFailure hrun (List.forall_mem_append.mpr ⟨hno, hno'⟩)

/-! ### One call -/

/-- **No memory.** One call on an empty tracker, for which `kzalloc` fails: it applies its operation to no word, and
ends with the semaphore held and without a result. -/
theorem evfsBitWrapper_faults :
    ∃ l, Run (MemStep .w64 100) State.init l ∧ history (visible l) = [.call 0 ⟨.testAndSetBit, 5⟩] ∧
      (final l).phase 0 = .fault ⟨.testAndSetBit, 5⟩ ∧ 0 ∈ ((final l).slots 0).readers ∧ ¬ Survives .w64 100 l := by
  have hr := Run.cons (.step (Step.call (w := .w64) (n := 100) (s := State.init) (i := 0)
    (q := ⟨.testAndSetBit, 5⟩) rfl)) (.cons (.step (.enter (i := 0) rfl (by decide)))
    (.cons (.step (.downRead (i := 0) rfl rfl rfl)) (.cons (.step (.absent (i := 0) rfl rfl))
    (.cons (.step (.upReadNull (i := 0) rfl rfl)) (.cons (.step (.downWrite (i := 0) rfl rfl rfl (by decide)))
    (.cons (.step (.absentAgain (i := 0) rfl rfl)) (.cons (MemStep.enomem (i := 0) rfl rfl)
    (.cons (.step (.downgrade (i := 0) rfl rfl)) (.cons (.step (.fault (i := 0) rfl rfl)) (.nil _))))))))))
  exact ⟨_, hr, rfl, rfl, by decide, fun h => h.sound 0 _ rfl⟩

/-- The same call with memory. -/
theorem survives_alone :
    ∃ l, Run (MemStep .w64 100) State.init l ∧ history (visible l) = [.call 0 ⟨.testAndSetBit, 5⟩, .ret 0 0] ∧
      Survives .w64 100 l := by
  have hr := Run.cons (.step (Step.call (w := .w64) (n := 100) (s := State.init) (i := 0)
    (q := ⟨.testAndSetBit, 5⟩) rfl)) (.cons (.step (.enter (i := 0) rfl (by decide)))
    (.cons (.step (.downRead (i := 0) rfl rfl rfl)) (.cons (.step (.absent (i := 0) rfl rfl))
    (.cons (.step (.upReadNull (i := 0) rfl rfl)) (.cons (.step (.downWrite (i := 0) rfl rfl rfl (by decide)))
    (.cons (.step (.absentAgain (i := 0) rfl rfl)) (.cons (.step (.alloc (i := 0) rfl rfl))
    (.cons (.step (.downgrade (i := 0) rfl rfl)) (.cons (.step (.bitop (i := 0) rfl rfl rfl))
    (.cons (.step (.upRead (i := 0) rfl rfl)) (.cons (MemStep.step (.ret (i := 0) rfl)) (.nil _))))))))))))
  refine ⟨_, hr, rfl, ?_⟩
  rw [← List.append_nil (_ :: _)]
  refine (survives_iff .w64 100 hr).mpr ?_ [] ?_ ?_
  · simp [NoFailure]
  · rwa [List.append_nil]
  · simp [NoFailure]

end LinuxEvfs.Tracker
