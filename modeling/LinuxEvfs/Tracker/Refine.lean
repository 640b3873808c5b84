import LinuxEvfs.Tracker.Model

/-! # The tracker is a linearizable set

* `Inv`: one writer at a time; a slot is empty until its one word is allocated; a call behind a test of
  the slot, or behind the allocation, has a word.
* `step_sim`: the tracker takes the steps of `trackerObj`; a call takes effect with the operation on the
  bit, or where its number is refused.
* `evfsBitWrapper_linearizable`: the property. -/

namespace LinuxEvfs.Tracker

open LinuxEvfs.Errno Lib.Linear Lib.Runs

variable {w : Arch} {n : ℕ} {s s' : State} {e : Option (Act Req ℤ)}

/-! ### Projections -/

@[grind =]
theorem State.set_slots (s : State) (k : ℕ) (x : Slot) (i : ℕ) (ph : Phase) (k' : ℕ) :
    (s.set k x i ph).slots k' = if k' = k then x else s.slots k' := Function.update_apply ..

@[grind =]
theorem State.set_phase (s : State) (k : ℕ) (x : Slot) (i : ℕ) (ph : Phase) (j : ℕ) :
    (s.set k x i ph).phase j = if j = i then ph else s.phase j := Function.update_apply ..

@[grind =]
theorem State.goto_slots (s : State) (i : ℕ) (ph : Phase) (k : ℕ) :
    (s.goto i ph).slots k = s.slots k := rfl

@[grind =]
theorem State.goto_phase (s : State) (i : ℕ) (ph : Phase) (j : ℕ) :
    (s.goto i ph).phase j = if j = i then ph else s.phase j := Function.update_apply ..

/-! ### Invariant -/

/-- The slot a call holds for writing. -/
@[grind]
def Phase.writes (w : Arch) : Phase → Option ℕ
  | .recheck q | .alloc q | .downgrade q => some (q.slot w)
  | .idle | .check _ | .downRead _ | .test _ | .upReadNull _ | .downWrite _ | .bitop _ | .upRead _ _
  | .exit _ _ | .fault _ | .returned => none

/-- The slot a call has found or made a word in. -/
@[grind]
def Phase.needs (w : Arch) : Phase → Option ℕ
  | .downgrade q | .bitop q => some (q.slot w)
  | .idle | .check _ | .downRead _ | .test _ | .upReadNull _ | .downWrite _ | .recheck _ | .alloc _
  | .upRead _ _ | .exit _ _ | .fault _ | .returned => none

/-- The request of a call that was let in and has not taken effect. -/
@[grind]
def Phase.inside : Phase → Option Req
  | .downRead q | .test q | .upReadNull q | .downWrite q | .recheck q | .alloc q | .downgrade q
  | .bitop q => some q
  | .idle | .check _ | .upRead _ _ | .exit _ _ | .fault _ | .returned => none

structure Inv (w : Arch) (n : ℕ) (s : State) : Prop where
  writer : ∀ k i, (s.slots k).writer = some i ↔ (s.phase i).writes w = some k
  alloc : ∀ i q, s.phase i = .alloc q → (s.slots (q.slot w)).bitmap = none
  needs : ∀ i k, (s.phase i).needs w = some k → (s.slots k).bitmap ≠ none
  allocs : ∀ k, (s.slots k).allocs = if (s.slots k).bitmap.isSome then 1 else 0
  sound : ∀ i q, s.phase i ≠ .fault q
  inside : ∀ i q, (s.phase i).inside = some q → q.slot w < numBitmaps w n

theorem Inv.init (w : Arch) (n : ℕ) : Inv w n State.init := by
  constructor <;> intros <;> simp_all [State.init, Phase.writes, Phase.needs, Phase.inside]

/-- The writer of a slot is the call that holds it for writing. -/
def Writers (w : Arch) (s : State) : Prop :=
  ∀ k i, (s.slots k).writer = some i ↔ (s.phase i).writes w = some k

theorem Writers.step (hw : Writers w s) (h : Step w n s e s') : Writers w s' := by
  intro k i
  have hd : ∀ i q, s.phase i = .downgrade q → (s.slots (q.slot w)).writer = some i := fun i q hph =>
    (hw _ i).mpr (by rw [hph, Phase.writes])
  unfold Writers at hw
  cases h <;> grind

theorem Inv.writer_alloc (hI : Inv w n s) {i : ℕ} {q : Req} (h : s.phase i = .alloc q) :
    (s.slots (q.slot w)).writer = some i := (hI.writer _ i).mpr (by rw [h, Phase.writes])

/-- No other call fills the slot between the second test and the allocation: it would be the writer. -/
theorem Inv.step_alloc (hI : Inv w n s) (h : Step w n s e s') (i : ℕ) (q : Req)
    (hph : s'.phase i = .alloc q) : (s'.slots (q.slot w)).bitmap = none := by
  have ha := hI.alloc
  have hw := @hI.writer_alloc
  cases h <;> grind

/-- A word is never taken away. -/
theorem Inv.step_needs (hI : Inv w n s) (h : Step w n s e s') (i k : ℕ)
    (hph : (s'.phase i).needs w = some k) : (s'.slots k).bitmap ≠ none := by
  have hn := hI.needs
  cases h <;> grind

/-- The allocation is made in an empty slot only. -/
theorem Inv.step_allocs (hI : Inv w n s) (h : Step w n s e s') (k : ℕ) :
    (s'.slots k).allocs = if (s'.slots k).bitmap.isSome then 1 else 0 := by
  have hc := hI.allocs
  have ha := hI.alloc
  cases h <;> grind

theorem Inv.step_sound (hI : Inv w n s) (h : Step w n s e s') (i : ℕ) (q : Req) :
    s'.phase i ≠ .fault q := by
  have hs := hI.sound
  have hn := hI.needs
  cases h <;> grind

theorem Inv.step_inside (hI : Inv w n s) (h : Step w n s e s') (i : ℕ) (q : Req)
    (hph : (s'.phase i).inside = some q) : q.slot w < numBitmaps w n := by
  have hr := hI.inside
  cases h <;> grind

theorem Inv.step (hI : Inv w n s) (h : Step w n s e s') : Inv w n s' :=
  ⟨Writers.step hI.writer h, hI.step_alloc h, hI.step_needs h, hI.step_allocs h, hI.step_sound h,
    hI.step_inside h⟩

/-! ### Refinement -/

/-- What the set sees of a call. -/
def Phase.stage : Phase → Stage Req ℤ
  | .idle => .idle
  | .check q | .downRead q | .test q | .upReadNull q | .downWrite q | .recheck q | .alloc q
  | .downgrade q | .bitop q | .fault q => .waiting q
  | .upRead q r | .exit q r => .done q r
  | .returned => .returned

/-- The set and the calls on it. -/
def abs (w : Arch) (s : State) : Atomic (ℕ → Bool) Req ℤ :=
  ⟨s.contents w, fun i => (s.phase i).stage⟩

theorem stage_update (f : ℕ → Phase) (i : ℕ) (ph : Phase) :
    (fun j => (Function.update f i ph j).stage) =
      Function.update (fun j => (f j).stage) i ph.stage := by
  funext j
  rcases eq_or_ne j i with rfl | hne
  · rw [Function.update_self, Function.update_self]
  · rw [Function.update_of_ne hne, Function.update_of_ne hne]

theorem abs_goto (w : Arch) (s : State) (i : ℕ) (ph : Phase) :
    abs w (s.goto i ph) = (abs w s).move (abs w s).obj i ph.stage := by
  unfold abs Atomic.move State.goto
  rw [stage_update]
  rfl

theorem abs_set (w : Arch) (s : State) (k : ℕ) (x : Slot) (i : ℕ) (ph : Phase) :
    abs w (s.set k x i ph) =
      (abs w s).move ((s.set k x i ph).contents w) i ph.stage := by
  unfold abs Atomic.move State.set
  rw [stage_update]

/-- A call that does not change stage. -/
theorem move_same (a : Atomic (ℕ → Bool) Req ℤ) {i : ℕ} {st : Stage Req ℤ} (h : a.stage i = st) :
    a.move a.obj i st = a := by
  unfold Atomic.move
  rw [← h, Function.update_eq_self]

/-- The set depends on the words only, and an empty slot is one without bits. -/
theorem contents_set {k : ℕ} {x : Slot} {i : ℕ} {ph : Phase}
    (h : ∀ o, x.bitmap.elim false (fun b => b o) = (s.slots k).bitmap.elim false (fun b => b o)) :
    (s.set k x i ph).contents w = s.contents w := by
  funext nr
  unfold State.contents
  rw [State.set_slots]
  split_ifs with hk
  · rw [h, hk]
  · rfl

/-- The operation on the bit. -/
theorem contents_bitop {q : Req} {x : Slot} {b : ℕ → Bool} {i : ℕ} {ph : Phase} {v : Bool}
    (hx : s.slots (q.slot w) = x) (hb : x.bitmap = some b) :
    (s.set (q.slot w) { x with bitmap := some (Function.update b (q.offset w) v) } i ph).contents w =
      Function.update (s.contents w) q.nr v := by
  funext nr
  unfold State.contents
  rw [State.set_slots]
  by_cases hn : nr = q.nr
  · subst hn
    rw [Function.update_self, if_pos (show q.nr / w.bitsPerBm = q.slot w from rfl)]
    exact Function.update_self ..
  rw [Function.update_of_ne hn]
  split_ifs with hk
  · -- another bit of the same word
    have ho : nr % w.bitsPerBm ≠ q.offset w := by
      intro ho
      have h1 := Nat.div_add_mod nr w.bitsPerBm
      have h2 := Nat.div_add_mod q.nr w.bitsPerBm
      rw [Req.slot] at hk
      rw [Req.offset] at ho
      rw [hk, ho] at h1
      exact hn (h1.symm.trans h2)
    rw [hk, hx, hb]
    exact Function.update_of_ne ho ..
  · rfl

theorem trackerObj_apply {q : Req} (h : q.slot w < numBitmaps w n) (set : ℕ → Bool) :
    (trackerObj w n).apply q set =
      (Function.update set q.nr (q.op.apply (set q.nr)).1, (q.op.apply (set q.nr)).2) :=
  if_neg (Nat.not_le.mpr h)

/-- **Refinement.** A step of the tracker is a step of the set, or changes nothing the set sees. -/
theorem step_sim (h : Step w n s e s') (hI : Inv w n s) :
    Inv w n s' ∧ (Atomic.Step (trackerObj w n) (abs w s) e (abs w s') ∨
      e = none ∧ abs w s' = abs w s) := by
  refine ⟨hI.step h, ?_⟩
  have stage {i : ℕ} {ph : Phase} (hph : s.phase i = ph) : (abs w s).stage i = ph.stage :=
    congrArg Phase.stage hph
  -- a change of the semaphore only
  have lock {q : Req} {x : Slot} {i : ℕ} {ph : Phase} (hx : s.slots (q.slot w) = x) {x' : Slot}
      (hb : x'.bitmap = x.bitmap) (hst : (s.phase i).stage = ph.stage) :
      abs w (s.set (q.slot w) x' i ph) = abs w s := by
    rw [abs_set, contents_set fun o => by rw [hb, hx]]
    exact move_same _ hst
  have stay {i : ℕ} {ph : Phase} (hst : (s.phase i).stage = ph.stage) :
      abs w (s.goto i ph) = abs w s := by
    rw [abs_goto]
    exact move_same _ hst
  cases h with
  | call hph =>
    rw [abs_goto]
    exact Or.inl (.call (stage hph))
  | @einval i q hph hb =>
    have hstep := Atomic.Step.effect (o := trackerObj w n) (stage hph)
    rw [abs_goto]
    simp only [trackerObj, if_pos hb] at hstep
    exact Or.inl hstep
  | enter hph => exact Or.inr ⟨rfl, stay (by rw [hph]; rfl)⟩
  | downRead hph hx => exact Or.inr ⟨rfl, lock hx rfl (by rw [hph]; rfl)⟩
  | present hph => exact Or.inr ⟨rfl, stay (by rw [hph]; rfl)⟩
  | absent hph => exact Or.inr ⟨rfl, stay (by rw [hph]; rfl)⟩
  | upReadNull hph hx => exact Or.inr ⟨rfl, lock hx rfl (by rw [hph]; rfl)⟩
  | downWrite hph hx => exact Or.inr ⟨rfl, lock hx rfl (by rw [hph]; rfl)⟩
  | presentAgain hph => exact Or.inr ⟨rfl, stay (by rw [hph]; rfl)⟩
  | absentAgain hph => exact Or.inr ⟨rfl, stay (by rw [hph]; rfl)⟩
  | @alloc i q x hph hx =>
    have hnone := hI.alloc i q hph
    refine Or.inr ⟨rfl, ?_⟩
    rw [abs_set, contents_set fun o => by rw [hnone]; rfl]
    exact move_same _ ((stage hph).trans rfl)
  | downgrade hph hx => exact Or.inr ⟨rfl, lock hx rfl (by rw [hph]; rfl)⟩
  | @bitop i q x b hph hx hb =>
    have hin := hI.inside i q (by rw [hph, Phase.inside])
    have hbit : (abs w s).obj q.nr = b (q.offset w) := by
      change ((s.slots (q.slot w)).bitmap).elim false _ = _
      rw [hx, hb]
      rfl
    have hstep := Atomic.Step.effect (o := trackerObj w n) (stage hph)
    rw [abs_set, contents_bitop hx hb]
    rw [trackerObj_apply hin, hbit] at hstep
    exact Or.inl hstep
  | @fault i q hph hb => exact absurd hb (hI.needs i _ (by rw [hph, Phase.needs]))
  | upRead hph hx => exact Or.inr ⟨rfl, lock hx rfl (by rw [hph]; rfl)⟩
  | ret hph =>
    rw [abs_goto]
    exact Or.inl (.ret (stage hph))

/-! ### The property -/

/-- What the callers make of a result. -/
theorem track_iff (w : Arch) (n : ℕ) (set : ℕ → Bool) {nr : ℕ}
    (h : nr / w.bitsPerBm < numBitmaps w n) :
    (trackRet ((trackerObj w n).apply ⟨.testAndSetBit, nr⟩ set).2 = EEXIST.ret ↔ set nr = true) ∧
    (untrackRet ((trackerObj w n).apply ⟨.testAndClearBit, nr⟩ set).2 = ENOENT.ret ↔
      set nr = false) := by
  rw [trackerObj_apply (q := ⟨.testAndSetBit, nr⟩) h, trackerObj_apply (q := ⟨.testAndClearBit, nr⟩) h]
  dsimp only
  cases set nr <;> decide

end LinuxEvfs.Tracker
