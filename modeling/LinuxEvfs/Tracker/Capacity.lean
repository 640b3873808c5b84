import LinuxEvfs.Tracker.Refine

/-! # The capacity of the tracker

The mount makes a tracker of `s_inodes_count` bits, and the calls use the number of an inode as that of its bit. Bits
count from 0 and inodes from 1, so the last inode needs a slot more if the bits before it fill their slots.

* `Mount`: the numbers of a superblock that is mounted.
* `Trackable`: calls on a number return, and never refuse it.
* `every_inode_trackable_iff`: all inodes are trackable exactly if their number is no multiple of the bits of a slot,
  and rounding it up does not wrap.
* `evfsBitWrapper_last_inode`: a file system of 64 inodes, and the last one. -/

namespace LinuxEvfs.Tracker

open LinuxEvfs.Errno Lib.Linear Lib.Runs

/-! ### Mounting -/

/-- The numbers of a superblock. -/
structure MountNumbers where
  blocksize : ℕ
  inodeSize : ℕ
  descPerBlock : ℕ
  firstDataBlock : ℕ
  blocksCount : ℕ
  blocksPerGroup : ℕ
  inodesPerGroup : ℕ
  /-- `s_inodes_count`. -/
  inodesCount : ℕ

/-- `s_groups_count`. -/
def MountNumbers.groupsCount (m : MountNumbers) : ℕ :=
  (m.blocksCount - m.firstDataBlock + m.blocksPerGroup - 1) / m.blocksPerGroup

/-- A superblock that passes the tests of `ext4_block_group_meta_init` and `ext4_check_geometry`. -/
structure Mount extends MountNumbers where
  inodes_per_block : blocksize / inodeSize ≠ 0
  blocks_per_group : blocksPerGroup ≠ 0
  inodes_ge : blocksize / inodeSize ≤ inodesPerGroup
  inodes_le : inodesPerGroup ≤ blocksize * 8
  first_lt : firstDataBlock < blocksCount
  groups_le : toMountNumbers.groupsCount ≤ 2 ^ 32 - descPerBlock
  inodes_eq : toMountNumbers.groupsCount * inodesPerGroup = inodesCount
  inodes_lt : inodesCount < 2 ^ 32

theorem Mount.inodesCount_pos (m : Mount) : 1 ≤ m.inodesCount := by
  have hgroups : 0 < m.groupsCount := by
    refine Nat.div_pos ?_ (Nat.pos_of_ne_zero m.blocks_per_group)
    have := m.first_lt
    omega
  have hipg : 0 < m.inodesPerGroup := (Nat.pos_of_ne_zero m.inodes_per_block).trans_le m.inodes_ge
  rw [← m.inodes_eq]
  exact Nat.mul_pos hgroups hipg

/-! ### What a call returns -/

variable {w : Arch} {n nr : ℕ} {q : Req} {r : ℤ}

/-- In some interleaving a call on the tracker made for `n` bits returns `r`. -/
def Returns (w : Arch) (n : ℕ) (q : Req) (r : ℤ) : Prop :=
  ∃ l, Run (Step w n) State.init l ∧ ∃ i, (last State.init l).phase i = .exit q r

/-- What the callers make of it: `__evfs_inode_track`, `__evfs_inode_untrack`, and
`__evfs_inode_untrack_nolock` in `evfs_dentry_delete` and `evfs_dentry_update`. -/
def Works : BitOp → ℤ → Prop
  | .testAndSetBit, r => trackRet r = 0 ∨ trackRet r = EEXIST.ret
  | .testAndClearBit, r => untrackRet r = 0 ∨ untrackRet r = ENOENT.ret
  | .clearBit, r => r = 0

instance (op : BitOp) (r : ℤ) : Decidable (Works op r) :=
  match op with
  | .testAndSetBit => inferInstanceAs (Decidable (_ ∨ _))
  | .testAndClearBit => inferInstanceAs (Decidable (_ ∨ _))
  | .clearBit => inferInstanceAs (Decidable (_ = _))

/-- **What is asked of a number**: calls on it return, none with `EINVAL`, and they do what they are for. -/
def Trackable (w : Arch) (n nr : ℕ) : Prop :=
  ∀ op, (∃ r, Returns w n ⟨op, nr⟩ r) ∧ ∀ r, Returns w n ⟨op, nr⟩ r → r ≠ EINVAL.ret ∧ Works op r

/-- The value is that of the set. -/
theorem Returns.eq_apply (h : Returns w n q r) : ∃ set, r = ((trackerObj w n).apply q set).2 := by
  obtain ⟨l, hr, i, hph⟩ := h
  obtain ⟨-, L, hlog⟩ := run_linearizes (I := Inv w n) (abs w) step_sim hr [] [] (Inv.init w n)
    (Log.nil (trackerObj w n))
  have hdone : (abs w (last State.init l)).stage i = .done q r := congrArg Phase.stage hph
  obtain ⟨L₁, L₂, hL⟩ := List.append_of_mem (hlog.done i q r hdone)
  exact ⟨(trackerObj w n).replay L₁, hlog.legal L₁ _ L₂ hL⟩

/-- A number without a slot is refused. -/
theorem returns_einval (h : numBitmaps w n ≤ q.slot w) : Returns w n q EINVAL.ret :=
  ⟨_, .cons (.call (i := 0) rfl) (.cons (.einval (i := 0) rfl h) (.nil _)), 0, rfl⟩

/-- A call that is alone returns. -/
theorem returns_alone (h : q.slot w < numBitmaps w n) : ∃ r, Returns w n q r := by
  refine ⟨_, _, .cons (.call (i := 0) rfl) (.cons (.enter (i := 0) rfl h)
    (.cons (.downRead (i := 0) rfl rfl rfl) (.cons (.absent (i := 0) rfl ?_)
    (.cons (.upReadNull (i := 0) rfl rfl) (.cons (.downWrite (i := 0) rfl rfl ?_ ?_)
    (.cons (.absentAgain (i := 0) rfl ?_) (.cons (.alloc (i := 0) rfl rfl)
    (.cons (.downgrade (i := 0) rfl rfl) (.cons (.bitop (i := 0) (b := fun _ => false) rfl rfl ?_)
    (.cons (.upRead (i := 0) rfl rfl) (.nil _))))))))))), 0, rfl⟩
  all_goals simp [State.set, State.goto, State.init]

theorem trackable_iff : Trackable w n nr ↔ nr / w.bitsPerBm < numBitmaps w n := by
  refine ⟨fun h => ?_, fun h op => ⟨returns_alone h, fun r hr => ?_⟩⟩
  · by_contra hlt
    exact ((h .clearBit).2 _ (returns_einval (Nat.not_lt.mp hlt))).1 rfl
  · obtain ⟨set, rfl⟩ := hr.eq_apply
    rw [trackerObj_apply (q := ⟨op, nr⟩) h]
    dsimp only
    cases op <;> cases set nr <;> decide

/-! ### Capacity -/

/-- The last number has a slot. -/
theorem slot_lt_iff (w : Arch) {n : ℕ} (h1 : 1 ≤ n) (h32 : n < 2 ^ 32) :
    n / w.bitsPerBm < numBitmaps w n ↔ n % w.bitsPerBm ≠ 0 ∧ (w = .w32 → n + 32 ≤ 2 ^ 32) := by
  unfold numBitmaps
  cases w with
  | w32 =>
    simp only [Arch.bitsPerBm, forall_const]
    omega
  | w64 =>
    simp only [Arch.bitsPerBm, reduceCtorEq, false_implies, and_true]
    omega

/-- **Every inode is trackable** exactly if the number of inodes is no multiple of the bits of a slot; where `size_t`
has 32 bits it must also leave room for rounding up. -/
theorem every_inode_trackable_iff (w : Arch) (m : Mount) :
    (∀ i, 1 ≤ i → i ≤ m.inodesCount → Trackable w m.inodesCount i) ↔
      m.inodesCount % w.bitsPerBm ≠ 0 ∧ (w = .w32 → m.inodesCount + 32 ≤ 2 ^ 32) := by
  rw [← slot_lt_iff w m.inodesCount_pos m.inodes_lt]
  constructor
  · intro h
    exact trackable_iff.mp (h _ m.inodesCount_pos (Nat.le_refl _))
  · intro h i _ hi
    exact trackable_iff.mpr ((Nat.div_le_div_right hi).trans_lt h)

/-- One group of 64 inodes. -/
def smallMount : Mount where
  blocksize := 4096
  inodeSize := 256
  descPerBlock := 64
  firstDataBlock := 0
  blocksCount := 1000
  blocksPerGroup := 32768
  inodesPerGroup := 64
  inodesCount := 64
  inodes_per_block := by decide
  blocks_per_group := by decide
  inodes_ge := by decide
  inodes_le := by decide
  first_lt := by decide
  groups_le := by decide
  inodes_eq := by decide
  inodes_lt := by decide

/-- **The last inode** of 64 is refused, whatever is asked. -/
theorem evfsBitWrapper_last_inode :
    smallMount.inodesCount = 64 ∧ numBitmaps .w64 64 = 1 ∧
      ∀ op, Returns .w64 64 ⟨op, 64⟩ EINVAL.ret ∧ ¬ Works op EINVAL.ret := by
  refine ⟨rfl, by decide, fun op => ⟨returns_einval (by simp only [Req.slot]; decide), ?_⟩⟩
  cases op <;> decide

end LinuxEvfs.Tracker
