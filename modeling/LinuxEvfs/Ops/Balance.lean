import LinuxEvfs.Ops.Model

/-! # Locks at the end of an operation

`Balanced held op`: called with the locks `held`, the operation releases only what it holds, and holds the same
locks when it returns.

* `lock_balance_iff`: every operation is balanced but two. `evfs_dentry_delete` returns with the directory locked
  from `d_find_any_alias` on; `evfs_dentry_update` returns with the new inode locked if its link count could not
  be stored, and with the old one locked if its link count or its tracker bit could not be.
* `evfsDentryDelete_keeps_lock`: a call that succeeds. -/

namespace LinuxEvfs.Ops.Balance

open LinuxEvfs.Errno LinuxEvfs.Lib.Locks LinuxEvfs.Lib.Journal LinuxEvfs.Ops.Model

/-! ### Rules -/

/-- The run releases only what it holds, and if it returns its locks satisfy `post`. -/
def Ends (post : List (Mode × Lock) → Prop) (held : List (Mode × Lock)) (r : Run) : Prop :=
  Wp held r.locks fun h => r.ret.isSome → post h

section rules
variable {post : List (Mode × Lock) → Prop} {held : List (Mode × Lock)} {m : Mode} {l l' : Lock} {r : Run}

@[simp] theorem ends_ret (v : ℤ) : Ends post held (ret v) ↔ post held :=
  wp_nil.trans ⟨fun h => h rfl, fun h _ => h⟩

@[simp] theorem ends_stuck : Ends post held stuck := nofun

@[simp] theorem ends_lock :
    Ends post held (lock l r) ↔ blocks held .excl l = true ∨ Ends post ((.excl, l) :: held) r := wp_lock

@[simp] theorem ends_unlock : Ends post ((.excl, l) :: held) (unlock l r) ↔ Ends post held r := wp_unlock

theorem ends_unlock_below (h : l' ≠ l) :
    Ends post ((m, l') :: (.excl, l) :: held) (unlock l r) ↔ Ends post ((m, l') :: held) r :=
  wp_unlock_below h

@[simp] theorem ends_lockShared :
    Ends post held (lockShared l r) ↔ blocks held .shared l = true ∨ Ends post ((.shared, l) :: held) r :=
  wp_lock

@[simp] theorem ends_unlockShared :
    Ends post ((.shared, l) :: held) (unlockShared l r) ↔ Ends post held r := wp_unlock

@[simp] theorem ends_jrnl (e : Ev Buffer) : Ends post held (jrnl e r) ↔ Ends post held r := Iff.rfl

@[simp] theorem ends_jrnls (evs : List (Ev Buffer)) : Ends post held (jrnls evs r) ↔ Ends post held r := by
  induction evs with
  | nil => rfl
  | cons e evs ih => exact ih

@[simp] theorem ends_call {answer : Option Errno} {fail : ℤ → Run} :
    Ends post held (call answer fail r) ↔
      (∀ err, answer = some err → Ends post held (fail err.ret)) ∧ (answer = none → Ends post held r) := by
  cases answer <;> simp [call]

@[simp] theorem ends_ite {c : Prop} [Decidable c] {r' : Run} :
    Ends post held (if c then r else r') ↔ (c → Ends post held r) ∧ (¬ c → Ends post held r') := by
  split_ifs with h <;> simp [h]

end rules

/-! ### The operations that are balanced -/

section balanced
variable (held : List (Mode × Lock))

theorem blockOp_ends (refused init : Bool) (a : BlockCall) : Ends (·.Perm held) held (blockOp refused init a) := by
  simp [blockOp, BlockCall.stopJournal]

theorem inodeRead_ends (a : InodeRead) : Ends (·.Perm held) held (evfsInodeRead a) := by
  simp [evfsInodeRead]

theorem inodeAlloc_ends (a : InodeAlloc) : Ends (·.Perm held) held (evfsInodeAlloc a) := by
  simp [evfsInodeAlloc, InodeAlloc.inserted, InodeAlloc.failDrop, InodeAlloc.stopJournal]

theorem inodeFree_ends (a : InodeFree) : Ends (·.Perm held) held (evfsInodeFree a) := by
  simp [evfsInodeFree]

theorem dentryAdd_ends (a : DentryAdd) : Ends (·.Perm held) held (evfsDentryAdd a) := by
  simp [evfsDentryAdd, DentryAdd.releaseCino, DentryAdd.releasePino]

theorem dentryRead_ends (a : DentryRead) : Ends (·.Perm held) held (evfsDentryRead a) := by
  simp [evfsDentryRead]

theorem extentRead_ends (a : ExtentRead) : Ends (·.Perm held) held (evfsExtentRead a) := by
  simp [evfsExtentRead]

theorem extentMove_ends (a : ExtentMove) : Ends (·.Perm held) held (evfsExtentMove a) := by
  unfold evfsExtentMove
  cases LinuxEvfs.ExtMove.Model.evfsExtentMove a.blocksize a.env a.fuel a.ino a.args <;> simp

end balanced

/-! ### The operations that are not -/

/-- Every exit with the child locked unlocks it, and only it. -/
theorem unlinked_ends_iff {post : List (Mode × Lock) → Prop} {held : List (Mode × Lock)} (a : DentryDelete) :
    Ends post ((.excl, .inode a.child) :: held) a.unlinked ↔ post held := by
  unfold DentryDelete.unlinked DentryDelete.releaseCino DentryDelete.releasePde DentryDelete.releasePino
  cases a.untrack <;> cases a.dAlloc <;> cases a.dquotInitDir <;> cases a.dquotInitChild <;>
    cases a.unlink <;> simp

/-- The call ends before it puts the dentry of the directory, or waits for a lock it holds. -/
def DeleteKeeps (held : List (Mode × Lock)) (a : DentryDelete) : Prop :=
  a.igetDir ≠ none ∨ a.isDir = false ∨ a.hasAlias = false ∨ blocks held .excl (.inode a.dir) = true ∨
    (a.findEntry = none ∧ a.igetChild = none ∧
      (a.dir = a.child ∨ blocks held .excl (.inode a.child) = true))

theorem dentryDelete_ends_iff (held : List (Mode × Lock)) (a : DentryDelete) :
    Ends (·.Perm held) held (evfsDentryDelete a) ↔ DeleteKeeps held a := by
  unfold DeleteKeeps evfsDentryDelete DentryDelete.releasePde DentryDelete.releasePino
  cases a.igetDir <;> cases a.isDir <;> cases a.hasAlias <;> cases a.findEntry <;> cases a.igetChild <;>
    simp [unlinked_ends_iff, cons_not_perm, blocks_excl_cons]

/-- The call gets to the lock of the new inode. -/
def reachesNew (a : DentryUpdate) : Prop :=
  a.igetDir = none ∧ a.isDir = true ∧ a.journalStart = none ∧ a.bread = none ∧ a.access = none ∧ a.igetNew = none

/-- The link counts and the tracker bit are stored as far as the call gets, or it waits for a lock it
holds. -/
def UpdateKeeps (held : List (Mode × Lock)) (a : DentryUpdate) : Prop :=
  ¬ reachesNew a ∨ blocks held .excl (.inode a.dir) = true ∨
    a.dir = a.new ∨ blocks held .excl (.inode a.new) = true ∨
    (a.incNlink = none ∧ (a.igetOld ≠ none ∨ a.dir = a.old ∨ blocks held .excl (.inode a.old) = true ∨
      (a.decNlink = none ∧ (a.last = false ∨ a.untrack = none))))

section update
variable {held : List (Mode × Lock)} {a : DentryUpdate}

/-- The exit `release_bh` with one more inode locked. -/
theorem releaseBh_leaks {i : ℕ} (h : a.dir ≠ i) (v : ℤ) :
    ¬ Ends (·.Perm held) ((.excl, .inode i) :: (.excl, .inode a.dir) :: held) (a.releaseBh v) := by
  have hne : Lock.inode i ≠ Lock.inode a.dir := fun he => h (Lock.inode.inj he).symm
  unfold DentryUpdate.releaseBh DentryUpdate.releasePino
  rw [ends_jrnl, ends_unlock_below hne, ends_ret]
  exact cons_not_perm _ _

theorem releaseBh_ends (v : ℤ) :
    Ends (·.Perm held) ((.excl, .inode a.dir) :: held) (a.releaseBh v) := by
  simp [DentryUpdate.releaseBh, DentryUpdate.releasePino]

theorem retarget_ends_iff (h : a.dir ≠ a.old) :
    Ends (·.Perm held) ((.excl, .inode a.old) :: (.excl, .inode a.dir) :: held) a.retarget ↔
      a.decNlink = none ∧ (a.last = false ∨ a.untrack = none) := by
  unfold DentryUpdate.retarget
  cases a.decNlink <;> cases a.last <;> cases a.untrack <;> simp [releaseBh_leaks h, releaseBh_ends]

theorem counted_ends_iff (h : a.dir ≠ a.new) :
    Ends (·.Perm held) ((.excl, .inode a.new) :: (.excl, .inode a.dir) :: held) a.counted ↔
      a.incNlink = none ∧ (a.igetOld ≠ none ∨ a.dir = a.old ∨ blocks held .excl (.inode a.old) = true ∨
        (a.decNlink = none ∧ (a.last = false ∨ a.untrack = none))) := by
  unfold DentryUpdate.counted
  by_cases hold : a.dir = a.old
  · have hself := eq_true hold
    cases a.incNlink <;> cases a.igetOld <;>
      simp [releaseBh_leaks h, releaseBh_ends, blocks_excl_cons, hself]
  · cases a.incNlink <;> cases a.igetOld <;>
      simp [releaseBh_leaks h, releaseBh_ends, blocks_excl_cons, hold, retarget_ends_iff hold]

theorem dentryUpdate_ends_iff :
    Ends (·.Perm held) held (evfsDentryUpdate a) ↔ UpdateKeeps held a := by
  have hpino : ∀ v, Ends (·.Perm held) ((.excl, .inode a.dir) :: held) (a.releasePino v) := by
    simp [DentryUpdate.releasePino]
  unfold UpdateKeeps reachesNew evfsDentryUpdate
  by_cases hnew : a.dir = a.new
  · have hself := eq_true hnew
    cases a.igetDir <;> simp [hpino, releaseBh_ends, blocks_excl_cons, hself]
  · cases a.igetDir <;> cases a.isDir <;> cases a.journalStart <;> cases a.bread <;> cases a.access <;>
      cases a.igetNew <;> simp [hpino, releaseBh_ends, blocks_excl_cons, hnew, counted_ends_iff hnew]

end update

/-! ### All operations -/

/-- The operation releases only locks it holds, and returns with those it was called with. -/
def Balanced (held : List (Mode × Lock)) (op : Op) : Prop := Ends (·.Perm held) held op.run

/-- What the two operations that may keep a lock need. -/
def Keeps (held : List (Mode × Lock)) : Op → Prop
  | .dentryDelete a => DeleteKeeps held a
  | .dentryUpdate a => UpdateKeeps held a
  | _ => True

/-- **Lock balance.** For every operation, all locks held by its caller, and all answers of the functions it
calls. -/
theorem lock_balance_iff (held : List (Mode × Lock)) (op : Op) : Balanced held op ↔ Keeps held op := by
  cases op with
  | blockAlloc a => exact iff_of_true (blockOp_ends held a.bit true a) trivial
  | blockFree a => exact iff_of_true (blockOp_ends held (!a.bit) false a) trivial
  | inodeRead a => exact iff_of_true (inodeRead_ends held a) trivial
  | inodeAlloc a => exact iff_of_true (inodeAlloc_ends held a) trivial
  | inodeFree a => exact iff_of_true (inodeFree_ends held a) trivial
  | dentryAdd a => exact iff_of_true (dentryAdd_ends held a) trivial
  | dentryRead a => exact iff_of_true (dentryRead_ends held a) trivial
  | dentryDelete a => exact dentryDelete_ends_iff held a
  | dentryUpdate a => exact dentryUpdate_ends_iff
  | extentRead a => exact iff_of_true (extentRead_ends held a) trivial
  | extentMove a => exact iff_of_true (extentMove_ends held a) trivial

/-- A removal of an entry of the directory 2 for the inode 12, in which every call succeeds. -/
def removal : DentryDelete :=
  { dir := 2, igetDir := none, isDir := true, hasAlias := true, findEntry := none, child := 12,
    igetChild := none, untrack := none, dAlloc := true, dquotInitDir := none, dquotInitChild := none,
    unlink := none }

/-- **A lock that stays.** The call succeeds and leaves the directory locked. -/
theorem evfsDentryDelete_keeps_lock :
    (evfsDentryDelete removal).ret = some 0 ∧
      exec [] (evfsDentryDelete removal).locks = .ok [(.excl, .inode 2)] := by
  decide

end LinuxEvfs.Ops.Balance
