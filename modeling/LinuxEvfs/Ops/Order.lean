import LinuxEvfs.Lib.Deadlock
import LinuxEvfs.Ops.Balance
import Mathlib.Data.Fin.VecNotation

/-! # The order of inode locks

Any number of calls of `evfs_dentry_add`, `evfs_dentry_delete`, `evfs_dentry_update` and `evfs_inode_free` run
interleaved. Each keeps the lock of its directory while it takes those of other inodes; nothing orders the two.

* `Nests call i j`: the call locks `j` while it holds `i`, read off its arguments and the answers it gets.
* `directory_deadlock_free_iff`: no set of calls can come to wait for each other iff these pairs form no cycle.
* `crossing_adds_deadlock`: two directories entered into each other. -/

namespace LinuxEvfs.Ops.Order

open Relation LinuxEvfs.Errno LinuxEvfs.Lib.Locks LinuxEvfs.Lib.Journal LinuxEvfs.Lib.Deadlock
open LinuxEvfs.Ops.Model LinuxEvfs.Ops.Balance

/-! ### The inode locks of a run -/

/-- The exclusive inode locks. -/
def moves (r : Run) : List (Move ℕ) :=
  r.locks.filterMap fun
    | .lock .excl (.inode i) => some (.take i)
    | .unlock .excl (.inode i) => some (.drop i)
    | _ => none

section rules
variable {fail : ℤ → Run} {r : Run}

@[simp] theorem call_none : call none fail r = r := rfl

@[simp] theorem call_some (err : Errno) : call (some err) fail r = fail err.ret := rfl

@[simp] theorem moves_ret (v : ℤ) : moves (ret v) = [] := rfl

@[simp] theorem moves_lock (i : ℕ) : moves (lock (.inode i) r) = .take i :: moves r := rfl

@[simp] theorem moves_unlock (i : ℕ) : moves (unlock (.inode i) r) = .drop i :: moves r := rfl

@[simp] theorem moves_jrnl (e : Ev Buffer) : moves (jrnl e r) = moves r := rfl

end rules

/-! ### The four operations -/

theorem inodeFree_moves (a : InodeFree) :
    moves (evfsInodeFree a) = [] ∨ moves (evfsInodeFree a) = [.take a.ino, .drop a.ino] := by
  unfold evfsInodeFree
  cases a.iget <;> cases a.journalStart <;> cases a.busy <;> cases a.untrack <;> simp

/-- The call gets to the lock of the child. -/
def reachesChild (a : DentryAdd) : Prop :=
  (a.nameLen ≠ 0 ∧ a.nameLen ≤ 255) ∧ a.igetParent = none ∧ a.isDir = true ∧ a.hasAlias = true ∧
    a.igetChild = none

theorem dentryAdd_moves (a : DentryAdd) :
    (¬ reachesChild a ∧
      (moves (evfsDentryAdd a) = [] ∨ moves (evfsDentryAdd a) = [.take a.parent, .drop a.parent])) ∨
    (reachesChild a ∧
      moves (evfsDentryAdd a) = [.take a.parent, .take a.child, .drop a.child, .drop a.parent]) := by
  have hpino : ∀ v, moves (a.releasePino v) = [.drop a.parent] := fun _ => rfl
  have hlinked : moves (if a.dAlloc = false then a.releaseCino ENOMEM.ret
      else
        call a.dquotInitialize a.releaseCino <|
        call a.link a.releaseCino <|
        a.releaseCino 0) = [.drop a.child, .drop a.parent] := by
    cases a.dAlloc <;> cases a.dquotInitialize <;> cases a.link <;> rfl
  unfold evfsDentryAdd reachesChild
  by_cases hname : a.nameLen = 0 ∨ 255 < a.nameLen
  · left
    rw [if_pos hname]
    exact ⟨fun h => by omega, .inl rfl⟩
  · have hlen : a.nameLen ≠ 0 ∧ a.nameLen ≤ 255 := by omega
    rw [if_neg hname]
    cases a.igetParent <;> cases a.isDir <;> cases a.hasAlias <;> cases a.igetChild <;>
      simp [hpino, hlen, hlinked]

/-- The call gets to the lock of the child. -/
def reachesVictim (a : DentryDelete) : Prop :=
  a.igetDir = none ∧ a.isDir = true ∧ a.hasAlias = true ∧ a.findEntry = none ∧ a.igetChild = none

theorem dentryDelete_moves (a : DentryDelete) :
    (¬ reachesVictim a ∧ (moves (evfsDentryDelete a) = [] ∨ moves (evfsDentryDelete a) = [.take a.dir] ∨
      moves (evfsDentryDelete a) = [.take a.dir, .drop a.dir])) ∨
    (reachesVictim a ∧ moves (evfsDentryDelete a) = [.take a.dir, .take a.child, .drop a.child]) := by
  have hcino : ∀ v, moves (a.releaseCino v) = [.drop a.child] := fun _ => rfl
  have hunlinked : moves a.unlinked = [.drop a.child] := by
    unfold DentryDelete.unlinked
    cases a.untrack <;> cases a.dAlloc <;> cases a.dquotInitDir <;> cases a.dquotInitChild <;>
      cases a.unlink <;> simp [hcino]
  unfold evfsDentryDelete reachesVictim DentryDelete.releasePde DentryDelete.releasePino
  cases a.igetDir <;> cases a.isDir <;> cases a.hasAlias <;> cases a.findEntry <;> cases a.igetChild <;>
    simp [hunlinked]

section update
variable (a : DentryUpdate)

/-- The call gets to the lock of the old inode. -/
def reachesOld : Prop := a.incNlink = none ∧ a.igetOld = none

theorem retarget_drops : Drops (moves a.retarget) := by
  have hbh : ∀ v, moves (a.releaseBh v) = [.drop a.dir] := fun _ => rfl
  unfold DentryUpdate.retarget
  cases a.decNlink <;> cases a.last <;> cases a.untrack <;> cases a.dirtyDirblock <;> cases a.markDirty <;>
    simp [hbh, Drops]

theorem counted_moves :
    (¬ reachesOld a ∧ (moves a.counted = [.drop a.dir] ∨ moves a.counted = [.drop a.new, .drop a.dir])) ∨
    (reachesOld a ∧ moves a.counted = .drop a.new :: .take a.old :: moves a.retarget) := by
  have hbh : ∀ v, moves (a.releaseBh v) = [.drop a.dir] := fun _ => rfl
  unfold DentryUpdate.counted reachesOld
  cases a.incNlink <;> cases a.igetOld <;> simp [hbh]

theorem dentryUpdate_moves :
    (¬ reachesNew a ∧
      (moves (evfsDentryUpdate a) = [] ∨ moves (evfsDentryUpdate a) = [.take a.dir, .drop a.dir])) ∨
    (reachesNew a ∧ moves (evfsDentryUpdate a) = .take a.dir :: .take a.new :: moves a.counted) := by
  have hbh : ∀ v, moves (a.releaseBh v) = [.drop a.dir] := fun _ => rfl
  have hpino : ∀ v, moves (a.releasePino v) = [.drop a.dir] := fun _ => rfl
  unfold evfsDentryUpdate reachesNew
  cases a.igetDir <;> cases a.isDir <;> cases a.journalStart <;> cases a.bread <;> cases a.access <;>
    cases a.igetNew <;> simp [hbh, hpino]

end update

/-! ### Calls -/

inductive Call where
  | add (a : DentryAdd)
  | delete (a : DentryDelete)
  | update (a : DentryUpdate)
  | free (a : InodeFree)

def Call.run : Call → Run
  | .add a => evfsDentryAdd a
  | .delete a => evfsDentryDelete a
  | .update a => evfsDentryUpdate a
  | .free a => evfsInodeFree a

/-- The call locks `j` while it holds `i`. -/
def Nests : Call → ℕ → ℕ → Prop
  | .add a, i, j => reachesChild a ∧ i = a.parent ∧ j = a.child
  | .delete a, i, j => reachesVictim a ∧ i = a.dir ∧ j = a.child
  | .update a, i, j => reachesNew a ∧ i = a.dir ∧ (j = a.new ∨ (reachesOld a ∧ j = a.old))
  | .free _, _, _ => False

theorem orders_iff_nests (call : Call) (i j : ℕ) : Orders [] (moves call.run) i j ↔ Nests call i j := by
  cases call with
  | add a =>
    obtain ⟨hr, h | h⟩ | ⟨hr, h⟩ := dentryAdd_moves a <;>
      simp [Call.run, Nests, h, hr, Orders, hold, eq_comm, and_comm]
  | delete a =>
    obtain ⟨hr, h | h | h⟩ | ⟨hr, h⟩ := dentryDelete_moves a <;>
      simp [Call.run, Nests, h, hr, Orders, hold, eq_comm, and_comm]
  | update a =>
    obtain ⟨hr, h | h⟩ | ⟨hr, h⟩ := dentryUpdate_moves a
    · simp [Call.run, Nests, h, hr, Orders]
    · simp [Call.run, Nests, h, hr, Orders, hold]
    · have hdrops := (retarget_drops a).not_orders
      obtain ⟨ho, h' | h'⟩ | ⟨ho, h'⟩ := counted_moves a
      · simp [Call.run, Nests, h, h', hr, ho, Orders, hold, eq_comm, and_comm]
      · simp [Call.run, Nests, h, h', hr, ho, Orders, hold, eq_comm, and_comm]
      · simp [Call.run, Nests, h, h', hr, ho, Orders, hold, hdrops, and_or_left, eq_comm, and_comm]
  | free a =>
    obtain h | h := inodeFree_moves a <;> simp [Call.run, Nests, h, Orders, hold]

/-- The first lock is kept while the others are taken. -/
theorem moves_fans (call : Call) : Fans (moves call.run) := by
  cases call with
  | add a =>
    obtain ⟨-, h | h⟩ | ⟨-, h⟩ := dentryAdd_moves a <;> rw [Call.run, h]
    · trivial
    · exact ⟨⟨_, rfl⟩, .drops (by simp [Drops])⟩
    · exact ⟨⟨_, rfl⟩, .next _ (.drops (by simp [Drops]))⟩
  | delete a =>
    obtain ⟨-, h | h | h⟩ | ⟨-, h⟩ := dentryDelete_moves a <;> rw [Call.run, h]
    · trivial
    · exact ⟨⟨_, rfl⟩, .drops (by simp [Drops])⟩
    · exact ⟨⟨_, rfl⟩, .drops (by simp [Drops])⟩
    · exact ⟨⟨_, rfl⟩, .next _ (.drops (by simp [Drops]))⟩
  | update a =>
    obtain ⟨-, h | h⟩ | ⟨-, h⟩ := dentryUpdate_moves a <;> rw [Call.run, h]
    · trivial
    · exact ⟨⟨_, rfl⟩, .drops (by simp [Drops])⟩
    · refine ⟨⟨_, rfl⟩, ?_⟩
      obtain ⟨-, h | h⟩ | ⟨-, h⟩ := counted_moves a <;> rw [h]
      · exact .last _ (by simp [Drops])
      · exact .next _ (.drops (by simp [Drops]))
      · exact .next _ (.last _ (retarget_drops a))
  | free a =>
    obtain h | h := inodeFree_moves a <;> rw [Call.run, h]
    · trivial
    · exact ⟨⟨_, rfl⟩, .drops (by simp [Drops])⟩

/-- **Deadlocks of the directory operations**, for any number of calls, their arguments and all answers. -/
theorem directory_deadlock_free_iff (n : ℕ) (calls : Fin n → Call) :
    (∀ s tasks, Reachable (fun c => moves (calls c).run) s → ¬ Deadlocked s tasks) ↔
      ∀ i, ¬ TransGen (fun i j => ∃ c, Nests (calls c) i j) i i := by
  have horder : LockOrder (fun c => moves (calls c).run) = fun i j => ∃ c, Nests (calls c) i j := by
    funext i j
    simp only [LockOrder, orders_iff_nests]
  rw [deadlock_free_iff fun c => moves_fans (calls c), horder]

/-- The inode `child` entered into the directory `parent`, with every call a success. -/
def entering (parent child : ℕ) : DentryAdd :=
  { nameLen := 1, parent := parent, child := child, igetParent := none, isDir := true, hasAlias := true,
    igetChild := none, dAlloc := true, dquotInitialize := none, link := none }

/-- Two directories, each entered into the other. -/
def crossing : Fin 2 → Call := ![.add (entering 12 13), .add (entering 13 12)]

/-- **A deadlock**: each call holds its parent and waits for its child. -/
theorem crossing_adds_deadlock :
    ∃ s, Reachable (fun c => moves (crossing c).run) s ∧ Deadlocked s Set.univ := by
  refine ⟨_, .tail (.tail .refl (Step.take (c := 0) (l := 12) rfl rfl)) (Step.take (c := 1) (l := 13) rfl rfl),
    ⟨0, trivial⟩, fun c _ => ?_⟩
  match c with
  | 0 => exact ⟨13, _, rfl, 1, trivial, rfl⟩
  | 1 => exact ⟨12, _, rfl, 0, trivial, rfl⟩

end LinuxEvfs.Ops.Order
