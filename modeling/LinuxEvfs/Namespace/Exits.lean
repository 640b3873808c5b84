import LinuxEvfs.Namespace.Edits
import LinuxEvfs.Ops.Order

/-! # The exits of `evfs_dentry_update`

`Namespace.Model` says what the call does to the file system, `Ops.Model` the sequence of its actions for given
answers. The answers a state gives (`updateAnswers`) join the two.

* `update_exit`: every way the call can end, with the state and the value it leaves.
* `update_ret`: where it returns, the value is that of the sequence of actions.
* `rewrites_iff`: when the sequence changes the directory block.
* `update_dir`: exactly then the entry is rewritten in the state. -/

namespace LinuxEvfs.Namespace.Exits

open LinuxEvfs.Errno LinuxEvfs.Lib.Journal LinuxEvfs.Namespace.Dir LinuxEvfs.Namespace.Entries
open LinuxEvfs.Namespace.Model LinuxEvfs.Namespace.Accounts LinuxEvfs.Namespace.Refine
open LinuxEvfs.Namespace.Update LinuxEvfs.Namespace.Edits
open LinuxEvfs.Ops.Model (DentryUpdate Run Buffer orStop)
open LinuxEvfs.Ops.Order

variable {sb : Sb} {c : Calls} {s s' : Fs} {dir index new i : ℕ} {ret : ℤ}

/-! ### `ext4_iget` -/

/-- Why `ext4_iget` does not return the inode. -/
def refusal (sb : Sb) (err : Option Errno) (s : Fs) (i : ℕ) : Option Errno :=
  if sb.legal i = false then some EFSCORRUPTED
  else if s.cached i then none
  else err <|> if (s.ino i).nlink = 0 then some ESTALE else none

theorem iget_eq (sb : Sb) (err : Option Errno) (s : Fs) (i : ℕ) :
    ext4Iget sb err s i = (refusal sb err s i).elim (.ok (s.setCached i true)) .error := by
  unfold ext4Iget refusal
  by_cases hlegal : sb.legal i = false
  · rw [if_pos hlegal, if_pos hlegal]
    rfl
  rw [if_neg hlegal, if_neg hlegal]
  by_cases hc : s.cached i = true
  · rw [if_pos hc, if_pos hc]
    have hsame : Function.update s.cached i true = s.cached := Function.update_eq_self_iff.mpr hc.symm
    simp only [Option.elim, Fs.setCached, hsame]
  rw [if_neg hc, if_neg hc]
  cases err with
  | some e => rfl
  | none =>
    by_cases hn : (s.ino i).nlink = 0
    · simp [hn]
    · simp [hn]

theorem refusal_legal {err : Option Errno} (h : refusal sb err s i = none) : sb.legal i = true := by
  by_contra hne
  rw [refusal, if_pos (by simpa using hne)] at h
  cases h

section cached
variable {x : Bool}

@[simp] theorem setCached_held : (s.setCached i x).held = s.held := rfl

@[simp] theorem setCached_ino : (s.setCached i x).ino = s.ino := rfl

@[simp] theorem setCached_isDir {j : ℕ} : (s.setCached i x).isDir j = s.isDir j := rfl

end cached

/-! ### What the state answers -/

/-- The state with the new inode read and its count raised. -/
def raised (s : Fs) (dir new : ℕ) : Fs :=
  ((s.setCached dir true).setCached new true).setNlink new (incNlink (s.ino new).nlink)

@[simp] theorem raised_held : (raised s dir new).held = s.held := rfl

/-- The number that the call takes for the old one. -/
def oldNo (sb : Sb) (s : Fs) (dir index : ℕ) : ℕ :=
  (nthLive sb 0 index ((s.ino dir).dir.block 0)).elim (2 ^ 64 - 1) (Dir.inodeAt (s.ino dir).dir 0)

/-- The count of the old inode after it is dropped. -/
def oldCount (s : Fs) (dir new old : ℕ) : ℕ := dropNlink ((raised s dir new).ino old).nlink

/-- It was the last link. -/
def oldGone (s : Fs) (dir new old : ℕ) : Bool := oldCount s dir new old = 0

theorem oldGone_iff {old : ℕ} : oldGone s dir new old = true ↔ oldCount s dir new old = 0 := decide_eq_true_iff

@[simps dir new igetDir isDir journalStart bread access igetNew incNlink igetOld decNlink journalStop uninit]
def updateAnswers (sb : Sb) (c : Calls) (s : Fs) (dir index new : ℕ) : DentryUpdate where
  dir := dir
  new := new
  igetDir := refusal sb (c.env .igetDir) s dir
  isDir := s.isDir dir
  journalStart := c.env .journalStart
  bread := c.env .bread <|> if (s.ino dir).dir.block 0 = [] then some Errno.EIO else none
  access := c.env .blockAccess
  igetNew := refusal sb (c.env .igetChild) (s.setCached dir true) new
  incNlink := c.env .incDirty
  old := oldNo sb s dir index
  igetOld := refusal sb (c.env .igetOld) (raised s dir new) (oldNo sb s dir index)
  decNlink := c.env .decDirty
  last := oldGone s dir new (oldNo sb s dir index)
  untrack := if inCapacity sb (oldNo sb s dir index) then none else some EINVAL
  dirtyDirblock := c.env .updateDirty
  markDirty := c.env .updateDirDirty
  journalStop := c.env .journalStop
  uninit := c.uninit

@[simp] theorem updateAnswers_old : (updateAnswers sb c s dir index new).old = oldNo sb s dir index := rfl

@[simp] theorem updateAnswers_last :
    (updateAnswers sb c s dir index new).last = oldGone s dir new (oldNo sb s dir index) := by
  rw [updateAnswers]

@[simp] theorem updateAnswers_untrack :
    (updateAnswers sb c s dir index new).untrack =
      if inCapacity sb (oldNo sb s dir index) then none else some EINVAL := rfl

/-! ### The exits -/

/-- The state with the old inode read and its count dropped. -/
def lowered (s : Fs) (dir new old : ℕ) : Fs :=
  ((raised s dir new).setCached old true).setNlink old (oldCount s dir new old)

/-- The state with the entry rewritten. -/
def stored (s : Fs) (dir new old k : ℕ) : Fs :=
  (if oldCount s dir new old = 0 then (lowered s dir new old).setTracked old false else lowered s dir new old).setDir
    dir (rewritten (s.ino dir).dir new k)

/-- The call has read the directory and looks at its first block. -/
structure Opens (s : Fs) (a : DentryUpdate) : Prop where
  igetDir : a.igetDir = none
  free : s.held a.dir = false
  isDir : a.isDir = true
  journalStart : a.journalStart = none

/-- It has read the new inode and locked it. -/
structure Raises (s : Fs) (a : DentryUpdate) : Prop extends Opens s a where
  bread : a.bread = none
  access : a.access = none
  igetNew : a.igetNew = none
  freeNew : s.held a.new = false
  ne : a.new ≠ a.dir

/-- It has read the old inode and locked it. -/
structure Lowers (s : Fs) (a : DentryUpdate) : Prop extends Raises s a where
  incNlink : a.incNlink = none
  igetOld : a.igetOld = none
  freeOld : s.held a.old = false
  oldNe : a.old ≠ a.dir

/-- The count of the old inode or its tracker bit could not be stored. -/
def lowerFails (a : DentryUpdate) : Prop := a.decNlink ≠ none ∨ (a.last = true ∧ a.untrack ≠ none)

instance (a : DentryUpdate) : Decidable (lowerFails a) :=
  inferInstanceAs (Decidable (a.decNlink ≠ none ∨ (a.last = true ∧ a.untrack ≠ none)))

/-- How a call ends, on a state with the answers `a`; `k` is the record. -/
inductive Exit (s : Fs) (a : DentryUpdate) (k : Option ℕ) : Outcome → Prop where
  | noDir {err : Errno} (h : a.igetDir = some err) : Exit s a k (.ret s err.ret)
  | waitDir (h : a.igetDir = none) (held : s.held a.dir = true) : Exit s a k .hang
  /-- `err` is not set. -/
  | unset (h : a.igetDir = none) (free : s.held a.dir = false)
      (hfail : a.isDir = false ∨ a.journalStart ≠ none) :
      Exit s a k (.ret (s.setCached a.dir true) a.uninit)
  | unread (h : Opens s a) (hfail : a.bread ≠ none ∨ a.access ≠ none ∨ a.igetNew ≠ none) :
      Exit s a k (.ret (s.setCached a.dir true) (orStop a.journalStop 0))
  | waitNew (h : Opens s a) (hbread : a.bread = none) (haccess : a.access = none) (hnew : a.igetNew = none)
      (held : s.held a.new = true ∨ a.new = a.dir) :
      Exit s a k .hang
  | raiseFails (h : Raises s a) (hfail : a.incNlink ≠ none) :
      Exit s a k (.ret ((raised s a.dir a.new).hold a.new) (orStop a.journalStop 0))
  | noOld (h : Raises s a) (hinc : a.incNlink = none) (hfail : a.igetOld ≠ none) :
      Exit s a k (.ret (raised s a.dir a.new) (orStop a.journalStop 0))
  | waitOld (h : Raises s a) (hinc : a.incNlink = none) (hold : a.igetOld = none)
      (held : s.held a.old = true ∨ a.old = a.dir) : Exit s a k .hang
  | lowerFails (h : Lowers s a) (hfail : lowerFails a) :
      Exit s a k (.ret ((lowered s a.dir a.new a.old).hold a.old) (orStop a.journalStop 0))
  | stored {k' : ℕ} (h : Lowers s a) (hok : ¬ Exits.lowerFails a) (hk : k = some k') :
      Exit s a k (.ret (stored s a.dir a.new a.old k') (orStop a.journalStop 0))

theorem dropNlink_incNlink {n : ℕ} (h : n < 2 ^ 32) : dropNlink (incNlink n) = n := by
  unfold incNlink dropNlink
  omega

theorem raised_dir : ((raised s dir new).ino i).dir = (s.ino i).dir := setNlink_dir

theorem raised_isDir : (raised s dir new).isDir i = s.isDir i := setNlink_isDir

theorem raised_nlink_self : ((raised s dir new).ino new).nlink = incNlink (s.ino new).nlink := setNlink_nlink_self

theorem raised_nlink_ne (h : i ≠ new) : ((raised s dir new).ino i).nlink = (s.ino i).nlink := setNlink_nlink_ne h

section lowered
variable {old : ℕ}

theorem lowered_dir : ((lowered s dir new old).ino i).dir = (s.ino i).dir := setNlink_dir.trans raised_dir

theorem lowered_isDir : (lowered s dir new old).isDir i = s.isDir i := setNlink_isDir.trans raised_isDir

theorem lowered_nlink_self : ((lowered s dir new old).ino old).nlink = oldCount s dir new old := setNlink_nlink_self

theorem lowered_nlink_ne (h : i ≠ old) : ((lowered s dir new old).ino i).nlink = ((raised s dir new).ino i).nlink :=
  setNlink_nlink_ne h

end lowered

theorem updateRecord_exit {k : ℕ} (h : Lowers s (updateAnswers sb c s dir index new)) :
    Exit s (updateAnswers sb c s dir index new) (some k)
      (updateRecord sb c ((raised s dir new).setCached (oldNo sb s dir index) true) dir new
        (oldNo sb s dir index) k) := by
  generalize hold : oldNo sb s dir index = old
  have hlow : ((raised s dir new).setCached old true).setNlink old
      (dropNlink (((raised s dir new).setCached old true).ino old).nlink) = lowered s dir new old := rfl
  have hcount : ((lowered s dir new old).ino old).nlink = oldCount s dir new old := lowered_nlink_self
  unfold updateRecord
  dsimp only
  rw [hlow]
  subst hold
  cases hdec : c.env .decDirty with
  | some err => exact .lowerFails h (.inl (by simp [hdec]))
  | none =>
    dsimp only
    rw [hcount]
    by_cases hlast : oldCount s dir new (oldNo sb s dir index) = 0
    · rw [if_pos hlast]
      unfold evfsInodeUntrackNolock
      by_cases hcap : inCapacity sb (oldNo sb s dir index) = true
      · rw [if_neg (by simp [hcap])]
        have hexit := Exit.stored (k := some k) h (by simp [lowerFails, hdec, hcap]) rfl
        simp only [stored, updateAnswers_dir, updateAnswers_new, updateAnswers_old, if_pos hlast] at hexit
        have hdir : ((Fs.setTracked (lowered s dir new (oldNo sb s dir index)) (oldNo sb s dir index)
            false).ino dir).dir = (s.ino dir).dir := lowered_dir
        dsimp only
        rw [hdir]
        exact hexit
      · rw [if_pos (by simpa using hcap)]
        exact .lowerFails h (.inr (by simp [oldGone_iff, hlast, hcap]))
    · rw [if_neg hlast]
      have hexit := Exit.stored (k := some k) h (by simp [lowerFails, hdec, oldGone_iff, hlast]) rfl
      simp only [stored, updateAnswers_dir, updateAnswers_new, updateAnswers_old, if_neg hlast] at hexit
      dsimp only
      rw [lowered_dir]
      exact hexit

theorem updateOld_exit (h : Raises s (updateAnswers sb c s dir index new)) (hinc : c.env .incDirty = none) :
    Exit s (updateAnswers sb c s dir index new) (nthLive sb 0 index ((s.ino dir).dir.block 0))
      (updateOld sb c (raised s dir new) dir new (nthLive sb 0 index ((s.ino dir).dir.block 0))) := by
  have hold : (nthLive sb 0 index ((s.ino dir).dir.block 0)).elim (2 ^ 64 - 1)
      (Dir.inodeAt ((raised s dir new).ino dir).dir 0) = oldNo sb s dir index := by
    rw [raised_dir]
    rfl
  unfold updateOld
  rw [hold]
  dsimp only
  rw [iget_eq]
  cases higet : refusal sb (c.env .igetOld) (raised s dir new) (oldNo sb s dir index) with
  | some err => exact .noOld h hinc (by simp [higet])
  | none =>
    dsimp only [Option.elim]
    by_cases hheld : ((raised s dir new).setCached (oldNo sb s dir index) true).held (oldNo sb s dir index) = true ∨
        oldNo sb s dir index = dir
    · rw [if_pos hheld]
      exact .waitOld h hinc higet hheld
    · rw [if_neg hheld]
      rw [not_or] at hheld
      have hlow : Lowers s (updateAnswers sb c s dir index new) :=
        { h with incNlink := hinc, igetOld := higet, freeOld := by simpa using hheld.1, oldNe := hheld.2 }
      cases hk : nthLive sb 0 index ((s.ino dir).dir.block 0) with
      | some k => exact updateRecord_exit hlow
      | none =>
        -- the number `-1UL` is not legal
        have hno : oldNo sb s dir index = 2 ^ 64 - 1 := by rw [oldNo, hk]; rfl
        have hle := (sb.legal_le _ (refusal_legal higet)).2
        have := sb.count_lt
        omega

/-- **Every exit.** -/
theorem update_exit (sb : Sb) (c : Calls) (s : Fs) (dir index new : ℕ) :
    Exit s (updateAnswers sb c s dir index new) (nthLive sb 0 index ((s.ino dir).dir.block 0))
      (evfsDentryUpdate sb c s dir index new) := by
  unfold evfsDentryUpdate
  rw [iget_eq]
  cases higet : refusal sb (c.env .igetDir) s dir with
  | some err => exact .noDir higet
  | none =>
    dsimp only [Option.elim]
    by_cases hheld : (s.setCached dir true).held dir = true
    · rw [if_pos hheld]
      exact .waitDir higet hheld
    have hfree : s.held dir = false := by simpa using hheld
    rw [if_neg hheld]
    by_cases hdir : (s.setCached dir true).isDir dir = false
    · rw [if_pos hdir]
      exact .unset higet hfree (.inl hdir)
    rw [if_neg hdir]
    cases hstart : c.env .journalStart with
    | some err => exact .unset higet hfree (.inr (by simp [hstart]))
    | none =>
      have hopens : Opens s (updateAnswers sb c s dir index new) := ⟨higet, hfree, by simpa using hdir, hstart⟩
      dsimp only
      by_cases hread : (c.env .bread).isSome ∨ ((s.setCached dir true).ino dir).dir.block 0 = [] ∨
          (c.env .blockAccess).isSome
      · rw [if_pos hread]
        refine .unread hopens ?_
        rcases hread with hb | hb | hb
        · obtain ⟨err, hb⟩ := Option.isSome_iff_exists.mp hb
          exact .inl (by simp [hb])
        · rw [setCached_ino] at hb
          exact .inl (by cases hb' : c.env .bread <;> simp [hb, hb'])
        · exact .inr (.inl (by simpa [Option.isSome_iff_ne_none] using hb))
      rw [if_neg hread, iget_eq]
      simp only [setCached_ino, not_or, Option.not_isSome_iff_eq_none] at hread
      obtain ⟨hbread, hblock, haccess⟩ := hread
      have hbread' : (updateAnswers sb c s dir index new).bread = none := by simp [hbread, hblock]
      cases hinew : refusal sb (c.env .igetChild) (s.setCached dir true) new with
      | some err => exact .unread hopens (.inr (.inr (by simp [hinew])))
      | none =>
        dsimp only [Option.elim]
        by_cases hheld' : ((s.setCached dir true).setCached new true).held new = true ∨ new = dir
        · rw [if_pos hheld']
          exact .waitNew hopens hbread' haccess hinew hheld'
        rw [if_neg hheld']
        rw [not_or] at hheld'
        have hraises : Raises s (updateAnswers sb c s dir index new) :=
          { hopens with bread := hbread', access := haccess, igetNew := hinew,
                        freeNew := by simpa using hheld'.1, ne := hheld'.2 }
        cases hinc : c.env .incDirty with
        | some err => exact .raiseFails hraises (by simp [hinc])
        | none => exact updateOld_exit hraises hinc

/-! ### The sequence of actions -/

section events
variable {e : Ev Buffer} {l : LinuxEvfs.Ops.Model.Lock} {r : Run}

@[simp] theorem events_ret (v : ℤ) : (LinuxEvfs.Ops.Model.ret v).events = [] := rfl

@[simp] theorem events_lock : (LinuxEvfs.Ops.Model.lock l r).events = r.events := rfl

@[simp] theorem events_unlock : (LinuxEvfs.Ops.Model.unlock l r).events = r.events := rfl

@[simp] theorem events_jrnl : (LinuxEvfs.Ops.Model.jrnl e r).events = e :: r.events := rfl

end events

/-- The call changes the directory block. -/
def Rewrites (a : DentryUpdate) : Prop :=
  Ev.change (.dirBlock a.dir) ∈ (LinuxEvfs.Ops.Model.evfsDentryUpdate a).events

section trace
variable (a : DentryUpdate)

theorem releaseBh_events (v : ℤ) : (a.releaseBh v).events = [.stop] := rfl

theorem releasePino_events (v : ℤ) : (a.releasePino v).events = [] := rfl

theorem retarget_rewrites : Ev.change (.dirBlock a.dir) ∈ a.retarget.events ↔ ¬ lowerFails a := by
  unfold DentryUpdate.retarget lowerFails
  cases a.decNlink <;> cases a.last <;> cases a.untrack <;> simp [releaseBh_events]

theorem counted_rewrites :
    Ev.change (.dirBlock a.dir) ∈ a.counted.events ↔ a.incNlink = none ∧ a.igetOld = none ∧ ¬ lowerFails a := by
  unfold DentryUpdate.counted
  cases a.incNlink <;> cases a.igetOld <;> simp [releaseBh_events, retarget_rewrites]

/-- **When an entry is rewritten**, for any answers. -/
theorem rewrites_iff :
    Rewrites a ↔ (a.igetDir = none ∧ a.isDir = true ∧ a.journalStart = none ∧ a.bread = none ∧ a.access = none ∧
      a.igetNew = none) ∧ a.incNlink = none ∧ a.igetOld = none ∧ ¬ lowerFails a := by
  unfold Rewrites LinuxEvfs.Ops.Model.evfsDentryUpdate
  cases a.igetDir <;> cases a.isDir <;> cases a.journalStart <;> cases a.bread <;> cases a.access <;>
    cases a.igetNew <;> simp [releaseBh_events, releasePino_events, counted_rewrites]

theorem not_rewrites_noDir {err : Errno} (h : a.igetDir = some err) : ¬ Rewrites a :=
  fun hr => absurd (h.symm.trans ((rewrites_iff a).mp hr).1.1) (Option.some_ne_none _)

theorem not_rewrites_unset (hfail : a.isDir = false ∨ a.journalStart ≠ none) : ¬ Rewrites a := by
  rw [rewrites_iff]
  rintro ⟨⟨-, hdir, hstart, -⟩, -⟩
  simp [hdir, hstart] at hfail

theorem not_rewrites_unread (hfail : a.bread ≠ none ∨ a.access ≠ none ∨ a.igetNew ≠ none) : ¬ Rewrites a := by
  rw [rewrites_iff]
  rintro ⟨⟨-, -, -, hb, ha, hn⟩, -⟩
  simp [hb, ha, hn] at hfail

theorem not_rewrites_raiseFails (hfail : a.incNlink ≠ none) : ¬ Rewrites a :=
  fun hr => hfail ((rewrites_iff a).mp hr).2.1

theorem not_rewrites_noOld (hfail : a.igetOld ≠ none) : ¬ Rewrites a :=
  fun hr => hfail ((rewrites_iff a).mp hr).2.2.1

theorem not_rewrites_lowerFails (hfail : lowerFails a) : ¬ Rewrites a :=
  fun hr => ((rewrites_iff a).mp hr).2.2.2 hfail

theorem Lowers.rewrites {a : DentryUpdate} (h : Lowers s a) (hok : ¬ lowerFails a) : Rewrites a :=
  (rewrites_iff a).mpr ⟨⟨h.igetDir, h.isDir, h.journalStart, h.bread, h.access, h.igetNew⟩, h.incNlink, h.igetOld, hok⟩

theorem retarget_ret : a.retarget.ret = some (orStop a.journalStop 0) := by
  unfold DentryUpdate.retarget
  cases a.decNlink <;> cases a.last <;> cases a.untrack <;> cases a.dirtyDirblock <;> cases a.markDirty <;> rfl

theorem counted_ret : a.counted.ret = some (orStop a.journalStop 0) := by
  unfold DentryUpdate.counted
  cases a.incNlink <;> cases a.igetOld
  · exact retarget_ret a
  all_goals rfl

/-- The value that is returned. -/
theorem trace_ret :
    (LinuxEvfs.Ops.Model.evfsDentryUpdate a).ret = some (a.igetDir.elim
      (if a.isDir = false ∨ a.journalStart ≠ none then a.uninit else orStop a.journalStop 0) Errno.ret) := by
  unfold LinuxEvfs.Ops.Model.evfsDentryUpdate
  cases a.igetDir <;> cases a.isDir <;> cases a.journalStart <;> cases a.bread <;> cases a.access <;>
    cases a.igetNew
  all_goals first | rfl | exact counted_ret a

end trace

variable {a : DentryUpdate}

theorem Opens.trace_ret (h : Opens s a) :
    (LinuxEvfs.Ops.Model.evfsDentryUpdate a).ret = some (orStop a.journalStop 0) := by
  rw [Exits.trace_ret, h.igetDir, h.isDir, h.journalStart]
  simp

/-- **The two models agree** on the value returned. -/
theorem update_ret (h : evfsDentryUpdate sb c s dir index new = .ret s' ret) :
    (LinuxEvfs.Ops.Model.evfsDentryUpdate (updateAnswers sb c s dir index new)).ret = some ret := by
  have hexit := update_exit sb c s dir index new
  rw [h] at hexit
  clear h
  cases hexit with
  | noDir h =>
    rw [trace_ret, h]
    rfl
  | unset h _ hfail =>
    rw [trace_ret, h, Option.elim, if_pos hfail]
  | unread h => exact h.trace_ret
  | raiseFails h => exact h.trace_ret
  | noOld h => exact h.trace_ret
  | lowerFails h => exact h.trace_ret
  | stored h => exact h.trace_ret

/-- **The entry in the state**: rewritten if the sequence of actions says so, and left alone otherwise. -/
theorem update_dir (h : evfsDentryUpdate sb c s dir index new = .ret s' ret) :
    (Rewrites (updateAnswers sb c s dir index new) ∧ Lowers s (updateAnswers sb c s dir index new) ∧
      ∃ k, nthLive sb 0 index ((s.ino dir).dir.block 0) = some k ∧
        (s'.ino dir).dir = rewritten (s.ino dir).dir new k) ∨
    (¬ Rewrites (updateAnswers sb c s dir index new) ∧ (s'.ino dir).dir = (s.ino dir).dir) := by
  have hexit := update_exit sb c s dir index new
  rw [h] at hexit
  clear h
  cases hexit with
  | noDir h => exact .inr ⟨not_rewrites_noDir _ h, rfl⟩
  | unset _ _ hfail => exact .inr ⟨not_rewrites_unset _ hfail, rfl⟩
  | unread _ hfail => exact .inr ⟨not_rewrites_unread _ hfail, rfl⟩
  | raiseFails _ hfail => exact .inr ⟨not_rewrites_raiseFails _ hfail, raised_dir⟩
  | noOld _ _ hfail => exact .inr ⟨not_rewrites_noOld _ hfail, raised_dir⟩
  | lowerFails _ hfail => exact .inr ⟨not_rewrites_lowerFails _ hfail, lowered_dir⟩
  | stored h hok hk => exact .inl ⟨h.rewrites hok, h, _, hk, setDir_dir_self _⟩

end LinuxEvfs.Namespace.Exits
