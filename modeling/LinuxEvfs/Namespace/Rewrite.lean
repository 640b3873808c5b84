import LinuxEvfs.Namespace.Edits

/-! # When an update gets to its record

`evfs_dentry_update` may give up on the way to its record, and still return 0. Where no call outside fails
and no lock is held (`Calm`), it waits for a lock it has already taken, if the new or the old inode is the
directory, and gets to the record otherwise (`Calm.update_eq`). It rewrites it, unless the old inode has
lost its last link and has no slot in the tracker (`updateRecord_eq`). -/

namespace LinuxEvfs.Namespace.Rewrite

open LinuxEvfs.Errno LinuxEvfs.Namespace.Dir LinuxEvfs.Namespace.Entries LinuxEvfs.Namespace.Counts
open LinuxEvfs.Namespace.Model LinuxEvfs.Namespace.Accounts LinuxEvfs.Namespace.Refine
open LinuxEvfs.Namespace.Steps LinuxEvfs.Namespace.Update LinuxEvfs.Namespace.Edits

variable {sb : Sb} {c : Calls} {s s' : Fs} {dir index new old k : ℕ} {de : DirEntry}

/-- No call outside fails, no lock is held, and the three inodes can be read. -/
structure Calm (sb : Sb) (c : Calls) (s : Fs) (dir new old : ℕ) : Prop where
  calls : Quiet c.env
  unlocked : ∀ i, s.held i = false
  readDir : Available sb s dir
  readNew : Available sb s new
  readOld : Available sb s old

/-- The state with the count of the new inode raised. -/
def raised (s : Fs) (new : ℕ) (x : ℕ → Bool) : Fs :=
  { s.setNlink new (incNlink (s.ino new).nlink) with cached := x }

/-- How such an update goes on: it waits for a lock it has, or gets to the record. -/
theorem Calm.update_eq (h : Calm sb c s dir new old) (hisDir : s.isDir dir = true)
    (hk : nthLive sb 0 index ((s.ino dir).dir.block 0) = some k)
    (hde : ((s.ino dir).dir.block 0)[k]? = some de) (hold : de.inode = old) :
    ((new = dir ∨ old = dir) → evfsDentryUpdate sb c s dir index new = .hang) ∧
      (new ≠ dir → old ≠ dir → ∃ x, evfsDentryUpdate sb c s dir index new
        = updateRecord sb c (raised s new x) dir new old k) := by
  have hq := h.calls
  obtain ⟨x, hx, -, hmono⟩ := iget_available h.readDir
  obtain ⟨y, hy, hynew, hmono'⟩ := iget_available (h.readNew.of_cached hmono)
  have hreadOld : Available sb (raised s new y) old := by
    refine ⟨h.readOld.legal, ?_⟩
    by_cases heq : old = new
    · exact .inl (heq ▸ hynew)
    · refine h.readOld.linked.imp (fun hc => hmono' _ (hmono _ hc)) fun hn => ?_
      have : ((raised s new y).ino old).nlink = (s.ino old).nlink := setNlink_nlink_ne heq
      rw [this]
      exact hn
  obtain ⟨z, hz, -, -⟩ := iget_available hreadOld
  have hdir : Fs.isDir { s with cached := x } dir = true := hisDir
  have hinode : Dir.inodeAt (s.ino dir).dir 0 k = old := (inodeAt_of_some hde).trans hold
  have hne : (s.ino dir).dir.block 0 ≠ [] := fun hnil => by simp [hnil] at hde
  have hrun : evfsDentryUpdate sb c s dir index new
      = if new = dir then .hang
        else if old = dir then .hang
        else updateRecord sb c (raised s new z) dir new old k := by
    unfold evfsDentryUpdate
    rw [hq .igetDir rfl, hx]
    dsimp only
    rw [h.unlocked dir, if_neg (by decide), if_neg (by rw [hdir]; decide), hq .journalStart rfl,
      hq .bread rfl, hq .blockAccess rfl, hq .incDirty rfl]
    dsimp only
    rw [if_neg (by simpa using hne), hq .igetChild rfl, hy]
    dsimp only
    by_cases hnew : new = dir
    · rw [if_pos (.inr hnew), if_pos hnew]
    rw [if_neg (by rw [h.unlocked new]; simpa using hnew), if_neg hnew, hk]
    change updateOld sb c (raised s new y) dir new (some k) = _
    unfold updateOld
    have hdirs : ((raised s new y).ino dir).dir = (s.ino dir).dir := setNlink_dir
    simp only [Option.elim_some, hdirs, hinode, hq .igetOld rfl, hz, Option.getD_some]
    by_cases holdd : old = dir
    · rw [if_pos (.inr holdd), if_pos holdd]
    · rw [if_neg (by change ¬ (s.held old = true ∨ _); rw [h.unlocked old]; simpa using holdd),
        if_neg holdd]
      rfl
  constructor
  · rintro (hnew | holdd)
    · rw [hrun, if_pos hnew]
    · rw [hrun, if_pos holdd, ite_self]
  · intro hnew holdd
    exact ⟨z, by rw [hrun, if_neg hnew, if_neg holdd]⟩

/-- The end of an update: the record is left alone where the old inode loses its last link and has no
slot in the tracker. -/
theorem updateRecord_eq (sb : Sb) (hq : Quiet c.env) (s : Fs) (dir new old k : ℕ) :
    ∃ s', updateRecord sb c s dir new old k = .ret s' 0 ∧ Frame dir s s' ∧
      (∀ i, (s'.ino i).nlink = ((s.setNlink old (dropNlink (s.ino old).nlink)).ino i).nlink) ∧
      (s'.ino dir).dir = if dropNlink (s.ino old).nlink = 0 ∧ inCapacity sb old = false
        then (s.ino dir).dir else rewritten (s.ino dir).dir new k := by
  unfold updateRecord
  dsimp only
  generalize dropNlink (s.ino old).nlink = m
  have hframe : Frame dir s (s.setNlink old m) := frame_setNlink _
  rw [hq .decDirty rfl, setNlink_nlink_self]
  by_cases hlast : m = 0
  · rw [if_pos hlast]
    unfold evfsInodeUntrackNolock
    by_cases hcap : inCapacity sb old = false
    · rw [if_pos hcap]
      refine ⟨_, stopJournal_quiet hq _ _, hframe.trans frame_hold, fun _ => rfl, ?_⟩
      rw [if_pos ⟨hlast, hcap⟩]
      exact setNlink_dir
    · rw [if_neg hcap]
      refine ⟨_, stopJournal_quiet hq _ _, (hframe.trans (frame_setTracked false)).trans (frame_setDir _),
        fun _ => setDir_nlink _, ?_⟩
      have hd : (((s.setNlink old m).setTracked old false).ino dir).dir = (s.ino dir).dir := setNlink_dir
      rw [if_neg fun h => hcap h.2, setDir_dir_self, hd, rewritten]
  · rw [if_neg hlast]
    refine ⟨_, stopJournal_quiet hq _ _, hframe.trans (frame_setDir _), fun _ => setDir_nlink _, ?_⟩
    rw [if_neg fun h => hlast h.1, setDir_dir_self, setNlink_dir, rewritten]

/-- A call that rewrites the record `de`. -/
structure Lands (sb : Sb) (c : Calls) (s : Fs) (dir index new : ℕ) (de : DirEntry) : Prop
    extends Calm sb c s dir new de.inode where
  isDir : s.isDir dir = true
  record : ∃ k, nthLive sb 0 index ((s.ino dir).dir.block 0) = some k ∧
    ((s.ino dir).dir.block 0)[k]? = some de
  others : new ≠ dir ∧ de.inode ≠ dir
  slot : inCapacity sb de.inode = true

theorem Lands.rewrites (h : Lands sb c s dir index new de) :
    ∃ s' k, evfsDentryUpdate sb c s dir index new = .ret s' 0 ∧
      ((s.ino dir).dir.block 0)[k]? = some de ∧ (s'.ino dir).dir = rewritten (s.ino dir).dir new k := by
  obtain ⟨k, hk, hde⟩ := h.record
  obtain ⟨x, hx⟩ := (h.toCalm.update_eq h.isDir hk hde rfl).2 h.others.1 h.others.2
  obtain ⟨s', hs', -, -, hdir⟩ :=
    updateRecord_eq sb h.calls (raised s new x) dir new de.inode k
  have hdirs : ((raised s new x).ino dir).dir = (s.ino dir).dir := setNlink_dir
  refine ⟨s', k, hx.trans hs', hde, ?_⟩
  rw [hdir, if_neg (by rw [h.slot]; simp), hdirs]

end LinuxEvfs.Namespace.Rewrite
