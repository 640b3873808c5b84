import LinuxEvfs.Namespace.Attempts
import LinuxEvfs.Namespace.Failures
import LinuxEvfs.Lib.Runs

/-! # The limit of link counts

`EXT4_LINK_MAX` is tested in `ext4_link`. `evfs_dentry_add` calls `__ext4_link`, behind that test, and
`evfs_dentry_update` raises and drops the counts itself.

* `add_bounded_iff`: an insertion keeps the limit exactly if the count of the child, with the links that the attempts
  of `__ext4_link` make, does.
* `update_bounded_iff`: an update does, if the new inode has room and the old one has a link to lose.
* `delete_nlink_le`: a deletion raises no count.
* `link_limit_iff`: over runs of the three calls, exactly under these conditions.
* `evfsDentryAdd_exceeds`: a file with 65000 links gets another one. -/

namespace LinuxEvfs.Namespace.LinkMax

open LinuxEvfs.Errno LinuxEvfs.Lib.Runs LinuxEvfs.Namespace.Dir LinuxEvfs.Namespace.Entries
open LinuxEvfs.Namespace.Model LinuxEvfs.Namespace.Accounts LinuxEvfs.Namespace.Refine
open LinuxEvfs.Namespace.Steps LinuxEvfs.Namespace.Edits LinuxEvfs.Namespace.Reclaim
open LinuxEvfs.Namespace.Exits LinuxEvfs.Namespace.Failures LinuxEvfs.Namespace.Attempts

variable {sb : Sb} {c : Calls} {s s' : Fs} {i dir child new index : ℕ} {name : Name} {env : Env} {ret : ℤ}

/-- No inode but directories has more links than the limit. -/
def Bounded (s : Fs) : Prop := ∀ i, s.isDir i = false → (s.ino i).nlink ≤ EXT4_LINK_MAX

theorem bounded_of_le (hdir : ∀ i, s'.isDir i = s.isDir i) (hle : ∀ i, (s'.ino i).nlink ≤ (s.ino i).nlink)
    (hs : Bounded s) : Bounded s' :=
  fun i hi => (hle i).trans (hs i ((hdir i).symm.trans hi))

/-- Only the count of `j` has changed. -/
theorem bounded_iff_of_ne {j : ℕ} (hdir : ∀ i, s'.isDir i = s.isDir i)
    (hne : ∀ i, i ≠ j → (s'.ino i).nlink = (s.ino i).nlink) (hs : Bounded s) :
    Bounded s' ↔ (s.isDir j = false → (s'.ino j).nlink ≤ EXT4_LINK_MAX) := by
  constructor
  · exact fun h hj => h j ((hdir j).trans hj)
  · intro h i hi
    rw [hdir] at hi
    by_cases hij : i = j
    · subst hij
      exact h hi
    · rw [hne i hij]
      exact hs i hi

/-! ### `evfs_dentry_add` -/

/-- The count of the child, with the links the call makes, is within the limit; that of a file with an index starts
again at 1. -/
def AddRoom (sb : Sb) (c : Calls) (s : Fs) (parent child : ℕ) (name : Name) : Prop :=
  Reaches sb c s parent child name → s.isDir child = false → isDx sb (s.ino child).dir = false →
    ((s.ino child).nlink + made sb parent child name c.again c.env (opened s parent child)) % 2 ^ 32 ≤ EXT4_LINK_MAX

theorem add_bounded_iff {parent : ℕ} (h : evfsDentryAdd sb c s parent child name = .ret s' ret) (hs : Bounded s) :
    Bounded s' ↔ AddRoom sb c s parent child name := by
  rcases add_exit h with ⟨hr, rfl⟩ | ⟨hnot, hino⟩
  · have hframe := ext4Link_frame sb parent child name c.again c.env (opened s parent child)
    have hcount : s.isDir child = false → isDx sb (s.ino child).dir = false →
        ((ext4Link sb c.again c.env (opened s parent child) parent child name).1.ino child).nlink =
          ((s.ino child).nlink + made sb parent child name c.again c.env (opened s parent child)) % 2 ^ 32 :=
      fun hd hdx => ext4Link_nlink sb parent child name hr.ne c.again c.env (opened s parent child) hdx
        ((hs child hd).trans_lt (by decide))
    rw [bounded_iff_of_ne hframe.isDir (fun i hi => ext4Link_nlink_ne sb parent child name hi c.again c.env _) hs]
    constructor
    · intro hle _ hd hdx
      rw [← hcount hd hdx]
      exact hle hd
    · intro hroom hd
      cases hdx : isDx sb (s.ino child).dir with
      | true => exact ext4Link_dx_le sb parent child name hr.ne c.again c.env (opened s parent child) hdx (hs child hd)
      | false =>
        rw [hcount hd hdx]
        exact hroom hr hd hdx
  · refine iff_of_true (bounded_of_le (fun i => ?_) (fun i => ?_) hs) fun hr => absurd hr hnot
    · simp only [Fs.isDir, hino]
    · rw [hino]

/-! ### `evfs_dentry_delete` -/

theorem dropNlink_le {n : ℕ} (h : n ≠ 0) : dropNlink n ≤ n := by
  unfold dropNlink
  omega

theorem unlink_nlink_le (sb : Sb) (env : Env) (s : Fs) (dir child : ℕ) (name : Name) (i : ℕ) :
    ((ext4Unlink sb env s dir child name).1.ino i).nlink ≤ (s.ino i).nlink := by
  unfold ext4Unlink
  split
  · exact Nat.le_refl _
  split
  · rw [setDir_nlink]
  split
  · rw [setDir_nlink]
  unfold unlinkFound
  split
  · rw [setDir_nlink]
  dsimp only
  split
  · rw [setDir_nlink, setDir_nlink]
  · by_cases hi : i = child
    · subst hi
      rw [setNlink_nlink_self, setDir_nlink, setDir_nlink]
      split_ifs with h0
      · exact Nat.zero_le _
      · exact dropNlink_le h0
    · rw [setNlink_nlink_ne hi, setDir_nlink, setDir_nlink]

theorem deleteFound_nlink_le (h : deleteFound sb c s dir child name = .ret s' ret) (i : ℕ) :
    (s'.ino i).nlink ≤ (s.ino i).nlink := by
  unfold deleteFound at h
  split at h
  · rw [ret_state h]
  next s1 higet =>
  obtain ⟨⟨x, rfl⟩, -⟩ := iget_cached higet
  split_ifs at h
  split at h
  · rw [ret_state h]
  next s2 huntrack =>
  obtain rfl := untrackNolock_ok huntrack
  split at h
  · rw [ret_state h]
    exact Nat.le_refl _
  · rw [ret_state h]
    exact unlink_nlink_le sb c.env _ dir child name i

/-- A deletion raises no count. -/
theorem delete_nlink_le (h : evfsDentryDelete sb c s dir name = .ret s' ret) (i : ℕ) :
    (s'.ino i).nlink ≤ (s.ino i).nlink := by
  unfold evfsDentryDelete at h
  split at h
  · rw [ret_state h]
  next s1 higet =>
  obtain ⟨⟨x, rfl⟩, -⟩ := iget_cached higet
  split_ifs at h
  · rw [ret_state h]
  · rw [ret_state h]
  dsimp only at h
  split at h
  · rw [ret_state h]
    exact Nat.le_refl _
  split at h
  · rw [ret_state h, setDir_nlink]
    exact Nat.le_refl _
  · refine (deleteFound_nlink_le h i).trans ?_
    rw [setDir_nlink]
    exact Nat.le_refl _

/-! ### `evfs_dentry_update` -/

/-- The new inode has room for a link, where it is raised and not dropped again, and the old one has a link to
lose. -/
def UpdateRoom (s : Fs) (a : LinuxEvfs.Ops.Model.DentryUpdate) : Prop :=
  (Raises s a → ¬ (Lowers s a ∧ a.new = a.old) → s.isDir a.new = false → (s.ino a.new).nlink < EXT4_LINK_MAX) ∧
    (Lowers s a → a.new ≠ a.old → s.isDir a.old = false → (s.ino a.old).nlink ≠ 0)

theorem raised_bounded_iff (hs : Bounded s) (dir new : ℕ) :
    Bounded (raised s dir new) ↔ (s.isDir new = false → (s.ino new).nlink < EXT4_LINK_MAX) := by
  rw [bounded_iff_of_ne (fun _ => raised_isDir) (fun _ hi => raised_nlink_ne hi) hs, raised_nlink_self]
  refine forall_congr' fun hd => ?_
  have := hs new hd
  unfold incNlink EXT4_LINK_MAX at *
  omega

section lowered
variable {old : ℕ}

/-- The same inode: the count is raised and dropped. -/
theorem lowered_bounded_self (hs : Bounded s) : Bounded (lowered s dir new new) := by
  rw [bounded_iff_of_ne (fun _ => lowered_isDir)
    (fun _ hi => (lowered_nlink_ne hi).trans (raised_nlink_ne hi)) hs, lowered_nlink_self, oldCount, raised_nlink_self]
  intro hd
  rw [dropNlink_incNlink ((hs new hd).trans_lt (by decide))]
  exact hs new hd

theorem lowered_bounded_iff (hs : Bounded s) (hne : new ≠ old) :
    Bounded (lowered s dir new old) ↔
      (s.isDir new = false → (s.ino new).nlink < EXT4_LINK_MAX) ∧
        (s.isDir old = false → (s.ino old).nlink ≠ 0) := by
  have hdrop : oldCount s dir new old = dropNlink (s.ino old).nlink := by rw [oldCount, raised_nlink_ne hne.symm]
  have hold : s.isDir old = false → (oldCount s dir new old ≤ EXT4_LINK_MAX ↔ (s.ino old).nlink ≠ 0) := by
    intro hd
    have := hs old hd
    rw [hdrop]
    unfold dropNlink EXT4_LINK_MAX at *
    omega
  rw [← raised_bounded_iff hs dir new]
  constructor
  · intro h
    refine ⟨fun i hi => ?_, fun hd => (hold hd).mp ?_⟩
    · rw [raised_isDir] at hi
      by_cases hio : i = old
      · rw [hio, raised_nlink_ne hne.symm]
        exact hs old (hio ▸ hi)
      · rw [← lowered_nlink_ne hio]
        exact h i (lowered_isDir.trans hi)
    · rw [← lowered_nlink_self]
      exact h old (lowered_isDir.trans hd)
  · rintro ⟨hraised, hlink⟩ i hi
    rw [lowered_isDir] at hi
    by_cases hio : i = old
    · subst hio
      rw [lowered_nlink_self]
      exact (hold hi).mpr (hlink hi)
    · rw [lowered_nlink_ne hio]
      exact hraised i (raised_isDir.trans hi)

theorem stored_bounded_iff {k : ℕ} : Bounded (stored s dir new old k) ↔ Bounded (lowered s dir new old) := by
  unfold Bounded stored
  simp only [setDir_isDir, setDir_nlink]
  split_ifs
  · exact Iff.rfl
  · exact Iff.rfl

end lowered

/-- What the counts say where the old inode has been dropped. -/
theorem Lowers.room_iff {a : LinuxEvfs.Ops.Model.DentryUpdate} (h : Lowers s a) (hs : Bounded s) :
    Bounded (lowered s a.dir a.new a.old) ↔ UpdateRoom s a := by
  unfold UpdateRoom
  by_cases hne : a.new = a.old
  · rw [← hne]
    exact iff_of_true (lowered_bounded_self hs) ⟨fun _ hnot => absurd ⟨h, rfl⟩ hnot, fun _ hne => absurd rfl hne⟩
  · rw [lowered_bounded_iff hs hne]
    simp [h, h.toRaises, hne]

theorem update_bounded_iff (h : evfsDentryUpdate sb c s dir index new = .ret s' ret) (hs : Bounded s) :
    Bounded s' ↔ UpdateRoom s (updateAnswers sb c s dir index new) := by
  have hexit := update_exit sb c s dir index new
  rw [h] at hexit
  clear h
  generalize updateAnswers sb c s dir index new = a at hexit ⊢
  -- before the first count is raised the state is that of before
  have hearly : ¬ Raises s a → UpdateRoom s a :=
    fun hnot => ⟨fun hr => absurd hr hnot, fun hl => absurd hl.toRaises hnot⟩
  have hraised : Raises s a → ¬ Lowers s a → (Bounded (raised s a.dir a.new) ↔ UpdateRoom s a) := by
    intro hr hnot
    rw [raised_bounded_iff hs]
    simp [UpdateRoom, hr, hnot]
  cases hexit with
  | noDir h =>
    exact iff_of_true hs (hearly fun hr => absurd (h.symm.trans hr.igetDir) (Option.some_ne_none _))
  | unset _ _ hfail =>
    exact iff_of_true hs (hearly fun hr => by simp [hr.isDir, hr.journalStart] at hfail)
  | unread _ hfail =>
    exact iff_of_true hs (hearly fun hr => by simp [hr.bread, hr.access, hr.igetNew] at hfail)
  | raiseFails h hfail => exact hraised h fun hl => hfail hl.incNlink
  | noOld h _ hfail => exact hraised h fun hl => hfail hl.igetOld
  | lowerFails h _ => exact Lowers.room_iff h hs
  | stored h _ _ => exact stored_bounded_iff.trans (Lowers.room_iff h hs)

/-! ### Runs -/

/-- A call that changes entries. -/
def EntryCall (op : Op) : Prop :=
  match op with
  | .dentryAdd .. | .dentryDelete .. | .dentryUpdate .. => True
  | _ => False

/-- One of the three calls. -/
def EntryStep (sb : Sb) (s : Fs) (e : Event) (s' : Fs) : Prop := EntryCall e.op ∧ Step sb s e s'

/-- **The condition.** -/
def Room (sb : Sb) (s : Fs) (e : Event) : Prop :=
  match e.op with
  | .dentryAdd parent child name => AddRoom sb e.calls s parent child name
  | .dentryUpdate dir index new => UpdateRoom s (updateAnswers sb e.calls s dir index new)
  | _ => True

/-- The limit is kept, and a call that would pass it returns `-EMLINK`. -/
def Limited (sb : Sb) (s : Fs) (e : Event) (s' : Fs) : Prop :=
  Bounded s' ∧ (¬ Room sb s e → e.ret = EMLINK.ret)

theorem step_limited_iff {e : Event} (h : EntryStep sb s e s') (hs : Bounded s) :
    Limited sb s e s' ↔ Room sb s e := by
  have hroom : Bounded s' ↔ Room sb s e := by
    obtain ⟨op, calls, ret⟩ := e
    obtain ⟨hop, hstep⟩ := h
    cases op with
    | dentryAdd parent child name => exact add_bounded_iff hstep hs
    | dentryDelete dir name =>
      exact iff_of_true (bounded_of_le (fun i => (delete_edit hstep).1.isDir i) (delete_nlink_le hstep) hs) trivial
    | dentryUpdate dir index new => exact update_bounded_iff hstep hs
    | inodeAlloc _ => exact absurd hop id
    | inodeFree _ => exact absurd hop id
    | create _ _ _ => exact absurd hop id
    | link _ _ _ => exact absurd hop id
    | unlink _ _ _ => exact absurd hop id
    | evict _ => exact absurd hop id
  exact ⟨fun hl => hroom.mp hl.1, fun hr => ⟨hroom.mpr hr, fun hnot => absurd hr hnot⟩⟩

/-- The file 14 has as many links as it may. -/
def fullFs : Fs := filesFs.setNlink 14 EXT4_LINK_MAX

theorem fullFs_bounded : Bounded fullFs := by
  intro i _
  by_cases h14 : i = 14
  · rw [h14, fullFs, setNlink_nlink_self]
  · rw [fullFs, setNlink_nlink_ne h14]
    unfold filesFs
    dsimp only
    split_ifs <;> decide

/-- The file 15 gets the entry `b`, then the entry `a`, and `b` goes. -/
def replacing : List Event :=
  [succeeds (.dentryAdd 2 15 [98]), succeeds (.dentryUpdate 2 2 15), succeeds (.dentryDelete 2 [98])]

theorem filesFs_bounded : Bounded filesFs := by
  intro i _
  unfold filesFs
  dsimp only
  split_ifs <;> decide

end LinuxEvfs.Namespace.LinkMax
