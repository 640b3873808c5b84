import LinuxEvfs.Namespace.Failures
import LinuxEvfs.Namespace.Records

/-! # The types in directory entries, over runs

An entry holds the type of its inode, and readers trust it (`Truthful`). An insertion writes the type of the inode; the
update of an entry writes its number only, and the allocation of an inode makes it a regular file whatever names it.

* `add_truthful`, `delete_truthful`: these keep the types right.
* `update_truthful_iff`, `alloc_truthful_iff`: when the other two do.
* `entry_types_truthful_iff`: over runs of successful calls, exactly under these conditions.
* `evfsDentryUpdate_mistypes`: the entry of a file is given the number of a symbolic link. -/

namespace LinuxEvfs.Namespace.Types

open LinuxEvfs.Errno LinuxEvfs.Lib.Runs LinuxEvfs.Namespace.Dir LinuxEvfs.Namespace.Entries
open LinuxEvfs.Namespace.Model LinuxEvfs.Namespace.Counts LinuxEvfs.Namespace.Accounts
open LinuxEvfs.Namespace.Refine LinuxEvfs.Namespace.Steps LinuxEvfs.Namespace.Update
open LinuxEvfs.Namespace.Edits LinuxEvfs.Namespace.Reclaim LinuxEvfs.Namespace.Exits
open LinuxEvfs.Namespace.Failures LinuxEvfs.Namespace.Records

variable {sb : Sb} {c : Calls} {s s' : Fs} {i dir child : ℕ} {name : Name} {env : Env} {ret : ℤ}
  {q : ℕ → Name → FileType → Prop}

/-- The type is that of the inode. -/
def typeOf (s : Fs) (i : ℕ) (_ : Name) (t : FileType) : Prop := t = (s.ino i).type

/-- The live entries of all directories hold the types of the inodes they name. -/
def Truthful (s : Fs) : Prop := ∀ i, s.isDir i = true → DirSays (typeOf s) (s.ino i).dir

/-- No live entry of another directory names `i`. -/
def Unnamed (s : Fs) (i : ℕ) : Prop :=
  ∀ p, p ≠ i → s.isDir p = true → DirSays (fun j _ _ => j ≠ i) (s.ino p).dir

/-- A call that the claim of truth is about: it changes entries or makes an inode, and succeeds. -/
def Successful (e : Event) : Prop :=
  e.ret = 0 ∧
    match e.op with
    | .inodeAlloc _ | .dentryAdd .. | .dentryDelete .. | .dentryUpdate .. => True
    | _ => False

/-- **The condition.** An update that gets as far as writing replaces the inode by one of its type; an inode that is
allocated was a regular file before, or nothing names it. -/
def KeepsTypes (sb : Sb) (s : Fs) (e : Event) : Prop :=
  match e.op with
  | .inodeAlloc i => (s.ino i).type = .regFile ∨ Unnamed s i
  | .dentryUpdate dir index new =>
    let a := updateAnswers sb e.calls s dir index new
    Lowers s a → ¬ lowerFails a → (s.ino new).type = (s.ino a.old).type
  | _ => True

/-! ### Calls that change one directory -/

theorem typeOf_frame (hf : Frame dir s s') : typeOf s' = typeOf s := by
  funext i n t
  unfold typeOf
  rw [hf.type i]

theorem Truthful.of_frame (h : Truthful s) (hf : Frame dir s s')
    (hdir : s.isDir dir = true → DirSays (typeOf s) (s'.ino dir).dir) : Truthful s' := by
  intro i hi
  rw [typeOf_frame hf]
  rw [hf.isDir] at hi
  by_cases hne : i = dir
  · subst hne
    exact hdir hi
  · rw [hf.others i hne]
    exact h i hi

/-- An insertion writes the type of the inode. -/
theorem add_truthful (hft : sb.filetype = true) (h : evfsDentryAdd sb c s dir child name = .ret s' ret)
    (hs : Truthful s) : Truthful s' := by
  obtain ⟨x, ⟨rfl, -⟩ | ⟨-, -, hdir, -, rfl, -⟩⟩ := add_cases h
  · exact hs
  · have he : Says (typeOf s) (newEntry sb { s with cached := x } child name) := by
      intro _
      simp only [newEntry, hft, typeOf, if_true]
    have hframe := ext4Link_frame sb dir child name c.again c.env { s with cached := x }
    exact hs.of_frame ((frame_cached x).trans hframe) fun _ =>
      ext4Link_says sb dir child name (typeOf s) c.again c.env _ he (hs dir hdir)

theorem delete_truthful (h : evfsDentryDelete sb c s dir name = .ret s' ret) (hs : Truthful s) :
    Truthful s' := by
  obtain ⟨hframe, hdrops, -⟩ := delete_edit h
  refine hs.of_frame hframe fun hdir => ?_
  cases hdrops with
  | kept hblocks _ _ =>
    unfold DirSays
    rw [hblocks]
    exact hs dir hdir
  | gone _ _ _ hx hblocks _ =>
    unfold DirSays
    rw [hblocks]
    exact (hs dir hdir).setBlock _ (says_genericDelete hx ((hs dir hdir).block _))

/-! ### `evfs_dentry_update` -/

theorem rewritten_says {d : Dir} {new k : ℕ} {de : DirEntry} (hd : DirSays q d)
    (hk : (d.block 0)[k]? = some de) :
    DirSays q (rewritten d new k) ↔ Says q { de with inode := new % 2 ^ 32 } := by
  rw [← says_retarget (hd.block 0) hk]
  constructor
  · intro h
    have hlen : 0 < d.blocks.length := by
      by_contra hne
      rw [Dir.block, List.getElem?_eq_none (Nat.not_lt.mp hne)] at hk
      cases hk
    exact h _ (List.mem_set hlen _)
  · exact hd.setBlock 0

/-- An update writes the number and keeps the type. -/
theorem update_truthful_iff {index new : ℕ} (h : evfsDentryUpdate sb c s dir index new = .ret s' ret)
    (hs : Truthful s) :
    Truthful s' ↔ (Lowers s (updateAnswers sb c s dir index new) →
      ¬ lowerFails (updateAnswers sb c s dir index new) →
      (s.ino new).type = (s.ino (updateAnswers sb c s dir index new).old).type) := by
  have hframe := (update_edit h).1
  rcases update_dir h with ⟨hrw, hl, k, hk, hdir⟩ | ⟨hnot, hdir⟩
  · obtain ⟨de, hde, hlive⟩ := nthLive_some sb hk
    have hisDir : s.isDir dir = true := hl.isDir
    have hlegal := sb.legal_le new (refusal_legal hl.igetNew)
    have hmod : new % 2 ^ 32 = new := Nat.mod_eq_of_lt (hlegal.2.trans_lt sb.count_lt)
    have hold : (updateAnswers sb c s dir index new).old = de.inode := by
      rw [updateAnswers_old, oldNo, hk]
      exact inodeAt_of_some hde
    have htype : de.fileType = (s.ino de.inode).type :=
      (hs dir hisDir).block 0 de (List.mem_of_getElem? hde) hlive
    have hsays : DirSays (typeOf s) (s'.ino dir).dir ↔ (s.ino new).type = (s.ino de.inode).type := by
      rw [hdir, rewritten_says (hs dir hisDir) hde, hmod, ← htype]
      exact ⟨fun h => (h hlegal.1.ne').symm, fun h _ => h.symm⟩
    rw [hold]
    constructor
    · intro h _ _
      have := h dir (by rwa [hframe.isDir])
      rw [typeOf_frame hframe] at this
      exact hsays.mp this
    · exact fun h => hs.of_frame hframe fun _ => hsays.mpr (h hl ((rewrites_iff _).mp hrw).2.2.2)
  · refine iff_of_true (hs.of_frame hframe fun hd => ?_) fun hl hok => absurd (hl.rewrites hok) hnot
    rw [hdir]
    exact hs dir hd

/-! ### `evfs_inode_alloc` -/

theorem stop_zero {v : ℤ} (h : stopJournal c s v = .ret s' 0) : v = 0 ∧ s' = s := by
  unfold stopJournal at h
  cases hstop : c.env .journalStop with
  | none =>
    rw [hstop] at h
    cases h
    exact ⟨rfl, rfl⟩
  | some err =>
    rw [hstop] at h
    exact absurd (ret_value h).symm err.ret_ne_zero

/-- A successful allocation makes a regular file. -/
theorem alloc_zero (h : evfsInodeAlloc sb c s i = .ret s' 0) : s'.ino = Function.update s.ino i newInode := by
  have hstop : ∀ {x : Fs} {err : Errno}, stopJournal c x err.ret ≠ .ret s' 0 :=
    fun h => Errno.ret_ne_zero _ (stop_zero h).1
  have hret : ∀ {x : Fs} {err : Errno}, Outcome.ret x err.ret ≠ .ret s' 0 :=
    fun h => Errno.ret_ne_zero _ (ret_value h).symm
  unfold evfsInodeAlloc at h
  dsimp only at h
  split at h
  · exact absurd h hret
  split at h
  · exact absurd h hret
  split at h
  · exact absurd h hstop
  split at h
  · exact absurd h hstop
  split at h
  · exact absurd h hstop
  next htrack =>
  split at h
  · exact absurd h hstop
  split at h
  · exact absurd h hstop
  · rw [(stop_zero h).2, (track_ok htrack).1]
    rfl

/-- An allocation makes the inode a regular file. -/
theorem alloc_truthful_iff (h : evfsInodeAlloc sb c s i = .ret s' 0) (hs : Truthful s) :
    Truthful s' ↔ (s.ino i).type = .regFile ∨ Unnamed s i := by
  have hino := alloc_zero h
  have hself : s'.ino i = newInode := by rw [hino, Function.update_self]
  have hne : ∀ {j}, j ≠ i → s'.ino j = s.ino j := fun hj => by rw [hino, Function.update_of_ne hj]
  have hisDir : ∀ {p}, s'.isDir p = true → p ≠ i ∧ s.isDir p = true := by
    intro p hp
    have hpi : p ≠ i := by
      rintro rfl
      rw [Fs.isDir, hself] at hp
      cases hp
    exact ⟨hpi, by rwa [Fs.isDir, hne hpi] at hp⟩
  constructor
  · intro h'
    by_contra hcon
    rw [not_or] at hcon
    refine hcon.2 fun p hpi hp b hb de hde hlive hdei => hcon.1 ?_
    have hp' : s'.isDir p = true := by rwa [Fs.isDir, hne hpi]
    have hnew := h' p hp' b (by rwa [hne hpi]) de hde hlive
    have hold := hs p hp b hb de hde hlive
    rw [typeOf, hdei] at hold
    rw [typeOf, hdei, hself] at hnew
    exact hold.symm.trans hnew
  · intro hor p hp b hb de hde hlive
    obtain ⟨hpi, hpd⟩ := hisDir hp
    rw [hne hpi] at hb
    have hold := hs p hpd b hb de hde hlive
    unfold typeOf at hold ⊢
    by_cases hdei : de.inode = i
    · rcases hor with htype | hun
      · rw [hold, hdei, hself]
        exact htype
      · exact absurd hdei (hun p hpi hpd b hb de hde hlive)
    · rw [hold, hne hdei]

/-! ### Runs -/

theorem step_truthful_iff (hft : sb.filetype = true) {e : Event} (h : Step sb s e s') (hok : Successful e)
    (hs : Truthful s) : Truthful s' ↔ KeepsTypes sb s e := by
  obtain ⟨op, calls, ret⟩ := e
  obtain ⟨hret, hop⟩ := hok
  dsimp only at hret
  subst hret
  cases op with
  | inodeAlloc i => exact alloc_truthful_iff h hs
  | dentryAdd parent child name => exact iff_of_true (add_truthful hft h hs) trivial
  | dentryDelete dir name => exact iff_of_true (delete_truthful h hs) trivial
  | dentryUpdate dir index new => exact update_truthful_iff h hs
  | inodeFree _ => exact absurd hop id
  | create _ _ _ => exact absurd hop id
  | link _ _ _ => exact absurd hop id
  | unlink _ _ _ => exact absurd hop id
  | evict _ => exact absurd hop id

/-- **Entry types over runs.** -/
theorem entry_types_truthful_iff (sb : Sb) (hft : sb.filetype = true) {s : Fs} {l : List (Event × Fs)}
    (hr : Run (Step sb) s l) (hs : Truthful s) (hok : Along (fun _ e => Successful e) s l) :
    (∀ x ∈ l, Truthful x.2) ↔ Along (KeepsTypes sb) s l :=
  hr.forall_iff (I := fun _ => True) (fun _ _ _ => trivial)
    (fun h hok _ hs => step_truthful_iff hft h hok hs) trivial hs hok

/-! ### A symbolic link -/

/-- The root holds the file `a`; the symbolic link 16 has a link elsewhere. -/
def linkFs : Fs := filesFs.setIno 16 ⟨.symlink, 1, Dir.empty⟩

theorem linkFs_truthful : Truthful linkFs := by
  intro i hi
  have h2 : i = 2 := by
    by_contra hne
    simp only [linkFs, filesFs, Fs.isDir, Fs.setIno, Function.update] at hi
    split_ifs at hi <;> simp at hi
  subst h2
  unfold DirSays BlockSays Says typeOf
  decide

/-- **Another type.** The entry of the file `a` is given the number of the symbolic link, and still says that it is a
file. -/
theorem evfsDentryUpdate_mistypes :
    Truthful linkFs ∧ smallSb.filetype = true ∧
      ∃ s', Step smallSb linkFs (succeeds (.dentryUpdate 2 2 16)) s' ∧ ¬ Truthful s' := by
  refine ⟨linkFs_truthful, rfl, _, rfl, fun h => ?_⟩
  have := h 2 (by decide)
  unfold DirSays BlockSays Says typeOf at this
  exact absurd this (by decide)

/-- A file is made and gets the entry `b`; then it gets the entry `a` too, and `b` goes. -/
def retyping : List Event :=
  [succeeds (.inodeAlloc 12), succeeds (.dentryAdd 2 12 [98]), succeeds (.dentryUpdate 2 2 12),
    succeeds (.dentryDelete 2 [98])]

theorem entry_types_truthful_retyping :
    returns smallSb linkFs retyping = true ∧ ∀ x ∈ trace smallSb linkFs retyping, Truthful x.2 := by
  have hret : returns smallSb linkFs retyping = true := by decide
  exact ⟨hret, (entry_types_truthful_iff smallSb rfl (run_trace hret) linkFs_truthful
    ⟨⟨rfl, trivial⟩, ⟨rfl, trivial⟩, ⟨rfl, trivial⟩, ⟨rfl, trivial⟩, trivial⟩).mpr
    ⟨.inl rfl, trivial, fun _ _ => by decide, trivial, trivial⟩⟩

end LinuxEvfs.Namespace.Types
