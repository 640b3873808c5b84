import LinuxEvfs.Namespace.Update

/-! # What the entry operations do to the directories

Each of `evfs_dentry_add`, `evfs_dentry_delete` and `evfs_dentry_update` changes the records of the
directory it is given and of no other one, and no inode changes its type or its bit (`Frame`). In that
directory, counted with any weight:

* `add_edit`: one record more, when the call returns 0, and none otherwise.
* `delete_edit`: a record with the name goes, or none does.
* `update_edit`: a record gets another inode number, or none does. -/

namespace LinuxEvfs.Namespace.Edits

open LinuxEvfs.Errno LinuxEvfs.Namespace.Dir LinuxEvfs.Namespace.Entries LinuxEvfs.Namespace.Counts
open LinuxEvfs.Namespace.Model LinuxEvfs.Namespace.Accounts LinuxEvfs.Namespace.Refine
open LinuxEvfs.Namespace.Steps LinuxEvfs.Namespace.Update

variable {sb : Sb} {c : Calls} {s s' s'' : Fs} {i dir child : ℕ} {name : Name} {env : Env} {ret : ℤ}

/-! ### What is left alone -/

/-- Only the records of `dir` change. -/
structure Frame (dir : ℕ) (s s' : Fs) : Prop where
  type : ∀ i, (s'.ino i).type = (s.ino i).type
  bitmap : s'.bitmap = s.bitmap
  others : ∀ i, i ≠ dir → (s'.ino i).dir = (s.ino i).dir

theorem Frame.trans (h : Frame dir s s') (h' : Frame dir s' s'') : Frame dir s s'' :=
  ⟨fun i => (h'.type i).trans (h.type i), h'.bitmap.trans h.bitmap,
    fun i hi => (h'.others i hi).trans (h.others i hi)⟩

theorem Frame.isDir (h : Frame dir s s') (i : ℕ) : s'.isDir i = s.isDir i := by
  simp only [Fs.isDir, h.type]

theorem frame_cached (c : ℕ → Bool) : Frame dir s { s with cached := c } :=
  ⟨fun _ => rfl, rfl, fun _ _ => rfl⟩

theorem frame_hold : Frame dir s (s.hold i) := ⟨fun _ => rfl, rfl, fun _ _ => rfl⟩

theorem frame_setTracked (x : Bool) : Frame dir s (s.setTracked i x) :=
  ⟨fun _ => rfl, rfl, fun _ _ => rfl⟩

theorem frame_setNlink (n : ℕ) : Frame dir s (s.setNlink i n) :=
  ⟨fun _ => setNlink_type, rfl, fun _ _ => setNlink_dir⟩

theorem setDir_type (d : Dir) : ((s.setDir dir d).ino i).type = (s.ino i).type := by
  by_cases h : i = dir
  · rw [h, Fs.setDir, setIno_self]
  · rw [Fs.setDir, setIno_ne _ h]

theorem frame_setDir (d : Dir) : Frame dir s (s.setDir dir d) :=
  ⟨fun _ => setDir_type d, rfl, fun _ hi => setDir_dir_ne d hi⟩

/-- A call that returns an error early. -/
theorem ret_early {a b : Fs} {err : Errno} (h : Outcome.ret a err.ret = .ret b ret) :
    b = a ∧ ret ≠ 0 := by
  cases h
  exact ⟨rfl, err.ret_ne_zero⟩

/-- `ext4_iget` takes legal numbers and changes what is cached. -/
theorem iget_cached {err : Option Errno} (h : ext4Iget sb err s i = .ok s') :
    (∃ x, s' = { s with cached := x }) ∧ sb.legal i = true := by
  unfold ext4Iget at h
  by_cases hlegal : sb.legal i = false
  · rw [if_pos hlegal] at h
    cases h
  rw [if_neg hlegal] at h
  refine ⟨?_, by simpa using hlegal⟩
  by_cases hc : s.cached i = true
  · rw [if_pos hc] at h
    exact ⟨s.cached, (Except.ok.inj h).symm⟩
  rw [if_neg hc] at h
  cases err with
  | some e => cases h
  | none =>
    by_cases hn : (s.ino i).nlink = 0
    · simp only [if_pos hn] at h
      cases h
    · simp only [if_neg hn] at h
      exact ⟨_, (Except.ok.inj h).symm⟩

/-- An inode that `ext4_iget` can return. -/
structure Available (sb : Sb) (s : Fs) (i : ℕ) : Prop where
  legal : sb.legal i = true
  linked : s.cached i = true ∨ (s.ino i).nlink ≠ 0

/-- It does, when the disk is read, and what was available stays so. -/
theorem iget_available (h : Available sb s i) :
    ∃ x, ext4Iget sb none s i = .ok { s with cached := x } ∧ x i = true ∧
      ∀ j, s.cached j = true → x j = true := by
  unfold ext4Iget
  rw [if_neg (by rw [h.legal]; decide)]
  by_cases hc : s.cached i = true
  · exact ⟨s.cached, if_pos hc, hc, fun _ hj => hj⟩
  · have hn : (s.ino i).nlink ≠ 0 := h.linked.resolve_left hc
    refine ⟨Function.update s.cached i true, ?_, Function.update_self _ _ _, fun j hj => ?_⟩
    · rw [if_neg hc]
      exact if_neg hn
    · by_cases hji : j = i
      · rw [hji, Function.update_self]
      · rw [Function.update_of_ne hji]
        exact hj

theorem Available.of_cached {x : ℕ → Bool} (h : Available sb s i)
    (hx : ∀ j, s.cached j = true → x j = true) : Available sb { s with cached := x } i :=
  ⟨h.legal, h.linked.imp_left (hx i)⟩

/-! ### `evfs_dentry_add` -/

/-- What `__ext4_link` leaves: the records of the directory, and some count of the child. -/
structure Links (s : Fs) (dir child : ℕ) (e : DirEntry) (r : Fs × Option Errno) : Prop where
  frame : Frame dir s r.1
  adds : Adds e (s.ino dir).dir ((r.1.ino dir).dir, r.2)

theorem linkOnce_frame (sb : Sb) (env : Env) (s : Fs) (dir child : ℕ) (name : Name) :
    Frame dir s (linkOnce sb env s dir child name).1 := by
  unfold linkOnce
  split
  · exact frame_cached s.cached
  dsimp only
  have hframe : ∀ d, Frame dir s ((s.setNlink child (ext4IncCount sb (s.ino child))).setDir dir d) :=
    fun d => (frame_setNlink _).trans (frame_setDir d)
  split
  · exact hframe _
  · exact (hframe _).trans (frame_setNlink _)

/-- **Attempts.** What every attempt keeps holds however often it is tried. -/
theorem ext4Link_invariant {I : Fs → Prop}
    (hone : ∀ {env : Env} {s : Fs}, I s → I (linkOnce sb env s dir child name).1) :
    ∀ (again : List Env) (env : Env) {s : Fs}, I s → I (ext4Link sb again env s dir child name).1
  | [], env, s, h => hone h
  | env' :: again, env, s, h => by
    unfold ext4Link
    dsimp only
    split
    · exact ext4Link_invariant hone again env' (hone h)
    · exact hone h

theorem ext4Link_frame (sb : Sb) (dir child : ℕ) (name : Name) (again : List Env) (env : Env) (s : Fs) :
    Frame dir s (ext4Link sb again env s dir child name).1 :=
  ext4Link_invariant (I := Frame dir s) (fun h => h.trans (linkOnce_frame sb _ _ dir child name)) again env
    (frame_cached s.cached)

/-- The entry written depends on the type of the child only. -/
theorem Frame.newEntry_eq (h : Frame dir s s') : newEntry sb s' child name = newEntry sb s child name := by
  simp only [newEntry, h.type]

theorem linkOnce_links (hq : Quiet env) (s : Fs) (dir child : ℕ) (name : Name) :
    Links s dir child (newEntry sb s child name) (linkOnce sb env s dir child name) := by
  have hadd := ext4AddEntry_adds sb hq (newEntry sb s child name) (s.ino dir).dir
  refine ⟨linkOnce_frame sb env s dir child name, ?_⟩
  unfold linkOnce
  rw [hq .journalStart rfl, hq .linkInodeDirty rfl]
  dsimp only
  generalize ext4AddEntry sb env (newEntry sb s child name) (s.ino dir).dir = r at hadd ⊢
  obtain ⟨d, err⟩ := r
  cases err with
  | none =>
    rw [setDir_dir_self]
    exact hadd
  | some err =>
    rw [setNlink_dir, setDir_dir_self]
    exact hadd

theorem ext4Link_links (sb : Sb) (dir child : ℕ) (name : Name) :
    ∀ (again : List Env) (env : Env) (s : Fs), Quiet env → (∀ x ∈ again, Quiet x) →
      Links s dir child (newEntry sb s child name) (ext4Link sb again env s dir child name)
  | [], env, s, hq, _ => linkOnce_links hq s dir child name
  | env' :: again, env, s, hq, hagain => by
    have hone : Links s dir child (newEntry sb s child name) (linkOnce sb env s dir child name) :=
      linkOnce_links hq s dir child name
    unfold ext4Link
    dsimp only
    by_cases hsp : (linkOnce sb env s dir child name).2 = some ENOSPC
    · rw [if_pos hsp]
      generalize linkOnce sb env s dir child name = r at hone hsp ⊢
      have hrest := ext4Link_links sb dir child name again env' r.1 (hagain _ List.mem_cons_self)
        fun x hx => hagain x (List.mem_cons_of_mem _ hx)
      rw [hone.frame.newEntry_eq] at hrest
      exact ⟨hone.frame.trans hrest.frame,
        hrest.adds.of_same (hone.adds.kept ENOSPC hsp (by decide))⟩
    · rw [if_neg hsp]
      exact hone

/-- How `evfs_dentry_add` ends: early, or with `__ext4_link`. -/
theorem add_cases {parent : ℕ} (h : evfsDentryAdd sb c s parent child name = .ret s' ret) :
    ∃ x, (s' = { s with cached := x } ∧ ret ≠ 0) ∨
      (sb.legal parent = true ∧ sb.legal child = true ∧ s.isDir parent = true ∧ child ≠ parent ∧
        s' = (ext4Link sb c.again c.env { s with cached := x } parent child name).1 ∧
        ret = retOf (ext4Link sb c.again c.env { s with cached := x } parent child name).2) := by
  unfold evfsDentryAdd at h
  by_cases hlen : name.length = 0 ∨ 255 < name.length
  · rw [if_pos hlen] at h
    exact ⟨s.cached, .inl (ret_early h)⟩
  rw [if_neg hlen] at h
  split at h
  · exact ⟨s.cached, .inl (ret_early h)⟩
  next s1 higet =>
  obtain ⟨⟨x1, rfl⟩, hlegal⟩ := iget_cached higet
  split_ifs at h with hheld hdir halias
  · exact ⟨x1, .inl (ret_early h)⟩
  · exact ⟨x1, .inl (ret_early h)⟩
  split at h
  · exact ⟨x1, .inl (ret_early h)⟩
  next s2 higet2 =>
  obtain ⟨⟨x2, rfl⟩, hclegal⟩ := iget_cached higet2
  split_ifs at h with hheld2
  refine ⟨x2, ?_⟩
  split at h
  · exact .inl (ret_early h)
  · exact .inr ⟨hlegal, hclegal, Bool.eq_true_of_not_eq_false hdir, fun he => hheld2 (.inr he),
      ret_state h, ret_value h⟩

/-- **Adding an entry.** -/
theorem add_edit {parent : ℕ} (hq : Quiet c.env) (hagain : ∀ x ∈ c.again, Quiet x)
    (h : evfsDentryAdd sb c s parent child name = .ret s' ret) :
    Frame parent s s' ∧
      ((ret ≠ 0 ∧ ∀ w, tally w (s'.ino parent).dir ≤ tally w (s.ino parent).dir) ∨
        (ret = 0 ∧ s.isDir parent = true ∧ sb.legal parent = true ∧ sb.legal child = true ∧
          child ≠ parent ∧
          Adds (newEntry sb s child name) (s.ino parent).dir ((s'.ino parent).dir, none))) := by
  obtain ⟨x, ⟨rfl, hret⟩ | ⟨hlegal, hclegal, hdir, hne, rfl, rfl⟩⟩ := add_cases h
  · exact ⟨frame_cached x, .inl ⟨hret, fun _ => Nat.le_refl _⟩⟩
  · have hl := ext4Link_links sb parent child name c.again c.env { s with cached := x } hq hagain
    generalize ext4Link sb c.again c.env { s with cached := x } parent child name = r at hl ⊢
    refine ⟨(frame_cached x).trans hl.frame, ?_⟩
    obtain ⟨s', err⟩ := r
    cases err with
    | none => exact .inr ⟨rfl, hdir, hlegal, hclegal, hne, hl.adds⟩
    | some err => exact .inl ⟨err.ret_ne_zero, hl.adds.le⟩

/-- A call of `evfs_dentry_add` for which no call outside fails and no lock is held. -/
structure Ready (sb : Sb) (c : Calls) (s : Fs) (parent child : ℕ) (name : Name) : Prop where
  calls : ∀ x, c.env x = none
  again : ∀ x ∈ c.again, Quiet x
  unlocked : ∀ i, s.held i = false
  readParent : Available sb s parent
  readChild : Available sb s child
  isDir : s.isDir parent = true
  ne : child ≠ parent
  length : 0 < name.length ∧ name.length ≤ 255

/-- Such a call gets to `__ext4_link`. -/
theorem Ready.add_eq {parent : ℕ} (h : Ready sb c s parent child name) :
    ∃ x, evfsDentryAdd sb c s parent child name
      = .ret (ext4Link sb c.again c.env { s with cached := x } parent child name).1
          (retOf (ext4Link sb c.again c.env { s with cached := x } parent child name).2) := by
  obtain ⟨x, hx, -, hmono⟩ := iget_available h.readParent
  obtain ⟨y, hy, -⟩ := iget_available (h.readChild.of_cached hmono)
  refine ⟨y, ?_⟩
  have hlen : ¬ (name.length = 0 ∨ 255 < name.length) := by
    have := h.length
    omega
  unfold evfsDentryAdd
  rw [if_neg hlen, h.calls, hx]
  dsimp only
  have hdir : Fs.isDir { s with cached := x } parent = true := h.isDir
  rw [h.unlocked parent, if_neg (by decide), if_neg (by rw [hdir]; decide), h.calls,
    if_neg (by decide), h.calls, hy]
  dsimp only
  rw [if_neg (by rw [h.unlocked child]; simpa using h.ne), h.calls, h.calls]
  rfl

/-! ### `evfs_dentry_delete` -/

/-- What a deletion of `name` leaves of the directory `d`: it has failed, or a record with the name and the
number `child` has gone. -/
inductive Drops (sb : Sb) (name : Name) (child : Option ℕ) (d d' : Dir) (ret : ℤ) : Prop
  | kept (hblocks : d'.blocks = d.blocks) (hindex : d'.index = d.index) (hret : ret ≠ 0)
  | gone {b k : ℕ} {de : DirEntry} {x : DirBlock} (hde : (d.block b)[k]? = some de)
      (hname : ext4Match name de = true) (hchild : child = some de.inode)
      (hx : ext4GenericDeleteEntry sb k (d.block b) = .ok x)
      (hblocks : d'.blocks = d.blocks.set b x) (hindex : d'.index = d.index)

theorem Drops.of_blocks {o : Option ℕ} {d d' d'' : Dir} (h : Drops sb name o d' d'' ret)
    (hblocks : d'.blocks = d.blocks) (hindex : d'.index = d.index) : Drops sb name o d d'' ret := by
  cases h with
  | kept h hi hret => exact .kept (h.trans hblocks) (hi.trans hindex) hret
  | gone hde hname hchild hx h hi =>
    rw [block_congr hblocks] at hde hx
    rw [hblocks] at h
    exact .gone hde hname hchild hx h (hi.trans hindex)

/-- A deletion that does not fail takes the record away. -/
theorem Drops.tally {o : Option ℕ} {d d' : Dir} (h : Drops sb name o d d' ret) :
    (d'.blocks = d.blocks ∧ ret ≠ 0) ∨
      ∃ de, ext4Match name de = true ∧ o = some de.inode ∧
        ∀ w, Counts.tally w d = Counts.tally w d' + weigh w de := by
  cases h with
  | kept h _ hret => exact .inl ⟨h, hret⟩
  | @gone b k de x hde hname hchild hx h _ =>
    obtain ⟨de', hde', htally⟩ := tally_delete sb hx
    obtain rfl : de = de' := Option.some.inj (hde.symm.trans hde')
    refine .inr ⟨de, hname, hchild, fun w => ?_⟩
    rw [htally w]
    exact congrArg (· + weigh w de) (tally_congr (d := d') h.symm w)

theorem unlink_drops (sb : Sb) (env : Env) (s : Fs) (dir child : ℕ) (name : Name) :
    Frame dir s (ext4Unlink sb env s dir child name).1 ∧
      Drops sb name (some child) (s.ino dir).dir ((ext4Unlink sb env s dir child name).1.ino dir).dir
        (retOf (ext4Unlink sb env s dir child name).2) := by
  have hf := ext4FindEntry_found sb name (s.ino dir).dir
  unfold ext4Unlink
  split
  · next err _ => exact ⟨frame_cached s.cached, .kept rfl rfl err.ret_ne_zero⟩
  generalize ext4FindEntry sb name (s.ino dir).dir = r at hf ⊢
  obtain ⟨o, d⟩ := r
  obtain ⟨hblocks, hindex, hfound⟩ := hf
  have hkept : ∀ err : Errno, Frame dir s (s.setDir dir d) ∧
      Drops sb name (some child) (s.ino dir).dir ((s.setDir dir d).ino dir).dir
        (retOf (some err)) := by
    intro err
    rw [setDir_dir_self]
    exact ⟨frame_setDir d, .kept hblocks hindex err.ret_ne_zero⟩
  cases o with
  | none => exact hkept ENOENT
  | some p =>
    obtain ⟨b, k⟩ := p
    dsimp only
    by_cases hne : Dir.inodeAt d b k ≠ child
    · rw [if_pos hne]
      exact hkept ENOENT
    rw [if_neg hne]
    obtain ⟨de, hde, hm⟩ := hfound b k rfl
    rw [← block_congr hblocks] at hde
    obtain rfl : de.inode = child := (inodeAt_of_some hde).symm.trans (not_not.mp hne)
    unfold unlinkFound
    split
    · next err _ => exact hkept err
    rw [setDir_dir_self]
    dsimp only
    rw [setDir_setDir]
    rcases ext4DeleteEntry_takes sb env d b k with ⟨err, herr⟩ | ⟨x, hx, hdel⟩
    · rw [herr]
      exact hkept err
    rw [hdel]
    have hgone : ∀ r, Drops sb name (some de.inode) (s.ino dir).dir (d.setBlock b x) r := fun r =>
      Drops.of_blocks (.gone hde hm rfl hx rfl rfl) hblocks hindex
    split
    · rw [setDir_dir_self]
      exact ⟨frame_setDir _, hgone _⟩
    · rw [setNlink_dir, setDir_dir_self]
      exact ⟨(frame_setDir _).trans (frame_setNlink _), hgone _⟩

theorem deleteFound_edit (h : deleteFound sb c s dir child name = .ret s' ret) :
    Frame dir s s' ∧ Drops sb name (some child) (s.ino dir).dir (s'.ino dir).dir ret := by
  unfold deleteFound at h
  split at h
  · obtain ⟨rfl, hret⟩ := ret_early h
    exact ⟨frame_cached _, .kept rfl rfl hret⟩
  next s1 higet =>
  obtain ⟨⟨x, rfl⟩, -⟩ := iget_cached higet
  split_ifs at h with hheld
  split at h
  · obtain ⟨rfl, hret⟩ := ret_early h
    exact ⟨frame_cached _, .kept rfl rfl hret⟩
  next s2 huntrack =>
  obtain rfl := untrackNolock_ok huntrack
  have hframe : Frame dir s (Fs.setTracked { s with cached := x } child false) :=
    (frame_cached x).trans (frame_setTracked false)
  split at h
  · obtain ⟨rfl, hret⟩ := ret_early h
    exact ⟨hframe, .kept rfl rfl hret⟩
  · rw [ret_state h, ret_value h]
    obtain ⟨hf, hd⟩ := unlink_drops sb c.env (Fs.setTracked { s with cached := x } child false) dir child
      name
    exact ⟨hframe.trans hf, hd⟩

/-- **Deleting an entry.** The one that the search finds. -/
theorem delete_edit (h : evfsDentryDelete sb c s dir name = .ret s' ret) :
    Frame dir s s' ∧ Drops sb name (lookup sb s dir name) (s.ino dir).dir (s'.ino dir).dir ret ∧
      (ret = 0 → sb.legal dir = true ∧ s.isDir dir = true) := by
  unfold evfsDentryDelete at h
  split at h
  · obtain ⟨rfl, hret⟩ := ret_early h
    exact ⟨frame_cached _, .kept rfl rfl hret, fun h0 => absurd h0 hret⟩
  next s1 higet =>
  obtain ⟨⟨x, rfl⟩, hlegal⟩ := iget_cached higet
  split_ifs at h with hheld hdir halias
  · obtain ⟨rfl, hret⟩ := ret_early h
    exact ⟨frame_cached _, .kept rfl rfl hret, fun h0 => absurd h0 hret⟩
  · obtain ⟨rfl, hret⟩ := ret_early h
    exact ⟨frame_cached _, .kept rfl rfl hret, fun h0 => absurd h0 hret⟩
  have hdir : s.isDir dir = true := Bool.eq_true_of_not_eq_false hdir
  have hframe : Frame dir s (Fs.hold { s with cached := x } dir) := (frame_cached x).trans frame_hold
  dsimp only at h
  split at h
  · obtain ⟨rfl, hret⟩ := ret_early h
    exact ⟨hframe, .kept rfl rfl hret, fun h0 => absurd h0 hret⟩
  have hf : Finds name (s.ino dir).dir (ext4FindEntry sb name (s.ino dir).dir) :=
    ext4FindEntry_found sb name (s.ino dir).dir
  have hlook : lookup sb s dir name = (ext4FindEntry sb name (s.ino dir).dir).1.map
      fun p => Dir.inodeAt (s.ino dir).dir p.1 p.2 := rfl
  have hino : ((Fs.hold { s with cached := x } dir).ino dir).dir = (s.ino dir).dir := rfl
  rw [hino] at h
  generalize ext4FindEntry sb name (s.ino dir).dir = r at hf h hlook
  obtain ⟨o, d⟩ := r
  have hframe' := hframe.trans (frame_setDir d)
  cases o with
  | none =>
    obtain ⟨rfl, hret⟩ := ret_early h
    rw [setDir_dir_self]
    exact ⟨hframe', .kept hf.1 hf.2.1 hret, fun h0 => absurd h0 hret⟩
  | some p =>
    obtain ⟨hf', hd⟩ := deleteFound_edit h
    have hat : Dir.inodeAt d p.1 p.2 = Dir.inodeAt (s.ino dir).dir p.1 p.2 := by
      simp only [Dir.inodeAt, block_congr hf.1]
    rw [setDir_dir_self, hat] at hd
    rw [hlook]
    exact ⟨hframe'.trans hf', hd.of_blocks hf.1 hf.2.1, fun _ => ⟨hlegal, hdir⟩⟩

/-! ### `evfs_dentry_update` -/

/-- What an update of the entry number `index` leaves of the directory `d`: it has given up, or the
record has the number `new`. -/
inductive Retargets (sb : Sb) (index new : ℕ) (d d' : Dir) : Prop
  | kept (h : d' = d)
  | changed {k : ℕ} {de : DirEntry} (hk : nthLive sb 0 index (d.block 0) = some k)
      (hde : (d.block 0)[k]? = some de) (hlive : de.inode ≠ 0) (hlegal : sb.legal new = true)
      (h : d' = rewritten d new k)

theorem updateRecord_edit {new old k : ℕ} (h : updateRecord sb c s dir new old k = .ret s' ret) :
    Frame dir s s' ∧ ((s'.ino dir).dir = (s.ino dir).dir ∨
      (s'.ino dir).dir = rewritten (s.ino dir).dir new k) := by
  have hframe : Frame dir s (s.setNlink old (dropNlink (s.ino old).nlink)) := frame_setNlink _
  have hheld := hframe.trans (frame_hold (i := old))
  unfold updateRecord at h
  dsimp only at h
  split at h
  · rw [ret_state h]
    exact ⟨hheld, .inl setNlink_dir⟩
  split at h
  · rw [ret_state h]
    exact ⟨hheld, .inl setNlink_dir⟩
  next s1 huntrack =>
  have h1 : Frame dir s s1 ∧ (s1.ino dir).dir = (s.ino dir).dir := by
    split_ifs at huntrack
    · obtain rfl := untrackNolock_ok huntrack
      exact ⟨hframe.trans (frame_setTracked false), setNlink_dir⟩
    · obtain rfl := Except.ok.inj huntrack
      exact ⟨hframe, setNlink_dir⟩
  rw [ret_state h]
  refine ⟨h1.1.trans (frame_setDir _), .inr ?_⟩
  rw [setDir_dir_self, h1.2]
  rfl

theorem updateOld_edit {new index : ℕ} (hlegal : sb.legal new = true)
    (h : updateOld sb c s dir new (nthLive sb 0 index ((s.ino dir).dir.block 0)) = .ret s' ret) :
    Frame dir s s' ∧ Retargets sb index new (s.ino dir).dir (s'.ino dir).dir := by
  unfold updateOld at h
  dsimp only at h
  split at h
  · rw [ret_state h]
    exact ⟨frame_cached s.cached, .kept rfl⟩
  next s1 higet =>
  obtain ⟨⟨x, rfl⟩, hold⟩ := iget_cached higet
  split_ifs at h with hheld
  obtain ⟨hf, hd⟩ := updateRecord_edit h
  refine ⟨(frame_cached x).trans hf, ?_⟩
  cases hk : nthLive sb 0 index ((s.ino dir).dir.block 0) with
  | none =>
    -- the number `-1UL` is not legal
    rw [hk] at hold
    have hle : 2 ^ 64 - 1 ≤ sb.inodesCount := (sb.legal_le _ hold).2
    have := sb.count_lt
    omega
  | some k =>
    rw [hk] at hd
    obtain ⟨de, hde, hlive⟩ := nthLive_some sb hk
    rcases hd with hd | hd
    · exact .kept hd
    · exact .changed hk hde hlive hlegal hd

/-- **Updating an entry.** -/
theorem update_edit {index new : ℕ} (h : evfsDentryUpdate sb c s dir index new = .ret s' ret) :
    Frame dir s s' ∧ Retargets sb index new (s.ino dir).dir (s'.ino dir).dir ∧
      ((s'.ino dir).dir = (s.ino dir).dir ∨ sb.legal dir = true ∧ s.isDir dir = true) := by
  have hkept : ∀ x, s' = { s with cached := x } →
      Frame dir s s' ∧ Retargets sb index new (s.ino dir).dir (s'.ino dir).dir ∧
        ((s'.ino dir).dir = (s.ino dir).dir ∨ sb.legal dir = true ∧ s.isDir dir = true) := by
    rintro x rfl
    exact ⟨frame_cached x, .kept rfl, .inl rfl⟩
  unfold evfsDentryUpdate at h
  split at h
  · exact hkept s.cached (ret_state h)
  next s1 higet =>
  obtain ⟨⟨x, rfl⟩, hdlegal⟩ := iget_cached higet
  split_ifs at h with hheld hdir
  · exact hkept x (ret_state h)
  have hdir : s.isDir dir = true := Bool.eq_true_of_not_eq_false hdir
  split at h
  · exact hkept x (ret_state h)
  dsimp only at h
  split_ifs at h with hread
  · exact hkept x (ret_state h)
  split at h
  · exact hkept x (ret_state h)
  next s2 higet2 =>
  obtain ⟨⟨x2, rfl⟩, hlegal⟩ := iget_cached higet2
  split_ifs at h with hheld2
  dsimp only at h
  generalize hs3 : Fs.setNlink { s with cached := x2 } new (incNlink (s.ino new).nlink) = s3 at h
  have hframe : Frame dir s s3 := by
    rw [← hs3]
    exact (frame_cached x2).trans (frame_setNlink _)
  have hd3 : (s3.ino dir).dir = (s.ino dir).dir := by
    rw [← hs3]
    exact setNlink_dir
  split at h
  · rw [ret_state h]
    exact ⟨hframe.trans frame_hold, .kept hd3, .inl hd3⟩
  · rw [← hd3] at h ⊢
    obtain ⟨hf, hr⟩ := updateOld_edit hlegal h
    exact ⟨hframe.trans hf, hr, .inr ⟨hdlegal, hdir⟩⟩

end LinuxEvfs.Namespace.Edits
