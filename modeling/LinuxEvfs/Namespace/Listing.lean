import LinuxEvfs.Namespace.View

/-! # Listing a directory by index

`evfs_dentry_read` for the indices 0, 1, 2, … until it reports the number 0 (`Listed`), on a directory of any blocks.
The walk reads the first block only, up to a record of length 0 or the checksum tail (`walked`).

* `listed_iff`: the live records it gets to are what is listed.
* `index_reads_enumerate_iff`: that is each live entry of the directory once exactly if none is behind the walk or in
  another block, and the last byte of the name array, which is cleared, is zero or not used.
* `evfsDentryRead_misses`: a directory with an index, in which the first block holds `.` and `..`. -/

namespace LinuxEvfs.Namespace.Listing

open LinuxEvfs.Errno LinuxEvfs.Namespace.Dir LinuxEvfs.Namespace.Entries LinuxEvfs.Namespace.Model
open LinuxEvfs.Namespace.Edits LinuxEvfs.Namespace.Block LinuxEvfs.Namespace.View LinuxEvfs.Namespace.Reclaim

variable {sb : Sb} {c : Calls} {s s' : Fs} {dir index offset : ℕ} {b : DirBlock} {d : Dir} {v : List DentryOut}

/-- An entry as it is in the directory. -/
def entryOut (de : DirEntry) : DentryOut := ⟨de.inode, de.fileType, de.name⟩

/-- The live entries of a list of records. -/
def liveEntries (b : DirBlock) : List DentryOut := (b.filter fun de => de.inode ≠ 0).map entryOut

/-- The calls for the indices from `index` on, each in the state the one before has left, and what they return before
the number 0. -/
inductive Listed (sb : Sb) (c : Calls) (dir : ℕ) : Fs → ℕ → List DentryOut → Prop
  | stop {s s' : Fs} {index : ℕ} {x : DentryOut} (h : evfsDentryRead sb c s dir index = .ret s' 0 (some x))
      (hx : x.inoNum = 0) : Listed sb c dir s index []
  | next {s s' : Fs} {index : ℕ} {x : DentryOut} {v : List DentryOut}
      (h : evfsDentryRead sb c s dir index = .ret s' 0 (some x)) (hx : x.inoNum ≠ 0)
      (hv : Listed sb c dir s' (index + 1) v) : Listed sb c dir s index (x :: v)

/-- The directory can be read. -/
structure Readable (sb : Sb) (c : Calls) (s : Fs) (dir : ℕ) : Prop where
  available : Available sb s dir
  iget : c.env .igetDir = none
  bread : c.env .bread = none
  free : s.held dir = false
  isDir : s.isDir dir = true

/-! ### The walk -/

/-- The records behind. -/
def behind (sb : Sb) : ℕ → DirBlock → DirBlock
  | _, [] => []
  | offset, de :: rest =>
    if sb.bufSize ≤ offset ∨ de.recLen = 0 then de :: rest else behind sb (offset + de.recLen) rest

theorem walked_append_behind (sb : Sb) : ∀ (offset : ℕ) (b : DirBlock), walked sb offset b ++ behind sb offset b = b
  | _, [] => rfl
  | offset, de :: rest => by
    unfold walked behind
    split_ifs
    · rfl
    · rw [List.cons_append, walked_append_behind sb]

/-! ### What is listed -/

/-- A call on a directory that can be read: it stays so, and the records stay. -/
theorem Readable.read (h : Readable sb c s dir) (hne : (s.ino dir).dir.block 0 ≠ []) (index : ℕ) :
    ∃ s', evfsDentryRead sb c s dir index =
        .ret s' 0 (some (((view (walked sb 0 ((s.ino dir).dir.block 0)))[index]?).getD notFound)) ∧
      Readable sb c s' dir ∧ s'.ino = s.ino := by
  obtain ⟨x, hx, -, hmono⟩ := iget_available h.available
  refine ⟨{ s with cached := x }, ?_, ⟨h.available.of_cached hmono, h.iget, h.bread, h.free, h.isDir⟩, rfl⟩
  have hdir : Fs.isDir { s with cached := x } dir = true := h.isDir
  unfold evfsDentryRead
  rw [h.iget, hx]
  dsimp only
  rw [h.free, if_neg (by decide), if_neg (by rw [hdir]; decide), h.bread]
  dsimp only
  rw [if_neg hne, nthLive_walked]

/-- A hole at the start of the directory. -/
theorem Readable.not_listed (h : Readable sb c s dir) (hnil : (s.ino dir).dir.block 0 = []) (index : ℕ) :
    ¬ Listed sb c dir s index v := by
  obtain ⟨x, hx, -, -⟩ := iget_available h.available
  have hdir : Fs.isDir { s with cached := x } dir = true := h.isDir
  have hread : evfsDentryRead sb c s dir index = .ret { s with cached := x } EIO.ret none := by
    unfold evfsDentryRead
    rw [h.iget, hx]
    dsimp only
    rw [h.free, if_neg (by decide), if_neg (by rw [hdir]; decide), h.bread]
    dsimp only
    rw [if_pos hnil]
  intro hl
  cases hl with
  | stop hs => rw [hread] at hs; cases hs
  | next hs => rw [hread] at hs; cases hs

theorem listed_eq (hl : Listed sb c dir s index v) (h : Readable sb c s dir) (hb : (s.ino dir).dir.block 0 = b)
    (hne : b ≠ []) : v = (view (walked sb 0 b)).drop index := by
  induction hl with
  | @stop s _ index x hx h0 =>
    obtain ⟨s', hread, -, -⟩ := h.read (by rwa [hb]) index
    rw [hread, hb] at hx
    injection hx with _ _ hx
    cases hv : (view (walked sb 0 b))[index]? with
    | none => rw [List.drop_of_length_le (List.getElem?_eq_none_iff.mp hv)]
    | some y =>
      rw [hv] at hx
      obtain rfl : y = x := Option.some.inj hx
      exact absurd h0 (view_inoNum_ne hv)
  | @next s _ index x v hx h0 _ ih =>
    obtain ⟨s', hread, hs', hino⟩ := h.read (by rwa [hb]) index
    rw [hread, hb] at hx
    injection hx with hstate _ hx
    subst hstate
    cases hv : (view (walked sb 0 b))[index]? with
    | none =>
      rw [hv] at hx
      obtain rfl : notFound = x := Option.some.inj hx
      exact absurd rfl h0
    | some y =>
      rw [hv] at hx
      obtain rfl : y = x := Option.some.inj hx
      obtain ⟨hlt, hy⟩ := List.getElem?_eq_some_iff.mp hv
      rw [List.drop_eq_getElem_cons hlt, hy, ← ih hs' (by rwa [hino])]

theorem listed_drop (hne : b ≠ []) : ∀ (v : List DentryOut) {index : ℕ} {s : Fs}, Readable sb c s dir →
    (s.ino dir).dir.block 0 = b → v = (view (walked sb 0 b)).drop index → Listed sb c dir s index v
  | [], index, s, h, hb, hv => by
    obtain ⟨s', hread, -, -⟩ := h.read (by rwa [hb]) index
    rw [hb, List.getElem?_eq_none (List.drop_eq_nil_iff.mp hv.symm)] at hread
    exact .stop hread rfl
  | x :: v, index, s, h, hb, hv => by
    obtain ⟨s', hread, hs', hino⟩ := h.read (by rwa [hb]) index
    have hx : (view (walked sb 0 b))[index]? = some x := by
      rw [← Nat.add_zero index, ← List.getElem?_drop, ← hv]
      rfl
    have hrest : v = (view (walked sb 0 b)).drop (index + 1) := by
      rw [← List.tail_drop, ← hv]
      rfl
    rw [hb, hx] at hread
    exact .next hread (view_inoNum_ne hx) (listed_drop hne v hs' (by rwa [hino]) hrest)

/-- **The list.** -/
theorem listed_iff (h : Readable sb c s dir) (hne : (s.ino dir).dir.block 0 ≠ []) (v : List DentryOut) :
    Listed sb c dir s 0 v ↔ v = view (walked sb 0 ((s.ino dir).dir.block 0)) :=
  ⟨fun hl => listed_eq hl h rfl hne, fun hv => listed_drop hne v h rfl hv⟩

/-! ### Each entry once -/

/-- **The condition.** -/
structure Enumerable (sb : Sb) (d : Dir) : Prop where
  /-- The first block is no hole. -/
  block : d.block 0 ≠ []
  /-- No live entry lies behind the walk or in another block. -/
  first : ∀ de ∈ behind sb 0 (d.block 0) ++ (d.blocks.drop 1).flatten, de.inode = 0
  /-- The last byte of the array is not used, or zero. -/
  name : ∀ de ∈ walked sb 0 (d.block 0), de.inode ≠ 0 → (de.name[254]?).getD 0 = 0

/-- Clearing the last byte of the array leaves the name alone. -/
theorem set_last_eq_iff {name : Name} : name.set 254 0 = name ↔ (name[254]?).getD 0 = 0 := by
  constructor
  · intro h
    rw [← h, List.getElem?_set_self']
    cases name[254]? <;> rfl
  · intro h
    refine List.ext_getElem? fun i => ?_
    by_cases hi : 254 = i
    · subst hi
      rw [List.getElem?_set_self']
      cases hn : name[254]? with
      | none => rfl
      | some x =>
        rw [hn] at h
        rw [show x = 0 from h]
        rfl
    · rw [List.getElem?_set_ne hi]

theorem readOut_eq_iff {de : DirEntry} : readOut de = entryOut de ↔ (de.name[254]?).getD 0 = 0 := by
  simp only [readOut, entryOut, DentryOut.mk.injEq, true_and, set_last_eq_iff]

/-- The records `w` are read, those of `r` are not. -/
theorem view_perm_iff (w r : DirBlock) :
    (view w).Perm (liveEntries (w ++ r)) ↔
      (∀ de ∈ r, de.inode = 0) ∧ ∀ de ∈ w, de.inode ≠ 0 → (de.name[254]?).getD 0 = 0 := by
  constructor
  · intro h
    have hlen := h.length_eq
    simp only [view, liveEntries, List.filter_append, List.map_append, List.length_append, List.length_map] at hlen
    have hr : (r.filter fun de => de.inode ≠ 0) = [] := List.eq_nil_of_length_eq_zero (by omega)
    refine ⟨fun de hde => by simpa using List.filter_eq_nil_iff.mp hr de hde, fun de hde hlive => ?_⟩
    -- the entry is read off some record, and what is read has a zero there
    have hmem : entryOut de ∈ view w :=
      h.symm.subset (List.mem_map_of_mem (List.mem_filter.mpr ⟨List.mem_append_left r hde, by simpa using hlive⟩))
    obtain ⟨de', -, hout⟩ := List.mem_map.mp hmem
    have hname : de.name = de'.name.set 254 0 := (congrArg DentryOut.name hout).symm
    rw [hname, List.getElem?_set_self']
    cases de'.name[254]? <;> rfl
  · rintro ⟨hr, hw⟩
    have hnil : (r.filter fun de => de.inode ≠ 0) = [] := List.filter_eq_nil_iff.mpr fun de hde => by simp [hr de hde]
    rw [liveEntries, List.filter_append, hnil, List.append_nil, view]
    rw [List.map_congr_left fun de hde => ?_]
    obtain ⟨hmem, hlive⟩ := List.mem_filter.mp hde
    exact readOut_eq_iff.mpr (hw de hmem (by simpa using hlive))

theorem flatten_eq (hne : d.block 0 ≠ []) : d.blocks.flatten = d.block 0 ++ (d.blocks.drop 1).flatten := by
  unfold Dir.block at hne ⊢
  cases hd : d.blocks with
  | nil => simp [hd] at hne
  | cons b bs => rfl

/-- **Enumeration by index.** -/
theorem index_reads_enumerate_iff (sb : Sb) (c : Calls) (s : Fs) (dir : ℕ) (h : Readable sb c s dir) :
    (∃ v, Listed sb c dir s 0 v ∧ v.Perm (liveEntries (s.ino dir).dir.blocks.flatten)) ↔
      Enumerable sb (s.ino dir).dir := by
  by_cases hnil : (s.ino dir).dir.block 0 = []
  · exact iff_of_false (fun ⟨v, hl, _⟩ => h.not_listed hnil 0 hl) fun he => he.block hnil
  have hperm : (∃ v, Listed sb c dir s 0 v ∧ v.Perm (liveEntries (s.ino dir).dir.blocks.flatten)) ↔
      (view (walked sb 0 ((s.ino dir).dir.block 0))).Perm (liveEntries (s.ino dir).dir.blocks.flatten) := by
    simp only [listed_iff h hnil, exists_eq_left]
  rw [hperm, flatten_eq hnil]
  nth_rewrite 2 [← walked_append_behind sb 0 ((s.ino dir).dir.block 0)]
  rw [List.append_assoc, view_perm_iff]
  exact ⟨fun hc => ⟨hnil, hc.1, hc.2⟩, fun he => ⟨he.first, he.name⟩⟩

/-! ### A directory with an index -/

theorem treeFs_readable {i : ℕ} (hi : i = 2 ∨ i = 12) : Readable smallSb quietCalls treeFs i where
  available := by rcases hi with rfl | rfl <;> exact ⟨by decide, .inr (by decide)⟩
  iget := rfl
  bread := rfl
  free := rfl
  isDir := by rcases hi with rfl | rfl <;> decide

/-- **A hashed directory.** The entries of `d` are `.`, `..` and `e`, and the calls list `.` and `..`. -/
theorem evfsDentryRead_misses :
    Readable smallSb quietCalls treeFs 12 ∧
      Listed smallSb quietCalls 12 treeFs 0 [⟨12, .dir, [46]⟩, ⟨2, .dir, [46, 46]⟩] ∧
      (⟨13, .dir, [101]⟩ : DentryOut) ∈ liveEntries (treeFs.ino 12).dir.blocks.flatten :=
  ⟨treeFs_readable (.inr rfl), .next rfl (by decide) (.next rfl (by decide) (.stop rfl rfl)), by decide⟩

/-- The root has one block. -/
theorem index_reads_enumerate_root :
    Readable smallSb quietCalls treeFs 2 ∧
      ∃ v, Listed smallSb quietCalls 2 treeFs 0 v ∧ v.Perm (liveEntries (treeFs.ino 2).dir.blocks.flatten) :=
  ⟨treeFs_readable (.inl rfl), (index_reads_enumerate_iff smallSb quietCalls treeFs 2 (treeFs_readable (.inl rfl))).mpr
    ⟨by decide, by decide, by decide⟩⟩

end LinuxEvfs.Namespace.Listing
