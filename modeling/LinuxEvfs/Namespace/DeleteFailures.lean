import LinuxEvfs.Namespace.Failures

/-! # A deletion that fails

`evfs_dentry_delete` clears the tracker bit of the child as soon as it has locked it, and does not know whether the
bit was set. Four calls that may fail come behind.

* `delete_exit`: the call ends before the bit is cleared with everything unchanged, or behind it, with an error and
  the bit changed or with success.
* `dentryDelete_unchanged_iff`: a failed deletion changes nothing if the child is not tracked, or nothing fails behind
  the clearing.
* `dentryDelete_untracks`: no memory for the dentry. -/

namespace LinuxEvfs.Namespace.DeleteFailures

open LinuxEvfs.Errno LinuxEvfs.Namespace.Dir LinuxEvfs.Namespace.Entries LinuxEvfs.Namespace.Model
open LinuxEvfs.Namespace.Counts LinuxEvfs.Namespace.Accounts LinuxEvfs.Namespace.Refine
open LinuxEvfs.Namespace.Steps LinuxEvfs.Namespace.Edits LinuxEvfs.Namespace.Reclaim
open LinuxEvfs.Namespace.Exits LinuxEvfs.Namespace.Failures

variable {sb : Sb} {c : Calls} {s s' : Fs} {dir : ℕ} {ret : ℤ}

/-- Where `__ext4_unlink` fails, it has not changed anything yet. -/
structure BeforeChange (env : Env) : Prop where
  deleteDirty : env .deleteDirty = none
  dirDirty : env .unlinkDirDirty = none
  inodeDirty : env .unlinkInodeDirty = none

/-- The entries of the directory, all link counts and the tracker are the same. -/
structure Unchanged (dir : ℕ) (s s' : Fs) : Prop where
  blocks : (s'.ino dir).dir.blocks = (s.ino dir).dir.blocks
  nlink : ∀ i, (s'.ino i).nlink = (s.ino i).nlink
  tracked : s'.tracked = s.tracked

/-- The child can be read and locked, and the tracker has a place for it. -/
structure ChildReady (sb : Sb) (c : Calls) (s : Fs) (dir child : ℕ) : Prop where
  iget : refusal sb (c.env .igetChild) (s.setCached dir true) child = none
  free : s.held child = false
  ne : child ≠ dir
  slot : inCapacity sb child = true

/-- The call gets to clear the tracker bit of `child`. -/
structure Untracks (sb : Sb) (c : Calls) (s : Fs) (dir : ℕ) (name : Name) (child : ℕ) : Prop where
  iget : refusal sb (c.env .igetDir) s dir = none
  free : s.held dir = false
  isDir : s.isDir dir = true
  hasAlias : c.env .findAnyAlias = none
  findEntry : c.env .findEntry = none
  found : lookup sb s dir name = some child
  ready : ChildReady sb c s dir child

/-- `__ext4_unlink` fails. -/
def UnlinkFails (sb : Sb) (env : Env) (name : Name) (d : Dir) : Prop :=
  env .findEntryAgain ≠ none ∨ env .journalStart ≠ none ∨
    ∃ b k, (ext4FindEntry sb name d).1 = some (b, k) ∧ (ext4DeleteEntry sb env b k d).2 ≠ none

/-- A call behind the clearing fails. -/
def FailsLater (sb : Sb) (c : Calls) (s : Fs) (dir : ℕ) (name : Name) : Prop :=
  c.env .dAlloc ≠ none ∨ c.env .dquotInitDir ≠ none ∨ c.env .dquotInitChild ≠ none ∨
    UnlinkFails sb c.env name (s.ino dir).dir

/-! ### The second search -/

section delete
variable {name : Name} {child b k : ℕ} {d d' : Dir} {env : Env}

theorem searchBlocks_mem {bs : List ℕ} (h : searchBlocks sb name d bs = .found b k) :
    b ∈ bs ∧ ext4SearchDir sb name 0 (d.block b) = .found k := by
  induction bs with
  | nil => cases h
  | cons b' bs ih =>
    unfold searchBlocks at h
    split at h
    · next k' hk =>
      obtain ⟨rfl, rfl⟩ := Lookup.found.inj h
      exact ⟨List.mem_cons_self .., hk⟩
    · cases h
    · exact ⟨List.mem_cons_of_mem _ (ih h).1, (ih h).2⟩

theorem searchBlocks_congr (h : d'.blocks = d.blocks) (bs : List ℕ) :
    searchBlocks sb name d' bs = searchBlocks sb name d bs := by
  induction bs with
  | nil => rfl
  | cons b bs ih => rw [searchBlocks, searchBlocks, ih, block_congr h]

/-- A search that starts where the last one ended finds the same record. -/
theorem linearFind_again (h : linearFind sb name d = (some (b, k), d')) :
    linearFind sb name d' = (some (b, k), d') := by
  unfold linearFind at h
  dsimp only at h
  split at h
  · next b' k' hfound =>
    simp only [Prod.mk.injEq, Option.some.injEq] at h
    obtain ⟨⟨rfl, rfl⟩, rfl⟩ := h
    obtain ⟨hmem, hk⟩ := searchBlocks_mem hfound
    have hcongr : ∀ bs, searchBlocks sb name { d with startLookup := b' } bs = searchBlocks sb name d bs :=
      searchBlocks_congr rfl
    unfold linearFind
    dsimp only
    rw [hcongr]
    by_cases hdot : isDot name = true
    · rw [if_pos hdot] at hfound ⊢
      rw [hfound]
    · rw [if_neg hdot] at hmem ⊢
      have hlt : b' < d.blocks.length := by simpa using hmem
      -- the blocks from the one found on
      have horder : (List.range d.blocks.length).rotate b' =
          b' :: ((List.range d.blocks.length).drop (b' + 1) ++ (List.range d.blocks.length).take b') := by
        rw [List.rotate_eq_drop_append_take (by simpa using hlt.le), List.drop_eq_getElem_cons (by simpa using hlt),
          List.getElem_range, List.cons_append]
      rw [if_neg (by omega), horder, searchBlocks, hk]
  · cases h

theorem findEntry_again (h : ext4FindEntry sb name d = (some (b, k), d')) :
    ext4FindEntry sb name d' = (some (b, k), d') := by
  have hfound := ext4FindEntry_found sb name d
  rw [h] at hfound
  obtain ⟨hblocks, hindex, -⟩ := hfound
  dsimp only at hblocks hindex
  have hdx : isDx sb d' = isDx sb d := by rw [isDx, isDx, hindex]
  unfold ext4FindEntry at h ⊢
  rw [hdx, hblocks]
  split_ifs at h ⊢
  · cases h
  · split at h
    · exact linearFind_again h
    · next bs hbs =>
      rw [searchBlocks_congr hblocks]
      split at h
      · cases h
        rfl
      · cases h
      · exact linearFind_again h
  · exact linearFind_again h

theorem deleteEntry_err_congr (h : d'.blocks = d.blocks) :
    (ext4DeleteEntry sb env b k d').2 = (ext4DeleteEntry sb env b k d).2 := by
  unfold ext4DeleteEntry
  rw [block_congr h]
  cases env .deleteAccess with
  | some err => rfl
  | none => cases ext4GenericDeleteEntry sb k (d.block b) <;> rfl

/-- `__ext4_unlink` of an entry that the search finds again. -/
theorem unlink_again (henv : BeforeChange env)
    (hfind : ext4FindEntry sb name (s.ino dir).dir = (some (b, k), (s.ino dir).dir))
    (hchild : Dir.inodeAt (s.ino dir).dir b k = child) :
    (UnlinkFails sb env name (s.ino dir).dir ∧
      ∃ err, (ext4Unlink sb env s dir child name).2 = some err ∧
        Unchanged dir s (ext4Unlink sb env s dir child name).1) ∨
    (¬ UnlinkFails sb env name (s.ino dir).dir ∧ (ext4Unlink sb env s dir child name).2 = none) := by
  have hsame : s.setDir dir (s.ino dir).dir = s := by
    simp only [Fs.setDir, Fs.setIno, Function.update_eq_self]
  have hself : Unchanged dir s s := ⟨rfl, fun _ => rfl, rfl⟩
  have hfails : UnlinkFails sb env name (s.ino dir).dir ↔ env .findEntryAgain ≠ none ∨ env .journalStart ≠ none ∨
      (ext4DeleteEntry sb env b k (s.ino dir).dir).2 ≠ none := by
    unfold UnlinkFails
    simp [hfind]
  rw [hfails]
  unfold ext4Unlink
  cases hagain : env .findEntryAgain with
  | some err => exact .inl ⟨.inl (Option.some_ne_none err), err, rfl, hself⟩
  | none =>
    simp only [hfind, hchild, ne_eq, not_true_eq_false, if_false, hsame]
    unfold unlinkFound
    cases hstart : env .journalStart with
    | some err => exact .inl ⟨.inr (.inl (Option.some_ne_none err)), err, rfl, hself⟩
    | none =>
      obtain ⟨err, herr⟩ | ⟨x, -, hdel⟩ := ext4DeleteEntry_takes sb env (s.ino dir).dir b k
      · refine .inl ⟨.inr (.inr (by simp [herr])), err, ?_⟩
        simp [herr, hsame, hself]
      · refine .inr ⟨by simp [hdel, henv.deleteDirty], ?_⟩
        simp [hdel, henv.deleteDirty, henv.dirDirty, henv.inodeDirty]

theorem unlinkFails_congr (h : ext4FindEntry sb name d = (some (b, k), d')) :
    UnlinkFails sb env name d' ↔ UnlinkFails sb env name d := by
  have hblocks := ext4FindEntry_found sb name d
  rw [h] at hblocks
  unfold UnlinkFails
  simp [findEntry_again h, h, deleteEntry_err_congr hblocks.1]

/-! ### The exits -/

/-- The deletion ends before the tracker bit of `child` is cleared, with everything unchanged. -/
def EndsBefore (dir : ℕ) (s : Fs) (o : Outcome) : Prop :=
  o = .hang ∨ ∃ s' ret, o = .ret s' ret ∧ Unchanged dir s s'

/-- It ends behind it: with an error and only the bit changed, or with success. -/
def EndsBehind (sb : Sb) (c : Calls) (dir : ℕ) (name : Name) (child : ℕ) (s : Fs) (o : Outcome) : Prop :=
  ∃ s' ret, o = .ret s' ret ∧
    ((FailsLater sb c s dir name ∧ ret < 0 ∧ Unchanged dir (s.setTracked child false) s') ∨
      (¬ FailsLater sb c s dir name ∧ ret = 0))

/-- The state in which the entry has been found: only the cache, a lock and `i_dir_start_lookup` differ. -/
def located (s : Fs) (dir : ℕ) (d : Dir) : Fs := ((s.setCached dir true).hold dir).setDir dir d

section located
variable {x : ℕ → Bool}

theorem located_unchanged (h : d.blocks = (s.ino dir).dir.blocks) :
    Unchanged dir s { located s dir d with cached := x } where
  blocks := by
    change (((s.setDir dir d).ino dir).dir).blocks = _
    rw [setDir_dir_self, h]
  nlink i := setDir_nlink (s := s) d
  tracked := rfl

theorem located_refusal {err : Option Errno} {i : ℕ} :
    refusal sb err (located s dir d) i = refusal sb err (s.setCached dir true) i := by
  have hn : ((located s dir d).ino i).nlink = (s.ino i).nlink := setDir_nlink (s := s) d
  unfold refusal
  rw [hn]
  rfl

theorem located_held {i : ℕ} : (located s dir d).held i = true ↔ i = dir ∨ s.held i = true := by
  change Function.update s.held dir true i = true ↔ _
  by_cases hi : i = dir
  · simp [hi]
  · simp [hi]

end located

/-- The deletion behind the search. -/
theorem deleteFound_exit (henv : BeforeChange c.env)
    (hfind : ext4FindEntry sb name (s.ino dir).dir = (some (b, k), d)) (hchild : Dir.inodeAt d b k = child) :
    (¬ ChildReady sb c s dir child ∧ EndsBefore dir s (deleteFound sb c (located s dir d) dir child name)) ∨
    (ChildReady sb c s dir child ∧
      EndsBehind sb c dir name child s (deleteFound sb c (located s dir d) dir child name)) := by
  have hblocks := ext4FindEntry_found sb name (s.ino dir).dir
  rw [hfind] at hblocks
  have hsame := fun x => located_unchanged (s := s) (x := x) hblocks.1
  unfold deleteFound
  rw [iget_eq, located_refusal]
  cases higet : refusal sb (c.env .igetChild) (s.setCached dir true) child with
  | some err =>
    exact .inl ⟨fun h => absurd (higet.symm.trans h.iget) (Option.some_ne_none err), .inr ⟨_, _, rfl, hsame _⟩⟩
  | none =>
    dsimp only [Option.elim]
    by_cases hlock : ((located s dir d).setCached child true).held child = true
    · rw [if_pos hlock]
      rw [setCached_held, located_held] at hlock
      refine .inl ⟨fun h => ?_, .inl rfl⟩
      rcases hlock with he | he
      · exact h.ne he
      · exact absurd (he.symm.trans h.free) (by decide)
    rw [if_neg hlock]
    rw [setCached_held, located_held, not_or, Bool.not_eq_true] at hlock
    unfold evfsInodeUntrackNolock
    by_cases hslot : inCapacity sb child = false
    · rw [if_pos hslot]
      exact .inl ⟨fun h => absurd (hslot.symm.trans h.slot) (by decide), .inr ⟨_, _, rfl, hsame _⟩⟩
    rw [if_neg hslot]
    refine .inr ⟨⟨higet, hlock.2, hlock.1, by simpa using hslot⟩, ?_⟩
    dsimp only
    generalize hs' : ((located s dir d).setCached child true).setTracked child false = s'
    have hdir : (s'.ino dir).dir = d := by
      rw [← hs']
      exact setDir_dir_self d
    have hcleared : Unchanged dir (s.setTracked child false) s' := by
      rw [← hs']
      exact ⟨(hsame s.cached).blocks, (hsame s.cached).nlink, rfl⟩
    cases hearly : (c.env .dAlloc).map (fun _ => ENOMEM) <|> c.env .dquotInitDir <|> c.env .dquotInitChild with
    | some err =>
      refine ⟨s', err.ret, rfl, .inl ⟨?_, err.ret_neg, hcleared⟩⟩
      unfold FailsLater
      by_contra hno
      simp only [not_or, not_not] at hno
      simp [hno.1, hno.2.1, hno.2.2.1] at hearly
    | none =>
      have hquiet : c.env .dAlloc = none ∧ c.env .dquotInitDir = none ∧ c.env .dquotInitChild = none := by
        cases h1 : c.env .dAlloc <;> cases h2 : c.env .dquotInitDir <;> simp [h1, h2] at hearly ⊢
        exact hearly
      have hlater : FailsLater sb c s dir name ↔ UnlinkFails sb c.env name (s'.ino dir).dir := by
        rw [hdir, unlinkFails_congr hfind]
        simp [FailsLater, hquiet]
      rw [← hdir] at hfind hchild
      have hagain := findEntry_again hfind
      obtain ⟨hfails, err, herr, hun⟩ | ⟨hok, herr⟩ := unlink_again henv hagain hchild
      · refine ⟨_, _, rfl, .inl ⟨hlater.mpr hfails, ?_, ?_⟩⟩
        · rw [herr]
          exact err.ret_neg
        · exact ⟨hun.blocks.trans hcleared.blocks, fun i => (hun.nlink i).trans (hcleared.nlink i),
            hun.tracked.trans hcleared.tracked⟩
      · refine ⟨_, _, rfl, .inr ⟨fun h => hok (hlater.mp h), ?_⟩⟩
        rw [herr]
        rfl

/-- **How a deletion ends.** -/
theorem delete_exit (sb : Sb) (s : Fs) (henv : BeforeChange c.env) (dir : ℕ) (name : Name) :
    ((∀ child, ¬ Untracks sb c s dir name child) ∧ EndsBefore dir s (evfsDentryDelete sb c s dir name)) ∨
    ∃ child, Untracks sb c s dir name child ∧
      EndsBehind sb c dir name child s (evfsDentryDelete sb c s dir name) := by
  unfold evfsDentryDelete
  rw [iget_eq]
  cases higet : refusal sb (c.env .igetDir) s dir with
  | some err =>
    exact .inl ⟨fun _ h => absurd (higet.symm.trans h.iget) (Option.some_ne_none err),
      .inr ⟨_, _, rfl, ⟨rfl, fun _ => rfl, rfl⟩⟩⟩
  | none =>
    have hread : ∀ x y, Unchanged dir s { s with cached := x, held := y } := fun _ _ => ⟨rfl, fun _ => rfl, rfl⟩
    dsimp only [Option.elim]
    by_cases hheld : (s.setCached dir true).held dir = true
    · rw [if_pos hheld]
      exact .inl ⟨fun _ h => absurd (hheld.symm.trans h.free) (by decide), .inl rfl⟩
    rw [if_neg hheld]
    by_cases hdir : (s.setCached dir true).isDir dir = false
    · rw [if_pos hdir]
      exact .inl ⟨fun _ h => absurd (hdir.symm.trans h.isDir) (by decide), .inr ⟨_, _, rfl, hread _ _⟩⟩
    rw [if_neg hdir]
    by_cases halias : (c.env .findAnyAlias).isSome
    · rw [if_pos halias]
      exact .inl ⟨fun _ h => by simp [h.hasAlias] at halias, .inr ⟨_, _, rfl, hread _ _⟩⟩
    rw [if_neg halias]
    cases hfe : c.env .findEntry with
    | some err =>
      exact .inl ⟨fun _ h => absurd (hfe.symm.trans h.findEntry) (Option.some_ne_none err),
        .inr ⟨_, _, rfl, hread _ _⟩⟩
    | none =>
      dsimp only
      generalize hfind : ext4FindEntry sb name (((s.setCached dir true).hold dir).ino dir).dir = r
      obtain ⟨o, d⟩ := r
      replace hfind : ext4FindEntry sb name (s.ino dir).dir = (o, d) := hfind
      have hfound := ext4FindEntry_found sb name (s.ino dir).dir
      rw [hfind] at hfound
      cases o with
      | none =>
        refine .inl ⟨fun _ h => ?_, .inr ⟨_, _, rfl, located_unchanged hfound.1⟩⟩
        have := h.found
        simp [lookup, hfind] at this
      | some p =>
        obtain ⟨b, k⟩ := p
        have hlook : lookup sb s dir name = some (Dir.inodeAt d b k) := by
          simp [lookup, hfind, Dir.inodeAt, block_congr hfound.1]
        obtain ⟨hnot, hend⟩ | ⟨hready, hend⟩ := deleteFound_exit henv hfind rfl
        · refine .inl ⟨fun child h => hnot ?_, hend⟩
          obtain rfl := Option.some.inj (hlook.symm.trans h.found)
          exact h.ready
        · exact .inr ⟨_, ⟨higet, by simpa using hheld, by simpa using hdir, by simpa using halias, hfe, hlook, hready⟩,
            hend⟩

/-- **A failed deletion.** -/
theorem dentryDelete_unchanged_iff (sb : Sb) (c : Calls) (s : Fs) (dir : ℕ) (name : Name)
    (henv : BeforeChange c.env) :
    (∀ s' ret, evfsDentryDelete sb c s dir name = .ret s' ret → ret < 0 → Unchanged dir s s') ↔
      ∀ child, Untracks sb c s dir name child → s.tracked child = true → ¬ FailsLater sb c s dir name := by
  obtain ⟨hnot, hend⟩ | ⟨child, huntracks, s₁, ret₁, hret, hend⟩ :=
    delete_exit sb s henv dir name
  · refine iff_of_true (fun s' ret h _ => ?_) fun child h => absurd h (hnot child)
    obtain hhang | ⟨s₁, ret₁, hret, hun⟩ := hend
    · rw [hhang] at h
      cases h
    · rw [hret] at h
      cases h
      exact hun
  · have hunique : ∀ child', Untracks sb c s dir name child' → child' = child := fun child' h =>
      Option.some.inj (h.found.symm.trans huntracks.found)
    obtain ⟨hfail, hneg, hun⟩ | ⟨hok, rfl⟩ := hend
    · constructor
      · intro h child' hchild' htracked _
        obtain rfl := hunique child' hchild'
        have hbit := congrFun ((h s₁ ret₁ hret hneg).tracked.symm.trans hun.tracked) child'
        rw [htracked, setTracked_self] at hbit
        cases hbit
      · intro h s' ret h' _
        rw [hret] at h'
        cases h'
        have hclear : s.setTracked child false = s := setTracked_eq (by
          by_contra hne
          exact h child huntracks (by simpa using hne) hfail)
        rwa [hclear] at hun
    · refine iff_of_true (fun s' ret h hlt => ?_) fun _ _ _ => hok
      rw [hret] at h
      cases h
      exact absurd hlt (lt_irrefl _)

end delete

/-! ### No memory -/

/-- Calls in which `d_alloc` finds no memory. -/
def noMemory : Calls := ⟨fun x => if x = .dAlloc then some ENOMEM else none, [], 0⟩

theorem noMemory_beforeChange : BeforeChange noMemory.env := ⟨rfl, rfl, rfl⟩

/-- **A bit that is lost.** The deletion of `a` returns `-ENOMEM`, and the file 14 is not tracked any more. -/
theorem dentryDelete_untracks :
    BeforeChange noMemory.env ∧ ∃ s', evfsDentryDelete smallSb noMemory filesFs 2 [97] = .ret s' ENOMEM.ret ∧
      filesFs.tracked 14 = true ∧ s'.tracked 14 = false :=
  ⟨noMemory_beforeChange, _, rfl, rfl, rfl⟩

/-- The same deletion of a file that is not tracked. -/
theorem dentryDelete_unchanged_untracked :
    BeforeChange noMemory.env ∧ ∀ s' ret,
      evfsDentryDelete smallSb noMemory { filesFs with tracked := fun _ => false } 2 [97] = .ret s' ret → ret < 0 →
        Unchanged 2 { filesFs with tracked := fun _ => false } s' :=
  ⟨noMemory_beforeChange, (dentryDelete_unchanged_iff smallSb noMemory { filesFs with tracked := fun _ => false } 2 [97]
    noMemory_beforeChange).mpr nofun⟩

end LinuxEvfs.Namespace.DeleteFailures
