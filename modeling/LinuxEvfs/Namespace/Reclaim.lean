import LinuxEvfs.Lib.Runs
import LinuxEvfs.Namespace.Update

/-! # No referenced inode is freed

Runs of the operations on inodes and entries, from a mount in which the link count of every file is the
number of its entries.

* `step_moves`: every call moves every account, and exactly so when it is careful.
* `evfsInodeFree_unreferenced`: in a run whose calls meet `StepOk`, an inode that `evfs_inode_free` has
  freed is named by no entry, and a tracked inode is in use.
* `evfsInodeFree_referenced`: without the condition an inode is freed that an entry names. A directory
  with an index may have the link count 1 whatever its entries are; `evfs_dentry_delete` of its name takes
  that link, the inode is reclaimed while its subdirectories name it, and can be allocated and freed. -/

namespace LinuxEvfs.Namespace.Reclaim

open LinuxEvfs.Errno LinuxEvfs.Lib.Runs
open LinuxEvfs.Namespace.Dir LinuxEvfs.Namespace.Entries LinuxEvfs.Namespace.Counts
open LinuxEvfs.Namespace.Model LinuxEvfs.Namespace.Ledger LinuxEvfs.Namespace.Accounts
open LinuxEvfs.Namespace.Refine LinuxEvfs.Namespace.Steps LinuxEvfs.Namespace.Update

variable {sb : Sb} {c : Calls} {s s' : Fs} {i dir : ℕ} {name : Name} {ret : ℤ} {X : Prop}

/-! ### Creation and eviction -/

theorem fresh_ino_ne {j : ℕ} (h : j ≠ i) : (fresh s i).ino j = s.ino j := setIno_ne _ h

/-- The accounts behind the entry of a new inode, with the directory `d` written. -/
theorem fresh_moves {d : Dir} {e : DirEntry} {r : Option Errno} {n : ℕ} (hg : Good sb s)
    (hfree : s.bitmap i = false) (hdir : s.isDir dir = true) (hlegal : sb.legal dir = true)
    (hbit : s.bitmap dir = true) (hadd : AddSpec e (s.ino dir).dir (d, r)) (he : e.inode = i)
    (hn : n = if r = none then 1 else 0) (hX : ¬ X) :
    Moves sb X s (((fresh s i).setDir dir d).setNlink i n) := by
  have hne : dir ≠ i := by
    rintro rfl
    exact absurd (hbit.symm.trans hfree) (by simp)
  have hfdir : (fresh s i).isDir dir = true := by
    rw [Fs.isDir, fresh_ino_ne hne]
    exact hdir
  have hfbit : (fresh s i).bitmap i = true := setBit_self true
  have hdbit : (fresh s i).bitmap dir = true := (setBit_ne true hne).trans hbit
  refine ⟨good_setNlink (good_setDir (good_fresh hg) hdbit hfdir) hfbit, fun j _ _ => ?_⟩
  have hent : entries sb ((fresh s i).setDir dir d) j + count j (s.ino dir).dir
      = entries sb s j + count j d := by
    have h := entries_setDir d (sb.legal_le _ hlegal).2 hfdir j
    rwa [entries_fresh hg hfree, fresh_ino_ne hne] at h
  have hle : count j d ≤ count j (s.ino dir).dir + if r = none then names j e else 0 := hadd.le j
  by_cases hj : j = i
  · subst hj
    rw [acct_setNlink_self, acct_setDir, acct_fresh_self hg hfree]
    have h1 : names j e ≤ 1 := names_le_one e
    refine .create hX hfree ?_ ?_
    · rw [hn]
      split_ifs <;> omega
    · change entries sb ((fresh s j).setDir dir d) j ≤ entries sb s j + n
      rw [hn]
      split_ifs at hle ⊢ <;> omega
  · rw [acct_setNlink_ne hj, acct_setDir, acct_fresh_ne hg hfree hj]
    have h0 : names j e = 0 := names_of_ne (by rw [he]; exact fun h => hj h.symm)
    refine .fade ⟨?_, fun hx => absurd hx hX⟩
    change entries sb ((fresh s i).setDir dir d) j ≤ entries sb s j
    rw [h0, ite_self] at hle
    omega

theorem addNondir_moves (hg : Good sb s) (hq : Quiet c.env) (hfree : s.bitmap i = false)
    (hdir : s.isDir dir = true) (hlegal : sb.legal dir = true) (hbit : s.bitmap dir = true) (hX : ¬ X)
    (h : ext4AddNondir sb c (fresh s i) dir i name = .ret s' ret) : Moves sb X s s' := by
  have hne : dir ≠ i := by
    rintro rfl
    exact absurd (hbit.symm.trans hfree) (by simp)
  have hadd := ext4AddEntry_spec sb hq (newEntry sb (fresh s i) i name) (s.ino dir).dir
  have hlink : ∀ d, (((fresh s i).setDir dir d).ino i).nlink = 1 := fun d => by
    rw [setDir_nlink]
    exact congrArg Inode.nlink (setIno_self newInode)
  unfold ext4AddNondir at h
  dsimp only at h
  rw [fresh_ino_ne hne] at h
  generalize ext4AddEntry sb c.env (newEntry sb (fresh s i) i name) (s.ino dir).dir = r at hadd h
  obtain ⟨d, err⟩ := r
  have hm : ∀ n, (n = if err = none then 1 else 0) →
      Moves sb X s (((fresh s i).setDir dir d).setNlink i n) := fun n hn =>
    fresh_moves hg hfree hdir hlegal hbit hadd rfl hn hX
  cases err with
  | none =>
    rw [ret_state h]
    have h1 := hm 1 rfl
    rwa [setNlink_eq (hlink d)] at h1
  | some e =>
    dsimp only at h
    rw [ret_state h, hlink d]
    exact hm 0 rfl

theorem create_moves (hg : Good sb s) (hq : Quiet c.env) (hX : ¬ X)
    (h : create sb c s dir name i = .ret s' ret) : Moves sb X s s' := by
  unfold create at h
  split at h
  · rw [ret_state h]
    exact moves_refl hg
  next s1 higet =>
  obtain ⟨⟨c1, rfl⟩, hg1, hlegal, hbit⟩ := iget_ok hg higet
  split_ifs at h with hheld hdir hfree
  · rw [ret_state h]
    exact .stay hg1 fun _ => rfl
  · rw [ret_state h]
    exact .stay hg1 fun _ => rfl
  rw [hq .dquotInitDir rfl, hq .dquotAllocInode rfl, hq .journalStart rfl] at h
  have hdir : s.isDir dir = true := Bool.eq_true_of_not_eq_false hdir
  have hfree : s.bitmap i = false :=
    Bool.eq_false_of_not_eq_true (not_or.mp (not_or.mp hfree).2).1
  exact Moves.of_acct (addNondir_moves hg1 hq hfree hdir hlegal hbit hX h) fun _ => rfl

theorem good_uncache (hg : Good sb s) : Good sb (s.uncache i) where
  tracked_cap := hg.tracked_cap
  cached_bit j hj := by
    by_cases h : j = i
    · rw [h] at hj
      exact absurd hj (by simp [Fs.uncache, setCached_self])
    · exact hg.cached_bit j ((setCached_ne false h).symm.trans hj)
  unused := hg.unused
  file_index := hg.file_index

/-- The state behind the eviction of an inode without links. -/
def reclaimed (s : Fs) (i : ℕ) : Fs := ((s.uncache i).setDir i Dir.empty).setBit i false

theorem good_reclaimed (hg : Good sb s) (hn : (s.ino i).nlink = 0) : Good sb (reclaimed s i) where
  tracked_cap := hg.tracked_cap
  cached_bit j hj := by
    have hne : j ≠ i := by
      rintro rfl
      exact absurd ((setCached_self false).symm.trans hj) (by simp)
    exact (setBit_ne false hne).trans ((good_uncache hg).cached_bit j hj)
  unused j hj := by
    change (((s.uncache i).setDir i Dir.empty).ino j).nlink = 0 ∧
      (((s.uncache i).setDir i Dir.empty).ino j).dir.blocks = []
    rw [setDir_nlink]
    by_cases h : j = i
    · rw [h, setDir_dir_self]
      exact ⟨hn, rfl⟩
    · rw [setDir_dir_ne _ h]
      exact hg.unused j ((setBit_ne false h).symm.trans hj)
  file_index j hj := by
    change (((s.uncache i).setDir i Dir.empty).ino j).dir.index = false
    by_cases h : j = i
    · rw [h, setDir_dir_self]
      rfl
    · rw [setDir_dir_ne _ h]
      exact hg.file_index j ((setDir_isDir _).symm.trans hj)

theorem evict_moves (hg : Good sb s) (hX : X → OpCareful sb s (.evict i))
    (h : evict s i = .ret s' ret) : Moves sb X s s' := by
  unfold evict at h
  split_ifs at h with hc hn
  · rw [ret_state h]
    exact moves_refl hg
  · rw [ret_state h]
    refine ⟨good_reclaimed hg hn, fun j _ _ => ?_⟩
    -- the entries of a directory that is reclaimed go with it
    have hnear : Near X (entries sb ((s.uncache i).setDir i Dir.empty) j) (entries sb s j) :=
      ⟨entries_setDir_le (Nat.zero_le _), fun hx =>
        entries_setDir_eq fun hd => absurd ((hX hx hn).symm.trans hd) (by simp)⟩
    by_cases hj : j = i
    · subst hj
      rw [acct_setBit_self, acct_setDir]
      exact .reclaim hn hnear
    · rw [acct_setBit_ne _ hj, acct_setDir]
      exact .fade hnear
  · have hbit : s.bitmap i = true := hg.cached_bit i (Bool.eq_true_of_not_eq_false hc)
    rw [ret_state h]
    refine ⟨good_setNlink (good_uncache hg) hbit, fun j hs _ => ?_⟩
    by_cases hj : j = i
    · subst hj
      have hsmall : (s.ino j).nlink < 2 ^ 16 := hs.small
      have hsame : (s.uncache j).setNlink j (s.ino j).nlink = s.uncache j := setNlink_eq rfl
      rw [Nat.mod_eq_of_lt hsmall, hsame]
      exact .stay
    · rw [acct_setNlink_ne hj]
      exact .stay

/-! ### Runs -/

/-- The condition on a call: the journal, IO and quota calls succeed, and `OpOk`. -/
def StepOk (sb : Sb) (s : Fs) (e : Event) : Prop :=
  Quiet e.calls.env ∧ (∀ x ∈ e.calls.again, Quiet x) ∧ OpOk sb s e.op

/-- A call that returns 0 and leaves no link over. -/
def Careful (sb : Sb) (s : Fs) (e : Event) : Prop := e.ret = 0 ∧ OpCareful sb s e.op

/-- **One call.** -/
theorem step_moves {e : Event} (hg : Good sb s) (h : Step sb s e s') (hok : StepOk sb s e) :
    Moves sb (Careful sb s e) s s' := by
  obtain ⟨op, c, ret⟩ := e
  obtain ⟨hq, hagain, hop⟩ := hok
  cases op with
  | inodeAlloc iindex => exact alloc_moves hg hq hop h
  | inodeFree iindex => exact free_moves hg hq h
  | dentryAdd parent child name => exact add_moves hg hq hagain hop id h
  | dentryDelete dir name => exact delete_moves hg hq hop id h
  | dentryUpdate dir index new => exact update_moves hg hq hop And.right h
  | create dir name i => exact create_moves hg hq And.right h
  | link dir child name => exact link_moves hg hq hagain And.right h
  | unlink dir child name => exact unlink_moves hg hq And.right h
  | evict i => exact evict_moves hg And.right h

/-- The invariant of a run: every inode that can be tracked has a safe account. -/
structure Inv (sb : Sb) (s : Fs) : Prop where
  good : Good sb s
  safe : ∀ i, inCapacity sb i = true → Safe (acct sb s i)

theorem Inv.step {e : Event} (h : Step sb s e s') (hok : StepOk sb s e) (hi : Inv sb s) : Inv sb s' := by
  have hm := step_moves hi.good h hok
  exact ⟨hm.good, fun i hcap => (hm.move i (hi.safe i hcap) (.inl hcap)).safe (hi.safe i hcap)⟩

theorem Inv.tracked_bit (hi : Inv sb s) (ht : s.tracked i = true) : s.bitmap i = true := by
  have hs := hi.safe i (hi.good.tracked_cap i ht)
  exact hs.bit_of_pos (lt_of_lt_of_le (Nat.succ_pos _) (hs.tracked_pos ht))

/-- An inode that `evfs_inode_free` frees was tracked and had one link at most. -/
theorem free_zero (hg : Good sb s) (hq : Quiet c.env) (h : evfsInodeFree sb c s i = .ret s' 0) :
    s.tracked i = true ∧ (s.ino i).nlink ≤ 1 ∧ entries sb s' i = entries sb s i := by
  unfold evfsInodeFree at h
  simp only [stopJournal_quiet hq, hq .journalStart rfl] at h
  have hneg : ∀ err : Errno, (0 : ℤ) ≠ err.ret := fun err => err.ret_neg.ne'
  split at h
  · exact absurd (ret_value h) (hneg _)
  next s1 higet =>
  obtain ⟨⟨c1, rfl⟩, -⟩ := iget_ok hg higet
  split_ifs at h with hheld hnl
  · exact absurd (ret_value h) (hneg _)
  split at h
  · exact absurd (ret_value h) (hneg _)
  next s2 huntrack =>
  obtain ⟨rfl, ht⟩ := untrack_ok huntrack
  refine ⟨ht, not_lt.mp hnl, ?_⟩
  rw [ret_state h, entries_setNlink]
  rfl

theorem Inv.free_unreferenced {e : Event} (hi : Inv sb s) (h : Step sb s e s') (hok : StepOk sb s e)
    (i : ℕ) (hop : e.op = .inodeFree i) (hret : e.ret = 0) : entries sb s' i = 0 := by
  unfold Step at h
  rw [hop, hret] at h
  obtain ⟨ht, hn, he⟩ := free_zero hi.good hok.1 h
  have hpos : entries sb s i + 1 ≤ (s.ino i).nlink :=
    (hi.safe i (hi.good.tracked_cap i ht)).tracked_pos ht
  omega

/-- A mount with an empty tracker in which the link count of every file is the number of its entries. -/
structure Mounted (sb : Sb) (s : Fs) : Prop where
  good : Good sb s
  untracked : ∀ i, s.tracked i = false
  counted : ∀ i, s.bitmap i = true → s.isDir i = false → (s.ino i).nlink = entries sb s i

/-- Every entry, those of directories included, names an inode in use with a link, and the counts fit into
`i_links_count`. -/
structure Sound (sb : Sb) (s : Fs) : Prop where
  named : ∀ i, 0 < entries sb s i → s.bitmap i = true ∧ 0 < (s.ino i).nlink
  small : ∀ i, (s.ino i).nlink < 2 ^ 16

theorem Mounted.safe (hm : Mounted sb s) (hs : Sound sb s) (i : ℕ) : Safe (acct sb s i) where
  free hbit := ⟨(hm.good.unused i hbit).1, hm.untracked i⟩
  named hpos := (hs.named i hpos).2
  covered hd := by
    change entries sb s i + (s.tracked i).toNat ≤ (s.ino i).nlink
    rw [hm.untracked i, Bool.toNat_false]
    cases hbit : s.bitmap i with
    | true => exact (hm.counted i hbit hd).ge
    | false =>
      have h0 : entries sb s i = 0 := by
        by_contra hne
        exact absurd ((hs.named i (Nat.pos_of_ne_zero hne)).1.symm.trans hbit) (by simp)
      rw [h0]
      exact Nat.zero_le _
  file ht := absurd ((hm.untracked i).symm.trans ht) (by simp)
  small := hs.small i

/-- **No referenced inode is freed** in a run whose calls meet `StepOk`, and no tracker bit outlives its
inode. -/
theorem evfsInodeFree_unreferenced {l : List (Event × Fs)} (hm : Mounted sb s) (hs : Sound sb s)
    (hrun : Run (Step sb) s l) (hok : Along (StepOk sb) s l) :
    (∀ x ∈ l, ∀ i, x.1.op = .inodeFree i → x.1.ret = 0 → entries sb x.2 i = 0) ∧
      ∀ x ∈ l, ∀ i, x.2.tracked i = true → x.2.bitmap i = true := by
  have hinv : Inv sb s := ⟨hm.good, fun i _ => hm.safe hs i⟩
  have hall := hrun.invariant (P := StepOk sb) (I := Inv sb) Inv.step hinv hok
  refine ⟨?_, fun x hx i => (hall x hx).tracked_bit⟩
  exact hrun.forall_events (P := StepOk sb) (I := Inv sb)
    (J := fun e s' => ∀ i, e.op = .inodeFree i → e.ret = 0 → entries sb s' i = 0)
    (fun hstep hok hi => hi.free_unreferenced hstep hok) Inv.step hinv hok

/-! ### A small file system -/

theorem run_trace : ∀ {s : Fs} {l : List Event}, returns sb s l = true →
    Run (Step sb) s (trace sb s l)
  | s, [], _ => .nil s
  | s, e :: l, h => by
    unfold returns at h
    cases hexec : exec sb e.calls s e.op with
    | hang => simp [hexec] at h
    | ret s' ret =>
      rw [hexec] at h
      simp only [Bool.and_eq_true, decide_eq_true_eq] at h
      have hnext : next sb s e = s' := by simp only [next, hexec]
      rw [trace, hnext]
      exact .cons (by rw [Step, hexec, h.1]) (run_trace h.2)

theorem step_next {e : Event} (h : returns sb s [e] = true) : Step sb s e (next sb s e) := by
  cases run_trace h with
  | cons hstep _ => exact hstep

/-- Sixteen inodes in one group; the root is 2, and files start at 11. -/
def smallSb : Sb where
  blocksize := 1024
  metadataCsum := false
  filetype := true
  dirIndex := true
  inodesCount := 16
  inodesPerGroup := 16
  legal i := i = 2 || (11 ≤ i && i ≤ 16)
  checkDirEntry _ _ _ := false
  hash _ := 0
  leaves _ _ := some [1]
  count_lt := by decide
  group_ge := by decide
  legal_le i h := by
    simp only [Bool.or_eq_true, Bool.and_eq_true, decide_eq_true_eq] at h
    omega

def entry (inode recLen : ℕ) (name : Name) : DirEntry := ⟨inode, recLen, name, .dir⟩

/-- The root holds the directory `d`, which has an index and the link count 1, and that holds `e`. -/
def treeFs : Fs where
  ino i :=
    if i = 2 then ⟨.dir, 3, ⟨[[entry 2 12 [46], entry 2 12 [46, 46], entry 12 1000 [100]]], false, 0⟩⟩
    else if i = 12 then
      ⟨.dir, 1, ⟨[[entry 12 12 [46], entry 2 1012 [46, 46]], [entry 13 1024 [101]]], true, 0⟩⟩
    else if i = 13 then ⟨.dir, 2, ⟨[[entry 13 12 [46], entry 12 1012 [46, 46]]], false, 0⟩⟩
    else ⟨.regFile, 0, Dir.empty⟩
  bitmap i := i = 2 || i = 12 || i = 13
  tracked _ := false
  cached _ := false
  held _ := false

theorem treeFs_unused {i : ℕ} (h : treeFs.bitmap i = false) :
    treeFs.ino i = ⟨.regFile, 0, Dir.empty⟩ := by
  simp only [treeFs, Bool.or_eq_false_iff, decide_eq_false_iff_not] at h ⊢
  rw [if_neg h.1.1, if_neg h.1.2, if_neg h.2]

theorem treeFs_dir {i : ℕ} (h : treeFs.bitmap i = true) : treeFs.isDir i = true ∧
    0 < (treeFs.ino i).nlink := by
  simp only [treeFs, Bool.or_eq_true, decide_eq_true_eq] at h
  rcases h with (rfl | rfl) | rfl <;> decide

theorem treeFs_mounted : Mounted smallSb treeFs where
  good := {
    tracked_cap := nofun
    cached_bit := nofun
    unused := fun i h => by rw [treeFs_unused h]; exact ⟨rfl, rfl⟩
    file_index := fun i h => by
      cases hb : treeFs.bitmap i with
      | true => exact absurd ((treeFs_dir hb).1.symm.trans h) (by simp)
      | false => rw [treeFs_unused hb]; rfl }
  untracked _ := rfl
  counted i hb hd := absurd ((treeFs_dir hb).1.symm.trans hd) (by simp)

theorem treeFs_sound : Sound smallSb treeFs where
  named i h := by
    obtain ⟨p, hp, -, b, hb, de, hde, h0, rfl⟩ := exists_entry h
    have hall : ∀ p ≤ 16, ∀ b ∈ (treeFs.ino p).dir.blocks, ∀ de ∈ b,
        treeFs.bitmap de.inode = true := by decide
    have hbit := hall p hp b hb de hde
    exact ⟨hbit, (treeFs_dir hbit).2⟩
  small i := by
    cases hb : treeFs.bitmap i with
    | true =>
      simp only [treeFs, Bool.or_eq_true, decide_eq_true_eq] at hb
      rcases hb with (rfl | rfl) | rfl <;> decide
    | false => rw [treeFs_unused hb]; decide

/-- Calls in which nothing fails. -/
def quietCalls : Calls := ⟨fun _ => none, [], 0⟩

/-- A call that returns 0. -/
def succeeds (op : Op) : Event := ⟨op, quietCalls, 0⟩

/-- The name of `d` is deleted, the inode reclaimed, allocated and freed. -/
def reuse : List Event :=
  [succeeds (.dentryDelete 2 [100]), succeeds (.evict 12), succeeds (.inodeAlloc 12),
    succeeds (.inodeFree 12)]

/-- **The condition is needed.** From a mount in which every entry names an inode in use with a link, an
inode is freed that the entry `..` of `e` names. -/
theorem evfsInodeFree_referenced :
    Mounted smallSb treeFs ∧ Sound smallSb treeFs ∧
      Run (Step smallSb) treeFs (trace smallSb treeFs reuse) ∧
      (∀ x ∈ trace smallSb treeFs reuse, Quiet x.1.calls.env) ∧
      ∃ x ∈ trace smallSb treeFs reuse, x.1.op = .inodeFree 12 ∧ x.1.ret = 0 ∧
        entries smallSb x.2 12 = 1 := by
  refine ⟨treeFs_mounted, treeFs_sound, run_trace (by decide), ?_, ?_⟩
  · intro x hx
    simp only [trace, reuse, List.mem_cons, List.not_mem_nil, or_false] at hx
    rcases hx with rfl | rfl | rfl | rfl <;> exact fun _ _ => rfl
  · refine ⟨_, List.mem_cons_of_mem _ (List.mem_cons_of_mem _ (List.mem_cons_of_mem _
      List.mem_cons_self)), rfl, rfl, by decide⟩

/-- A file is allocated, gets an entry, loses it, and is freed. -/
def passing : List Event :=
  [succeeds (.inodeAlloc 14), succeeds (.dentryAdd 2 14 [102]), succeeds (.unlink 2 14 [102]),
    succeeds (.inodeFree 14)]

theorem passing_ok : Along (StepOk smallSb) treeFs (trace smallSb treeFs passing) := by
  have hq : Quiet quietCalls.env := fun _ _ => rfl
  exact ⟨⟨hq, nofun, nofun⟩, ⟨hq, nofun, by decide, by decide⟩, ⟨hq, nofun, trivial⟩,
    ⟨hq, nofun, trivial⟩, trivial⟩

theorem evfsInodeFree_unreferenced_passing :
    returns smallSb treeFs passing = true ∧
      (∀ x ∈ trace smallSb treeFs passing, ∀ i, x.1.op = .inodeFree i → x.1.ret = 0 →
        entries smallSb x.2 i = 0) ∧
      ∀ x ∈ trace smallSb treeFs passing, ∀ i, x.2.tracked i = true → x.2.bitmap i = true := by
  have hret : returns smallSb treeFs passing = true := by decide
  exact ⟨hret, evfsInodeFree_unreferenced treeFs_mounted treeFs_sound (run_trace hret) passing_ok⟩

end LinuxEvfs.Namespace.Reclaim
