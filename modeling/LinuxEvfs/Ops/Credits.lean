import LinuxEvfs.ExtMove.Leaves
import LinuxEvfs.Ops.Model

/-! # Journal credits

How many buffers `evfs_dentry_update` and `evfs_extent_move` hand over to the journal, and the credits of their
handles.

* `evfsDentryUpdateSteps`: the calls of an update that hand buffers over. `update_suffices_iff`: its four credits
  suffice, unless the old inode loses its last link, the three inodes lie in different inode-table blocks, the update
  gets to its last call and no credits are gained on the way.
* `move_suffices_iff`: the credits of a move from an exact position suffice iff there are as many as leaves of mapped
  blocks in the range. They are reserved without regard to the range.
* `comb`: a tree with a leaf for each of its blocks. -/

namespace LinuxEvfs.Ops.Credits

open LinuxEvfs.Errno LinuxEvfs.Lib.IndexTree LinuxEvfs.Lib.IndexFrame LinuxEvfs.Lib.TreeJournal
open LinuxEvfs.Lib.Credits LinuxEvfs.Lib.Holes
open LinuxEvfs.ExtTree.Basic LinuxEvfs.ExtTree.Cells LinuxEvfs.ExtTree.Tree LinuxEvfs.ExtTree.Leaves
open LinuxEvfs.ExtMove.Model LinuxEvfs.ExtMove.Cursor LinuxEvfs.ExtMove.Loop LinuxEvfs.ExtMove.Journal
open LinuxEvfs.ExtMove.Credits LinuxEvfs.ExtMove.Leaves
open LinuxEvfs.Ops.Model (DentryUpdate)

/-! ### The buffers of an update -/

/-- What an update hands over. -/
inductive UpdateBuf where
  | dirBlock
  | itable (no : ℕ)
  /-- The superblock, or a block of the orphan file. -/
  | orphan
deriving DecidableEq

/-- One call of `ext4_mark_inode_dirty`: the credits it gains, besides those for blocks of attributes it moves out of
the inode, and whether it hands the inode-table block over before it fails. -/
structure Mark where
  gain : ℕ
  late : Bool

/-- Where the inodes are, and the three calls of `ext4_mark_inode_dirty`. -/
structure UpdateEnv where
  /-- The inode-table block of an inode. -/
  itable : ℕ → ℕ
  new : Mark
  old : Mark
  dir : Mark

/-- The call hands the inode-table block over. -/
def Mark.Hands (m : Mark) (answer : Option Errno) : Prop := answer = none ∨ m.late = true

instance (m : Mark) (answer : Option Errno) : Decidable (m.Hands answer) := inferInstanceAs (Decidable (_ ∨ _))

def Mark.step (m : Mark) (answer : Option Errno) (no : ℕ) : Step UpdateBuf :=
  ⟨m.gain, if m.Hands answer then {.itable no} else ∅⟩

/-- What comes behind a call if it succeeds. -/
def behind (answer : Option Errno) (rest : List (Step UpdateBuf)) : List (Step UpdateBuf) :=
  match answer with
  | some _ => []
  | none => rest

section model
variable (a : DentryUpdate) (u : UpdateEnv)

/-- `ext4_orphan_add`. -/
def orphanStep : Step UpdateBuf := ⟨0, {.orphan, .itable (u.itable a.old)}⟩

def dirBlockStep : Step UpdateBuf := ⟨0, {.dirBlock}⟩

def retargetSteps : List (Step UpdateBuf) :=
  u.old.step a.decNlink (u.itable a.old) ::
    (behind a.decNlink <|
    behind (if a.last then a.untrack else none) <|
    (if a.last then [orphanStep a u] else []) ++ dirBlockStep ::
      behind a.dirtyDirblock [u.dir.step a.markDirty (u.itable a.dir)])

def countedSteps : List (Step UpdateBuf) :=
  u.new.step a.incNlink (u.itable a.new) :: (behind a.incNlink <| behind a.igetOld <| retargetSteps a u)

/-- The calls of `evfs_dentry_update` on its handle, in the order of `Ops.Model.evfsDentryUpdate`. -/
def evfsDentryUpdateSteps : List (Step UpdateBuf) :=
  behind a.igetDir <|
  if a.isDir = false then []
  else
    behind a.journalStart <|
    behind a.bread <|
    behind a.access <|
    dirBlockStep :: (behind a.igetNew <| countedSteps a u)

end model

/-- `ext4_journal_start(dir_inode, EXT4_HT_DIR, 4)`. -/
def updateCredits : ℕ := 4

/-! ### The credits of an update -/

variable {a : DentryUpdate} {u : UpdateEnv}

/-- The update gets to its last call, `ext4_mark_inode_dirty` on the directory. -/
structure Reaches (a : DentryUpdate) : Prop where
  igetDir : a.igetDir = none
  isDir : a.isDir = true
  journalStart : a.journalStart = none
  bread : a.bread = none
  access : a.access = none
  igetNew : a.igetNew = none
  incNlink : a.incNlink = none
  igetOld : a.igetOld = none
  decNlink : a.decNlink = none
  untrack : a.last = true → a.untrack = none
  dirtyDirblock : a.dirtyDirblock = none

/-- **A fifth buffer**: the old inode becomes an orphan, the three inodes lie in different blocks, and no credits are
gained for the last call. -/
structure Overdraws (a : DentryUpdate) (u : UpdateEnv) : Prop where
  reaches : Reaches a
  last : a.last = true
  new_old : u.itable a.new ≠ u.itable a.old
  new_dir : u.itable a.new ≠ u.itable a.dir
  old_dir : u.itable a.old ≠ u.itable a.dir
  hands : u.dir.Hands a.markDirty
  gain : u.new.gain + u.old.gain + u.dir.gain = 0

theorem buffers_behind {answer : Option Errno} {rest : List (Step UpdateBuf)} {S : Finset UpdateBuf} :
    buffers (behind answer rest) ⊆ S ↔ (answer = none → buffers rest ⊆ S) := by
  cases answer <;> simp [behind, buffers]

theorem mark_subset {m : Mark} {answer : Option Errno} {no : ℕ} {S : Finset UpdateBuf} :
    (m.step answer no).buffers ⊆ S ↔ (m.Hands answer → .itable no ∈ S) := by
  unfold Mark.step
  split_ifs with h <;> simp [h]

theorem mark_buffers {m : Mark} {answer : Option Errno} (h : m.Hands answer) (no : ℕ) :
    (m.step answer no).buffers = {.itable no} := if_pos h

/-- What is handed over before the last call. -/
def early (a : DentryUpdate) (u : UpdateEnv) : Finset UpdateBuf :=
  {.dirBlock, .orphan, .itable (u.itable a.new), .itable (u.itable a.old)}

theorem early_card (a : DentryUpdate) (u : UpdateEnv) : (early a u).card ≤ updateCredits := Finset.card_le_four

theorem dirBlock_early : (.dirBlock : UpdateBuf) ∈ early a u := by simp [early]

theorem new_early : .itable (u.itable a.new) ∈ early a u := by simp [early]

theorem old_early : .itable (u.itable a.old) ∈ early a u := by simp [early]

theorem orphan_early : buffers (if a.last then [orphanStep a u] else []) ⊆ early a u := by
  split_ifs
  · intro b hb
    simp only [buffers, orphanStep, Finset.union_empty, Finset.mem_insert, Finset.mem_singleton] at hb
    rcases hb with rfl | rfl <;> simp [early]
  · exact Finset.empty_subset _

/-- An update that does not get to its last call. -/
theorem updateSteps_early (h : ¬ Reaches a) : buffers (evfsDentryUpdateSteps a u) ⊆ early a u := by
  have hdir : dirBlockStep.buffers ⊆ early a u := Finset.singleton_subset_iff.mpr dirBlock_early
  unfold evfsDentryUpdateSteps
  rw [buffers_behind]
  intro h1
  split_ifs with h2
  · exact Finset.empty_subset _
  simp only [countedSteps, retargetSteps, buffers_behind, buffers, buffers_append, Finset.union_subset_iff, mark_subset]
  intro h3 h4 h5
  refine ⟨hdir, fun h6 => ⟨fun _ => new_early, fun h7 h8 => ⟨fun _ => old_early, fun h9 h10 =>
    ⟨orphan_early, hdir, fun h11 => ?_⟩⟩⟩⟩
  exact absurd ⟨h1, by simpa using h2, h3, h4, h5, h6, h7, h8, h9, fun hl => by simpa [hl] using h10, h11⟩ h

/-- The calls before the last one. -/
def firstSteps (a : DentryUpdate) (u : UpdateEnv) : List (Step UpdateBuf) :=
  [dirBlockStep, u.new.step none (u.itable a.new), u.old.step none (u.itable a.old)] ++
    (if a.last then [orphanStep a u] else []) ++ [dirBlockStep]

theorem updateSteps_reaches (h : Reaches a) :
    evfsDentryUpdateSteps a u = firstSteps a u ++ [u.dir.step a.markDirty (u.itable a.dir)] := by
  have hun : (if a.last then a.untrack else none) = none := by
    split_ifs with hl
    · exact h.untrack hl
    · rfl
  simp only [evfsDentryUpdateSteps, countedSteps, retargetSteps, h.igetDir, h.isDir, h.journalStart, h.bread, h.access,
    h.igetNew, h.incNlink, h.igetOld, h.decNlink, hun, h.dirtyDirblock, behind]
  simp [firstSteps]

theorem firstSteps_early : buffers (firstSteps a u) ⊆ early a u := by
  have hdir : dirBlockStep.buffers ⊆ early a u := Finset.singleton_subset_iff.mpr dirBlock_early
  simp only [firstSteps, List.cons_append, List.nil_append, buffers, buffers_append, Finset.union_subset_iff,
    mark_subset]
  exact ⟨hdir, fun _ => new_early, fun _ => old_early, orphan_early, hdir, Finset.empty_subset _⟩

theorem suffices_of_early {l : List (Step UpdateBuf)} (h : buffers l ⊆ early a u) :
    Suffices (.start updateCredits) l := by
  refine suffices_of_card ?_
  rw [Handle.start, Finset.empty_union]
  exact (Finset.card_le_card h).trans (early_card a u)

/-- The last call of an update. -/
theorem suffices_last (h : Reaches a) :
    Suffices (.start updateCredits) (evfsDentryUpdateSteps a u) ↔
      (buffers (firstSteps a u) ∪ (u.dir.step a.markDirty (u.itable a.dir)).buffers).card ≤
        updateCredits + (u.new.gain + u.old.gain + u.dir.gain) := by
  have hgain : gains (firstSteps a u ++ [u.dir.step a.markDirty (u.itable a.dir)]) =
      u.new.gain + u.old.gain + u.dir.gain := by
    cases hl : a.last <;> simp [firstSteps, gains, Mark.step, dirBlockStep, orphanStep, hl] <;> omega
  rw [updateSteps_reaches h, suffices_concat, hgain, and_iff_right (suffices_of_early firstSteps_early), Handle.start,
    Finset.empty_union, buffers_append]
  simp only [buffers, Finset.union_empty]

/-- Without an orphan there are four buffers at most. -/
theorem card_of_not_last (hl : a.last = false) :
    (buffers (firstSteps a u) ∪ (u.dir.step a.markDirty (u.itable a.dir)).buffers).card ≤ updateCredits := by
  have hsub : buffers (firstSteps a u) ∪ (u.dir.step a.markDirty (u.itable a.dir)).buffers ⊆
      {.dirBlock, .itable (u.itable a.new), .itable (u.itable a.old), .itable (u.itable a.dir)} := by
    simp only [firstSteps, hl, Bool.false_eq_true, if_false, List.append_nil, List.cons_append, List.nil_append,
      buffers, Finset.union_subset_iff, mark_subset, dirBlockStep]
    simp
  exact (Finset.card_le_card hsub).trans Finset.card_le_four

/-- The buffers of an update in which the old inode becomes an orphan. -/
theorem card_of_last (hl : a.last = true) (hh : u.dir.Hands a.markDirty) :
    (buffers (firstSteps a u) ∪ (u.dir.step a.markDirty (u.itable a.dir)).buffers).card =
      2 + ({u.itable a.new, u.itable a.old, u.itable a.dir} : Finset ℕ).card := by
  have hset : buffers (firstSteps a u) ∪ (u.dir.step a.markDirty (u.itable a.dir)).buffers =
      insert .dirBlock (insert .orphan
        (({u.itable a.new, u.itable a.old, u.itable a.dir} : Finset ℕ).image .itable)) := by
    ext b
    simp only [firstSteps, hl, if_true, List.cons_append, List.nil_append, buffers, mark_buffers (.inl rfl),
      mark_buffers hh, dirBlockStep, orphanStep, Finset.image_insert, Finset.image_singleton, Finset.mem_union,
      Finset.mem_insert, Finset.mem_singleton, Finset.notMem_empty]
    tauto
  rw [hset, Finset.card_insert_of_notMem (by simp), Finset.card_insert_of_notMem (by simp),
    Finset.card_image_of_injective _ fun i j h => UpdateBuf.itable.inj h]
  omega

theorem card_three_le_iff {i j k : ℕ} (g : ℕ) :
    ({i, j, k} : Finset ℕ).card ≤ 2 + g ↔ ¬ (i ≠ j ∧ i ≠ k ∧ j ≠ k ∧ g = 0) := by
  by_cases h : i ≠ j ∧ i ≠ k ∧ j ≠ k
  · obtain ⟨h1, h2, h3⟩ := h
    rw [Finset.card_eq_three.mpr ⟨i, j, k, h1, h2, h3, rfl⟩]
    simp only [h1, h2, h3, ne_eq, not_false_eq_true, true_and]
    omega
  · refine iff_of_true (le_trans ?_ (Nat.le_add_right 2 g)) fun hc => h ⟨hc.1, hc.2.1, hc.2.2.1⟩
    by_cases h1 : i = j ∨ i = k
    · rw [Finset.insert_eq_of_mem (by simpa using h1)]
      exact Finset.card_le_two
    · obtain rfl : j = k := by tauto
      rw [Finset.pair_eq_singleton]
      exact Finset.card_le_two

/-- **The four credits of `evfs_dentry_update`.** -/
theorem update_suffices_iff (a : DentryUpdate) (u : UpdateEnv) :
    Suffices (.start updateCredits) (evfsDentryUpdateSteps a u) ↔ ¬ Overdraws a u := by
  by_cases h : Reaches a
  swap
  · exact iff_of_true (suffices_of_early (updateSteps_early h)) fun ho => h ho.reaches
  rw [suffices_last h]
  by_cases hh : u.dir.Hands a.markDirty
  swap
  · refine iff_of_true ?_ fun ho => hh ho.hands
    rw [Mark.step, if_neg hh, Finset.union_empty]
    exact ((Finset.card_le_card firstSteps_early).trans (early_card a u)).trans (Nat.le_add_right _ _)
  cases hl : a.last with
  | false =>
    refine iff_of_true ((card_of_not_last hl).trans (Nat.le_add_right _ _)) fun ho => ?_
    exact Bool.false_ne_true (hl.symm.trans ho.last)
  | true =>
    rw [card_of_last hl hh, updateCredits, show 4 = 2 + 2 from rfl, Nat.add_assoc, Nat.add_le_add_iff_left,
      card_three_le_iff]
    refine not_congr ⟨fun ⟨h1, h2, h3, hg⟩ => ⟨h, hl, h1, h2, h3, hh, hg⟩, fun ho => ?_⟩
    exact ⟨ho.new_old, ho.new_dir, ho.old_dir, ho.gain⟩

/-! ### The credits of a move -/

/-- A move from an exact position, in which no call fails, of a range that does not wrap; the leaves have room for the
cuts at its ends. -/
structure Regular (env : Env) (fuel : ℕ) (ino : Inode) (args : MvIn) : Prop where
  succeeds : Succeeds env
  version : args.expIver = evfsIver ino
  fuel_ge : 3 ≤ fuel
  wf : WellFormed ino.tree
  room : Open ino.tree args.ext.logStart (args.ext.logStart + args.ext.len)
  position : Exact (mapped (exts ino.tree)) args.ext.logStart
  end_lt : args.ext.logStart + args.ext.len < 2 ^ 32

/-- The buffers of the leaves of the mapped blocks in the range of a request. -/
def rangeLeaves (ino : Inode) (nums : Nums) (ext : EvfsExt) : Set Buf :=
  leafBuf ino.tree nums '' inRange ino.tree ext.logStart (ext.logStart + ext.len)

/-- **The credits of `evfs_extent_move`.** -/
theorem move_suffices_iff {env : Env} {fuel : ℕ} {ino : Inode} {args : MvIn} (h : Regular env fuel ino args)
    (blocksize : ℕ) (bl : BlockEnv) (sp : SpaceEnv) (nums : Nums) (credits : ℕ) :
    Suffices (.start credits) (evfsExtentMoveSteps blocksize env bl sp fuel ino nums args) ↔
      (rangeLeaves ino nums args.ext).ncard ≤ credits := by
  have hands : Hands (evfsExtentMoveSteps blocksize env bl sp fuel ino nums args) (rangeLeaves ino nums args.ext) :=
    move_hands bl sp nums h.succeeds h.version h.fuel_ge h.wf h.room h.position h.end_lt
  rw [suffices_iff_card hands.gain, Handle.start, Finset.empty_union, ← hands.buffers_eq, Set.ncard_coe_finset]

/-! ### Both -/

/-- One block. -/
def tooth (i : ℕ) : Extent := ⟨i, 1, 5000 + i⟩

/-- The index entry of its leaf. -/
def toothEntry (i : ℕ) : ℕ × Tree Extent 0 :=
  (i, ({ cap := ext4ExtSpaceBlock 4096, entries := [tooth i] } : Block Extent))

/-- The one index block. -/
def teeth (n : ℕ) : Block (ℕ × Tree Extent 0) := ⟨ext4ExtSpaceBlock 4096, (List.range n).map toothEntry⟩

/-- A file of `n` blocks, each in a leaf of its own. -/
def comb (n : ℕ) : Inode where
  tree := ⟨2, ({ cap := ext4ExtSpaceRoot, entries := [(0, teeth n)] } : Block (ℕ × Tree Extent 1))⟩
  iVersion := 7

/-- The index block is the block 1000, the leaves are the blocks from 2000 on. -/
def combNums : Nums := fun q => 1000 * q.length + q.sum

variable {n x : ℕ}

theorem teeth_below (es : List ℕ) : below 0 (es.map toothEntry) = es.map tooth := by
  induction es with
  | nil => rfl
  | cons i es ih =>
    rw [List.map_cons, below_cons, ih]
    rfl

theorem comb_exts (n : ℕ) : exts (comb n).tree = (List.range n).map tooth := by
  change below 1 [(0, (teeth n : Tree Extent 1))] = _
  rw [below_cons, below_nil, List.append_nil]
  exact teeth_below _

theorem tooth_last (i : ℕ) : (tooth i).last = i + 1 := rfl

theorem comb_wellFormed (h0 : 0 < n) (hn : n ≤ 340) : WellFormed (comb n).tree where
  indexed := by
    obtain ⟨k, rfl⟩ := Nat.exists_eq_succ_of_ne_zero h0.ne'
    have hgood : Good Extent.eeBlock 1 (0, (teeth (k + 1) : Tree Extent 1)) := by
      change ((below 0 ((List.range (k + 1)).map toothEntry)).head?.map _) = _
      rw [teeth_below, List.range_succ_eq_map]
      rfl
    have hne : (teeth (k + 1)).entries ≠ [] := by simp [teeth]
    refine ⟨List.cons_ne_nil _ _, fun e he => ?_⟩
    obtain rfl := List.mem_singleton.mp he
    refine ⟨⟨hne, fun e he => ?_⟩, hgood⟩
    obtain ⟨i, -, rfl⟩ := List.mem_map.mp he
    exact ⟨trivial, rfl⟩
  valid := by
    rw [comb_exts]
    refine ⟨fun e he => ?_, List.pairwise_map.mpr ?_⟩
    · obtain ⟨i, hi, rfl⟩ := List.mem_map.mp he
      have := List.mem_range.mp hi
      exact ⟨Nat.one_ne_zero, by simp only [tooth]; decide, by rw [tooth_last, EXT_MAX_BLOCKS]; omega,
        by simp only [tooth]; omega⟩
    · exact List.pairwise_lt_range.imp fun hlt => hlt

/-- The path to a block. -/
theorem comb_find (hn : n ≤ 340) (hx : x < n) : ext4FindExtent (comb n).tree x = ((0, (x, some 0)) : Path 2) := by
  obtain ⟨k, rfl⟩ : ∃ k, n = x + (k + 1) := ⟨n - x - 1, by omega⟩
  have hsplit : List.range (x + (k + 1)) = List.range x ++ x :: (List.range k).map (fun i => x + (i + 1)) := by
    rw [List.range_add, List.range_succ_eq_map]
    simp
  have hentries : (teeth (x + (k + 1))).entries = (List.range x).map toothEntry ++
      toothEntry x :: ((List.range k).map (fun i => x + (i + 1))).map toothEntry := by
    rw [teeth, hsplit, List.map_append, List.map_cons]
  have hat1 : At 1 (teeth (x + (k + 1)) : Tree Extent 1) ((x, some 0) : Path 1) ((List.range x).map tooth)
      (some (tooth x)) (((List.range k).map (fun i => x + (i + 1))).map tooth) := by
    refine ⟨_, x, _, _, [], [], hentries, ?_, ⟨rfl, rfl, fun h => absurd h (by simp)⟩, ?_, ?_⟩
    · rw [List.length_map, List.length_range]
    · rw [teeth_below, List.append_nil]
    · rw [teeth_below, List.nil_append]
  have hat : At 2 (comb (x + (k + 1))).tree.2 ((0, (x, some 0)) : Path 2) ((List.range x).map tooth) (some (tooth x))
      (((List.range k).map (fun i => x + (i + 1))).map tooth) :=
    ⟨[], 0, _, [], _, _, rfl, rfl, hat1, rfl, (List.append_nil _).symm⟩
  exact find_eq (comb_wellFormed (by omega) hn) hat (Nat.le_refl x) (Nat.lt_succ_self x)

theorem comb_mapped (n : ℕ) : mapped (exts (comb n).tree) = Set.Iio n := by
  ext x
  rw [comb_exts]
  constructor
  · rintro ⟨e, he, h1, h2⟩
    obtain ⟨i, hi, rfl⟩ := List.mem_map.mp he
    have hlt := List.mem_range.mp hi
    rw [tooth_last] at h2
    exact Nat.lt_of_le_of_lt (Nat.le_of_lt_succ h2) hlt
  · intro hx
    exact ⟨tooth x, List.mem_map_of_mem (List.mem_range.mpr hx), Nat.le_refl x, Nat.lt_succ_self x⟩

/-- No point cuts a block in two. -/
theorem tooth_cuts (P : List ℕ) (i : ℕ) : cuts P [tooth i] = [] := by
  refine List.filter_eq_nil_iff.mpr fun x _ hany => ?_
  simp only [List.any_cons, List.any_nil, Bool.or_false, Bool.and_eq_true, decide_eq_true_eq] at hany
  exact absurd (Nat.le_of_lt_succ hany.2) (Nat.not_le.mpr hany.1)

theorem comb_open (n c E : ℕ) : Open (comb n).tree c E where
  roomy q lf hlf := by
    rcases q with _ | ⟨i, _ | ⟨j, q⟩⟩
    · cases hlf
    · obtain ⟨e, -, h⟩ := Option.bind_eq_some_iff.mp hlf
      cases h
    · obtain ⟨e, he, h⟩ := Option.bind_eq_some_iff.mp hlf
      obtain rfl := List.mem_singleton.mp (List.mem_of_getElem? he)
      obtain ⟨e, he, h⟩ := Option.bind_eq_some_iff.mp h
      obtain ⟨k, -, rfl⟩ := List.mem_map.mp (List.mem_of_getElem? he)
      cases q with
      | cons => cases h
      | nil =>
        cases h
        change 1 + (cuts [c, E] [tooth k]).length ≤ ext4ExtSpaceBlock 4096
        rw [tooth_cuts]
        decide
  wide h := absurd h (by simp [comb])

theorem comb_leaves (hn : n ≤ 340) : (rangeLeaves (comb n) combNums (EvfsExt.of 0 20000 n)).ncard = n := by
  have hlen : (EvfsExt.of 0 20000 n).len = n := Nat.mod_eq_of_lt (by omega)
  have hbuf : ∀ x ∈ Set.Iio n, leafBuf (comb n).tree combNums x = .tree (2000 + x) := fun x hx => by
    rw [leafBuf, comb_find hn hx]
    refine (pathBuf_eq (d := 2) two_ne_zero combNums _).trans ?_
    simp [spine, combNums]
  have hrange : inRange (comb n).tree 0 n = Set.Iio n := by
    ext x
    simp [inRange, comb_mapped]
  have himage : rangeLeaves (comb n) combNums (EvfsExt.of 0 20000 n) = (fun x => Buf.tree (2000 + x)) '' Set.Iio n := by
    rw [rangeLeaves, hlen, show (EvfsExt.of 0 20000 n).logStart = 0 from rfl, Nat.zero_add, hrange]
    exact Set.image_congr hbuf
  rw [himage, Set.ncard_image_of_injective _ fun i j h => by simpa using h, ← Finset.coe_range, Set.ncard_coe_finset,
    Finset.card_range]

theorem comb_regular (h0 : 0 < n) (hn : n ≤ 340) : Regular allSucceed 3 (comb n) ⟨7, EvfsExt.of 0 20000 n⟩ where
  succeeds := allSucceed_succeeds
  version := rfl
  fuel_ge := Nat.le_refl _
  wf := comb_wellFormed h0 hn
  room := comb_open n _ _
  position := .inl (by rw [comb_mapped]; exact h0)
  end_lt := by
    have hlen : (EvfsExt.of 0 20000 n).len = n := Nat.mod_eq_of_lt (by omega)
    change 0 + (EvfsExt.of 0 20000 n).len < 2 ^ 32
    omega

/-- An update in which all calls succeed and the old inode loses its last link. -/
def lastLink : DentryUpdate where
  dir := 2
  new := 20
  igetDir := none
  isDir := true
  journalStart := none
  bread := none
  access := none
  igetNew := none
  incNlink := none
  old := 40
  igetOld := none
  decNlink := none
  last := true
  untrack := none
  dirtyDirblock := none
  markDirty := none
  journalStop := none
  uninit := 0

/-- Inode-table blocks of 16 inodes, from the block 100 on; no credits are gained. -/
def sparse : UpdateEnv where
  itable i := 100 + (i - 1) / 16
  new := ⟨0, false⟩
  old := ⟨0, false⟩
  dir := ⟨0, false⟩

theorem lastLink_overdraws : Overdraws lastLink sparse where
  reaches := ⟨rfl, rfl, rfl, rfl, rfl, rfl, rfl, rfl, rfl, fun _ => rfl, rfl⟩
  last := rfl
  new_old := by decide
  new_dir := by decide
  old_dir := by decide
  hands := .inl rfl
  gain := rfl

end LinuxEvfs.Ops.Credits
