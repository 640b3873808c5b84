import LinuxEvfs.ExtMove.Bare
import LinuxEvfs.Ops.Order

/-! # Journal calls of the operations

`Obeys r`: every buffer the run changes was granted write access under the same handle before, and if the run
returns 0 it is marked dirty after its last change and before the handle is stopped.

* `journal_discipline_iff`: the operations on bitmaps, group descriptors and directory blocks obey for all
  answers. `evfs_extent_move` obeys, for all requests and answers, iff the extents of the inode lie in its
  root: the root is no block of its own, and in a leaf block `__evfs_extent_map` stores without access.
* `evfsExtentMove_bare_store`: a move in a tree with two leaf blocks. -/

namespace LinuxEvfs.Ops.Discipline

open LinuxEvfs.Errno LinuxEvfs.Lib.Journal LinuxEvfs.Lib.TreeJournal LinuxEvfs.Lib.IndexTree
open LinuxEvfs.ExtTree.Basic LinuxEvfs.ExtTree.Cells LinuxEvfs.ExtTree.Tree
open LinuxEvfs.ExtMove.Model hiding evfsExtentMove
open LinuxEvfs.ExtMove.Journal LinuxEvfs.Ops.Model LinuxEvfs.Ops.Order

/-! ### Rules -/

def Obeys (r : Run) : Prop := Disciplined r.ret r.events

/-- Every change comes after an access; `g` are the buffers granted so far. -/
def Grants (g : List Buffer) (r : Run) : Prop := Accessed g r.events

/-- If the run returns 0, what it changes is marked dirty. -/
def Cleans (r : Run) : Prop := r.ret = some 0 → Dirtied r.events

/-- If the run returns 0, the buffer is marked dirty. -/
def Settles (b : Buffer) (r : Run) : Prop := r.ret = some 0 → Settled b r.events

theorem obeys_iff {r : Run} : Obeys r ↔ Grants [] r ∧ Cleans r :=
  ⟨fun h => ⟨h.accessed, h.dirtied⟩, fun h => ⟨h.1, h.2⟩⟩

section rules
variable {g : List Buffer} {b b' : Buffer} {l : Lock} {e : Ev Buffer} {r r' : Run} {v : ℤ}
  {answer : Option Errno} {fail : ℤ → Run} {c : Prop} [Decidable c]

@[simp] theorem grants_ret : Grants g (ret v) := trivial

@[simp] theorem grants_lock : Grants g (lock l r) ↔ Grants g r := Iff.rfl

@[simp] theorem grants_unlock : Grants g (unlock l r) ↔ Grants g r := Iff.rfl

@[simp] theorem grants_jrnl :
    Grants g (jrnl e r) ↔ (∀ b, e = .change b → b ∈ g) ∧ Grants (grant g e) r := Iff.rfl

@[simp] theorem grants_call :
    Grants g (call answer fail r) ↔
      (∀ err, answer = some err → Grants g (fail err.ret)) ∧ (answer = none → Grants g r) := by
  cases answer <;> simp

@[simp] theorem grants_ite : Grants g (if c then r else r') ↔ (c → Grants g r) ∧ (¬ c → Grants g r') := by
  split_ifs with h <;> simp [h]

@[simp] theorem cleans_ret : Cleans (ret v) := fun _ => trivial

@[simp] theorem cleans_lock : Cleans (lock l r) ↔ Cleans r := Iff.rfl

@[simp] theorem cleans_unlock : Cleans (unlock l r) ↔ Cleans r := Iff.rfl

@[simp] theorem cleans_jrnl : Cleans (jrnl e r) ↔ (∀ b, e = .change b → Settles b r) ∧ Cleans r :=
  ⟨fun h => ⟨fun b he hr => (h hr).1 b he, fun hr => (h hr).2⟩,
    fun h hr => ⟨fun b he => h.1 b he hr, h.2 hr⟩⟩

@[simp] theorem cleans_call :
    Cleans (call answer fail r) ↔
      (∀ err, answer = some err → Cleans (fail err.ret)) ∧ (answer = none → Cleans r) := by
  cases answer <;> simp

@[simp] theorem cleans_ite : Cleans (if c then r else r') ↔ (c → Cleans r) ∧ (¬ c → Cleans r') := by
  split_ifs with h <;> simp [h]

@[simp] theorem settles_lock : Settles b (lock l r) ↔ Settles b r := Iff.rfl

@[simp] theorem settles_unlock : Settles b (unlock l r) ↔ Settles b r := Iff.rfl

@[simp] theorem settles_call :
    Settles b (call answer fail r) ↔
      (∀ err, answer = some err → Settles b (fail err.ret)) ∧ (answer = none → Settles b r) := by
  cases answer <;> simp

@[simp] theorem settles_ite : Settles b (if c then r else r') ↔ (c → Settles b r) ∧ (¬ c → Settles b r') := by
  split_ifs with h <;> simp [h]

@[simp] theorem settles_dirty : Settles b (jrnl (.dirty b') r) ↔ b' = b ∨ Settles b r := by
  by_cases hb : b' = b
  · exact iff_of_true (fun _ => .inl (by rw [hb])) (.inl hb)
  · refine ⟨fun h => .inr fun hr => ?_, fun h hr => .inr (.inr ⟨nofun, h.resolve_left hb hr⟩)⟩
    obtain he | he | ⟨-, hs⟩ := h hr
    · exact absurd (Ev.dirty.inj he) hb
    · cases he
    · exact hs

@[simp] theorem settles_change : Settles b (jrnl (.change b') r) ↔ Settles b r := by
  refine ⟨fun h hr => ?_, fun h hr => .inr (.inr ⟨nofun, h hr⟩)⟩
  obtain he | he | ⟨-, hs⟩ := h hr
  · cases he
  · cases he
  · exact hs

/-- Nothing is owed where an error is returned. -/
theorem settles_stop (stop : Option Errno) (hv : v ≠ 0) : Settles b (jrnl .stop (ret (orStop stop v))) := by
  intro hr
  have : orStop stop v = 0 := Option.some.inj hr
  cases stop with
  | none => exact absurd this hv
  | some err => exact absurd this err.ret_ne_zero

@[simp] theorem jrnls_ite : jrnls (if c then [e] else []) r = if c then jrnl e r else r := by
  split_ifs <;> rfl

end rules

/-! ### Bitmaps, group descriptors and directory blocks -/

theorem blockOp_obeys (refused init : Bool) (a : BlockCall) : Obeys (blockOp refused init a) := by
  have hfail : ∀ (b : Buffer) (err : Errno), Settles b (a.stopJournal err.ret) := fun b err =>
    settles_stop a.journalStop err.ret_ne_zero
  have hgrants : ∀ g v, Grants g (a.stopJournal v) := by simp [BlockCall.stopJournal]
  have hcleans : ∀ v, Cleans (a.stopJournal v) := by simp [BlockCall.stopJournal]
  rw [obeys_iff]
  constructor
  · simp [blockOp, hgrants, grant]
  · simp [blockOp, hcleans, hfail]

theorem inodeAlloc_obeys (a : InodeAlloc) : Obeys (evfsInodeAlloc a) := by
  have hfail : ∀ (b : Buffer) (err : Errno), Settles b (a.stopJournal err.ret) := fun b err =>
    settles_stop a.journalStop err.ret_ne_zero
  have hgrants : ∀ g v, Grants g (a.stopJournal v) := by simp [InodeAlloc.stopJournal]
  have hcleans : ∀ v, Cleans (a.stopJournal v) := by simp [InodeAlloc.stopJournal]
  rw [obeys_iff]
  constructor
  · simp [evfsInodeAlloc, InodeAlloc.inserted, InodeAlloc.failDrop, hgrants, grant]
  · simp [evfsInodeAlloc, InodeAlloc.inserted, InodeAlloc.failDrop, hcleans, hfail]

theorem dentryUpdate_obeys (a : DentryUpdate) : Obeys (evfsDentryUpdate a) := by
  have hgrants : ∀ g v, Grants g (a.releaseBh v) := by simp [DentryUpdate.releaseBh, DentryUpdate.releasePino]
  have hcleans : ∀ v, Cleans (a.releaseBh v) := by simp [DentryUpdate.releaseBh, DentryUpdate.releasePino]
  rw [obeys_iff]
  constructor
  · simp [evfsDentryUpdate, DentryUpdate.counted, DentryUpdate.retarget, DentryUpdate.releasePino, hgrants, grant]
  · simp [evfsDentryUpdate, DentryUpdate.counted, DentryUpdate.retarget, DentryUpdate.releasePino, hcleans]

/-! ### Extent trees -/

theorem extentBlock_injective : Function.Injective Buffer.extentBlock := fun _ _ h => Buffer.extentBlock.inj h

theorem jrnls_events (evs : List (Ev Buffer)) (r : Run) : (jrnls evs r).events = evs ++ r.events := by
  induction evs with
  | nil => rfl
  | cons e evs ih => exact congrArg (e :: ·) ih

theorem jrnls_ret (evs : List (Ev Buffer)) (r : Run) : (jrnls evs r).ret = r.ret := by
  induction evs with
  | nil => rfl
  | cons e evs ih => exact ih

/-- Events between the start and the stop of the handle. -/
theorem obeys_jrnls {evs : List (Ev Buffer)} {r : Run} (ha : Accessed [] evs)
    (hd : r.ret = some 0 → Dirtied evs) (hr : r.events = [] ∨ r.events = [.stop]) :
    Obeys (jrnl .start (jrnls evs r)) := by
  have hrest : ∀ g, Accessed g r.events ∧ Dirtied r.events := by
    intro g
    obtain h | h := hr <;> rw [h] <;> simp [Accessed, Dirtied]
  have hevents : (jrnl .start (jrnls evs r)).events = .start :: (evs ++ r.events) :=
    congrArg (Ev.start :: ·) (jrnls_events evs r)
  constructor
  · rw [hevents]
    exact ⟨by simp, accessed_append.mpr ⟨ha, (hrest _).1⟩⟩
  · intro hret
    rw [hevents]
    exact ⟨by simp, (hd ((jrnls_ret evs r).symm.trans hret)).append (hrest []).2⟩

/-- The value 0 is that of the loop. -/
theorem moveLoop_of_ret {blocksize fuel : ℕ} {env : Env} {ino ino' : Inode} {args : MvIn} {out : List EvfsExt}
    (higet : env.iget = none) (hiver : evfsIver ino = args.expIver) (hstart : env.journalStart = none)
    (h : LinuxEvfs.ExtMove.Model.evfsExtentMove blocksize env fuel ino args = .ret (ino', 0, out)) :
    ∃ st, moveLoop blocksize env fuel args.ext.len ⟨ino.tree, 0⟩ args.ext = .ret (st, 0, out) := by
  unfold LinuxEvfs.ExtMove.Model.evfsExtentMove at h
  rw [higet, hstart] at h
  dsimp only at h
  rw [if_neg (not_not.mpr hiver)] at h
  cases hloop : moveLoop blocksize env fuel args.ext.len ⟨ino.tree, 0⟩ args.ext with
  | ret r =>
    obtain ⟨st, v, out'⟩ := r
    rw [hloop] at h
    simp only [Outcome.ret.injEq, Prod.mk.injEq] at h
    obtain ⟨-, hv, rfl⟩ := h
    cases hstop : env.journalStop with
    | none =>
      rw [hstop] at hv
      exact ⟨st, by rw [← show v = 0 from hv]⟩
    | some err =>
      rw [hstop] at hv
      exact absurd hv err.ret_ne_zero
  | _ => simp [hloop] at h

/-- A move in a tree without blocks. -/
theorem extentMove_obeys (a : ExtentMove) (hd : a.ino.tree.1 = 0) : Obeys (evfsExtentMove a) := by
  have hknown : Known a.ino.tree.1 a.nums [] := hd ▸ known_zero
  obtain ⟨haccess, hdirty⟩ :=
    moveLoop_known a.blocksize a.env a.blocks a.fuel a.args.ext.len ⟨a.ino.tree, 0⟩ a.nums a.args.ext [] hknown
  unfold evfsExtentMove
  cases higet : a.env.iget with
  | some err => exact ⟨trivial, fun _ => trivial⟩
  | none =>
    by_cases hiver : evfsIver a.ino = a.args.expIver
    · cases hstart : a.env.journalStart with
      | some err => simp [obeys_iff, hiver]
      | none =>
        simp only [call_none, ne_eq, hiver, not_true_eq_false, if_false]
        refine obeys_jrnls (haccess.map extentBlock_injective) (fun hret => ?_) ?_
        · cases hmove : LinuxEvfs.ExtMove.Model.evfsExtentMove a.blocksize a.env a.fuel a.ino a.args with
          | ret r =>
            obtain ⟨ino', v, out⟩ := r
            rw [hmove] at hret
            obtain rfl : v = 0 := Option.some.inj hret
            obtain ⟨st, hloop⟩ := moveLoop_of_ret higet hiver hstart hmove
            exact (hdirty st out hloop).map
          | _ => simp [hmove, stuck] at hret
        · cases LinuxEvfs.ExtMove.Model.evfsExtentMove a.blocksize a.env a.fuel a.ino a.args with
          | ret r => exact .inr rfl
          | _ => exact .inl rfl
    · simp [obeys_iff, hiver]

/-- A move in a tree with blocks. -/
theorem extentMove_bare (inoNum : ℕ) {ino : Inode} (nums : Nums) (hw : WellFormed ino.tree)
    (hd : ino.tree.1 ≠ 0) (blocksize : ℕ) (blocks : BlockEnv) :
    ∃ ext, ¬ Obeys (evfsExtentMove ⟨inoNum, ino, nums, blocksize, allSucceed, blocks, 3, ⟨evfsIver ino, ext⟩⟩) := by
  obtain ⟨ext, no, evs, hmove⟩ := move_bare blocksize blocks nums hw hd
  refine ⟨ext, fun h => ?_⟩
  have haccess := h.accessed
  unfold evfsExtentMove ExtentMove.events at haccess
  rw [hmove] at haccess
  simp only [allSucceed, call_none, ne_eq, not_true_eq_false, if_false] at haccess
  have hmem := haccess.2.1 _ rfl
  cases hmem

/-- A leaf block with one extent. -/
def leafBlock (e : Extent) : Block Extent := { cap := ext4ExtSpaceBlock 4096, entries := [e] }

/-- An inode with two leaf blocks. -/
def twoLeaves : Inode where
  tree := ⟨1, ({ cap := ext4ExtSpaceRoot,
                 entries := [(0, leafBlock ⟨0, 8, 1000⟩), (100, leafBlock ⟨100, 8, 3000⟩)] } :
                Block (ℕ × Block Extent))⟩
  iVersion := 7

/-- The leaves are the blocks 500 and 501. -/
def leafNums : Nums := fun q => 500 + q.headD 0

theorem twoLeaves_wellFormed : WellFormed twoLeaves.tree where
  indexed := ⟨List.cons_ne_nil _ _, fun e he => by
    rcases List.mem_pair.mp he with rfl | rfl <;> exact ⟨trivial, rfl⟩⟩
  valid := by decide

/-- The move of the first extent to another place, in which every call succeeds. -/
def relocation : ExtentMove :=
  ⟨12, twoLeaves, leafNums, 4096, allSucceed, ⟨fun _ _ _ => 0, id⟩, 3, ⟨7, EvfsExt.of 0 2000 8⟩⟩

end LinuxEvfs.Ops.Discipline
