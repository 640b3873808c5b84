import LinuxEvfs.ExtMove.Journal
import LinuxEvfs.Lib.Credits
import LinuxEvfs.Lib.TreeBuffers

/-! # The buffers of `evfs_extent_move`

What the passes of the move hand over to the journal, all under its one handle: blocks of the tree, the inode-table
block, which is marked dirty when the root of the tree changes, and what the allocator hands over. Each pass is one
`Step`; it goes along with the function of the same name in `ExtMove.Model`, and its events on tree blocks are those
of `ExtMove.Journal`.

Only `ext4_ext_try_to_merge_up` asks for further credits, two of them, before it moves the last leaf into the inode
and releases its block. A buffer counts as handed over when it is passed to one of the calls that grant write access
or mark it dirty; a block that is forgotten is not. -/

namespace LinuxEvfs.ExtMove.Credits

open LinuxEvfs.Errno LinuxEvfs.Lib.Word LinuxEvfs.Lib.IndexTree LinuxEvfs.Lib.Journal LinuxEvfs.Lib.TreeJournal
open LinuxEvfs.Lib.Credits LinuxEvfs.Lib.TreeBuffers
open LinuxEvfs.ExtTree.Basic LinuxEvfs.ExtTree.Tree LinuxEvfs.ExtTree.Split
open LinuxEvfs.ExtMove.Model LinuxEvfs.ExtMove.Journal

inductive Buf where
  | tree (no : ℕ)
  /-- The inode-table block of the inode. -/
  | itable
  /-- A block bitmap or a group descriptor. -/
  | space (no : ℕ)
deriving DecidableEq

/-- What the allocator hands over: for a tree block that it allocates or releases, and, after an insertion that
fails, for what was allocated up to there. -/
structure SpaceEnv where
  space : ℕ → Finset ℕ
  failed : ℕ → Finset Buf

def treeBufs (evs : List (Ev ℕ)) : Finset Buf := (handed evs).image .tree

def SpaceEnv.bufs (sp : SpaceEnv) (nos : Finset ℕ) : Finset Buf := nos.biUnion fun no => (sp.space no).image .space

/-- `ext4_mark_inode_dirty`, if the root changes. -/
def topBufs (top : Bool) : Finset Buf := if top then {.itable} else ∅

/-- A pass that hands nothing over. -/
def nothing : Step Buf := ⟨0, ∅⟩

section model
variable (blocksize : ℕ) (env : Env) (bl : BlockEnv) (sp : SpaceEnv)

/-- What a split hands over besides blocks of the tree and what was allocated for them. -/
def splitTop (calls : ℕ) (out : SplitOut) (t : ExtRoot) (nums : Nums) (path : Path t.1) (split : ℕ)
    (unwritten : Bool) : Finset Buf :=
  match pExt t path with
  | none => ∅
  | some ex =>
    if split < ex.eeBlock ∨ add32 ex.eeBlock (ext4ExtGetActualLen ex) ≤ split then ∅
    else
      let short := updExt (setLen · (split - ex.eeBlock) unwritten) t path
      let top := insertTop Extent.eeBlock (splitTail ex split unwritten) (ext4ExtSpaceBlock blocksize)
        (bl.alloc calls) t.1 nums short.2 path
      match out with
      | .accessErr _ => ∅
      | out =>
        if split = ex.eeBlock then topBufs (t.1 == 0)
        else
          match out with
          | .dirtyErr _ => topBufs (t.1 == 0)
          | .insertErr _ inserted =>
            topBufs (t.1 == 0 || inserted && top) ∪ if inserted then ∅ else sp.failed calls
          | _ => topBufs (t.1 == 0 || top)

def splitPassStep (st : St) (nums : Nums) (lblk x : ℕ) : Step Buf :=
  let path := ext4FindExtent st.tree lblk
  let evs := (splitPassJ blocksize env bl st nums lblk x).2
  let unwritten := (pExt st.tree path).elim false ext4ExtIsUnwritten
  ⟨0, treeBufs evs ∪ sp.bufs (made evs) ∪
    splitTop blocksize bl sp st.calls (env.split st.calls) st.tree nums path x unwritten⟩

/-- The store and the merge. -/
def storePassStep (curr : EvfsExt) (st : St) (nums : Nums) (lblk : ℕ) : Step Buf :=
  let path := ext4FindExtent st.tree lblk
  let phy := sub64 (add64 curr.phyStart lblk) curr.logStart
  let t := ext4ExtTryToMerge (env.extend st.calls) (updExt (ext4ExtStorePblock · phy) st.tree path) path
  let evs := (storePassJ env curr st nums lblk).2
  if t.1 < st.tree.1 then
    ⟨2, treeBufs evs ∪ topBufs true ∪ sp.bufs (leafNo st.tree.1 none nums path).toFinset⟩
  else ⟨0, treeBufs evs ∪ topBufs (st.tree.1 == 0)⟩

def insidePassStep (curr : EvfsExt) (st : St) (nums : Nums) (ex : Extent) (lblk len : ℕ) : Step Buf :=
  let eEnd := add32 ex.eeBlock (ext4ExtGetActualLen ex)
  if add32 curr.logStart len ≤ lblk then nothing
  else
    let len := sub32 (add32 curr.logStart len) lblk
    if ex.eeBlock < lblk then splitPassStep blocksize env bl sp st nums lblk lblk
    else
      let len := if eEnd < add32 lblk len then sub32 eEnd lblk else len
      if add32 lblk len < eEnd then splitPassStep blocksize env bl sp st nums lblk (add32 lblk len)
      else storePassStep env sp curr st nums lblk

def mapPassStep (curr : EvfsExt) (st : St) (nums : Nums) (lblk len : ℕ) : Step Buf :=
  match env.find st.calls with
  | some _ => nothing
  | none =>
    match pExt st.tree (ext4FindExtent st.tree lblk) with
    | none => nothing
    | some ex =>
      if lblk < ex.eeBlock then nothing
      else if add32 ex.eeBlock (ext4ExtGetActualLen ex) ≤ lblk then nothing
      else insidePassStep blocksize env bl sp curr ⟨st.tree, st.calls + 1⟩ nums ex lblk len

def mapLoopSteps (curr : EvfsExt) : ℕ → St → Nums → ℕ → ℕ → List (Step Buf)
  | 0, _, _, _, _ => []
  | fuel + 1, st, nums, lblk, len =>
    mapPassStep blocksize env bl sp curr st nums lblk len ::
      match mapPass blocksize env curr st lblk len with
      | .cont st' lblk' len' =>
        mapLoopSteps curr fuel st' (mapPassJ blocksize env bl curr st nums lblk len).1 lblk' len'
      | _ => []

def moveLoopSteps (fuel : ℕ) : ℕ → St → Nums → EvfsExt → List (Step Buf)
  | 0, _, _, _ => []
  | room + 1, st, nums, curr =>
    if curr.len = 0 then []
    else
      let nums' := (mapLoopJ blocksize env bl curr fuel st nums curr.logStart curr.len).1
      mapLoopSteps blocksize env bl sp curr fuel st nums curr.logStart curr.len ++
        match evfsExtentMap blocksize env fuel curr st with
        | .ret (st', err, _, next) => if err < 0 then [] else moveLoopSteps fuel room st' nums' next
        | _ => []

/-- The passes of `evfs_extent_move` between the start and the stop of its handle; there is none if it is refused
before. -/
def evfsExtentMoveSteps (fuel : ℕ) (ino : Inode) (nums : Nums) (args : MvIn) : List (Step Buf) :=
  match env.iget with
  | some _ => []
  | none =>
    if evfsIver ino ≠ args.expIver then []
    else
      match env.journalStart with
      | some _ => []
      | none => moveLoopSteps blocksize env bl sp fuel args.ext.len ⟨ino.tree, 0⟩ nums args.ext

end model

end LinuxEvfs.ExtMove.Credits
