import Mathlib.Algebra.BigOperators.Group.Finset.Basic
import Mathlib.Data.Int.ModEq
import LinuxEvfs.Lib.Word

/-! # Allocating and freeing blocks by number

A block group is its block bitmap, the free-cluster count of its descriptor and the flag
`EXT4_BG_BLOCK_UNINIT`. The critical section of a call under the group lock is `allocLocked` or
`freeLocked`; after it the call updates the per-CPU counter of free clusters, and then, under the
lock of the superblock's buffer, the free-block count on disk.

* `State`, `Step`: any number of calls in flight, interleaved at these locks.
* `Consistent`: the counts agree with the bitmaps and with each other.

The checksums of the bitmap, of the descriptor and of the superblock are left out. -/

namespace LinuxEvfs.Blocks

open Finset Lib.Word

/-! ### Geometry -/

/-- The numbers of the superblock. -/
structure Layout where
  firstDataBlock : ℕ
  blocksCount : ℕ
  clustersPerGroup : ℕ
  /-- `s_cluster_bits`: a cluster is `2 ^ clusterBits` blocks. -/
  clusterBits : ℕ
  /-- The width of the free-cluster count of a descriptor: 32 with the 64bit feature, otherwise 16. -/
  countWidth : ℕ
  /-- `ext4_has_group_desc_csum`. -/
  groupDescCsum : Bool

namespace Layout

/-- `s_cluster_ratio`. -/
def ratio (geo : Layout) : ℕ := 2 ^ geo.clusterBits

/-- `EXT4_BLOCKS_PER_GROUP`. -/
def blocksPerGroup (geo : Layout) : ℕ := geo.clustersPerGroup * geo.ratio

/-- `s_groups_count`. -/
def groupsCount (geo : Layout) : ℕ :=
  (geo.blocksCount - geo.firstDataBlock + geo.blocksPerGroup - 1) / geo.blocksPerGroup

end Layout

/-- A layout that can be mounted. -/
structure Geometry extends Layout where
  /-- `ext4_free_clusters_after_init`: the free clusters of a group whose bitmap has only its
  metadata bits set. -/
  freeClustersAfterInit : ℕ → ℕ
  afterInit_le : ∀ group, freeClustersAfterInit group ≤ clustersPerGroup
  clusters_pos : 0 < clustersPerGroup
  clusters_lt : clustersPerGroup < 2 ^ countWidth
  width_le : countWidth ≤ 32
  count_lt : blocksCount < 2 ^ 64
  blocks_lt : toLayout.blocksPerGroup < 2 ^ 32
  groups_lt : toLayout.groupsCount < 2 ^ 32

variable (geo : Geometry)

/-- A block of the file system. -/
def InRange (bindex : ℕ) : Prop := geo.firstDataBlock ≤ bindex ∧ bindex < geo.blocksCount

instance (bindex : ℕ) : Decidable (InRange geo bindex) := inferInstanceAs (Decidable (_ ∧ _))

/-- `ext4_get_group_no_and_offset`: a 32-bit group number and the cluster in it. -/
def groupNoAndOffset (bindex : ℕ) : ℕ × ℕ :=
  let blocknr := sub64 bindex geo.firstDataBlock
  (blocknr / geo.blocksPerGroup % 2 ^ 32, blocknr % geo.blocksPerGroup / geo.ratio)

/-- `EXT4_C2B`, in 32 bits. -/
def c2b (clusters : ℕ) : ℕ := clusters * geo.ratio % 2 ^ 32

/-- `EXT4_NUM_B2C`, in 32 bits. -/
def numB2C (blocks : ℕ) : ℕ := sub32 (add32 blocks geo.ratio) 1 / geo.ratio

/-! ### Under the group lock -/

structure Group where
  bitmap : ℕ → Bool
  /-- `ext4_free_group_clusters`. -/
  free : ℕ
  /-- `EXT4_BG_BLOCK_UNINIT`. -/
  blockUninit : Bool

/-- `ext4_free_group_clusters_set`. -/
def Group.setFree (gr : Group) (count : ℕ) : Group :=
  { gr with free := count % 2 ^ geo.countWidth }

def Group.setBit (gr : Group) (offset : ℕ) (b : Bool) : Group :=
  { gr with bitmap := Function.update gr.bitmap offset b }

/-- The first access to a group that was not initialised yet. -/
def initGroup (group : ℕ) (gr : Group) : Group :=
  if geo.groupDescCsum && gr.blockUninit then
    { gr with blockUninit := false }.setFree geo (geo.freeClustersAfterInit group)
  else gr

/-- The critical section of `evfs_block_alloc`; `none` is `EEXIST`. -/
def allocLocked (group offset : ℕ) (gr : Group) : Option Group :=
  if gr.bitmap offset then none
  else
    -- the count is taken to blocks, lowered by one block, and rounded up to clusters again
    some (initGroup geo group
      ((gr.setBit offset true).setFree geo (numB2C geo (sub32 (c2b geo gr.free) 1))))

/-- The critical section of `evfs_block_free`; `none` is `EEXIST`. -/
def freeLocked (offset : ℕ) (gr : Group) : Option Group :=
  if gr.bitmap offset then
    some ((gr.setBit offset false).setFree geo (numB2C geo (add32 (c2b geo gr.free) 1)))
  else none

inductive Op
  | alloc
  | free
deriving DecidableEq, Repr

/-- The critical section of a call. -/
def locked (op : Op) (group offset : ℕ) (gr : Group) : Option Group :=
  match op with
  | .alloc => allocLocked geo group offset gr
  | .free => freeLocked geo offset gr

/-! ### The counters of the file system -/

/-- `percpu_counter_sub` and `percpu_counter_add` of `EXT4_NUM_B2C(sbi, 1)`. -/
def countPercpu (op : Op) (counter : ℤ) : ℤ :=
  match op with
  | .alloc => counter - numB2C geo 1
  | .free => counter + numB2C geo 1

/-- `ext4_free_blocks_count_set` under the lock of the superblock's buffer. -/
def countSuper (op : Op) (blocks : ℕ) : ℕ :=
  match op with
  | .alloc => sub64 blocks 1
  | .free => add64 blocks 1

/-- Where a call is. -/
inductive Phase
  /-- It has the buffers and their write access, and waits for the group lock. -/
  | enter (op : Op) (bindex : ℕ)
  /-- It has changed its group. -/
  | percpu (op : Op)
  /-- It has also changed the per-CPU counter. -/
  | super (op : Op)
deriving DecidableEq, Repr

structure State where
  groups : ℕ → Group
  /-- `s_freeclusters_counter`. -/
  freeClusters : ℤ
  /-- `ext4_free_blocks_count`. -/
  freeBlocks : ℕ
  /-- The calls in flight. -/
  calls : List Phase

inductive Event
  | call (op : Op) (bindex : ℕ)
  | group (op : Op) (bindex : ℕ)
  | percpu (op : Op)
  | super (op : Op)
deriving DecidableEq, Repr

/-- One step of one call; the reads, the journal calls and the exits behind the last lock change
nothing here. -/
inductive Step : State → Event → State → Prop
  | call {s : State} {op : Op} {bindex : ℕ} (h : InRange geo bindex) :
      Step s (.call op bindex) { s with calls := .enter op bindex :: s.calls }
  | refuse {s : State} {op : Op} {bindex : ℕ} {l r : List Phase}
      (hc : s.calls = l ++ .enter op bindex :: r)
      (hg : locked geo op (groupNoAndOffset geo bindex).1 (groupNoAndOffset geo bindex).2
        (s.groups (groupNoAndOffset geo bindex).1) = none) :
      Step s (.group op bindex) { s with calls := l ++ r }
  | change {s : State} {op : Op} {bindex : ℕ} {gr : Group} {l r : List Phase}
      (hc : s.calls = l ++ .enter op bindex :: r)
      (hg : locked geo op (groupNoAndOffset geo bindex).1 (groupNoAndOffset geo bindex).2
        (s.groups (groupNoAndOffset geo bindex).1) = some gr) :
      Step s (.group op bindex)
        { s with groups := Function.update s.groups (groupNoAndOffset geo bindex).1 gr,
                 calls := l ++ .percpu op :: r }
  | percpu {s : State} {op : Op} {l r : List Phase} (hc : s.calls = l ++ .percpu op :: r) :
      Step s (.percpu op)
        { s with freeClusters := countPercpu geo op s.freeClusters, calls := l ++ .super op :: r }
  | super {s : State} {op : Op} {l r : List Phase} (hc : s.calls = l ++ .super op :: r) :
      Step s (.super op)
        { s with freeBlocks := countSuper op s.freeBlocks, calls := l ++ r }

/-- A call on a cluster of a group, that runs alone. -/
def callAt (op : Op) (group offset : ℕ) (s : State) : State :=
  match locked geo op group offset (s.groups group) with
  | none => s
  | some gr =>
    { s with groups := Function.update s.groups group gr,
             freeClusters := countPercpu geo op s.freeClusters,
             freeBlocks := countSuper op s.freeBlocks }

/-- A call that runs alone. -/
def callAlone (op : Op) (bindex : ℕ) (s : State) : State :=
  callAt geo op (groupNoAndOffset geo bindex).1 (groupNoAndOffset geo bindex).2 s

/-! ### What the counts are for -/

/-- The number of clear bits of a bitmap. -/
def clearBits (bitmap : ℕ → Bool) : ℕ :=
  #{i ∈ range geo.clustersPerGroup | bitmap i = false}

/-- The free clusters of all groups together. -/
def totalFree (groups : ℕ → Group) : ℕ := ∑ g ∈ range geo.groupsCount, (groups g).free

/-- The counts of the groups are those of their bitmaps, and the two counts of the file system are
their sum, in clusters and in blocks. -/
structure Consistent (s : State) : Prop where
  groups : ∀ g < geo.groupsCount, (s.groups g).free = clearBits geo (s.groups g).bitmap
  clusters : s.freeClusters = totalFree geo s.groups
  blocks : s.freeBlocks = totalFree geo s.groups * geo.ratio

/-- No call is in flight. -/
def Quiescent (s : State) : Prop := s.calls = []

end LinuxEvfs.Blocks
