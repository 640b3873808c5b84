import LinuxEvfs.Errno
import LinuxEvfs.Lib.Word
import Mathlib.Logic.Function.Basic
import Mathlib.Algebra.Order.Ring.Nat

/-! # Allocating an inode by number: bitmaps, counts and tracker

`evfs_inode_alloc` with what it keeps per block group: the inode bitmap, the counts and flags of the
descriptor, and with the two things it keeps for the file system, the per-CPU counter of free inodes
and the tracker.

Assumed of the functions outside: reading the bitmap of a group that does not exist fails; the last
`iput` of an inode without links runs `ext4_free_inode`, which clears its bit and adds 1 to the free
counts, and that of an inode with links changes nothing here. The checksums and the fields of the
inode itself are left out. -/

namespace LinuxEvfs.Inodes

open LinuxEvfs.Errno Lib.Word

/-! ### State -/

/-- The numbers of the superblock. -/
structure Layout where
  groupsCount : ℕ
  inodesPerGroup : ℕ
  /-- The width of the counts of a descriptor: 32 with the 64bit feature, otherwise 16. -/
  countWidth : ℕ
  /-- `ext4_has_group_desc_csum`. -/
  groupDescCsum : Bool
  freeClustersAfterInit : ℕ → ℕ
  ipg_pos : 0 < inodesPerGroup
  ipg_le : inodesPerGroup ≤ 2 ^ countWidth
  ipg_lt : inodesPerGroup < 2 ^ 31
  inodes_lt : groupsCount * inodesPerGroup < 2 ^ 32

/-- `s_inodes_count`. -/
def Layout.inodesCount (geo : Layout) : ℕ := geo.groupsCount * geo.inodesPerGroup

structure Group where
  bitmap : ℕ → Bool
  /-- `ext4_free_inodes_count`. -/
  freeInodes : ℕ
  /-- `ext4_itable_unused_count`. -/
  itableUnused : ℕ
  /-- `ext4_free_group_clusters`. -/
  freeClusters : ℕ
  blockUninit : Bool
  inodeUninit : Bool

structure State where
  groups : ℕ → Group
  /-- `s_freeinodes_counter`. -/
  freeInodes : ℤ
  tracked : ℕ → Bool

def State.setGroup (s : State) (group : ℕ) (gr : Group) : State :=
  { s with groups := Function.update s.groups group gr }

def Group.setBit (gr : Group) (offset : ℕ) (b : Bool) : Group :=
  { gr with bitmap := Function.update gr.bitmap offset b }

variable (geo : Layout)

/-- The group of an inode number, stored in the 32 bits of `ext4_group_t`. -/
def groupOf (iindex : ℕ) : ℕ := sub64 iindex 1 / geo.inodesPerGroup % 2 ^ 32

/-- The bit of an inode number in its group. -/
def offsetOf (iindex : ℕ) : ℕ := sub64 iindex 1 % geo.inodesPerGroup

/-- A count of a descriptor. -/
def storeCount (count : ℕ) : ℕ := count % 2 ^ geo.countWidth

/-! ### The calls -/

/-- The calls `evfs_inode_alloc` makes, in its order. -/
inductive Call where
  | readInodeBitmap
  | readBlockBitmap
  | getGroupDesc
  | newInode
  | dquotInitialize
  | journalStart
  | accessInodeBitmap
  | accessBlockBitmap
  | accessGroupDesc
  | insertInodeLocked
  | dquotAllocInode
  | markInodeDirty
  | dirtyGroupDesc
  | dirtyBlockBitmap
  | dirtyInodeBitmap
  | journalStop
deriving DecidableEq, Repr

/-- What the calls answer; `none` is success. -/
abbrev Env := Call → Option Errno

variable (env : Env)

/-- `__evfs_inode_track`: a tracker of `s_inodes_count` bits, in words of 64. -/
def evfsInodeTrack (s : State) (iindex : ℕ) : Except Errno State :=
  if (geo.inodesCount + 63) / 64 ≤ iindex / 64 then .error EINVAL
  else if s.tracked iindex then .error EEXIST
  else .ok { s with tracked := Function.update s.tracked iindex true }

/-- `ext4_free_inode`. -/
def ext4FreeInode (s : State) (iindex : ℕ) : State :=
  let gr := (s.groups (groupOf geo iindex)).setBit (offsetOf geo iindex) false
  { s.setGroup (groupOf geo iindex)
      { gr with freeInodes := storeCount geo (add32 gr.freeInodes 1) } with
    freeInodes := s.freeInodes + 1 }

/-! ### The descriptor -/

/-- The number of inodes of the table that are in use or were: an `int`, compared as an unsigned
long. -/
def highWater (unused : ℕ) : ℕ :=
  let free := sub64 geo.inodesPerGroup unused % 2 ^ 32
  if free < 2 ^ 31 then free else free + (2 ^ 64 - 2 ^ 32)

/-- The part of the update that depends on the group-descriptor checksums. -/
def updateCsum (group offset : ℕ) (gr : Group) : Group :=
  let gr := if gr.blockUninit then
      { gr with blockUninit := false,
                freeClusters := storeCount geo (geo.freeClustersAfterInit group) }
    else gr
  let free := if gr.inodeUninit then 0 else highWater geo gr.itableUnused
  let gr := { gr with inodeUninit := false }
  if free < offset then
    { gr with itableUnused := storeCount geo (geo.inodesPerGroup - offset - 1) }
  else gr

/-- The update of the descriptor under the group lock. -/
def updateDesc (group offset : ℕ) (gr : Group) : Group :=
  let gr := { gr with freeInodes := storeCount geo (sub32 gr.freeInodes 1) }
  if geo.groupDescCsum then updateCsum geo group offset gr else gr

/-! ### `evfs_inode_alloc` -/

/-- The errors of the calls before the transaction. -/
def earlyError (iindex : ℕ) : Option Errno :=
  (if geo.groupsCount ≤ groupOf geo iindex then some EFSCORRUPTED else none) <|>
    env .readInodeBitmap <|> env .readBlockBitmap <|> (env .getGroupDesc).map (fun _ => EINVAL) <|>
    (env .newInode).map (fun _ => ENOMEM) <|> env .dquotInitialize <|> env .journalStart

/-- The errors of the three calls for write access. -/
def accessError : Option Errno :=
  env .accessInodeBitmap <|> env .accessBlockBitmap <|> env .accessGroupDesc

/-- The errors of the three calls that mark the buffers dirty. -/
def dirtyError : Option Errno :=
  env .dirtyGroupDesc <|> env .dirtyBlockBitmap <|> env .dirtyInodeBitmap

/-- The label `stop_journal`. -/
def stopJournal (s : State) (ret : ℤ) : State × ℤ := (s, (env .journalStop).elim ret Errno.ret)

/-- `evfs_inode_alloc` from the insertion into the inode cache on. The labels `fail_free_drop` and
`fail_drop` clear the link count, so that the last `iput` frees the inode. -/
def allocTracked (s : State) (iindex : ℕ) : State × ℤ :=
  match env .insertInodeLocked with
  | some _ => stopJournal env s EIO.ret
  | none =>
    match env .dquotAllocInode <|> env .markInodeDirty with
    | some err => stopJournal env (ext4FreeInode geo s iindex) err.ret
    | none =>
      let group := groupOf geo iindex
      let s := { s.setGroup group (updateDesc geo group (offsetOf geo iindex) (s.groups group)) with
        freeInodes := s.freeInodes - 1 }
      match dirtyError env with
      | some err => stopJournal env (ext4FreeInode geo s iindex) err.ret
      | none => stopJournal env s 0

/-- `evfs_inode_alloc`: the state it leaves and the value it returns. -/
def evfsInodeAlloc (s : State) (iindex : ℕ) : State × ℤ :=
  match earlyError geo env iindex with
  | some err => (s, err.ret)
  | none =>
    match accessError env with
    | some err => stopJournal env s err.ret
    | none =>
      let group := groupOf geo iindex
      let offset := offsetOf geo iindex
      if (s.groups group).bitmap offset then stopJournal env s EEXIST.ret
      else
        let s := s.setGroup group ((s.groups group).setBit offset true)
        match evfsInodeTrack geo s iindex with
        | .error err => stopJournal env s err.ret
        | .ok s => allocTracked geo env s iindex

end LinuxEvfs.Inodes
