import LinuxEvfs.ExtMove.Journal
import LinuxEvfs.Lib.Locks

/-! # Locks and journal calls of the operations

The operations as sequences of actions: taking and releasing locks, and what is done to journalled buffers. Each
operation is given what the functions it calls answer, `none` for success, with no relation assumed between the
answers, and follows the source from label to label. A `Run` is the sequence of actions and the value returned,
`none` if the operation does not return.

The functions outside take and release locks of their own in pairs. Between them the state of the file system
is not modelled here; where an operation branches on it, the answer says how. -/

namespace LinuxEvfs.Ops.Model

open LinuxEvfs.Errno LinuxEvfs.Lib.Locks LinuxEvfs.Lib.Journal LinuxEvfs.Lib.TreeJournal
open LinuxEvfs.ExtMove.Model LinuxEvfs.ExtMove.Journal

/-! ### Actions -/

inductive Lock where
  /-- `inode_lock`, `inode_lock_shared`. -/
  | inode (i : ℕ)
  /-- `insert_inode_locked`. -/
  | newInode (i : ℕ)
  /-- `i_data_sem`. -/
  | dataSem (i : ℕ)
  /-- `ext4_lock_group`. -/
  | group (g : ℕ)
deriving DecidableEq

/-- The journalled buffers, by what they hold. -/
inductive Buffer where
  | blockBitmap (group : ℕ)
  | inodeBitmap (group : ℕ)
  | groupDesc (group : ℕ)
  /-- The first block of a directory. -/
  | dirBlock (dir : ℕ)
  | extentBlock (no : ℕ)
deriving DecidableEq

inductive Act where
  | lock (a : LockAct Lock)
  | jrnl (e : Ev Buffer)
deriving DecidableEq

structure Run where
  acts : List Act
  ret : Option ℤ
deriving DecidableEq

def Run.locks (r : Run) : List (LockAct Lock) :=
  r.acts.filterMap fun
    | .lock a => some a
    | .jrnl _ => none

def Run.events (r : Run) : List (Ev Buffer) :=
  r.acts.filterMap fun
    | .lock _ => none
    | .jrnl e => some e

def ret (v : ℤ) : Run := ⟨[], some v⟩

/-- The operation does not return. -/
def stuck : Run := ⟨[], none⟩

def act (a : Act) (r : Run) : Run := ⟨a :: r.acts, r.ret⟩

def lock (l : Lock) : Run → Run := act (.lock (.lock .excl l))

def unlock (l : Lock) : Run → Run := act (.lock (.unlock .excl l))

def lockShared (l : Lock) : Run → Run := act (.lock (.lock .shared l))

def unlockShared (l : Lock) : Run → Run := act (.lock (.unlock .shared l))

def jrnl (e : Ev Buffer) : Run → Run := act (.jrnl e)

def jrnls (evs : List (Ev Buffer)) (r : Run) : Run := evs.foldr jrnl r

/-- A call: where it fails its error goes to the label `fail`. -/
def call (answer : Option Errno) (fail : ℤ → Run) (ok : Run) : Run :=
  match answer with
  | some err => fail err.ret
  | none => ok

/-- The value returned behind `ext4_journal_stop`. -/
def orStop (stop : Option Errno) (v : ℤ) : ℤ := stop.elim v Errno.ret

/-! ### Blocks -/

structure BlockCall where
  group : ℕ
  readBitmap : Option Errno
  /-- `ext4_get_group_desc` finds the descriptor. -/
  desc : Bool
  journalStart : Option Errno
  accessBitmap : Option Errno
  accessDesc : Option Errno
  /-- The bit of the block. -/
  bit : Bool
  /-- `ext4_has_group_desc_csum`. -/
  csum : Bool
  /-- `EXT4_BG_BLOCK_UNINIT`. -/
  uninit : Bool
  dirtyDesc : Option Errno
  dirtyBitmap : Option Errno
  journalStop : Option Errno

def BlockCall.stopJournal (a : BlockCall) (v : ℤ) : Run := jrnl .stop (ret (orStop a.journalStop v))

/-- The common course of `evfs_block_alloc` and `evfs_block_free`: `refused` if the bit has its new value
already, `init` if the flag is looked at. -/
def blockOp (refused init : Bool) (a : BlockCall) : Run :=
  call a.readBitmap ret <|
  if a.desc = false then ret EINVAL.ret
  else
    call a.journalStart ret <|
    jrnl .start <|
    call a.accessBitmap a.stopJournal <|
    jrnl (.access (.blockBitmap a.group)) <|
    call a.accessDesc a.stopJournal <|
    jrnl (.access (.groupDesc a.group)) <|
    lock (.group a.group) <|
    if refused then unlock (.group a.group) <| a.stopJournal EEXIST.ret
    else
      jrnl (.change (.blockBitmap a.group)) <|
      jrnl (.change (.groupDesc a.group)) <|
      jrnls (if a.csum && init && a.uninit then [.change (.groupDesc a.group)] else []) <|
      jrnls (if a.csum then [.change (.groupDesc a.group)] else []) <|
      unlock (.group a.group) <|
      jrnl (.dirty (.groupDesc a.group)) <|
      call a.dirtyDesc a.stopJournal <|
      jrnl (.dirty (.blockBitmap a.group)) <|
      call a.dirtyBitmap a.stopJournal <|
      a.stopJournal 0

def evfsBlockAlloc (a : BlockCall) : Run := blockOp a.bit true a

def evfsBlockFree (a : BlockCall) : Run := blockOp (!a.bit) false a

/-! ### Inodes -/

structure InodeRead where
  ino : ℕ
  iget : Option Errno

def evfsInodeRead (a : InodeRead) : Run :=
  call a.iget ret <| lockShared (.inode a.ino) <| unlockShared (.inode a.ino) <| ret 0

structure InodeAlloc where
  ino : ℕ
  group : ℕ
  readInodeBitmap : Option Errno
  readBlockBitmap : Option Errno
  desc : Bool
  newInode : Bool
  dquotInitialize : Option Errno
  journalStart : Option Errno
  accessInodeBitmap : Option Errno
  accessBlockBitmap : Option Errno
  accessDesc : Option Errno
  bit : Bool
  track : Option Errno
  insertLocked : Option Errno
  dquotAlloc : Option Errno
  markDirty : Option Errno
  csum : Bool
  dirtyDesc : Option Errno
  dirtyBlockBitmap : Option Errno
  dirtyInodeBitmap : Option Errno
  journalStop : Option Errno

def InodeAlloc.stopJournal (a : InodeAlloc) (v : ℤ) : Run := jrnl .stop (ret (orStop a.journalStop v))

/-- The labels `fail_free_drop` and `fail_drop`. -/
def InodeAlloc.failDrop (a : InodeAlloc) (v : ℤ) : Run := unlock (.newInode a.ino) (a.stopJournal v)

/-- `evfs_inode_alloc` with the inode in the cache. -/
def InodeAlloc.inserted (a : InodeAlloc) : Run :=
  call a.dquotAlloc a.failDrop <|
  call a.markDirty a.failDrop <|
  lock (.group a.group) <|
  jrnl (.change (.groupDesc a.group)) <|
  jrnls (if a.csum then [.change (.groupDesc a.group)] else []) <|
  unlock (.group a.group) <|
  jrnl (.dirty (.groupDesc a.group)) <|
  call a.dirtyDesc a.failDrop <|
  jrnl (.dirty (.blockBitmap a.group)) <|
  call a.dirtyBlockBitmap a.failDrop <|
  jrnl (.dirty (.inodeBitmap a.group)) <|
  call a.dirtyInodeBitmap a.failDrop <|
  unlock (.newInode a.ino) <|
  a.stopJournal 0

def evfsInodeAlloc (a : InodeAlloc) : Run :=
  call a.readInodeBitmap ret <|
  call a.readBlockBitmap ret <|
  if a.desc = false then ret EINVAL.ret
  else if a.newInode = false then ret ENOMEM.ret
  else
    call a.dquotInitialize ret <|
    call a.journalStart ret <|
    jrnl .start <|
    call a.accessInodeBitmap a.stopJournal <|
    jrnl (.access (.inodeBitmap a.group)) <|
    call a.accessBlockBitmap a.stopJournal <|
    jrnl (.access (.blockBitmap a.group)) <|
    call a.accessDesc a.stopJournal <|
    jrnl (.access (.groupDesc a.group)) <|
    lock (.group a.group) <|
    if a.bit then unlock (.group a.group) <| a.stopJournal EEXIST.ret
    else
      jrnl (.change (.inodeBitmap a.group)) <|
      unlock (.group a.group) <|
      call a.track a.stopJournal <|
      call (a.insertLocked.map fun _ => EIO) a.stopJournal <|
      lock (.newInode a.ino) <|
      a.inserted

structure InodeFree where
  ino : ℕ
  iget : Option Errno
  journalStart : Option Errno
  /-- `i_nlink > 1`. -/
  busy : Bool
  untrack : Option Errno
  journalStop : Option Errno

def evfsInodeFree (a : InodeFree) : Run :=
  let releaseInode (v : ℤ) : Run := unlock (.inode a.ino) (ret v)
  let stopJournal (v : ℤ) : Run := jrnl .stop (releaseInode (orStop a.journalStop v))
  call a.iget ret <|
  lock (.inode a.ino) <|
  call a.journalStart releaseInode <|
  jrnl .start <|
  if a.busy then stopJournal EBUSY.ret
  else call a.untrack stopJournal <| stopJournal 0

/-! ### Directory entries -/

structure DentryAdd where
  nameLen : ℕ
  parent : ℕ
  child : ℕ
  igetParent : Option Errno
  isDir : Bool
  /-- `d_find_any_alias` finds a dentry. -/
  hasAlias : Bool
  igetChild : Option Errno
  dAlloc : Bool
  dquotInitialize : Option Errno
  link : Option Errno

def DentryAdd.releasePino (a : DentryAdd) (v : ℤ) : Run := unlock (.inode a.parent) (ret v)

def DentryAdd.releaseCino (a : DentryAdd) (v : ℤ) : Run := unlock (.inode a.child) (a.releasePino v)

def evfsDentryAdd (a : DentryAdd) : Run :=
  if a.nameLen = 0 ∨ 255 < a.nameLen then ret EINVAL.ret
  else
    call a.igetParent ret <|
    lock (.inode a.parent) <|
    if a.isDir = false then a.releasePino ENOTDIR.ret
    else if a.hasAlias = false then a.releasePino ENOENT.ret
    else
      call a.igetChild a.releasePino <|
      lock (.inode a.child) <|
      if a.dAlloc = false then a.releaseCino ENOMEM.ret
      else
        call a.dquotInitialize a.releaseCino <|
        call a.link a.releaseCino <|
        a.releaseCino 0

structure DentryRead where
  dir : ℕ
  iget : Option Errno
  isDir : Bool
  bread : Option Errno

def evfsDentryRead (a : DentryRead) : Run :=
  let dirCheckFail (v : ℤ) : Run := unlockShared (.inode a.dir) (ret v)
  call a.iget ret <|
  lockShared (.inode a.dir) <|
  if a.isDir = false then dirCheckFail ENOTDIR.ret
  else call a.bread dirCheckFail <| dirCheckFail 0

structure DentryDelete where
  dir : ℕ
  igetDir : Option Errno
  isDir : Bool
  hasAlias : Bool
  findEntry : Option Errno
  /-- The number in the entry found. -/
  child : ℕ
  igetChild : Option Errno
  untrack : Option Errno
  dAlloc : Bool
  dquotInitDir : Option Errno
  dquotInitChild : Option Errno
  unlink : Option Errno

/-- The label `release_pino`: the directory stays locked if the dentry was put. -/
def DentryDelete.releasePino (a : DentryDelete) (parentDputCalled : Bool) (v : ℤ) : Run :=
  if parentDputCalled then ret v else unlock (.inode a.dir) (ret v)

def DentryDelete.releasePde (a : DentryDelete) (v : ℤ) : Run := a.releasePino true v

def DentryDelete.releaseCino (a : DentryDelete) (v : ℤ) : Run := unlock (.inode a.child) (a.releasePde v)

/-- `evfs_dentry_delete` with the child locked. -/
def DentryDelete.unlinked (a : DentryDelete) : Run :=
  call a.untrack a.releaseCino <|
  if a.dAlloc = false then a.releaseCino ENOMEM.ret
  else
    call a.dquotInitDir a.releaseCino <|
    call a.dquotInitChild a.releaseCino <|
    call a.unlink a.releaseCino <|
    a.releaseCino 0

def evfsDentryDelete (a : DentryDelete) : Run :=
  call a.igetDir ret <|
  lock (.inode a.dir) <|
  if a.isDir = false then a.releasePino false ENOTDIR.ret
  else if a.hasAlias = false then a.releasePino false ENOENT.ret
  else
    call a.findEntry a.releasePde <|
    call a.igetChild a.releasePde <|
    lock (.inode a.child) <|
    a.unlinked

structure DentryUpdate where
  dir : ℕ
  new : ℕ
  igetDir : Option Errno
  isDir : Bool
  journalStart : Option Errno
  bread : Option Errno
  access : Option Errno
  igetNew : Option Errno
  incNlink : Option Errno
  /-- The number in the entry, or -1. -/
  old : ℕ
  igetOld : Option Errno
  decNlink : Option Errno
  /-- `old_inode->i_nlink == 0`. -/
  last : Bool
  untrack : Option Errno
  dirtyDirblock : Option Errno
  markDirty : Option Errno
  journalStop : Option Errno
  /-- What the variable `err` holds before it is set. -/
  uninit : ℤ

def DentryUpdate.releasePino (a : DentryUpdate) (err : ℤ) : Run := unlock (.inode a.dir) (ret err)

/-- The labels `release_bh` and `stop_journal`. The value returned is that of `ext4_journal_stop`. -/
def DentryUpdate.releaseBh (a : DentryUpdate) (_ : ℤ) : Run :=
  jrnl .stop (a.releasePino (orStop a.journalStop 0))

/-- `evfs_dentry_update` with the old inode locked. -/
def DentryUpdate.retarget (a : DentryUpdate) : Run :=
  call a.decNlink a.releaseBh <|
  call (if a.last then a.untrack else none) a.releaseBh <|
  unlock (.inode a.old) <|
  jrnl (.change (.dirBlock a.dir)) <|
  jrnl (.dirty (.dirBlock a.dir)) <|
  call a.dirtyDirblock a.releaseBh <|
  call a.markDirty a.releaseBh <|
  a.releaseBh 0

/-- `evfs_dentry_update` with the new inode locked. -/
def DentryUpdate.counted (a : DentryUpdate) : Run :=
  call a.incNlink a.releaseBh <|
  unlock (.inode a.new) <|
  call a.igetOld a.releaseBh <|
  lock (.inode a.old) <|
  a.retarget

def evfsDentryUpdate (a : DentryUpdate) : Run :=
  call a.igetDir ret <|
  lock (.inode a.dir) <|
  if a.isDir = false then a.releasePino a.uninit
  else
    call a.journalStart (fun _ => a.releasePino a.uninit) <|
    jrnl .start <|
    call a.bread a.releaseBh <|
    call a.access a.releaseBh <|
    jrnl (.access (.dirBlock a.dir)) <|
    call a.igetNew a.releaseBh <|
    lock (.inode a.new) <|
    a.counted

/-! ### Extents -/

structure ExtentRead where
  ino : ℕ
  iget : Option Errno

def evfsExtentRead (a : ExtentRead) : Run :=
  call a.iget ret <| lockShared (.dataSem a.ino) <| unlockShared (.dataSem a.ino) <| ret 0

/-- A move on an inode with its tree; `nums` are the numbers of the tree blocks. -/
structure ExtentMove where
  inoNum : ℕ
  ino : Inode
  nums : Nums
  blocksize : ℕ
  env : Env
  blocks : BlockEnv
  fuel : ℕ
  args : MvIn

/-- The events on the blocks of the tree. -/
def ExtentMove.events (a : ExtentMove) : List (Ev Buffer) :=
  (evfsExtentMoveJ a.blocksize a.env a.blocks a.fuel a.ino a.nums a.args).map (Ev.map Buffer.extentBlock)

def evfsExtentMove (a : ExtentMove) : Run :=
  let releaseInode (v : ℤ) : Run := unlock (.dataSem a.inoNum) <| unlock (.inode a.inoNum) <| ret v
  call a.env.iget ret <|
  lock (.inode a.inoNum) <|
  lock (.dataSem a.inoNum) <|
  if evfsIver a.ino ≠ a.args.expIver then releaseInode EAGAIN.ret
  else
    call a.env.journalStart releaseInode <|
    jrnl .start <|
    jrnls a.events <|
    match LinuxEvfs.ExtMove.Model.evfsExtentMove a.blocksize a.env a.fuel a.ino a.args with
    | .ret (_, v, _) => jrnl .stop (releaseInode v)
    | _ => stuck

/-! ### All operations -/

inductive Op where
  | blockAlloc (a : BlockCall)
  | blockFree (a : BlockCall)
  | inodeRead (a : InodeRead)
  | inodeAlloc (a : InodeAlloc)
  | inodeFree (a : InodeFree)
  | dentryAdd (a : DentryAdd)
  | dentryRead (a : DentryRead)
  | dentryDelete (a : DentryDelete)
  | dentryUpdate (a : DentryUpdate)
  | extentRead (a : ExtentRead)
  | extentMove (a : ExtentMove)

def Op.run : Op → Run
  | .blockAlloc a => evfsBlockAlloc a
  | .blockFree a => evfsBlockFree a
  | .inodeRead a => evfsInodeRead a
  | .inodeAlloc a => evfsInodeAlloc a
  | .inodeFree a => evfsInodeFree a
  | .dentryAdd a => evfsDentryAdd a
  | .dentryRead a => evfsDentryRead a
  | .dentryDelete a => evfsDentryDelete a
  | .dentryUpdate a => evfsDentryUpdate a
  | .extentRead a => evfsExtentRead a
  | .extentMove a => evfsExtentMove a

end LinuxEvfs.Ops.Model
