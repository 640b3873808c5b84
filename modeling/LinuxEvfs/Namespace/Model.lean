import LinuxEvfs.Namespace.Entries
import Mathlib.Logic.Function.Basic

/-! # Inodes and directory entries

The state of the name space and the operations on it: `evfs_inode_alloc`, `evfs_inode_free`,
`evfs_dentry_add`, `evfs_dentry_delete` and `evfs_dentry_update`, the ordinary create, link and unlink, and
the eviction of an inode from the cache.

Assumed of the functions outside: `ext4_iget` takes legal numbers only, returns an inode that is cached
as it is, and otherwise reads it and refuses one without links (`ESTALE`); reading the bitmap of a group
that does not exist fails; the eviction of an inode without links frees its contents and clears its bit,
that of another one stores the link count in the 16 bits of `i_links_count`.

A call that waits for an inode lock nobody releases does not return (`hang`). `held` are the locks that
calls have kept: `evfs_dentry_delete` returns without unlocking the directory. -/

namespace LinuxEvfs.Namespace.Model

open LinuxEvfs.Errno LinuxEvfs.Namespace.Dir LinuxEvfs.Namespace.Entries

/-- The part of an inode the operations read and write. -/
structure Inode where
  /-- The type in `i_mode`. -/
  type : FileType
  nlink : ℕ
  dir : Dir

/-- The file system. `cached` are the inodes in memory, `tracked` is the tracker `s_inode_tracker`. -/
structure Fs where
  ino : ℕ → Inode
  bitmap : ℕ → Bool
  tracked : ℕ → Bool
  cached : ℕ → Bool
  held : ℕ → Bool

/-- What happens outside during a call: the answers, those of each retry of `__ext4_link`, and what the
variable `err` of `evfs_dentry_update` holds before it is set. -/
structure Calls where
  env : Env
  again : List Env
  uninit : ℤ

/-- How a call ends. -/
inductive Outcome where
  | ret (s : Fs) (ret : ℤ)
  | hang

variable (sb : Sb) (c : Calls)

/-! ### Changes of the state -/

def Fs.setIno (s : Fs) (i : ℕ) (x : Inode) : Fs := { s with ino := Function.update s.ino i x }

def Fs.setNlink (s : Fs) (i n : ℕ) : Fs := s.setIno i { s.ino i with nlink := n }

def Fs.setDir (s : Fs) (i : ℕ) (d : Dir) : Fs := s.setIno i { s.ino i with dir := d }

def Fs.setBit (s : Fs) (i : ℕ) (x : Bool) : Fs := { s with bitmap := Function.update s.bitmap i x }

def Fs.setTracked (s : Fs) (i : ℕ) (x : Bool) : Fs :=
  { s with tracked := Function.update s.tracked i x }

def Fs.setCached (s : Fs) (i : ℕ) (x : Bool) : Fs := { s with cached := Function.update s.cached i x }

/-- A lock that is taken and kept. -/
def Fs.hold (s : Fs) (i : ℕ) : Fs := { s with held := Function.update s.held i true }

/-- `inc_nlink`, on a counter of 32 bits. -/
def incNlink (n : ℕ) : ℕ := (n + 1) % 2 ^ 32

/-- `drop_nlink`: from 0 it wraps. -/
def dropNlink (n : ℕ) : ℕ := (n + (2 ^ 32 - 1)) % 2 ^ 32

/-- `EXT4_LINK_MAX`. -/
def EXT4_LINK_MAX : ℕ := 65000

/-- `S_ISDIR(i_mode)`. -/
def Fs.isDir (s : Fs) (i : ℕ) : Bool := (s.ino i).type = .dir

/-! ### Inode cache and tracker -/

/-- `ext4_iget`. -/
def ext4Iget (err : Option Errno) (s : Fs) (i : ℕ) : Except Errno Fs :=
  if sb.legal i = false then .error EFSCORRUPTED
  else if s.cached i then .ok s
  else
    match err with
    | some e => .error e
    | none => if (s.ino i).nlink = 0 then .error ESTALE else .ok (s.setCached i true)

/-- The tracker made by `evfs_bm_tracker_init` has a slot for `i`. -/
def inCapacity (i : ℕ) : Bool := i / 64 < (sb.inodesCount + 63) / 64

/-- `__evfs_inode_track`. -/
def evfsInodeTrack (s : Fs) (i : ℕ) : Except Errno Fs :=
  if inCapacity sb i = false then .error EINVAL
  else if s.tracked i then .error EEXIST
  else .ok (s.setTracked i true)

/-- `__evfs_inode_untrack`. -/
def evfsInodeUntrack (s : Fs) (i : ℕ) : Except Errno Fs :=
  if inCapacity sb i = false then .error EINVAL
  else if s.tracked i = false then .error ENOENT
  else .ok (s.setTracked i false)

/-- `__evfs_inode_untrack_nolock`. -/
def evfsInodeUntrackNolock (s : Fs) (i : ℕ) : Except Errno Fs :=
  if inCapacity sb i = false then .error EINVAL else .ok (s.setTracked i false)

/-- The end of an operation: an error of `ext4_journal_stop` replaces the value returned. -/
def stopJournal (s : Fs) (ret : ℤ) : Outcome := .ret s ((c.env .journalStop).elim ret Errno.ret)

/-! ### `evfs_inode_alloc` and `evfs_inode_free` -/

/-- The inode whose bit `evfs_inode_alloc` tests and sets: the group number is stored in 32 bits. -/
def bitNo (iindex : ℕ) : ℕ :=
  let i := (iindex + (2 ^ 64 - 1)) % 2 ^ 64
  i / sb.inodesPerGroup % 2 ^ 32 * sb.inodesPerGroup + i % sb.inodesPerGroup + 1

/-- The inode `evfs_inode_alloc` makes. -/
def newInode : Inode := ⟨.regFile, 1, Dir.empty⟩

/-- The label `fail_drop`: the inode is evicted without links, and its bit cleared. -/
def failDrop (s : Fs) (iindex : ℕ) : Fs :=
  if iindex = 0 then s
  else (s.setIno iindex { newInode with nlink := 0 }).setBit iindex false

/-- `evfs_inode_alloc`. -/
def evfsInodeAlloc (s : Fs) (iindex : ℕ) : Outcome :=
  let n := bitNo sb iindex
  if sb.inodesCount < n then .ret s EFSCORRUPTED.ret
  else
    match c.env .readInodeBitmap <|> c.env .readBlockBitmap <|>
        (c.env .getGroupDesc).map (fun _ => EINVAL) <|> (c.env .newInode).map (fun _ => ENOMEM) <|>
        c.env .dquotInitInode <|> c.env .journalStart with
    | some err => .ret s err.ret
    | none =>
      match c.env .bitmapAccess with
      | some err => stopJournal c s err.ret
      | none =>
        if s.bitmap n then stopJournal c s EEXIST.ret
        else
          match evfsInodeTrack sb (s.setBit n true) iindex with
          | .error err => stopJournal c (s.setBit n true) err.ret
          | .ok s' =>
            -- `insert_inode_locked`
            if s'.cached iindex then stopJournal c s' EIO.ret
            else
              -- `ext4_mark_inode_dirty` refuses a number that is none
              match c.env .dquotAllocInode <|> (if iindex = 0 then some EFSCORRUPTED else none) <|>
                  c.env .inodeDirty <|> c.env .metadataDirty with
              | some err => stopJournal c (failDrop s' iindex) err.ret
              | none => stopJournal c ((s'.setIno iindex newInode).setCached iindex true) 0

/-- `evfs_inode_free`. -/
def evfsInodeFree (s : Fs) (iindex : ℕ) : Outcome :=
  match ext4Iget sb (c.env .igetChild) s iindex with
  | .error err => .ret s err.ret
  | .ok s =>
    if s.held iindex then .hang
    else
      match c.env .journalStart with
      | some err => .ret s err.ret
      | none =>
        if 1 < (s.ino iindex).nlink then stopJournal c s EBUSY.ret
        else
          match evfsInodeUntrack sb s iindex with
          | .error err => stopJournal c s err.ret
          | .ok s => stopJournal c (s.setNlink iindex (dropNlink (s.ino iindex).nlink)) 0

/-! ### Links -/

/-- `ext4_inc_count`: the count of an indexed directory goes back to 1. -/
def ext4IncCount (x : Inode) : ℕ :=
  let n := incNlink x.nlink
  if isDx sb x.dir ∧ (EXT4_LINK_MAX < n ∨ n = 2) then 1 else n

/-- The record `ext4_add_entry` writes; `ext4_set_de_type`. -/
def newEntry (s : Fs) (child : ℕ) (name : Name) : DirEntry :=
  ⟨child, 0, name, if sb.filetype then (s.ino child).type else .unknown⟩

/-- One attempt of `__ext4_link`. -/
def linkOnce (env : Env) (s : Fs) (dir child : ℕ) (name : Name) : Fs × Option Errno :=
  match env .journalStart with
  | some err => (s, some err)
  | none =>
    let r := ext4AddEntry sb env (newEntry sb s child name) (s.ino dir).dir
    let s' := (s.setNlink child (ext4IncCount sb (s.ino child))).setDir dir r.1
    match r.2 with
    | none => (s', env .linkInodeDirty)
    | some err => (s'.setNlink child (dropNlink (s'.ino child).nlink), some err)

/-- `__ext4_link`, with the environments of the retries that `ext4_should_retry_alloc` grants. -/
def ext4Link : List Env → Env → Fs → ℕ → ℕ → Name → Fs × Option Errno
  | [], env, s, dir, child, name => linkOnce sb env s dir child name
  | env' :: again, env, s, dir, child, name =>
    let r := linkOnce sb env s dir child name
    if r.2 = some ENOSPC then ext4Link again env' r.1 dir child name else r

/-- The inode a record names. -/
def Dir.inodeAt (d : Dir) (b k : ℕ) : ℕ := ((d.block b)[k]?).elim 0 DirEntry.inode

/-- `__ext4_unlink` behind the search: the record and a link of the child go. -/
def unlinkFound (env : Env) (s : Fs) (dir child b k : ℕ) : Fs × Option Errno :=
  match env .journalStart with
  | some err => (s, some err)
  | none =>
    let r := ext4DeleteEntry sb env b k (s.ino dir).dir
    let s' := s.setDir dir r.1
    match r.2 <|> env .unlinkDirDirty with
    | some err => (s', some err)
    | none =>
      let n := (s'.ino child).nlink
      (s'.setNlink child (if n = 0 then 0 else dropNlink n), env .unlinkInodeDirty)

/-- `__ext4_unlink`. -/
def ext4Unlink (env : Env) (s : Fs) (dir child : ℕ) (name : Name) : Fs × Option Errno :=
  match env .findEntryAgain with
  | some err => (s, some err)
  | none =>
    match ext4FindEntry sb name (s.ino dir).dir with
    | (none, d) => (s.setDir dir d, some ENOENT)
    | (some (b, k), d) =>
      if Dir.inodeAt d b k ≠ child then (s.setDir dir d, some ENOENT)
      else unlinkFound sb env (s.setDir dir d) dir child b k

/-- A function of `namei.c` returns 0 or an error. -/
def retOf (r : Option Errno) : ℤ := r.elim 0 Errno.ret

/-! ### Directory entries -/

/-- `evfs_dentry_add`. -/
def evfsDentryAdd (s : Fs) (parent child : ℕ) (name : Name) : Outcome :=
  if name.length = 0 ∨ 255 < name.length then .ret s EINVAL.ret
  else
    match ext4Iget sb (c.env .igetDir) s parent with
    | .error err => .ret s err.ret
    | .ok s =>
      if s.held parent then .hang
      else if s.isDir parent = false then .ret s ENOTDIR.ret
      else if (c.env .findAnyAlias).isSome then .ret s ENOENT.ret
      else
        match ext4Iget sb (c.env .igetChild) s child with
        | .error err => .ret s err.ret
        | .ok s =>
          if s.held child ∨ child = parent then .hang
          else
            match (c.env .dAlloc).map (fun _ => ENOMEM) <|> c.env .dquotInitDir with
            | some err => .ret s err.ret
            | none =>
              let r := ext4Link sb c.again c.env s parent child name
              .ret r.1 (retOf r.2)

/-- `evfs_dentry_delete` behind the search, with the directory locked. -/
def deleteFound (s : Fs) (dir child : ℕ) (name : Name) : Outcome :=
  match ext4Iget sb (c.env .igetChild) s child with
  | .error err => .ret s err.ret
  | .ok s =>
    if s.held child then .hang
    else
      match evfsInodeUntrackNolock sb s child with
      | .error err => .ret s err.ret
      | .ok s =>
        match (c.env .dAlloc).map (fun _ => ENOMEM) <|> c.env .dquotInitDir <|>
            c.env .dquotInitChild with
        | some err => .ret s err.ret
        | none =>
          let r := ext4Unlink sb c.env s dir child name
          .ret r.1 (retOf r.2)

/-- `evfs_dentry_delete`. Behind `d_find_any_alias` every exit leaves the directory locked. -/
def evfsDentryDelete (s : Fs) (dir : ℕ) (name : Name) : Outcome :=
  match ext4Iget sb (c.env .igetDir) s dir with
  | .error err => .ret s err.ret
  | .ok s =>
    if s.held dir then .hang
    else if s.isDir dir = false then .ret s ENOTDIR.ret
    else if (c.env .findAnyAlias).isSome then .ret s ENOENT.ret
    else
      let s := s.hold dir
      match c.env .findEntry with
      | some err => .ret s err.ret
      | none =>
        match ext4FindEntry sb name (s.ino dir).dir with
        | (none, d) => .ret (s.setDir dir d) ENOENT.ret
        | (some (b, k), d) => deleteFound sb c (s.setDir dir d) dir (Dir.inodeAt d b k) name

/-- The end of `evfs_dentry_update`: the old inode loses a link, and with the last one its tracker bit,
and the record number `k` gets the new number. -/
def updateRecord (s : Fs) (dir new old k : ℕ) : Outcome :=
  let s := s.setNlink old (dropNlink (s.ino old).nlink)
  match c.env .decDirty with
  | some _ => stopJournal c (s.hold old) 0
  | none =>
    match (if (s.ino old).nlink = 0 then evfsInodeUntrackNolock sb s old else .ok s) with
    | .error _ => stopJournal c (s.hold old) 0
    | .ok s =>
      let d := (s.ino dir).dir
      -- the errors of the two dirty calls change nothing more
      stopJournal c (s.setDir dir (d.setBlock 0 (retarget new k (d.block 0)))) 0

/-- `evfs_dentry_update` behind the count of the new inode. A record that was not found has the number
`-1UL`. -/
def updateOld (s : Fs) (dir new : ℕ) (k : Option ℕ) : Outcome :=
  let old := k.elim (2 ^ 64 - 1) (Dir.inodeAt (s.ino dir).dir 0)
  match ext4Iget sb (c.env .igetOld) s old with
  | .error _ => stopJournal c s 0
  | .ok s => if s.held old ∨ old = dir then .hang else updateRecord sb c s dir new old (k.getD 0)

/-- `evfs_dentry_update`. It returns `err`, which is not set where it gives up early, and is what
`ext4_journal_stop` returned otherwise. -/
def evfsDentryUpdate (s : Fs) (dir index new : ℕ) : Outcome :=
  match ext4Iget sb (c.env .igetDir) s dir with
  | .error err => .ret s err.ret
  | .ok s =>
    if s.held dir then .hang
    else if s.isDir dir = false then .ret s c.uninit
    else
      match c.env .journalStart with
      | some _ => .ret s c.uninit
      | none =>
        let d := (s.ino dir).dir
        if (c.env .bread).isSome ∨ d.block 0 = [] ∨ (c.env .blockAccess).isSome then
          stopJournal c s 0
        else
          match ext4Iget sb (c.env .igetChild) s new with
          | .error _ => stopJournal c s 0
          | .ok s =>
            if s.held new ∨ new = dir then .hang
            else
              let s := s.setNlink new (incNlink (s.ino new).nlink)
              match c.env .incDirty with
              | some _ => stopJournal c (s.hold new) 0
              | none => updateOld sb c s dir new (nthLive sb 0 index (d.block 0))

/-! ### Ordinary operations and eviction -/

/-- `ext4_add_nondir`. -/
def ext4AddNondir (s : Fs) (dir i : ℕ) (name : Name) : Outcome :=
  let r := ext4AddEntry sb c.env (newEntry sb s i name) (s.ino dir).dir
  let s := s.setDir dir r.1
  match r.2 with
  | none => .ret s (retOf (c.env .linkInodeDirty))
  | some err => .ret (s.setNlink i (dropNlink (s.ino i).nlink)) err.ret

/-- `ext4_create` of a regular file, with the number that `ext4_new_inode` has chosen. -/
def create (s : Fs) (dir : ℕ) (name : Name) (i : ℕ) : Outcome :=
  match ext4Iget sb (c.env .igetDir) s dir with
  | .error err => .ret s err.ret
  | .ok s =>
    if s.held dir then .hang
    else if s.isDir dir = false then .ret s ENOTDIR.ret
    else if sb.legal i = false ∨ s.bitmap i ∨ s.cached i then .ret s ENOSPC.ret
    else
      match c.env .dquotInitDir <|> c.env .dquotAllocInode <|> c.env .journalStart with
      | some err => .ret s err.ret
      | none =>
        ext4AddNondir sb c (((s.setIno i newInode).setBit i true).setCached i true) dir i name

/-- `vfs_link` and `ext4_link`. -/
def link (s : Fs) (dir child : ℕ) (name : Name) : Outcome :=
  match ext4Iget sb (c.env .igetDir) s dir with
  | .error err => .ret s err.ret
  | .ok s =>
    if s.held dir ∨ s.held child then .hang
    else if s.isDir dir = false then .ret s ENOTDIR.ret
    else if s.isDir child then .ret s EPERM.ret
    else if s.cached child = false ∨ (s.ino child).nlink = 0 then .ret s ENOENT.ret
    else if EXT4_LINK_MAX ≤ (s.ino child).nlink then .ret s EMLINK.ret
    else
      match c.env .dquotInitDir with
      | some err => .ret s err.ret
      | none =>
        let r := ext4Link sb c.again c.env s dir child name
        .ret r.1 (retOf r.2)

/-- `vfs_unlink` and `ext4_unlink`, of the inode `child` that the dentry has. -/
def unlink (s : Fs) (dir child : ℕ) (name : Name) : Outcome :=
  match ext4Iget sb (c.env .igetDir) s dir with
  | .error err => .ret s err.ret
  | .ok s =>
    if s.held dir ∨ s.held child then .hang
    else if s.isDir dir = false then .ret s ENOTDIR.ret
    else if s.isDir child then .ret s EPERM.ret
    else if s.cached child = false then .ret s ENOENT.ret
    else
      match c.env .dquotInitDir <|> c.env .dquotInitChild with
      | some err => .ret s err.ret
      | none =>
        let r := ext4Unlink sb c.env s dir child name
        .ret r.1 (retOf r.2)

/-- The inode leaves the cache, and its lock with it. -/
def Fs.uncache (s : Fs) (i : ℕ) : Fs :=
  { s.setCached i false with held := Function.update s.held i false }

/-- The eviction of an inode. -/
def evict (s : Fs) (i : ℕ) : Outcome :=
  if s.cached i = false then .ret s 0
  else if (s.ino i).nlink = 0 then .ret (((s.uncache i).setDir i Dir.empty).setBit i false) 0
  else .ret ((s.uncache i).setNlink i ((s.ino i).nlink % 2 ^ 16)) 0

/-- The operations. -/
inductive Op where
  | inodeAlloc (iindex : ℕ)
  | inodeFree (iindex : ℕ)
  | dentryAdd (parent child : ℕ) (name : Name)
  | dentryDelete (dir : ℕ) (name : Name)
  | dentryUpdate (dir index new : ℕ)
  | create (dir : ℕ) (name : Name) (i : ℕ)
  | link (dir child : ℕ) (name : Name)
  | unlink (dir child : ℕ) (name : Name)
  | evict (i : ℕ)

def exec (s : Fs) : Op → Outcome
  | .inodeAlloc i => evfsInodeAlloc sb c s i
  | .inodeFree i => evfsInodeFree sb c s i
  | .dentryAdd parent child name => evfsDentryAdd sb c s parent child name
  | .dentryDelete dir name => evfsDentryDelete sb c s dir name
  | .dentryUpdate dir index new => evfsDentryUpdate sb c s dir index new
  | .create dir name i => create sb c s dir name i
  | .link dir child name => link sb c s dir child name
  | .unlink dir child name => unlink sb c s dir child name
  | .evict i => evict s i

/-- An operation with what happens outside and the value it returns. -/
structure Event where
  op : Op
  calls : Calls
  ret : ℤ

/-- One call of a run. A call that hangs does not end. -/
def Step (s : Fs) (e : Event) (s' : Fs) : Prop := exec sb e.calls s e.op = .ret s' e.ret

/-- The state a call leaves. -/
def next (s : Fs) (e : Event) : Fs :=
  match exec sb e.calls s e.op with
  | .ret s' _ => s'
  | .hang => s

/-- The states that a list of calls goes through. -/
def trace : Fs → List Event → List (Event × Fs)
  | _, [] => []
  | s, e :: l => (e, next sb s e) :: trace (next sb s e) l

/-- Every call returns, and the value it is said to. -/
def returns : Fs → List Event → Bool
  | _, [] => true
  | s, e :: l =>
    match exec sb e.calls s e.op with
    | .ret s' ret => ret = e.ret && returns s' l
    | .hang => false

end LinuxEvfs.Namespace.Model
