import LinuxEvfs.Namespace.Dir

/-! # Entries of a directory

The functions of `namei.c` that work on a whole directory: `ext4_find_entry`, `ext4_add_entry` with the
indexed directories (`make_indexed_dir`, `do_split`, `ext4_dx_add_entry`) and `ext4_delete_entry`. Of an
index only its leaves are modelled: the index blocks hold no live record, and what is read off them is
the parameter `leaves`.

The calls that can fail answer through an environment `Env`. An error of the journal after the records
have changed is returned with the records changed. -/

namespace LinuxEvfs.Namespace.Entries

open LinuxEvfs.Errno LinuxEvfs.Namespace.Dir

/-- The calls whose success is not decided by the state modelled. -/
inductive Call where
  -- `ext4_find_entry`, the blocks it reads
  | findEntry | findEntryAgain
  -- `ext4_add_entry` and `add_dirent_to_buf`
  | readDirblock | markIndexDirty | dirAccess | dirDirty | dirInodeDirty | append
  -- `make_indexed_dir`, `do_split`, `ext4_dx_add_entry`
  | rootAccess | rootAppend | rootDirty | leafAccess | splitIndex | splitAppend | splitAccess | splitDirty
  -- `ext4_delete_entry`
  | deleteAccess | deleteDirty
  -- `evfs_inode_alloc`
  | readInodeBitmap | readBlockBitmap | getGroupDesc | newInode | dquotInitInode | bitmapAccess
  | dquotAllocInode | inodeDirty | metadataDirty
  -- `ext4_iget` of the directory, of the child or new inode, and of the old one
  | igetDir | igetChild | igetOld
  | journalStart | journalStop | findAnyAlias | dAlloc | dquotInitDir | dquotInitChild
  -- `__ext4_unlink`, `__ext4_link`
  | unlinkDirDirty | unlinkInodeDirty | linkInodeDirty
  -- `evfs_dentry_update`
  | bread | blockAccess | incDirty | decDirty | updateDirty | updateDirDirty
deriving DecidableEq

/-- The calls of the journal, of the disk and of the quota. The others fail for want of memory or of
space, or because the directory has no alias. -/
def Call.reliable : Call → Bool
  | .append | .rootAppend | .splitIndex | .splitAppend | .getGroupDesc | .newInode | .findAnyAlias
  | .dAlloc => false
  | _ => true

/-- What the calls answer; `none` for success. -/
abbrev Env := Call → Option Errno

/-- The journal, IO and quota calls succeed. -/
def Quiet (env : Env) : Prop := ∀ c : Call, c.reliable = true → env c = none

/-- The contents of a directory, with the flag `EXT4_INODE_INDEX` and `i_dir_start_lookup`. -/
structure Dir where
  blocks : List DirBlock
  index : Bool
  startLookup : ℕ
deriving DecidableEq

/-- What a directory inode holds before its first entry, and any other inode. -/
def Dir.empty : Dir := ⟨[], false, 0⟩

variable (sb : Sb) (env : Env)

/-- `is_dx`. -/
def isDx (d : Dir) : Bool := sb.dirIndex && d.index

/-- The block number `b`. -/
def Dir.block (d : Dir) (b : ℕ) : DirBlock := (d.blocks[b]?).getD []

def Dir.setBlock (d : Dir) (b : ℕ) (x : DirBlock) : Dir := { d with blocks := d.blocks.set b x }

/-! ### `ext4_find_entry` -/

/-- How a search over blocks ends. -/
inductive Lookup where
  | found (b k : ℕ)
  | none
  | bad
deriving DecidableEq

/-- Blocks are searched in the order given; a bad one ends the search. -/
def searchBlocks (name : Name) (d : Dir) : List ℕ → Lookup
  | [] => .none
  | b :: bs =>
    match ext4SearchDir sb name 0 (d.block b) with
    | .found k => .found b k
    | .bad => .bad
    | .none => searchBlocks name d bs

/-- `.` or `..`. -/
def isDot (name : Name) : Bool := name = [46] || name = [46, 46]

/-- The search without an index: from `i_dir_start_lookup` on and around, and that is set to the block
of the entry found. -/
def linearFind (name : Name) (d : Dir) : Option (ℕ × ℕ) × Dir :=
  let n := d.blocks.length
  let order := if isDot name then [0]
    else (List.range n).rotate (if n ≤ d.startLookup then 0 else d.startLookup)
  match searchBlocks sb name d order with
  | .found b k => (some (b, k), { d with startLookup := b })
  | _ => (none, d)

/-- `__ext4_find_entry`: the block and the record, and the directory afterwards. -/
def ext4FindEntry (name : Name) (d : Dir) : Option (ℕ × ℕ) × Dir :=
  if 255 < name.length then (none, d)
  else if isDx sb d ∧ ¬ isDot name then
    match sb.leaves d.blocks name with
    | none => linearFind sb name d
    | some bs =>
      match searchBlocks sb name d bs with
      | .found b k => (some (b, k), d)
      | .none => (none, d)
      | .bad => linearFind sb name d
  else linearFind sb name d

/-! ### `ext4_add_entry` -/

/-- `add_dirent_to_buf`: with the record `de` given, or with the first that has room. -/
def addDirentToBuf (e : DirEntry) (de : Option ℕ) (b : DirBlock) : DirBlock × Option Errno :=
  match de.elim (ext4FindDestDe sb e.name 0 b) .ok with
  | .error err => (b, some err)
  | .ok k =>
    match env .dirAccess with
    | some err => (b, some err)
    | none => (insertAt e k b, env .dirDirty <|> env .dirInodeDirty)

/-- Records packed to the length of their names, the last one reaching to the end. -/
def pack : ℕ → List DirEntry → DirBlock
  | size, [] => [wiped size]
  | size, [e] => [{ e with recLen := size }]
  | size, e :: rest =>
    { e with recLen := ext4DirRecLen e.name.length } :: pack (size - ext4DirRecLen e.name.length) rest

/-- A record of the block, read up to `size`, is bad. -/
def anyBad (size : ℕ) : ℕ → DirBlock → Bool
  | _, [] => false
  | offset, de :: rest =>
    offset < size && (sb.checkDirEntry size offset de || anyBad size (offset + de.recLen) rest)

/-- The records that `dx_make_map` and `dx_pack_dirents` keep. -/
def mapped (b : DirBlock) : List DirEntry := b.filter fun de => de.inode ≠ 0 && de.name ≠ []

/-- How many records from the end of the map fill half of a block. -/
def moveCount : ℕ → List DirEntry → ℕ
  | _, [] => 0
  | size, e :: rest =>
    if sb.blocksize / 2 < size + e.recLen / 2 then 0 else 1 + moveCount (size + e.recLen) rest

/-- The map index at which `do_split` splits. -/
def splitPoint (map : List DirEntry) : ℕ :=
  let move := moveCount sb 0 map.reverse
  if move + 1 < map.length then map.length - move else map.length / 2

/-- `dx_sort_map`: by hash, each record with its place in the block. -/
def sortMap (b : DirBlock) : List (DirEntry × ℕ) :=
  (mapped b).zipIdx.mergeSort fun p q => sb.hash p.1.name ≤ sb.hash q.1.name

/-- The two halves `do_split` makes of a leaf, the second one being moved. -/
def splitLeaf (b : DirBlock) : DirBlock × DirBlock :=
  let map := sortMap sb b
  let split := splitPoint sb (map.map Prod.fst)
  (pack sb.bufSize (((map.take split).mergeSort fun p q => p.2 ≤ q.2).map Prod.fst),
    pack sb.bufSize ((map.drop split).map Prod.fst))

/-- The directory with the leaf `b` split. -/
def splitDir (d : Dir) (b : ℕ) : Dir :=
  let halves := splitLeaf sb (d.block b)
  { d with blocks := d.blocks.set b halves.1 ++ [halves.2] }

/-- `do_split` of the leaf `b`: the directory, and the block the new entry goes to. -/
def doSplit (name : Name) (d : Dir) (b : ℕ) : Dir × Except Errno ℕ :=
  match env .splitAppend with
  | some err => (d, .error err)
  | none =>
    let grown : Dir := { d with blocks := d.blocks ++ [[]] }
    match env .splitAccess with
    | some err => (grown, .error err)
    | none =>
      if anyBad sb sb.bufSize 0 (d.block b) then (grown, .error EFSCORRUPTED)
      else
        match env .splitDirty with
        | some err => (splitDir sb d b, .error err)
        | none =>
          let map := sortMap sb (d.block b)
          let hash2 := (map[splitPoint sb (map.map Prod.fst)]?).elim 0 (sb.hash ·.1.name)
          (splitDir sb d b, .ok (if hash2 ≤ sb.hash name then d.blocks.length else b))

/-- The split of a leaf and the insertion at the last record of the half that gets the entry. -/
def splitAndAdd (e : DirEntry) (d : Dir) (b : ℕ) : Dir × Option Errno :=
  match doSplit sb env e.name d b with
  | (d', .error err) => (d', some err)
  | (d', .ok b') =>
    let r := addDirentToBuf sb env e (some ((d'.block b').length - 1)) (d'.block b')
    (d'.setBlock b' r.1, r.2)

/-- The last record reaches to the end of the block. -/
def stretch (size : ℕ) : ℕ → DirBlock → DirBlock
  | offset, [] => [wiped (size - offset)]
  | offset, [e] => [{ e with recLen := size - offset }]
  | offset, e :: rest => e :: stretch size (offset + e.recLen) rest

/-- `make_indexed_dir` where no record starts at offset 12, a deletion having merged `..` into `.`: zeros
are read there, and the rest of the block has been wiped when that is noticed. -/
def lostRoot (d : Dir) : Dir × Option Errno :=
  match env .rootAppend with
  | some err => (d, some err)
  | none =>
    ({ d with blocks := [(d.block 0).take 1, [wiped 0]], index := true }, some EFSCORRUPTED)

/-- `make_indexed_dir`: block 0 keeps `.` and `..`, the other records go to a new leaf, which is split.
The record `..` is taken to be at offset 12. -/
def makeIndexedDir (e : DirEntry) (d : Dir) : Dir × Option Errno :=
  match env .rootAccess with
  | some err => (d, some err)
  | none =>
    match d.block 0 with
    | dot :: dotdot :: rest =>
      let start := 12 + dotdot.recLen
      if dot.recLen ≠ 12 then lostRoot env d
      else if sb.blocksize ≤ start then (d, some EFSCORRUPTED)
      else
        match env .rootAppend with
        | some err => (d, some err)
        | none =>
          if anyBad sb (sb.bufSize - start) 0 rest.dropLast then
            ({ d with blocks := [[dot, dotdot], rest], index := true }, some EFSCORRUPTED)
          else
            let root := [dot, { dotdot with recLen := sb.blocksize - 12 }]
            let d' : Dir := { d with blocks := [root, stretch sb.bufSize 0 rest], index := true }
            match env .rootDirty with
            | some err => (d', some err)
            | none => splitAndAdd sb env e d' 1
    | _ => lostRoot env d

/-- The record in a block of its own. -/
def addToNewBlock (e : DirEntry) : DirBlock × Option Errno :=
  addDirentToBuf sb env e (some 0) [wiped sb.bufSize]

/-- One pass of the loop of `ext4_add_entry` over the blocks. A hole gets a new block. -/
def addToBlock (e : DirEntry) (b : DirBlock) : DirBlock × Option Errno :=
  if b = [] then addToNewBlock sb env e else addDirentToBuf sb env e none b

def addToBlocks (e : DirEntry) : List DirBlock → List DirBlock × Option Errno
  | [] => ([], some ENOSPC)
  | b :: bs =>
    let r := addToBlock sb env e b
    if r.2 = some ENOSPC then
      let r' := addToBlocks e bs
      (r.1 :: r'.1, r'.2)
    else (r.1 :: bs, r.2)

/-- `ext4_add_entry` without an index. -/
def linearAdd (dxFallback : Bool) (e : DirEntry) (d : Dir) : Dir × Option Errno :=
  match env .readDirblock with
  | some err => (d, some err)
  | none =>
    let r := addToBlocks sb env e d.blocks
    let d' : Dir := { d with blocks := r.1 }
    if r.2 ≠ some ENOSPC then (d', r.2)
    else if d.blocks.length = 1 ∧ dxFallback = false ∧ sb.dirIndex then makeIndexedDir sb env e d'
    else
      match env .append with
      | some err => (d', some err)
      | none =>
        let r' := addToNewBlock sb env e
        ({ d' with blocks := d'.blocks ++ [r'.1] }, r'.2)

/-- `ext4_dx_add_entry`; `none` for `ERR_BAD_DX_DIR`. -/
def ext4DxAddEntry (e : DirEntry) (d : Dir) : Option (Dir × Option Errno) :=
  match sb.leaves d.blocks e.name with
  | none => none
  | some bs =>
    let b := bs.headD 0
    match env .readDirblock <|> env .leafAccess with
    | some err => some (d, some err)
    | none =>
      if d.block b = [] then some (d, some EFSCORRUPTED)
      else
        let r := addDirentToBuf sb env e none (d.block b)
        let d' := d.setBlock b r.1
        if r.2 ≠ some ENOSPC then some (d', r.2)
        else
          -- the index is split first where it is full
          match env .splitIndex with
          | some err => some (d', some err)
          | none => some (splitAndAdd sb env e d' b)

/-- `ext4_add_entry`. -/
def ext4AddEntry (e : DirEntry) (d : Dir) : Dir × Option Errno :=
  if e.name = [] then (d, some EINVAL)
  else if isDx sb d then
    match ext4DxAddEntry sb env e d with
    | some r => r
    | none =>
      if sb.metadataCsum then (d, some EFSCORRUPTED)
      else
        let d' : Dir := { d with index := false }
        match env .markIndexDirty with
        | some err => (d', some err)
        | none => linearAdd sb env true e d'
  else linearAdd sb env false e d

/-- `ext4_delete_entry`. -/
def ext4DeleteEntry (b k : ℕ) (d : Dir) : Dir × Option Errno :=
  match env .deleteAccess with
  | some err => (d, some err)
  | none =>
    match ext4GenericDeleteEntry sb k (d.block b) with
    | .error err => (d, some err)
    | .ok x => (d.setBlock b x, env .deleteDirty)

end LinuxEvfs.Namespace.Entries
