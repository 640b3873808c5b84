import LinuxEvfs.ExtTree.Insert
import LinuxEvfs.Unwritten.View

/-! # Written and unwritten extents

The functions of `extents.c` that change the state of a part of an extent. They cut the extent into up to three, and
where a cut fails for want of space or memory they may zero blocks on the device instead and make the whole extent
written.

The calls that can fail answer through records, one field per call. A function gives `none` where a `BUG_ON` stops the
kernel or a null pointer is followed. An insertion that fails leaves the tree as it was or has put the new extent in;
the states in between, of a tree that has grown before its leaf could not be split, are left out. -/

namespace LinuxEvfs.Unwritten.Model

open LinuxEvfs.Errno LinuxEvfs.Lib.Word LinuxEvfs.Lib.IndexTree LinuxEvfs.Lib.IndexFrame
open LinuxEvfs.ExtTree.Basic LinuxEvfs.ExtTree.Cells LinuxEvfs.ExtTree.Tree LinuxEvfs.ExtTree.Split
open LinuxEvfs.ExtTree.Insert LinuxEvfs.Unwritten.View

variable {α : Type} [Zero α]

/-- The `split_flag` of `ext4_split_extent_at`. -/
structure SplitFlag where
  /-- `EXT4_EXT_MAY_ZEROOUT`. -/
  mayZeroout : Bool
  /-- `EXT4_EXT_MARK_UNWRIT1`, `EXT4_EXT_MARK_UNWRIT2`. -/
  markUnwrit1 : Bool
  markUnwrit2 : Bool
  /-- `EXT4_EXT_DATA_VALID1`, `EXT4_EXT_DATA_VALID2`. -/
  dataValid1 : Bool
  dataValid2 : Bool
deriving DecidableEq

/-- What the calls of `ext4_split_extent_at` answer. -/
structure SplitAns where
  /-- `ext4_ext_get_access`. -/
  access : Option Errno
  /-- `ext4_ext_dirty` of the shortened extent. -/
  dirty : Option Errno
  /-- `ext4_ext_insert_extent`; the flag says that it fails behind the insertion. -/
  insert : Option (Errno × Bool)
  /-- `ext4_ext_zeroout`. -/
  zero : ZeroOut
  /-- `ext4_journal_extend` of `ext4_ext_try_to_merge_up`. -/
  extend : Bool
  /-- The last `ext4_ext_dirty`. -/
  dirtyEnd : Option Errno

def ext4ExtMarkInitialized (ex : Extent) : Extent := { ex with eeLen := ext4ExtGetActualLen ex }

/-- `ext4_ext_zeroout`. -/
def ext4ExtZeroout (z : ZeroOut) (ex : Extent) (disk : ℕ → α) : ℕ → α :=
  wipe z (ext4ExtPblock ex) (ext4ExtGetActualLen ex) disk

/-- The extent whose blocks are zeroed: the half without valid data, or all of it. -/
def zeroPart (fl : SplitFlag) (ex short newex : Extent) : Extent :=
  if fl.dataValid1 then newex else if fl.dataValid2 then short else ex

/-- The tree after an insertion that failed, the extent having been set to `g` of it. -/
def failedInsert (blocksize : ℕ) (preIo extend inserted : Bool) (newex : Extent) (g : Extent → Extent) (t : ExtRoot)
    (path : Path t.1) : ExtRoot :=
  if inserted then insertExtent blocksize preIo extend newex (updExt g t path) path else updExt g t path

/-- Case a of `ext4_split_extent_at`: the extent `ex` is shortened, and the rest of it inserted. -/
def splitInner (blocksize : ℕ) (ans : SplitAns) (f : File α) (path : Path f.tree.1) (ex : Extent) (split : ℕ)
    (fl : SplitFlag) (preIo : Bool) : File α × Option Errno :=
  let shorten := (setLen · (split - ex.eeBlock) fl.markUnwrit1)
  let newex := splitTail ex split fl.markUnwrit2
  match ans.dirty with
  -- `fix_extent_len`
  | some err => (f, some err)
  | none =>
    match ans.insert with
    | none =>
      ({ f with tree := insertExtent blocksize preIo ans.extend newex (updExt shorten f.tree path) path }, none)
    | some (err, inserted) =>
      if restores err = false then
        ({ f with tree := failedInsert blocksize preIo ans.extend inserted newex shorten f.tree path }, some err)
      else if fl.mayZeroout then
        let disk := ext4ExtZeroout ans.zero (zeroPart fl ex (shorten ex) newex) f.disk
        match ans.zero.err with
        | some err' => (⟨failedInsert blocksize preIo ans.extend inserted newex id f.tree path, disk⟩, some err')
        | none =>
          let whole := (setLen · (ext4ExtGetActualLen ex) false)
          let t := failedInsert blocksize preIo ans.extend inserted newex whole f.tree path
          (⟨ext4ExtTryToMerge ans.extend t (ext4FindExtent t ex.eeBlock), disk⟩, ans.dirtyEnd)
      else ({ f with tree := failedInsert blocksize preIo ans.extend inserted newex id f.tree path }, some err)

/-- `ext4_split_extent_at`. -/
def ext4SplitExtentAt (blocksize : ℕ) (ans : SplitAns) (f : File α) (path : Path f.tree.1) (split : ℕ) (fl : SplitFlag)
    (preIo : Bool) : Option (File α × Option Errno) :=
  if fl.dataValid1 ∧ fl.dataValid2 then none
  else
    match pExt f.tree path with
    | none => none
    | some ex =>
      if split < ex.eeBlock ∨ add32 ex.eeBlock (ext4ExtGetActualLen ex) ≤ split then none
      else if ext4ExtIsUnwritten ex = false ∧ (fl.mayZeroout ∨ fl.markUnwrit1 ∨ fl.markUnwrit2) then none
      else
        match ans.access with
        | some err => some (f, some err)
        | none =>
          if split = ex.eeBlock then
            -- case b
            let t := updExt (if fl.markUnwrit2 then ext4ExtMarkUnwritten else ext4ExtMarkInitialized) f.tree path
            some ({ f with tree := if preIo then t else ext4ExtTryToMerge ans.extend t path }, ans.dirtyEnd)
          else some (splitInner blocksize ans f path ex split fl preIo)

/-- What the calls of `ext4_split_extent` answer: those of the two splits, and `ext4_find_extent` between them. -/
structure SplitEnv where
  first : SplitAns
  find : Option Errno
  second : SplitAns

/-- The second half of `ext4_split_extent`: the split at the start of the range. `eeBlock` is the start of the extent
found in the beginning. -/
def splitSecond (blocksize : ℕ) (env : SplitEnv) (f : File α) (eeBlock lblk allocated : ℕ) (fl : SplitFlag) (preIo : Bool) :
    Option (File α × Except Errno ℕ) :=
  match env.find with
  | some err => some (f, .error err)
  | none =>
    match pExt f.tree (ext4FindExtent f.tree lblk) with
    | none => some (f, .error EFSCORRUPTED)
    | some ex =>
      if eeBlock ≤ lblk then
        let unwritten := ext4ExtIsUnwritten ex
        let fl2 : SplitFlag :=
          ⟨unwritten && fl.mayZeroout, unwritten, unwritten && fl.markUnwrit2, false, fl.dataValid2⟩
        match ext4SplitExtentAt blocksize env.second f (ext4FindExtent f.tree lblk) lblk fl2 preIo with
        | none => none
        | some (f', some err) => some (f', .error err)
        | some (f', none) => some (f', .ok allocated)
      else some (f, .ok allocated)

/-- `ext4_split_extent`: the number of blocks, or an error. -/
def ext4SplitExtent (blocksize : ℕ) (env : SplitEnv) (f : File α) (path : Path f.tree.1) (lblk len : ℕ) (fl : SplitFlag)
    (preIo : Bool) : Option (File α × Except Errno ℕ) :=
  match pExt f.tree path with
  | none => none
  | some ex =>
    let eeLen := ext4ExtGetActualLen ex
    if add32 lblk len < add32 ex.eeBlock eeLen then
      let unwritten := ext4ExtIsUnwritten ex
      let fl1 : SplitFlag := ⟨fl.mayZeroout, unwritten, unwritten, fl.dataValid2, false⟩
      match ext4SplitExtentAt blocksize env.first f path (add32 lblk len) fl1 true with
      | none => none
      | some (f', some err) => some (f', .error err)
      | some (f', none) => splitSecond blocksize env f' ex.eeBlock lblk len fl preIo
    else splitSecond blocksize env f ex.eeBlock lblk (eeLen - (lblk - ex.eeBlock)) fl preIo

/-! ### `ext4_ext_convert_to_initialized` -/

/-- What is read of the inode and of the super block: the size of a block, the first block behind `i_disksize`, and
`s_extent_max_zeroout_kb` in blocks. -/
structure Info where
  blocksize : ℕ
  eofBlock : ℕ
  maxZeroout : ℕ

/-- What the calls of `ext4_ext_convert_to_initialized` answer. -/
structure ConvEnv where
  access : Option Errno
  dirty : Option Errno
  zero1 : ZeroOut
  zero2 : ZeroOut
  split : SplitEnv

/-- The first `len` blocks of the extent at `i` become the last ones of the written extent before it. -/
def transferLeft (len : ℕ) (es : List Extent) (i : ℕ) : Option (List Extent) :=
  match es[i]?, es[i - 1]? with
  | some ex, some abut =>
    if ext4ExtIsUnwritten abut = false ∧ add32 abut.eeBlock (ext4ExtGetActualLen abut) = ex.eeBlock ∧
        ext4ExtPblock abut + ext4ExtGetActualLen abut = ext4ExtPblock ex ∧
        ext4ExtGetActualLen abut < EXT_INIT_MAX_LEN - len then
      let ex' := setLen (ext4ExtStorePblock { ex with eeBlock := ex.eeBlock + len } (ext4ExtPblock ex + len))
        (ext4ExtGetActualLen ex - len) true
      some ((es.set i ex').set (i - 1) (setLen abut (ext4ExtGetActualLen abut + len) false))
    else none
  | _, _ => none

/-- The last `len` blocks of the extent at `i` become the first ones of the written extent behind it. -/
def transferRight (lblk len : ℕ) (es : List Extent) (i : ℕ) : Option (List Extent) :=
  match es[i]?, es[i + 1]? with
  | some ex, some abut =>
    if ext4ExtIsUnwritten abut = false ∧ add32 lblk len = abut.eeBlock ∧
        ext4ExtPblock ex + ext4ExtGetActualLen ex = ext4ExtPblock abut ∧
        ext4ExtGetActualLen abut < EXT_INIT_MAX_LEN - len then
      let abut' := setLen (ext4ExtStorePblock { abut with eeBlock := abut.eeBlock - len } (ext4ExtPblock abut - len))
        (ext4ExtGetActualLen abut + len) false
      some ((es.set i (setLen ex (ext4ExtGetActualLen ex - len) true)).set (i + 1) abut')
    else none
  | _, _ => none

/-- The attempt to transfer the blocks of the range to a neighbour in the same leaf. -/
def transfer (ex : Extent) (lblk len : ℕ) (es : List Extent) (i : ℕ) : Option (List Extent) :=
  let eeLen := ext4ExtGetActualLen ex
  if lblk = ex.eeBlock ∧ len < eeLen ∧ 0 < i then transferLeft len es i
  else if add32 lblk len = add32 ex.eeBlock eeLen ∧ len < eeLen ∧ i + 1 < es.length then transferRight lblk len es i
  else none

/-- The leaf with the blocks transferred, if that can be done. -/
def transferBlock (ex : Extent) (lblk len : ℕ) (lf : Block Extent) (q : Option ℕ) : Block Extent :=
  { lf with entries := (q.bind (transfer ex lblk len lf.entries)).getD lf.entries }

/-- The blocks can be transferred. -/
def transfers (ex : Extent) (lblk len : ℕ) (t : ExtRoot) (path : Path t.1) : Bool :=
  ((leaf t.1 t.2 path).bind fun lf => (Path.last t.1 path).bind (transfer ex lblk len lf.entries)).isSome

/-- The range that is split out after the zeroing around it, with the number of blocks to return. -/
structure Plan (α : Type) where
  disk : ℕ → α
  lblk : ℕ
  len : ℕ
  allocated : ℕ

/-- Zeroing what is left of the extent behind the range (case 3 or 5); the flag says that the call has failed. -/
def zeroTail (env : ConvEnv) (ex : Extent) (maxZeroout : ℕ) (p : Plan α) : Plan α × Bool :=
  if p.allocated ≤ maxZeroout then
    let disk := wipe env.zero1 (ext4ExtPblock ex + p.lblk + p.len - ex.eeBlock) (p.allocated - p.len) p.disk
    match env.zero1.err with
    | some _ => ({ p with disk := disk }, true)
    | none => ({ p with disk := disk, len := p.allocated }, false)
  else (p, false)

/-- Zeroing what stands before the range (case 2 or 5). -/
def zeroHead (env : ConvEnv) (ex : Extent) (maxZeroout mapLen : ℕ) (p : Plan α) : Plan α :=
  if p.lblk - ex.eeBlock + p.len < maxZeroout then
    if p.lblk ≠ ex.eeBlock then
      let disk := wipe env.zero2 (ext4ExtPblock ex) (p.lblk - ex.eeBlock) p.disk
      match env.zero2.err with
      | some _ => { p with disk := disk }
      | none => { disk := disk, lblk := ex.eeBlock, len := p.len + (p.lblk - ex.eeBlock), allocated := mapLen }
    else { p with allocated := mapLen }
  else p

/-- The zeroing of small extents before they are split. -/
def zeroAround (env : ConvEnv) (ex : Extent) (maxZeroout : ℕ) (p : Plan α) : Plan α :=
  if maxZeroout ≠ 0 ∧ p.len < p.allocated then
    let r := zeroTail env ex maxZeroout p
    if r.2 then r.1 else zeroHead env ex maxZeroout p.len r.1
  else p

/-- `ext4_ext_convert_to_initialized`: the number of blocks, or an error. -/
def ext4ExtConvertToInitialized (info : Info) (env : ConvEnv) (f : File α) (path : Path f.tree.1) (lblk len : ℕ) :
    Option (File α × Except Errno ℕ) :=
  match pExt f.tree path with
  | none => none
  | some ex =>
    let eeLen := ext4ExtGetActualLen ex
    if ext4ExtIsUnwritten ex = false ∨ ¬ (ex.eeBlock ≤ lblk ∧ lblk < ex.eeBlock + eeLen) then none
    else if transfers ex lblk len f.tree path then
      match env.access with
      | some err => some (f, .error err)
      | none =>
        some ({ f with tree := ⟨f.tree.1, updLeaf (transferBlock ex lblk len) f.tree.1 f.tree.2 path⟩ },
          env.dirty.elim (.ok len) .error)
    else
      let mayZeroout : Bool := decide (add32 ex.eeBlock eeLen ≤ max info.eofBlock (add32 lblk len))
      let p := zeroAround env ex (if mayZeroout then info.maxZeroout else 0) ⟨f.disk, lblk, len, eeLen - (lblk - ex.eeBlock)⟩
      let fl : SplitFlag := ⟨mayZeroout, false, false, false, true⟩
      match ext4SplitExtent info.blocksize env.split { f with disk := p.disk } path p.lblk p.len fl false with
      | none => none
      | some (f', .error err) => some (f', .error err)
      | some (f', .ok _) => some (f', .ok p.allocated)

/-! ### The other conversions -/

/-- `ext4_split_convert_extents`, to written (`EXT4_GET_BLOCKS_CONVERT`) or to unwritten
(`EXT4_GET_BLOCKS_CONVERT_UNWRITTEN`). It only splits. -/
def ext4SplitConvertExtents (info : Info) (env : SplitEnv) (f : File α) (path : Path f.tree.1) (lblk len : ℕ)
    (toUnwritten : Bool) : Option (File α × Except Errno ℕ) :=
  match pExt f.tree path with
  | none => none
  | some ex =>
    let fl : SplitFlag :=
      if toUnwritten then ⟨false, false, false, true, false⟩
      else ⟨decide (add32 ex.eeBlock (ext4ExtGetActualLen ex) ≤ max info.eofBlock (add32 lblk len)), false, true, false, true⟩
    ext4SplitExtent info.blocksize env f path lblk len fl true

/-- What the calls of the two functions below answer: those of the split, the lookup behind it, and the calls at the
end. -/
structure MarkEnv where
  split : SplitEnv
  find : Option Errno
  access : Option Errno
  extend : Bool
  dirty : Option Errno

/-- How one of them marks an extent, when that is a bug, and the error for a hole; `none` where it follows the null
pointer. -/
structure Marking where
  mark : Extent → Extent
  bug : Extent → Bool
  onHole : Option Errno

/-- The end of both: the extent at the path is marked, and merged. -/
def markExtent (env : MarkEnv) (m : Marking) (f : File α) (path : Path f.tree.1) : Option (File α × Option Errno) :=
  match pExt f.tree path with
  | none => m.onHole.map fun err => (f, some err)
  | some ex =>
    match env.access with
    | some err => some (f, some err)
    | none =>
      if m.bug ex then none
      else some ({ f with tree := ext4ExtTryToMerge env.extend (updExt m.mark f.tree path) path }, env.dirty)

/-- The extent at `lblk` is split out unless the range covers it from its start, and then marked. -/
def splitAndMark (info : Info) (env : MarkEnv) (m : Marking) (f : File α) (path : Path f.tree.1) (lblk len : ℕ)
    (toUnwritten : Bool) : Option (File α × Option Errno) :=
  match pExt f.tree path with
  | none => none
  | some ex =>
    if ex.eeBlock ≠ lblk ∨ len < ext4ExtGetActualLen ex then
      match ext4SplitConvertExtents info env.split f path lblk len toUnwritten with
      | none => none
      | some (f', .error err) => some (f', some err)
      | some (f', .ok _) =>
        match env.find with
        | some err => some (f', some err)
        | none => markExtent env m f' (ext4FindExtent f'.tree lblk)
    else markExtent env m f path

/-- `ext4_convert_unwritten_extents_endio`. -/
def ext4ConvertUnwrittenExtentsEndio (info : Info) (env : MarkEnv) (f : File α) (path : Path f.tree.1) (lblk len : ℕ) :
    Option (File α × Option Errno) :=
  splitAndMark info env ⟨ext4ExtMarkInitialized, fun _ => false, none⟩ f path lblk len false

/-- The length up to which `convert_initialized_extent` converts. -/
def convertLen (len : ℕ) : ℕ := if EXT_UNWRITTEN_MAX_LEN < len then EXT_UNWRITTEN_MAX_LEN / 2 else len

/-- `convert_initialized_extent`: the number of blocks converted, or an error. An unwritten extent of length 0 is a
bug. -/
def convertInitializedExtent (info : Info) (env : MarkEnv) (f : File α) (path : Path f.tree.1) (lblk len allocated : ℕ) :
    Option (File α × Except Errno ℕ) :=
  (splitAndMark info env ⟨ext4ExtMarkUnwritten, fun ex => ex.eeLen % EXT_INIT_MAX_LEN = 0, some EFSCORRUPTED⟩ f path lblk
    (convertLen len) true).map fun r => (r.1, r.2.elim (.ok (min allocated (convertLen len))) .error)

/-! ### Requests for blocks that have an extent -/

/-- The `EXT4_GET_BLOCKS` flags of a request. -/
structure MapFlags where
  create : Bool
  unwritExt : Bool
  preIo : Bool
  convert : Bool
  convertUnwritten : Bool

/-- What the calls of a request answer. -/
structure MapEnv where
  find : Option Errno
  split : SplitEnv
  endio : MarkEnv
  zero : MarkEnv
  conv : ConvEnv

/-- The `ext4_map_blocks` that a request leaves: the length, the first physical block where it is set, and the flags. -/
structure MapRes where
  len : ℕ
  pblk : Option ℕ
  new : Bool
  mapped : Bool
  unwritten : Bool

/-- `ext4_ext_handle_unwritten_extents`. -/
def ext4ExtHandleUnwrittenExtents (info : Info) (env : MapEnv) (fl : MapFlags) (f : File α) (path : Path f.tree.1)
    (lblk len allocated newblock : ℕ) : Option (File α × Except Errno MapRes) :=
  if fl.preIo then
    match ext4SplitConvertExtents info env.split f path lblk len fl.convertUnwritten with
    | none => none
    | some (f', .error err) => some (f', .error err)
    | some (f', .ok n) =>
      some (f', if n = 0 then .error EFSCORRUPTED else .ok ⟨min n len, some newblock, true, true, true⟩)
  else if fl.convert then
    match ext4ConvertUnwrittenExtentsEndio info env.endio f path lblk len with
    | none => none
    | some (f', some err) => some (f', .error err)
    | some (f', none) => some (f', .ok ⟨min allocated len, some newblock, false, true, false⟩)
  else if fl.unwritExt then some (f, .ok ⟨min allocated len, some newblock, false, true, true⟩)
  else if fl.create = false then some (f, .ok ⟨min allocated len, some newblock, false, false, true⟩)
  else
    match ext4ExtConvertToInitialized info env.conv f path lblk len with
    | none => none
    | some (f', .error err) => some (f', .error err)
    | some (f', .ok n) =>
      some (f', if n = 0 then .error EFSCORRUPTED else .ok ⟨min n len, some newblock, true, true, false⟩)

/-- `ext4_ext_map_blocks` as far as blocks with an extent go; there is no result for a block without one. -/
def ext4ExtMapBlocks (info : Info) (env : MapEnv) (fl : MapFlags) (f : File α) (lblk len : ℕ) :
    Option (File α × Option (Except Errno MapRes)) :=
  match env.find with
  | some err => some (f, some (.error err))
  | none =>
    let path := ext4FindExtent f.tree lblk
    match pExt f.tree path with
    | none => some (f, none)
    | some ex =>
      let eeLen := ext4ExtGetActualLen ex
      if ex.eeBlock ≤ lblk ∧ lblk < ex.eeBlock + eeLen then
        let newblock := lblk - ex.eeBlock + ext4ExtPblock ex
        let allocated := eeLen - (lblk - ex.eeBlock)
        if ext4ExtIsUnwritten ex = false then
          if fl.convertUnwritten then
            (convertInitializedExtent info env.zero f path lblk len allocated).map fun r =>
              (r.1, some (r.2.map fun n => ⟨n, none, false, false, true⟩))
          else some (f, some (.ok ⟨min allocated len, some newblock, false, true, false⟩))
        else
          (ext4ExtHandleUnwrittenExtents info env fl f path lblk len allocated newblock).map fun r => (r.1, some r.2)
      else some (f, none)

end LinuxEvfs.Unwritten.Model
