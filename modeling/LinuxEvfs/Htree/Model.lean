import LinuxEvfs.Htree.SortMap
import LinuxEvfs.Lib.PagedIndex
import LinuxEvfs.Namespace.Entries

/-! # Indexed directories

A directory with a hash index: block 0 is the root of the index, below it stand levels of index blocks, and below
these the leaves with the records. The functions of `namei.c` that read and change the index: `dx_probe`,
`ext4_htree_next_block`, `ext4_dx_find_entry`, `dx_make_map`, `do_split`, `make_indexed_dir` and `ext4_dx_add_entry`.

The frames of `dx_probe` are a path from the deepest index block up: the number of each block with the position of
`at` in it. `ext4fs_dirhash` is in `hash.c`; it is the parameter `dirhash`. Its values are even, so the lowest bit of a
hash in an index entry is free to say that the leaf goes on with the hash of the leaf before it.

A function that reads outside of the map of a leaf ends with `wild`; one that has not ended within the passes it is
given is `running`. -/

namespace LinuxEvfs.Htree.Model

open LinuxEvfs.Errno LinuxEvfs.Lib.BinSearch LinuxEvfs.Lib.PagedIndex LinuxEvfs.Namespace.Dir
open LinuxEvfs.Namespace.Entries LinuxEvfs.Htree.SortMap

def DX_HASH_LEGACY : ℕ := 0
def DX_HASH_HALF_MD4 : ℕ := 1
def DX_HASH_TEA : ℕ := 2
def DX_HASH_SIPHASH : ℕ := 6

/-- `ERR_BAD_DX_DIR`, which no system call returns. -/
def ERR_BAD_DX_DIR : Errno := ⟨4094, Nat.succ_pos _⟩

/-- What the functions read of the super block, and the functions of other files. -/
structure DxSb extends Sb where
  /-- `s_def_hash_version`. -/
  defHashVersion : ℕ
  /-- `s_hash_unsigned`. -/
  hashUnsigned : ℕ
  /-- `ext4_has_feature_largedir`. -/
  largedir : Bool
  /-- `ext4fs_dirhash`, by hash version. -/
  dirhash : ℕ → Name → ℕ
  dirhash_even : ∀ version name, dirhash version name % 2 = 0
  dirhash_lt : ∀ version name, dirhash version name + 1 < 2 ^ 32 - 1

/-- `struct dx_entry`. -/
structure DxEntry where
  hash : ℕ
  block : ℕ
deriving DecidableEq

/-- `dx_get_block`. -/
def dxGetBlock (e : DxEntry) : ℕ := e.block % 2 ^ 28

/-- The entries of an index block; `count` is their number. The limit and the count lie over the hash of the first
entry, which is not used. -/
structure DxNode where
  limit : ℕ
  entries : List DxEntry
deriving DecidableEq

/-- `struct dx_root_info`. -/
structure DxRootInfo where
  hashVersion : ℕ
  infoLength : ℕ
  indirectLevels : ℕ
  unusedFlags : ℕ
deriving DecidableEq

/-- A block of a directory with an index. -/
inductive DxBlock where
  /-- `struct dx_root`, with the records `.` and `..`. -/
  | root (dot dotdot : DirEntry) (info : DxRootInfo) (x : DxNode)
  | node (x : DxNode)
  | leaf (recs : DirBlock)
deriving DecidableEq

/-- The contents of a directory; `EXT4_INODE_INDEX` says which. -/
inductive HDir where
  | linear (d : Dir)
  | indexed (blocks : List DxBlock)

/-- The calls whose success is not decided by the state modelled, during one pass of `ext4_dx_add_entry` or one call
of another function. -/
structure DxEnv where
  calls : Env
  /-- `ext4_bread` of a block. -/
  read : ℕ → Option Errno
  /-- `ext4_append` of an index block, the write accesses to the index, and marking it dirty. -/
  indexAppend : Option Errno
  indexAccess : Option Errno
  indexDirty : Option Errno

/-- How a function ends. -/
inductive Outcome (σ : Type) where
  | ret (s : σ) (r : Option Errno)
  | wild
  | running

variable (sb : DxSb) (env : DxEnv)

/-! ### Index blocks -/

/-- The entries of a block that is part of the index. -/
def DxBlock.node? : DxBlock → Option DxNode
  | .root _ _ _ x => some x
  | .node x => some x
  | .leaf _ => none

def DxBlock.setNode (x : DxNode) : DxBlock → DxBlock
  | .root dot dotdot info _ => .root dot dotdot info x
  | .node _ => .node x
  | .leaf recs => .leaf recs

/-- The index block number `b`. -/
def nodeAt (d : List DxBlock) (b : ℕ) : Option DxNode := d[b]?.bind DxBlock.node?

/-- The entries as `dx_get_hash` and `dx_get_block` read them. -/
def index (d : List DxBlock) : Index ℕ := fun b =>
  ((nodeAt d b).elim [] DxNode.entries).map fun e => (e.hash, dxGetBlock e)

/-- The records of the leaf number `b`. -/
def leafAt (d : List DxBlock) (b : ℕ) : DirBlock :=
  match d[b]? with
  | some (.leaf recs) => recs
  | _ => []

/-- `dx_root_limit`. -/
def DxSb.dxRootLimit (infosize : ℕ) : ℕ :=
  (sb.blocksize - ext4DirRecLen 1 - ext4DirRecLen 2 - infosize - (if sb.metadataCsum then 8 else 0)) / 8

/-- `dx_node_limit`. -/
def DxSb.dxNodeLimit : ℕ := (sb.blocksize - ext4DirRecLen 0 - (if sb.metadataCsum then 8 else 0)) / 8

/-- `ext4_dir_htree_level`. -/
def DxSb.htreeLevel : ℕ := if sb.largedir then 3 else 2

/-- `hinfo->hash_version`, from the version in the root. -/
def DxSb.hinfoVersion (version : ℕ) : ℕ := if version ≤ DX_HASH_TEA then version + sb.hashUnsigned else version

/-- `ext4_read_dirblock(dir, b, INDEX)`. -/
def readIndex (d : List DxBlock) (b : ℕ) : Except Errno DxNode :=
  match d[b]? with
  | none => .error EFSCORRUPTED
  | some block =>
    match env.read b with
    | some err => .error err
    | none => block.node?.elim (.error EFSCORRUPTED) .ok

/-- `ext4_read_dirblock(dir, b, DIRENT_HTREE)`. -/
def readLeaf (d : List DxBlock) (b : ℕ) : Except Errno DirBlock :=
  match d[b]? with
  | some (.leaf recs) =>
    match env.read b with
    | some err => .error err
    | none => if recs = [] then .error EFSCORRUPTED else .ok recs
  | _ => .error EFSCORRUPTED

/-! ### `dx_probe` -/

/-- The loop of `dx_probe`: `n` levels are left, `blocks` are those read so far, and `up` the frames above. -/
def probeLoop (d : List DxBlock) (hash : ℕ) (n : ℕ) (blocks : List ℕ) (up : Path ℕ) (b : ℕ) (x : DxNode) :
    Except Errno ((ℕ × ℕ) × Path ℕ) :=
  if x.entries = [] ∨ x.limit < x.entries.length then .error ERR_BAD_DX_DIR
  else
    let i := lastLe DxEntry.hash hash x.entries
    let block := (x.entries[i]?).elim 0 dxGetBlock
    if block ∈ blocks then .error ERR_BAD_DX_DIR
    else
      match n with
      | 0 => .ok ((b, i), up)
      | n + 1 =>
        match readIndex env d block with
        | .error err => .error err
        | .ok x' =>
          if x'.limit ≠ sb.dxNodeLimit then .error ERR_BAD_DX_DIR
          else probeLoop d hash n (block :: blocks) ((b, i) :: up) block x'

/-- What `dx_probe` finds: `hinfo->hash_version`, the deepest frame, and those above it. -/
structure Probe where
  version : ℕ
  frame : ℕ × ℕ
  up : Path ℕ

/-- `dx_probe`, for a hash that may depend on the hash version. -/
def dxProbe (d : List DxBlock) (hashOf : ℕ → ℕ) : Except Errno Probe :=
  match d[(0 : ℕ)]? with
  | some (.root _ _ info x) =>
    match env.read 0 with
    | some err => .error err
    | none =>
      if info.hashVersion ≠ DX_HASH_TEA ∧ info.hashVersion ≠ DX_HASH_HALF_MD4 ∧
          info.hashVersion ≠ DX_HASH_LEGACY then .error ERR_BAD_DX_DIR
      else if info.unusedFlags % 2 = 1 then .error ERR_BAD_DX_DIR
      else if sb.htreeLevel ≤ info.indirectLevels then .error ERR_BAD_DX_DIR
      else if x.limit ≠ sb.dxRootLimit info.infoLength then .error ERR_BAD_DX_DIR
      else
        let version := sb.hinfoVersion info.hashVersion
        (probeLoop sb env d (hashOf version) info.indirectLevels [0] [] 0 x).map fun r => ⟨version, r.1, r.2⟩
  | _ => .error EFSCORRUPTED

/-- `dx_get_block(frame->at)`. -/
def frameBlock (d : List DxBlock) : Path ℕ → ℕ
  | [] => 0
  | (b, i) :: _ => ((index d b)[i]?).elim 0 Prod.snd

/-- `dx_get_hash(p->at)`. -/
def frameHash (d : List DxBlock) : Path ℕ → ℕ
  | [] => 0
  | (b, i) :: _ => ((index d b)[i]?).elim 0 Prod.fst

/-! ### `ext4_htree_next_block` -/

/-- `HASH_NB_ALWAYS`. -/
def HASH_NB_ALWAYS : ℕ := 1

/-- The index blocks below the entry climbed to, each at its first entry. -/
def readDown (d : List DxBlock) : ℕ → Path ℕ → Except Errno (Path ℕ)
  | 0, frames => .ok frames
  | n + 1, frames =>
    match readIndex env d (frameBlock d frames) with
    | .error err => .error err
    | .ok _ => readDown d n ((frameBlock d frames, 0) :: frames)

/-- `ext4_htree_next_block`: the frames of the next leaf if the search goes on, and what is stored to `start_hash`. -/
def ext4HtreeNextBlock (d : List DxBlock) (hash : ℕ) (frames : Path ℕ) :
    Except Errno (Option (Path ℕ)) × Option ℕ :=
  match climb (index d) frames with
  | none => (.ok none, none)
  | some (numFrames, top) =>
    let bhash := frameHash d top
    if hash % 2 = 0 ∧ bhash / 2 * 2 ≠ hash then (.ok none, some bhash)
    else ((readDown env d numFrames top).map some, some bhash)

/-! ### `ext4_dx_find_entry` -/

/-- The loop of `ext4_dx_find_entry`. -/
def findLoop (d : List DxBlock) (name : Name) (hash : ℕ) : ℕ → Path ℕ → Option (Except Errno (Option (ℕ × ℕ)))
  | 0, _ => none
  | fuel + 1, frames =>
    match readLeaf env d (frameBlock d frames) with
    | .error err => some (.error err)
    | .ok recs =>
      match ext4SearchDir sb.toSb name 0 recs with
      | .found k => some (.ok (some (frameBlock d frames, k)))
      | .bad => some (.error ERR_BAD_DX_DIR)
      | .none =>
        match (ext4HtreeNextBlock env d hash frames).1 with
        | .error err => some (.error err)
        | .ok none => some (.ok none)
        | .ok (some frames') => findLoop d name hash fuel frames'

/-- `ext4_dx_find_entry`: the block and the record; `none` where the loop has not ended. -/
def ext4DxFindEntry (fuel : ℕ) (name : Name) (d : List DxBlock) : Option (Except Errno (Option (ℕ × ℕ))) :=
  match dxProbe sb env d fun version => sb.dirhash version name with
  | .error err => some (.error err)
  | .ok r => findLoop sb env d name (sb.dirhash r.version name) fuel (r.frame :: r.up)

/-! ### `do_split` -/

/-- `dx_make_map`: the records from number `k` on, the last one first. -/
def dxMakeMap (version : ℕ) : ℕ → ℕ → DirBlock → Except Errno (List DxMapEntry)
  | _, _, [] => .ok []
  | k, offset, de :: rest =>
    if sb.bufSize ≤ offset then .ok []
    else if sb.checkDirEntry sb.bufSize offset de then .error EFSCORRUPTED
    else
      match dxMakeMap version (k + 1) (offset + de.recLen) rest with
      | .error err => .error err
      | .ok map =>
        .ok (if de.name ≠ [] ∧ de.inode ≠ 0 then map ++ [⟨sb.dirhash version de.name, k, de.recLen⟩] else map)

/-- How many entries from the end of the map are moved: the loop that adds up their sizes. -/
def moveCount : ℕ → List DxMapEntry → ℕ
  | _, [] => 0
  | size, m :: rest =>
    if sb.blocksize / 2 < size + m.size / 2 then 0 else 1 + moveCount (size + m.size) rest

/-- The map index at which the leaf is split. -/
def splitIndex (map : List DxMapEntry) : ℕ :=
  let move := moveCount sb 0 map.reverse
  -- `i > 0`, where `i` is the entry the loop has stopped at
  if move + 1 < map.length then map.length - move else map.length / 2

/-- A record packed to the length of its name. -/
def packed (de : DirEntry) : DirEntry := { de with recLen := ext4DirRecLen de.name.length }

/-- `dx_move_dirents`: the block with the records wiped, and the records moved. -/
def dxMoveDirents : List DxMapEntry → DirBlock → DirBlock × DirBlock
  | [], b => (b, [])
  | m :: map, b =>
    match b[m.offs]? with
    | none => dxMoveDirents map b
    | some de =>
      let r := dxMoveDirents map (b.set m.offs (wiped de.recLen))
      (r.1, packed de :: r.2)

/-- `dx_pack_dirents`. -/
def dxPackDirents (b : DirBlock) : DirBlock := (b.filter fun de => de.inode ≠ 0 && de.name ≠ []).map packed

/-- What `do_split` makes of a leaf and its sorted map: the two halves, and the hash of the index entry. -/
structure Halves where
  fst : DirBlock
  snd : DirBlock
  hash2 : ℕ
  continued : Bool

/-- The split of the records. It reads `map[split]` and `map[split - 1]`; `none` where one of them is not in the map. -/
def splitRecords (map : List DxMapEntry) (b : DirBlock) : Option Halves :=
  let split := splitIndex sb map
  if split = 0 then none
  else
    match map[split]?, map[split - 1]? with
    | some m, some m' =>
      let moved := dxMoveDirents (map.drop split) b
      some ⟨stretch sb.bufSize 0 (dxPackDirents moved.1), stretch sb.bufSize 0 moved.2, m.hash, m.hash = m'.hash⟩
    | _, _ => none

/-- `dx_insert_block`: an entry behind the one of the frame. -/
def dxInsertBlock (d : List DxBlock) (frame : ℕ × ℕ) (hash block : ℕ) : List DxBlock :=
  match nodeAt d frame.1 with
  | none => d
  | some x =>
    d.modify frame.1 (DxBlock.setNode
      { x with entries := x.entries.take (frame.2 + 1) ++ ⟨hash, block⟩ :: x.entries.drop (frame.2 + 1) })

/-- How `do_split` ends: with the block that gets the new entry, with an error, or out of the map. -/
inductive SplitEnd where
  | ok (b : ℕ)
  | err (e : Errno)
  | wild

/-- `do_split` of the leaf `b`, for an entry with the hash `hash`. -/
def doSplit (version hash : ℕ) (d : List DxBlock) (frame : ℕ × ℕ) (b : ℕ) : List DxBlock × SplitEnd :=
  match env.calls .splitAppend with
  | some err => (d, .err err)
  | none =>
    let newblock := d.length
    match env.calls .splitAccess with
    | some err => (d ++ [.leaf []], .err err)
    | none =>
      match dxMakeMap sb version 0 0 (leafAt d b) with
      | .error err => (d ++ [.leaf []], .err err)
      | .ok map =>
        match splitRecords sb (dxSortMap map) (leafAt d b) with
        | none => (d, .wild)
        | some h =>
          let d' := d.set b (.leaf h.fst) ++ [.leaf h.snd]
          let d'' := dxInsertBlock d' frame (h.hash2 + h.continued.toNat) newblock
          match env.calls .splitDirty with
          | some err => (d'', .err err)
          | none => (d'', .ok (if h.hash2 ≤ hash then newblock else b))

/-- `do_split` and the insertion at the last record of the half that gets the entry. -/
def splitAndAdd (e : DirEntry) (version : ℕ) (d : List DxBlock) (frame : ℕ × ℕ) (b : ℕ) : Outcome (List DxBlock) :=
  match doSplit sb env version (sb.dirhash version e.name) d frame b with
  | (_, .wild) => .wild
  | (d', .err err) => .ret d' (some err)
  | (d', .ok b') =>
    let r := addDirentToBuf sb.toSb env.calls e (some ((leafAt d' b').length - 1)) (leafAt d' b')
    .ret (d'.set b' (.leaf r.1)) r.2

/-! ### `ext4_dx_add_entry` -/

/-- An index block without room. -/
def full (d : List DxBlock) (frame : ℕ × ℕ) : Bool :=
  (nodeAt d frame.1).elim false fun x => x.limit ≤ x.entries.length

/-- Up from a frame as long as the block above has no room: the frame to split, those above it, and `restart`. -/
def climbFull (d : List DxBlock) : ℕ × ℕ → Path ℕ → Bool → (ℕ × ℕ) × Path ℕ × Bool
  | frame, [], restart => (frame, [], restart)
  | frame, p :: up, restart =>
    if full d p then climbFull d p up true else (frame, p :: up, restart)

/-- How the split of the index ends: the function returns, it starts again, or it goes on to `do_split`. -/
inductive IndexEnd where
  | done (d : List DxBlock) (r : Option Errno)
  | again (d : List DxBlock)
  | split (d : List DxBlock) (frame : ℕ × ℕ)

/-- An index block cut in two, with an entry for the second half in the block above. -/
def cutIndex (d : List DxBlock) (frame above : ℕ × ℕ) : List DxBlock :=
  match nodeAt d frame.1 with
  | none => d
  | some x =>
    let icount1 := x.entries.length / 2
    let hash2 := (x.entries[icount1]?).elim 0 DxEntry.hash
    dxInsertBlock
      (d.modify frame.1 (DxBlock.setNode { x with entries := x.entries.take icount1 })
        ++ [.node ⟨sb.dxNodeLimit, x.entries.drop icount1⟩])
      above hash2 d.length

/-- The root with a level put in below it. -/
def growIndex : List DxBlock → List DxBlock
  | .root dot dotdot info x :: rest =>
    let newblock := rest.length + 1
    .root dot dotdot { info with indirectLevels := info.indirectLevels + 1 }
        { x with entries := [⟨(x.entries.headD ⟨0, 0⟩).hash, newblock⟩] } ::
      rest ++ [.node ⟨sb.dxNodeLimit, x.entries⟩]
  | d => d

/-- `ext4_dx_add_entry` where the deepest index block is full. -/
def splitFull (d : List DxBlock) (frame : ℕ × ℕ) (up : Path ℕ) : IndexEnd :=
  let levels := up.length + 1
  match climbFull d frame up false with
  | (_, [], _) =>
    if levels = sb.htreeLevel then .done d (some ENOSPC)
    else
      match env.indexAppend with
      | some err => .done d (some err)
      | none =>
        match env.indexAccess with
        | some err => .done (d ++ [.node ⟨0, []⟩]) (some err)
        | none => env.indexDirty.elim (.again (growIndex sb d)) fun err => .done (growIndex sb d) (some err)
  | (frame', above :: _, restart) =>
    match env.indexAppend with
    | some err => .done d (some err)
    | none =>
      match env.indexAccess with
      | some err => .done (d ++ [.node ⟨0, []⟩]) (some err)
      | none =>
        let d' := cutIndex sb d frame' above
        let icount1 := (index d frame'.1).length / 2
        match env.indexDirty with
        | some err => .done d' (some err)
        | none =>
          if restart then .again d'
          else .split d' (if icount1 ≤ frame'.2 then (d.length, frame'.2 - icount1) else frame')

/-- How a pass of `ext4_dx_add_entry` ends: with the function, or at the label `again`. -/
inductive Pass where
  | ended (o : Outcome (List DxBlock))
  | again (d : List DxBlock)

/-- `ext4_dx_add_entry` where the leaf `b` has no room. -/
def addToFull (e : DirEntry) (d : List DxBlock) (r : Probe) (b : ℕ) : Pass :=
  if full d r.frame then
    match splitFull sb env d r.frame r.up with
    | .done d' err => .ended (.ret d' err)
    | .again d' => .again d'
    | .split d' frame => .ended (splitAndAdd sb env e r.version d' frame b)
  else .ended (splitAndAdd sb env e r.version d r.frame b)

/-- One pass of `ext4_dx_add_entry`. -/
def dxAddPass (e : DirEntry) (d : List DxBlock) : Pass :=
  match dxProbe sb env d fun version => sb.dirhash version e.name with
  | .error err => .ended (.ret d (some err))
  | .ok r =>
    let b := frameBlock d (r.frame :: r.up)
    match readLeaf env d b with
    | .error err => .ended (.ret d (some err))
    | .ok recs =>
      match env.calls .leafAccess with
      | some err => .ended (.ret d (some err))
      | none =>
        let added := addDirentToBuf sb.toSb env.calls e none recs
        let d' := d.set b (.leaf added.1)
        if added.2 = some ENOSPC then addToFull sb env e d' r b else .ended (.ret d' added.2)

/-- `ext4_dx_add_entry`; `envs` are the answers of the calls in each pass. -/
def ext4DxAddEntry (envs : ℕ → DxEnv) (e : DirEntry) : ℕ → ℕ → List DxBlock → Outcome (List DxBlock)
  | 0, _, _ => .running
  | fuel + 1, pass, d =>
    match dxAddPass sb (envs pass) e d with
    | .ended o => o
    | .again d' => ext4DxAddEntry envs e fuel (pass + 1) d'

/-! ### `make_indexed_dir` and `ext4_add_entry` -/

/-- The root that `make_indexed_dir` writes. -/
def newRoot (dot dotdot : DirEntry) : DxBlock :=
  .root dot { dotdot with recLen := sb.blocksize - ext4DirRecLen 2 } ⟨sb.defHashVersion, 8, 0, 0⟩
    ⟨sb.dxRootLimit 8, [⟨0, 1⟩]⟩

/-- The end of a function on an indexed directory as that of one on any. -/
def Outcome.indexed : Outcome (List DxBlock) → Outcome HDir
  | .ret d r => .ret (.indexed d) r
  | .wild => .wild
  | .running => .running

/-- `make_indexed_dir`: block 0 keeps `.` and `..`, the other records go to a new leaf, which is split. The record
`..` is taken to be at offset 12; where it is not, zeros are read there, and the rest of the block has been wiped when
that is noticed. -/
def makeIndexedDir (e : DirEntry) (d : Dir) : Outcome HDir :=
  match env.calls .rootAccess with
  | some err => .ret (.linear d) (some err)
  | none =>
    match d.block 0 with
    | dot :: dotdot :: rest =>
      let start := 12 + dotdot.recLen
      if dot.recLen ≠ 12 then
        match env.calls .rootAppend with
        | some err => .ret (.linear d) (some err)
        | none => .ret (.indexed [.leaf [dot], .leaf [wiped 0]]) (some EFSCORRUPTED)
      else if sb.blocksize ≤ start then .ret (.linear d) (some EFSCORRUPTED)
      else
        match env.calls .rootAppend with
        | some err => .ret (.linear d) (some err)
        | none =>
          if anyBad sb.toSb (sb.bufSize - start) 0 rest.dropLast then
            .ret (.indexed [.leaf [dot, dotdot], .leaf rest]) (some EFSCORRUPTED)
          else
            let d' := [newRoot sb dot dotdot, .leaf (stretch sb.bufSize 0 rest)]
            match env.calls .rootDirty with
            | some err => .ret (.indexed d') (some err)
            | none => (splitAndAdd sb env e (sb.hinfoVersion sb.defHashVersion) d' (0, 0) 1).indexed
    | recs =>
      match env.calls .rootAppend with
      | some err => .ret (.linear d) (some err)
      | none => .ret (.indexed [.leaf (recs.take 1), .leaf [wiped 0]]) (some EFSCORRUPTED)

/-- The records that a block holds when the directory is read without its index. -/
def DxBlock.records : DxBlock → DirBlock
  | .root dot dotdot _ _ => [dot, dotdot]
  | .node _ => [wiped sb.blocksize]
  | .leaf recs => recs

/-- `ext4_add_entry` without an index. -/
def linearAdd (dxFallback : Bool) (e : DirEntry) (d : Dir) : Outcome HDir :=
  match env.calls .readDirblock with
  | some err => .ret (.linear d) (some err)
  | none =>
    let r := addToBlocks sb.toSb env.calls e d.blocks
    let d' : Dir := { d with blocks := r.1 }
    if r.2 ≠ some ENOSPC then .ret (.linear d') r.2
    else if d.blocks.length = 1 ∧ dxFallback = false ∧ sb.dirIndex then makeIndexedDir sb env e d'
    else
      match env.calls .append with
      | some err => .ret (.linear d') (some err)
      | none =>
        let r' := addToNewBlock sb.toSb env.calls e
        .ret (.linear { d' with blocks := d'.blocks ++ [r'.1] }) r'.2

/-- `ext4_add_entry`, on a file system with `dir_index`. -/
def ext4AddEntry (envs : ℕ → DxEnv) (fuel : ℕ) (e : DirEntry) : HDir → Outcome HDir
  | .linear d => linearAdd sb (envs 0) false e d
  | .indexed d =>
    match ext4DxAddEntry sb envs e fuel 0 d with
    | .ret d' r =>
      if r = some ERR_BAD_DX_DIR then
        if sb.metadataCsum then .ret (.indexed d') (some EFSCORRUPTED)
        else
          let d'' : Dir := ⟨d'.map (DxBlock.records sb), false, 0⟩
          match (envs 0).calls .markIndexDirty with
          | some err => .ret (.linear d'') (some err)
          | none => linearAdd sb (envs 0) true e d''
      else .ret (.indexed d') r
    | .wild => .wild
    | .running => .running

/-- `__ext4_find_entry` of a name that is not `.` or `..`. -/
def ext4FindEntry (fuel : ℕ) (name : Name) : HDir → Option (Except Errno (Option (ℕ × ℕ)))
  | .linear d => some (.ok (linearFind sb.toSb name d).1)
  | .indexed d =>
    if 255 < name.length then some (.ok none)
    else
      match ext4DxFindEntry sb env fuel name d with
      | some (.error err) =>
        if err = ERR_BAD_DX_DIR then some (.ok (linearFind sb.toSb name ⟨d.map (DxBlock.records sb), false, 0⟩).1)
        else some (.error err)
      | r => r

/-- `ext4_delete_entry` of the record `k` of the block `b`. -/
def ext4DeleteEntry (b k : ℕ) : HDir → HDir × Option Errno
  | .linear d =>
    let r := Namespace.Entries.ext4DeleteEntry sb.toSb env.calls b k d
    (.linear r.1, r.2)
  | .indexed d =>
    match env.calls .deleteAccess with
    | some err => (.indexed d, some err)
    | none =>
      match ext4GenericDeleteEntry sb.toSb k (leafAt d b) with
      | .error err => (.indexed d, some err)
      | .ok x => (.indexed (d.set b (.leaf x)), env.calls .deleteDirty)

end LinuxEvfs.Htree.Model
