import LinuxEvfs.ExtTree.Split

/-! # `evfs_extent_move`

The model of `__evfs_extent_map` and of the loop around it, function by function. The calls that can
fail answer through an environment `Env`, one answer per call in the order they are made. A run that
does not return ends in one of three ways: `oops`, when `ext4_find_extent` fails (the error pointer
reaches `ext4_free_ext_path`, which follows it); `bug`, when a `BUG_ON` stops the kernel; and `stuck`,
when the fuel of the loop `while (!done)` is used up.

The extent status tree (`ext4_es_remove_extent`) is a cache of the mapping and is not modelled. -/

namespace LinuxEvfs.ExtMove.Model

open LinuxEvfs.Errno LinuxEvfs.Lib.Word LinuxEvfs.Lib.IndexTree
open LinuxEvfs.ExtTree.Basic LinuxEvfs.ExtTree.Tree LinuxEvfs.ExtTree.Split

/-- `struct ext4_evfs_ext`: fields of 32, 64 and 32 bits. -/
structure EvfsExt where
  logStart : ℕ
  phyStart : ℕ
  len : ℕ
  log_lt : logStart < 2 ^ 32
  phy_lt : phyStart < 2 ^ 64
  len_lt : len < 2 ^ 32
deriving DecidableEq

/-- Storing three values into the fields. -/
def EvfsExt.of (logStart phyStart len : ℕ) : EvfsExt where
  logStart := logStart % 2 ^ 32
  phyStart := phyStart % 2 ^ 64
  len := len % 2 ^ 32
  log_lt := Nat.mod_lt _ (by decide)
  phy_lt := Nat.mod_lt _ (by decide)
  len_lt := Nat.mod_lt _ (by decide)

/-- `memset(next, 0, sizeof(struct ext4_evfs_ext))`. -/
def EvfsExt.zero : EvfsExt := EvfsExt.of 0 0 0

/-- What the calls answer: `none` for success. The calls inside the loop are numbered. -/
structure Env where
  iget : Option Errno
  journalStart : Option Errno
  journalStop : Option Errno
  find : ℕ → Option Errno
  split : ℕ → SplitOut
  dirty : ℕ → Option Errno
  /-- `ext4_journal_extend` grants the credits. -/
  extend : ℕ → Bool

/-- The state inside the loop: the extent tree, and how many calls were made. -/
structure St where
  tree : ExtRoot
  calls : ℕ

/-- How a function ends. -/
inductive Outcome (α : Type) where
  | ret (a : α)
  | oops
  | bug
  | stuck

/-- How one pass of `while (!done)` ends: with the next `lblk` and `len`, or with `done`. -/
inductive Pass where
  | cont (st : St) (lblk len : ℕ)
  | done (st : St) (ret : ℤ) (curr next : EvfsExt)
  | oops
  | bug

/-- `int eof = 1`. -/
def eof : ℤ := 1

/-- The label `ret_jmp`: the cursor and the new range both move `jump` blocks ahead. -/
def retJmp (st : St) (curr : EvfsExt) (jump : ℕ) : Pass :=
  .done st 0 (EvfsExt.of curr.logStart curr.phyStart jump)
    (EvfsExt.of (add32 curr.logStart jump) (add64 curr.phyStart jump) (sub32 curr.len jump))

/-- A forced split at `x` of the extent found; the loop then looks it up again. -/
def splitPass (blocksize : ℕ) (env : Env) (curr : EvfsExt) (st : St) (lblk len x : ℕ) : Pass :=
  match ext4ForceSplitExtentAt blocksize (env.split st.calls) st.tree
      (ext4FindExtent st.tree lblk) x with
  | none => .bug
  | some (t, none) => .cont ⟨t, st.calls + 1⟩ lblk len
  | some (t, some err) => .done ⟨t, st.calls + 1⟩ err.ret curr EvfsExt.zero

/-- The physical start of the extent found is replaced; `set_next` moves the cursor behind it. -/
def storePass (env : Env) (curr : EvfsExt) (st : St) (ex : Extent) (lblk len : ℕ) : Pass :=
  let path := ext4FindExtent st.tree lblk
  let eEnd := add32 ex.eeBlock (ext4ExtGetActualLen ex)
  let phy := sub64 (add64 curr.phyStart lblk) curr.logStart
  let t := ext4ExtTryToMerge (env.extend st.calls) (updExt (ext4ExtStorePblock · phy) st.tree path) path
  let st' : St := ⟨t, st.calls + 1⟩
  match env.dirty st.calls with
  | some err => .done st' err.ret curr EvfsExt.zero
  | none =>
    let next :=
      if eEnd < add32 lblk curr.len then
        EvfsExt.of eEnd (add64 phy (ext4ExtGetActualLen ex))
          (sub32 (add32 curr.logStart curr.len) eEnd)
      else EvfsExt.zero
    .done st' 0 (EvfsExt.of lblk (ext4ExtPblock ex) len) next

/-- The pass behind the lookup, when the cursor is inside the extent found. -/
def insidePass (blocksize : ℕ) (env : Env) (curr : EvfsExt) (st : St) (ex : Extent)
    (lblk len : ℕ) : Pass :=
  let eEnd := add32 ex.eeBlock (ext4ExtGetActualLen ex)
  if add32 curr.logStart len ≤ lblk then .done st eof curr EvfsExt.zero
  else
    let len := sub32 (add32 curr.logStart len) lblk
    if ex.eeBlock < lblk then splitPass blocksize env curr st lblk len lblk
    else
      let len := if eEnd < add32 lblk len then sub32 eEnd lblk else len
      if add32 lblk len < eEnd then splitPass blocksize env curr st lblk len (add32 lblk len)
      else storePass env curr st ex lblk len

/-- One pass of the loop of `__evfs_extent_map`. -/
def mapPass (blocksize : ℕ) (env : Env) (curr : EvfsExt) (st : St) (lblk len : ℕ) : Pass :=
  match env.find st.calls with
  | some _ => .oops
  | none =>
    let path := ext4FindExtent st.tree lblk
    let st' : St := ⟨st.tree, st.calls + 1⟩
    match pExt st.tree path with
    | none => .done st' eof curr EvfsExt.zero
    | some ex =>
      let eEnd := add32 ex.eeBlock (ext4ExtGetActualLen ex)
      if lblk < ex.eeBlock then retJmp st' curr (sub32 ex.eeBlock lblk)
      else if eEnd ≤ lblk then
        let lblk := ext4ExtNextAllocatedBlock st.tree path
        if EXT_MAX_BLOCKS ≤ lblk then .done st' eof curr EvfsExt.zero
        else
          -- the jump is counted from the end of the extent found, not from the cursor
          let jump := sub32 lblk eEnd
          if 0 < jump then retJmp st' curr jump else .cont st' lblk len
      else insidePass blocksize env curr st' ex lblk len

/-- The loop of `__evfs_extent_map`. -/
def mapLoop (blocksize : ℕ) (env : Env) (curr : EvfsExt) :
    ℕ → St → ℕ → ℕ → Outcome (St × ℤ × EvfsExt × EvfsExt)
  | 0, _, _, _ => .stuck
  | fuel + 1, st, lblk, len =>
    match mapPass blocksize env curr st lblk len with
    | .cont st' lblk' len' => mapLoop blocksize env curr fuel st' lblk' len'
    | .done st' ret curr' next => .ret (st', ret, curr', next)
    | .oops => .oops
    | .bug => .bug

/-- `__evfs_extent_map`: the return value and the new contents of `curr` and `next`. -/
def evfsExtentMap (blocksize : ℕ) (env : Env) (fuel : ℕ) (curr : EvfsExt) (st : St) :
    Outcome (St × ℤ × EvfsExt × EvfsExt) :=
  mapLoop blocksize env curr fuel st curr.logStart curr.len

/-- The loop of `evfs_extent_move`, with the number of entries of `out.exts` still free. -/
def moveLoop (blocksize : ℕ) (env : Env) (fuel : ℕ) :
    ℕ → St → EvfsExt → Outcome (St × ℤ × List EvfsExt)
  | 0, st, _ => .ret (st, 0, [])
  | room + 1, st, curr =>
    if curr.len = 0 then .ret (st, 0, [])
    else
      match evfsExtentMap blocksize env fuel curr st with
      | .ret (st', err, curr', next) =>
        if err < 0 then .ret (st', err, [])
        else
          match moveLoop blocksize env fuel room st' next with
          | .ret (st'', ret, out) => .ret (st'', ret, curr' :: out)
          | .oops => .oops
          | .bug => .bug
          | .stuck => .stuck
      | .oops => .oops
      | .bug => .bug
      | .stuck => .stuck

/-- The part of the inode a move reads and writes; `iVersion` is the raw word. -/
structure Inode where
  tree : ExtRoot
  iVersion : ℕ

/-- `args->in` of a move on a given inode. -/
structure MvIn where
  expIver : ℕ
  ext : EvfsExt

def evfsIver (ino : Inode) : ℕ := ino.iVersion

/-- `evfs_extent_move`: the inode afterwards, the return value and `out.exts`. -/
def evfsExtentMove (blocksize : ℕ) (env : Env) (fuel : ℕ) (ino : Inode) (args : MvIn) :
    Outcome (Inode × ℤ × List EvfsExt) :=
  match env.iget with
  | some err => .ret (ino, err.ret, [])
  | none =>
    if evfsIver ino ≠ args.expIver then .ret (ino, EAGAIN.ret, [])
    else
      match env.journalStart with
      | some err => .ret (ino, err.ret, [])
      | none =>
        match moveLoop blocksize env fuel args.ext.len ⟨ino.tree, 0⟩ args.ext with
        | .ret (st, ret, out) =>
          .ret ({ ino with tree := st.tree }, env.journalStop.elim ret Errno.ret, out)
        | .oops => .oops
        | .bug => .bug
        | .stuck => .stuck

/-- What a move depends on of the file system: the block size, and the number of its blocks, which an
extent stores in 48 bits. -/
structure Super where
  blocksize : ℕ
  blocksCount : ℕ
  count_le : blocksCount ≤ 2 ^ 48

/-- An inode whose extents all lie in `i_data`. -/
def leafInode (es : List Extent) (iVersion : ℕ) : Inode where
  tree := ⟨0, ({ cap := ext4ExtSpaceRoot, entries := es } : Block Extent)⟩
  iVersion := iVersion

/-- An environment in which no call fails. -/
def allSucceed : Env where
  iget := none
  journalStart := none
  journalStop := none
  find := fun _ => none
  split := fun _ => .ok
  dirty := fun _ => none
  extend := fun _ => true

end LinuxEvfs.ExtMove.Model
