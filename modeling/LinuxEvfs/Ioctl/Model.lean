import LinuxEvfs.ExtMove.Model
import LinuxEvfs.Lib.Bytes
import LinuxEvfs.Namespace.View

/-! # What `ext4_ioctl_evfs` copies to user space

The four commands with an output, byte by byte: `EXT4_EVFS_INO_READ`, `EXT4_EVFS_DEN_READ`,
`EXT4_EVFS_EXT_READ` and `EXT4_EVFS_EXT_MV`. The kernel memory they use is not cleared first: `Prior` is what
it holds before. Structures have the layout of a 64-bit machine, padding included.

Of user memory it matters whether the arguments can be read (`copyIn`) and how many bytes can be written
from the address on to which an output goes (`room`): `copy_to_user` writes up to the first byte that
cannot be, and fails there. -/

namespace LinuxEvfs.Ioctl.Model

open LinuxEvfs.Errno LinuxEvfs.Lib.Bytes LinuxEvfs.Lib.Word
open LinuxEvfs.ExtTree.Basic LinuxEvfs.ExtTree.Tree LinuxEvfs.ExtMove.Model
open LinuxEvfs.Namespace.Dir LinuxEvfs.Namespace.Block LinuxEvfs.Namespace.View

/-- Stack and heap memory before the call: `k_args.out`, the local `stat` of `evfs_inode_read`, the memory
that `kmalloc` returns (and what lies behind it), and the local `next` of `evfs_extent_move`. -/
structure Prior where
  kArgs : Buf
  stat : Buf
  heap : Buf
  next : Buf

/-- The value returned, and what each `copy_to_user` has written. -/
structure Reply where
  ret : ℤ
  toUser : List (List UInt8)
deriving DecidableEq

/-- `copy_to_user` of `size` bytes. -/
def copyToUser (room size : ℕ) (b : Buf) : List UInt8 := b.take (min room size)

/-! ### `EXT4_EVFS_INO_READ` -/

/-- The fields of an inode that `evfs_inode_read` reads. -/
structure Attr where
  dev : ℕ
  ino : ℕ
  mode : ℕ
  nlink : ℕ
  uid : ℕ
  gid : ℕ
  rdev : ℕ
  version : ℕ
  size : ℕ
  blksize : ℕ
  blocks : ℕ
  atime : ℕ
  atimeNsec : ℕ
  mtime : ℕ
  mtimeNsec : ℕ
  ctime : ℕ
  ctimeNsec : ℕ

/-- `S_ISBLK(mode) || S_ISCHR(mode)`. -/
def Attr.isDevice (a : Attr) : Bool := a.mode / 2 ^ 12 % 2 ^ 4 = 6 || a.mode / 2 ^ 12 % 2 ^ 4 = 2

/-- The assignments to the fields of `stat`. `__pad1` is at 60, `__unused4` and `__unused5` are at 120. -/
def statWrites (a : Attr) : List Write :=
  [⟨0, le 8 a.dev⟩, ⟨8, le 8 a.ino⟩, ⟨16, le 4 a.mode⟩, ⟨20, le 4 a.nlink⟩, ⟨24, le 4 a.uid⟩,
    ⟨28, le 4 a.gid⟩] ++
  (if a.isDevice then [⟨32, le 8 a.rdev⟩] else []) ++
  [⟨40, le 8 a.version⟩, ⟨48, le 8 a.size⟩, ⟨56, le 4 a.blksize⟩, ⟨64, le 8 a.blocks⟩,
    ⟨72, le 8 a.atime⟩, ⟨80, le 8 a.atimeNsec⟩, ⟨88, le 8 a.mtime⟩, ⟨96, le 8 a.mtimeNsec⟩,
    ⟨104, le 8 a.ctime⟩, ⟨112, le 8 a.ctimeNsec⟩]

/-- `sizeof(struct evfs_ino_read_out)`. -/
def INO_READ_SIZE : ℕ := 128

/-- The command, with what `ext4_iget` returns. -/
structure InoRead where
  copyIn : Bool
  room : ℕ
  iget : Except Errno Attr

/-- `evfs_inode_read`: the value returned, and `args->out`. -/
def evfsInodeRead (iget : Except Errno Attr) (m : Prior) : ℤ × Buf :=
  match iget with
  | .error err => (err.ret, m.kArgs)
  | .ok a => (0, m.kArgs.put 0 ((m.stat.puts (statWrites a)).take INO_READ_SIZE))

/-- The end of a command with one structure to copy. -/
def copyOut (room size : ℕ) (ret : ℤ) (out : Buf) : Reply :=
  ⟨if room < size then EFAULT.ret else ret, [copyToUser room size out]⟩

def InoRead.reply (a : InoRead) (m : Prior) : Option Reply :=
  if a.copyIn = false then some ⟨EFAULT.ret, []⟩
  else
    let r := evfsInodeRead a.iget m
    some (copyOut a.room INO_READ_SIZE r.1 r.2)

/-! ### `EXT4_EVFS_DEN_READ` -/

/-- `EXT4_FT_*`. -/
def ftCode : FileType → UInt8
  | .unknown => 0
  | .regFile => 1
  | .dir => 2
  | .chrdev => 3
  | .blkdev => 4
  | .fifo => 5
  | .sock => 6
  | .symlink => 7

/-- The assignments to `args->out`, for an entry that was found and for none. -/
def dentryWrites (x : DentryOut) : List Write :=
  if x.inoNum = 0 then [⟨0, le 8 0⟩, ⟨8, [0]⟩, ⟨9, [0]⟩, ⟨10, [0]⟩]
  else
    [⟨0, le 8 x.inoNum⟩, ⟨8, [ftCode x.fileType]⟩, ⟨9, [UInt8.ofNat x.name.length]⟩, ⟨10, x.name⟩,
      ⟨264, [0]⟩]

/-- The size of `args->out`: 265 bytes and 7 of padding. -/
def DEN_READ_SIZE : ℕ := 272

structure DenRead where
  copyIn : Bool
  room : ℕ
  sb : Sb
  calls : LinuxEvfs.Namespace.Model.Calls
  fs : LinuxEvfs.Namespace.Model.Fs
  dirInoNum : ℕ
  targetDentryIndex : ℕ

def DenRead.reply (a : DenRead) (m : Prior) : Option Reply :=
  if a.copyIn = false then some ⟨EFAULT.ret, []⟩
  else
    match evfsDentryRead a.sb a.calls a.fs a.dirInoNum a.targetDentryIndex with
    | .hang => none
    | .ret _ ret none => some (copyOut a.room DEN_READ_SIZE ret m.kArgs)
    | .ret _ ret (some x) => some (copyOut a.room DEN_READ_SIZE ret (m.kArgs.puts (dentryWrites x)))

/-! ### `EXT4_EVFS_EXT_READ` -/

/-- `sizeof(struct ext4_evfs_ext)`: fields at 0, 8 and 16, padding at 4 and 20. -/
def EXT_SIZE : ℕ := 24

/-- The assignments to the fields of an extent at `off`. -/
def extWrites (off logStart phyStart len : ℕ) : List Write :=
  [⟨off, le 4 logStart⟩, ⟨off + 8, le 8 phyStart⟩, ⟨off + 16, le 4 len⟩]

/-- What user memory allows, with the two copies to it. -/
structure Room where
  copyIn : Bool
  kmalloc : Bool
  num : ℕ
  exts : ℕ

/-- The loop of `evfs_extent_read`. The next block to look up is computed from the entry behind the one
just written. -/
def readLoop (find : ℕ → Option Errno) (t : ExtRoot) : ℕ → ℕ → ℕ → Buf → Buf × ℕ
  | 0, count, _, exts => (exts, count)
  | room + 1, count, block, exts =>
    match find count with
    | some _ => (exts, count)
    | none =>
      match pExt t (ext4FindExtent t block) with
      | none => (exts, count)
      | some ex =>
        if add32 ex.eeBlock (ext4ExtGetActualLen ex) ≤ block then (exts, count)
        else
          let exts := exts.puts
            (extWrites (EXT_SIZE * count) ex.eeBlock (ext4ExtPblock ex) (ext4ExtGetActualLen ex))
          let count := count + 1
          readLoop find t room count
            (add32 (exts.num (EXT_SIZE * count) 4) (exts.num (EXT_SIZE * count + 16) 4)) exts

structure ExtRead where
  user : Room
  iget : Option Errno
  find : ℕ → Option Errno
  tree : ExtRoot
  maxNumExts : ℕ

/-- `evfs_extent_read`: the value returned, `out.num_exts` (at 8 in `out`) and `out.exts`. -/
def evfsExtentRead (a : ExtRead) (m : Prior) : ℤ × Buf × Buf :=
  match a.iget with
  | some err => (err.ret, m.kArgs.from 8, m.heap)
  | none =>
    let r := readLoop a.find a.tree a.maxNumExts 0 0 m.heap
    (0, (m.kArgs.from 8).put 0 (le 4 r.2), r.1)

/-- The end of a command with an array to copy: its length first. -/
def copyExts (user : Room) (size : ℕ) (ret : ℤ) (num exts : Buf) : Reply :=
  if user.num < 4 then ⟨EFAULT.ret, [copyToUser user.num 4 num]⟩
  else
    ⟨if user.exts < size then EFAULT.ret else ret,
      [copyToUser user.num 4 num, copyToUser user.exts size exts]⟩

def ExtRead.reply (a : ExtRead) (m : Prior) : Option Reply :=
  if a.user.copyIn = false then some ⟨EFAULT.ret, []⟩
  else if a.user.kmalloc = false then some ⟨ENOMEM.ret, []⟩
  else
    let r := evfsExtentRead a m
    some (copyExts a.user (EXT_SIZE * a.maxNumExts) r.1 r.2.1 r.2.2)

/-! ### `EXT4_EVFS_EXT_MV` -/

/-- The command; `inExt` are the bytes of `in.ext` as the user has given them. -/
structure ExtMv where
  user : Room
  blocksize : ℕ
  env : Env
  ino : Inode
  args : MvIn
  inExt : Buf

/-- The move gets to its loop. -/
def ExtMv.enters (a : ExtMv) : Bool :=
  a.env.iget.isNone && evfsIver a.ino = a.args.expIver && a.env.journalStart.isNone

/-- An extent as it is copied into `out.exts`: fields written over the memory of `curr`, which is a copy of
`in.ext` first and of `next` later. -/
def extBytes (base : Buf) (e : EvfsExt) : List UInt8 :=
  (base.puts (extWrites 0 e.logStart e.phyStart e.len)).take EXT_SIZE

/-- The entries from the number `i` on. -/
def fillExts (inExt next : Buf) : ℕ → List EvfsExt → Buf → Buf
  | _, [], exts => exts
  | i, e :: out, exts =>
    fillExts inExt next (i + 1) out
      (exts.put (EXT_SIZE * i) (extBytes (if i = 0 then inExt else next) e))

/-- Three passes are enough for the loop of `__evfs_extent_map` on a well-formed tree. -/
def ExtMv.reply (a : ExtMv) (m : Prior) : Option Reply :=
  if a.user.copyIn = false then some ⟨EFAULT.ret, []⟩
  else if a.user.kmalloc = false then some ⟨ENOMEM.ret, []⟩
  else
    match evfsExtentMove a.blocksize a.env 3 a.ino a.args with
    | .ret (_, ret, out) =>
      let num := if a.enters then m.kArgs.put 0 (le 4 out.length) else m.kArgs
      some (copyExts a.user (EXT_SIZE * a.args.ext.len) ret num (fillExts a.inExt m.next 0 out m.heap))
    | _ => none

/-- The commands with an output. -/
inductive Cmd where
  | inoRead (a : InoRead)
  | denRead (a : DenRead)
  | extRead (a : ExtRead)
  | extMv (a : ExtMv)

/-- `ext4_ioctl_evfs`; `none` where it does not return. -/
def ext4IoctlEvfs : Cmd → Prior → Option Reply
  | .inoRead a => a.reply
  | .denRead a => a.reply
  | .extRead a => a.reply
  | .extMv a => a.reply

end LinuxEvfs.Ioctl.Model
