import Mathlib.Data.Finset.Basic
import LinuxEvfs.Errno
import LinuxEvfs.Lib.Linear
import Mathlib.Algebra.Order.Ring.Nat

/-! # The bitmap tracker

The tracker is an array of slots; a slot holds one word of bits, or none as long as no bit of it was
used, and is guarded by a read-write semaphore. `evfs_bit_wrapper` takes the semaphore for reading and,
if the slot is empty, lets it go, takes it for writing, allocates the word, and goes back to reading.

* `Step`: any number of calls, interleaved at the operations on the semaphore, the tests of the slot, the
  allocation and the operation on the bit.
* `trackerObj`: what it is for, a set of numbers with insertion and removal.

The allocation of a word succeeds. A call that reaches for the bits of an empty slot is at `fault`. -/

namespace LinuxEvfs.Tracker

open LinuxEvfs.Errno Lib.Linear

/-! ### Geometry -/

/-- The width of `size_t` and of `unsigned long`. -/
inductive Arch where
  | w32
  | w64
deriving DecidableEq, Repr

/-- The bits of a slot: `EXT4_EVFS_GRP_BM_LEN` is 1. -/
def Arch.bitsPerBm : Arch → ℕ
  | .w32 => 32
  | .w64 => 64

variable (w : Arch) (n : ℕ)

/-- The slots `evfs_bm_tracker_init` makes for `n` bits, in the arithmetic of `size_t`. -/
def numBitmaps : ℕ := (n + w.bitsPerBm - 1) % 2 ^ w.bitsPerBm / w.bitsPerBm

/-! ### Operations on bits -/

inductive BitOp where
  | testAndSetBit
  | testAndClearBit
  | clearBit
deriving DecidableEq, Repr

/-- The bit afterwards, and what the call returns: `clear_bit` has no result. -/
def BitOp.apply : BitOp → Bool → Bool × ℤ
  | .testAndSetBit, b => (true, if b then 1 else 0)
  | .testAndClearBit, b => (false, if b then 1 else 0)
  | .clearBit, _ => (false, 0)

/-- An operation and the number of the bit. -/
structure Req where
  op : BitOp
  nr : ℕ
deriving DecidableEq, Repr

/-- `bitmap_num`. -/
def Req.slot (q : Req) : ℕ := q.nr / w.bitsPerBm

/-- `bit_offset`. -/
def Req.offset (q : Req) : ℕ := q.nr % w.bitsPerBm

/-! ### State -/

/-- A slot: its semaphore, its word, and the number of times `evfs_bm_alloc` was called for it. -/
structure Slot where
  readers : Finset ℕ
  writer : Option ℕ
  bitmap : Option (ℕ → Bool)
  allocs : ℕ

/-- Where a call of `evfs_bit_wrapper` is. -/
inductive Phase where
  | idle
  /-- Before the test of the number. -/
  | check (q : Req)
  | downRead (q : Req)
  /-- Reading; before the test of the slot. -/
  | test (q : Req)
  /-- Reading; the slot was empty. -/
  | upReadNull (q : Req)
  | downWrite (q : Req)
  /-- Writing; before the second test. -/
  | recheck (q : Req)
  /-- Writing; the slot was empty. -/
  | alloc (q : Req)
  /-- Writing. -/
  | downgrade (q : Req)
  /-- Reading; before the operation. -/
  | bitop (q : Req)
  /-- Reading; behind the operation. -/
  | upRead (q : Req) (ret : ℤ)
  | exit (q : Req) (ret : ℤ)
  | fault (q : Req)
  | returned

structure State where
  slots : ℕ → Slot
  phase : ℕ → Phase

/-- A slot and a call change. -/
def State.set (s : State) (k : ℕ) (slot : Slot) (i : ℕ) (ph : Phase) : State :=
  ⟨Function.update s.slots k slot, Function.update s.phase i ph⟩

/-- A call goes on. -/
def State.goto (s : State) (i : ℕ) (ph : Phase) : State :=
  { s with phase := Function.update s.phase i ph }

/-- The tracker `evfs_bm_tracker_init` makes. -/
def State.init : State := ⟨fun _ => ⟨∅, none, none, 0⟩, fun _ => .idle⟩

/-! ### Steps -/

variable {w n}

/-- One step of the call `i`. -/
inductive Step (w : Arch) (n : ℕ) : State → Option (Act Req ℤ) → State → Prop
  | call {s : State} {i : ℕ} {q : Req} (h : s.phase i = .idle) :
      Step w n s (some (.call i q)) (s.goto i (.check q))
  | einval {s : State} {i : ℕ} {q : Req} (h : s.phase i = .check q)
      (hb : numBitmaps w n ≤ q.slot w) : Step w n s none (s.goto i (.exit q EINVAL.ret))
  | enter {s : State} {i : ℕ} {q : Req} (h : s.phase i = .check q)
      (hb : q.slot w < numBitmaps w n) : Step w n s none (s.goto i (.downRead q))
  | downRead {s : State} {i : ℕ} {q : Req} {x : Slot} (h : s.phase i = .downRead q)
      (hx : s.slots (q.slot w) = x) (hw : x.writer = none) :
      Step w n s none (s.set (q.slot w) { x with readers := insert i x.readers } i (.test q))
  | present {s : State} {i : ℕ} {q : Req} (h : s.phase i = .test q)
      (hb : (s.slots (q.slot w)).bitmap ≠ none) : Step w n s none (s.goto i (.bitop q))
  | absent {s : State} {i : ℕ} {q : Req} (h : s.phase i = .test q)
      (hb : (s.slots (q.slot w)).bitmap = none) : Step w n s none (s.goto i (.upReadNull q))
  | upReadNull {s : State} {i : ℕ} {q : Req} {x : Slot} (h : s.phase i = .upReadNull q)
      (hx : s.slots (q.slot w) = x) :
      Step w n s none (s.set (q.slot w) { x with readers := x.readers.erase i } i (.downWrite q))
  | downWrite {s : State} {i : ℕ} {q : Req} {x : Slot} (h : s.phase i = .downWrite q)
      (hx : s.slots (q.slot w) = x) (hw : x.writer = none) (hr : x.readers = ∅) :
      Step w n s none (s.set (q.slot w) { x with writer := some i } i (.recheck q))
  | presentAgain {s : State} {i : ℕ} {q : Req} (h : s.phase i = .recheck q)
      (hb : (s.slots (q.slot w)).bitmap ≠ none) : Step w n s none (s.goto i (.downgrade q))
  | absentAgain {s : State} {i : ℕ} {q : Req} (h : s.phase i = .recheck q)
      (hb : (s.slots (q.slot w)).bitmap = none) : Step w n s none (s.goto i (.alloc q))
  | alloc {s : State} {i : ℕ} {q : Req} {x : Slot} (h : s.phase i = .alloc q)
      (hx : s.slots (q.slot w) = x) :
      Step w n s none (s.set (q.slot w)
        { x with bitmap := some fun _ => false, allocs := x.allocs + 1 } i (.downgrade q))
  | downgrade {s : State} {i : ℕ} {q : Req} {x : Slot} (h : s.phase i = .downgrade q)
      (hx : s.slots (q.slot w) = x) :
      Step w n s none
        (s.set (q.slot w) { x with writer := none, readers := insert i x.readers } i (.bitop q))
  | bitop {s : State} {i : ℕ} {q : Req} {x : Slot} {b : ℕ → Bool} (h : s.phase i = .bitop q)
      (hx : s.slots (q.slot w) = x) (hb : x.bitmap = some b) :
      Step w n s none (s.set (q.slot w)
        { x with bitmap := some (Function.update b (q.offset w) (q.op.apply (b (q.offset w))).1) } i
        (.upRead q (q.op.apply (b (q.offset w))).2))
  | fault {s : State} {i : ℕ} {q : Req} (h : s.phase i = .bitop q)
      (hb : (s.slots (q.slot w)).bitmap = none) : Step w n s none (s.goto i (.fault q))
  | upRead {s : State} {i : ℕ} {q : Req} {r : ℤ} {x : Slot} (h : s.phase i = .upRead q r)
      (hx : s.slots (q.slot w) = x) :
      Step w n s none (s.set (q.slot w) { x with readers := x.readers.erase i } i (.exit q r))
  | ret {s : State} {i : ℕ} {q : Req} {r : ℤ} (h : s.phase i = .exit q r) :
      Step w n s (some (.ret i r)) (s.goto i .returned)

/-! ### What the tracker is for -/

/-- A set of numbers; those without a slot are refused. -/
def trackerObj (w : Arch) (n : ℕ) : Obj (ℕ → Bool) Req ℤ where
  init := fun _ => false
  apply q s :=
    if numBitmaps w n ≤ q.slot w then (s, EINVAL.ret)
    else (Function.update s q.nr (q.op.apply (s q.nr)).1, (q.op.apply (s q.nr)).2)

/-- The numbers whose bit is set. -/
def State.contents (w : Arch) (s : State) (nr : ℕ) : Bool :=
  (s.slots (nr / w.bitsPerBm)).bitmap.elim false fun b => b (nr % w.bitsPerBm)

/-- `__evfs_inode_track`, from what the tracker returned. -/
def trackRet (ret : ℤ) : ℤ := if ret = 1 then EEXIST.ret else ret

/-- `__evfs_inode_untrack`, from what the tracker returned. -/
def untrackRet (ret : ℤ) : ℤ := if ret = 0 then ENOENT.ret else if ret = 1 then 0 else ret

end LinuxEvfs.Tracker
