import Mathlib.Data.Int.Notation
import Mathlib.Tactic.Common

/-! # Error numbers

A failing kernel call returns a negative number, the error number with its sign changed. An `Errno`
is such a number and carries the fact that it is not zero, so an error is never taken for success. -/

namespace LinuxEvfs.Errno

/-- A kernel error number. -/
structure Errno where
  code : ℕ
  pos : 0 < code
deriving DecidableEq, Repr

def EPERM : Errno := ⟨1, by decide⟩
def ENOENT : Errno := ⟨2, by decide⟩
def EIO : Errno := ⟨5, by decide⟩
def EAGAIN : Errno := ⟨11, by decide⟩
def ENOMEM : Errno := ⟨12, by decide⟩
def EFAULT : Errno := ⟨14, by decide⟩
def EBUSY : Errno := ⟨16, by decide⟩
def EEXIST : Errno := ⟨17, by decide⟩
def ENOTDIR : Errno := ⟨20, by decide⟩
def EINVAL : Errno := ⟨22, by decide⟩
def ENOSPC : Errno := ⟨28, by decide⟩
def EMLINK : Errno := ⟨31, by decide⟩
def ESTALE : Errno := ⟨116, by decide⟩
/-- `EFSCORRUPTED` is `EUCLEAN`. -/
def EFSCORRUPTED : Errno := ⟨117, by decide⟩
def EDQUOT : Errno := ⟨122, by decide⟩
def ERESTARTSYS : Errno := ⟨512, by decide⟩

/-- The value a function returns for the error. -/
def Errno.ret (e : Errno) : ℤ := -e.code

theorem Errno.ret_neg (e : Errno) : e.ret < 0 := by
  have := e.pos
  unfold Errno.ret
  omega

theorem Errno.ret_ne_zero (e : Errno) : e.ret ≠ 0 := Int.ne_of_lt e.ret_neg

end LinuxEvfs.Errno
