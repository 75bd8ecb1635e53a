-- SUMMARY: Error numbers and return values that the modules of the library share.
import Mathlib.Tactic.Common

/-!
# Return values

Most calls return `TRUE`, or `FALSE` through `pth_error`, which sets `errno`. -/

namespace Pth

/-- The error numbers the modelled functions set or look for. -/
inductive Errno where
  | EINVAL
  | EPERM
  | ESRCH
  | EBUSY
  | EACCES
  | EDEADLK
  | EINTR
  | EIO
  | ENOMEM
  | EBADF
  | EAGAIN
  | EINPROGRESS
  | ENOENT
  | ETIMEDOUT
  | other (n : ℕ)
  deriving DecidableEq, Repr

/-- `TRUE`, or `FALSE` with an error number. -/
inductive Ret where
  | ok
  | error (e : Errno)
  deriving DecidableEq, Repr

end Pth
