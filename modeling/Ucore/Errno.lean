import Mathlib.Tactic

/-!
# Kernel error codes

The codes of `libs/error.h` that the modelled code returns. A C function that answers `-E_FOO`
ends with `Outcome.error Errno.foo`.
-/

namespace Ucore

/-- The error codes of `libs/error.h` in use. -/
inductive Errno
  | badProc
  | inval
  | noMem
  | noFreeProc
  | killed
  | noDev
  | naDev
  | busy
  | noent
  | isDir
  | notDir
  | maxOpen
  | exists
  deriving DecidableEq, Repr

/-- The number behind a code. -/
def Errno.code : Errno → ℕ
  | .badProc => 2
  | .inval => 3
  | .noMem => 4
  | .noFreeProc => 5
  | .killed => 9
  | .noDev => 13
  | .naDev => 14
  | .busy => 15
  | .noent => 16
  | .isDir => 17
  | .notDir => 18
  | .maxOpen => 22
  | .exists => 23

end Ucore
