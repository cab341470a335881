import Mathlib.Data.Nat.Notation

/-!
# Open files (`kernel/param.h`)
-/

namespace AudioPlayer

/-- `NOFILE` of `kernel/param.h`. -/
def nofile : ℕ := 16

/-- `NFILE`. -/
abbrev nFile : ℕ := 100

/-- A `struct file`, which the source has a pointer to. -/
abbrev FilePtr := Fin nFile

end AudioPlayer
