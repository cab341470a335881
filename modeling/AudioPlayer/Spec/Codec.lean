import Mathlib.Algebra.Group.Nat.Defs
import Mathlib.Algebra.Group.Int.Defs

/-!
# The codec (`kernel/pci.c`, `kernel/sound_card.c`)

The mixer registers of the AC'97 codec, at offset `namba`, and the system calls on the
sample rate and the volume. The registers are 16 bits wide and read back what was
written. Arithmetic on `int` wraps around.
-/

namespace AudioPlayer

/-- An `int` from the low 32 bits of a number. -/
def int32 (n : ℤ) : ℤ := (BitVec.ofInt 32 n).toInt

theorem int32_of_lt {n : ℕ} (h : n < 2 ^ 31) : int32 n = n := by
  unfold int32
  rw [BitVec.toInt_ofInt]
  exact Int.bmod_eq_of_le (by omega) (by omega)

theorem int32_neg {n : ℕ} (hlo : 2 ^ 31 ≤ n) (hhi : n < 2 ^ 32) : int32 n < 0 := by
  unfold int32
  rw [BitVec.toInt_ofInt, Int.bmod_def]
  omega

/-- `a / b` on `int`: it truncates, and RISC-V gives -1 for a division by zero. -/
def divInt (a b : ℤ) : ℤ := if b = 0 then -1 else int32 (a.tdiv b)

/-- The result of an operation on `int`, `none` where it overflows. -/
def checkInt (n : ℤ) : Option ℤ := if -2 ^ 31 ≤ n ∧ n < 2 ^ 31 then some n else none

/-- `a / b` on `int`, `none` where it is not defined. -/
def checkDiv (a b : ℤ) : Option ℤ := if b = 0 then none else checkInt (a.tdiv b)

/-- The registers of the codec: main volume (0x02), volume of the PCM output (0x18) and
the three rates (0x2c, 0x2e, 0x30). -/
structure Codec where
  mainVolume : ℕ
  volume : ℕ
  rate : ℕ
  surroundRate : ℕ
  lfeRate : ℕ

/-- `MAX_VOLUME`, an attenuation. -/
def maxVolume : ℤ := 0b00000

/-- `MIN_VOLUME`, an attenuation. -/
def minVolume : ℤ := 0b11111

/-- `MUTE_VOLUME`. -/
def muteVolume : ℕ := 0x8000

namespace Codec

/-- `set_sample_rate`. -/
def setSampleRate (c : Codec) (rate : ℕ) : Codec :=
  { c with rate := rate &&& 0xffff, surroundRate := rate &&& 0xffff, lfeRate := rate &&& 0xffff }

/-- `set_volume`. -/
def setVolume (c : Codec) (volume : ℕ) : Codec := { c with mainVolume := 0x0, volume := volume }

/-- `get_volume`. -/
def getVolume (c : Codec) : ℕ := c.volume

/-- `sys_setSampleRate`, with its return value. -/
def sysSetSampleRate (c : Codec) (rate : ℤ) : Codec × ℤ :=
  if rate < 0 then (c, -1) else (c.setSampleRate rate.toNat, 0)

/-- `sys_getVolume`. The product and the quotient are `int`s, the result is kept in a
`uint16`. -/
def sysGetVolume (c : Codec) (max : ℤ) : ℤ :=
  let volume := c.getVolume
  if volume ≥ muteVolume then 0
  else
    let volume : ℤ := (volume &&& 0b11111 : ℕ)
    divInt (int32 ((minVolume - volume) * max)) (minVolume - maxVolume) % 2 ^ 16

/-- `sys_setVolume`. -/
def sysSetVolume (c : Codec) (volume max : ℤ) : Codec :=
  if volume = 0 then c.setVolume muteVolume
  else
    let volume := int32 (minVolume - divInt (int32 (volume * (minVolume - maxVolume))) max)
    let volume := int32 (volume + int32 (volume * 2 ^ 8))
    c.setVolume (volume % 2 ^ 16).toNat

/-! The two calls again, `none` where an operation on `int` is not defined. `gcc` defines the left
shift of a negative number, which it multiplies by the power of two. -/

/-- `sys_getVolume` without undefined behaviour. -/
def checkGetVolume (c : Codec) (max : ℤ) : Option ℤ :=
  let volume := c.getVolume
  if volume ≥ muteVolume then some 0
  else
    let volume : ℤ := (volume &&& 0b11111 : ℕ)
    (checkInt ((minVolume - volume) * max)).bind fun product =>
      (checkDiv product (minVolume - maxVolume)).map fun volume => volume % 2 ^ 16

/-- `sys_setVolume` without undefined behaviour. -/
def checkSetVolume (c : Codec) (volume max : ℤ) : Option Codec :=
  if volume = 0 then some (c.setVolume muteVolume)
  else
    (checkInt (volume * (minVolume - maxVolume))).bind fun product =>
      (checkDiv product max).bind fun quotient =>
        (checkInt (minVolume - quotient)).bind fun volume =>
          (checkInt (volume * 2 ^ 8)).bind fun high =>
            (checkInt (volume + high)).map fun volume => c.setVolume (volume % 2 ^ 16).toNat

end Codec

end AudioPlayer
