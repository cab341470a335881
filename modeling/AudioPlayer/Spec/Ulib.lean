import AudioPlayer.Lib.Double
import AudioPlayer.Spec.Codec

/-!
# The user library (`user/ulib.c`)

The string functions the player uses, on C strings without their final NUL. `atoi`
wraps around, `atof` computes in double precision.
-/

namespace AudioPlayer

/-- `strrchr`: the end of the string from the last `c` on, `none` for the null pointer. -/
def strrchr (s : List Char) (c : Char) : Option (List Char) := go none s
where
  go (ret : Option (List Char)) : List Char → Option (List Char)
    | [] => ret
    | x :: xs => go (if x = c then some (x :: xs) else ret) xs

/-- The value of a digit character. -/
def digit (c : Char) : ℕ := c.toNat - '0'.toNat

def isDigit (c : Char) : Bool := '0' ≤ c && c ≤ '9'

/-- `atoi`. -/
def atoi (s : List Char) : ℤ := go 0 s
where
  go (n : ℤ) : List Char → ℤ
    | [] => n
    | c :: cs => if isDigit c then go (int32 (n * 10 + digit c)) cs else n

/-- The loop of `atof` before the point, with the string behind it. -/
def atofInt (n : ℚ) : List Char → ℚ × List Char
  | [] => (n, [])
  | c :: cs =>
    if isDigit c then
      atofInt (Double.sub (Double.add (Double.mul n 10) c.toNat) '0'.toNat) cs
    else (n, c :: cs)

/-- The loop of `atof` behind the point. -/
def atofFrac (n d : ℚ) : List Char → ℚ
  | [] => n
  | c :: cs =>
    if isDigit c then atofFrac (Double.add n (Double.div (digit c) d)) (Double.mul d 10) cs else n

/-- `atof`. -/
def atof (s : List Char) : ℚ :=
  let s := s.dropWhile (· = ' ')
  if !(s.head?.any isDigit) then 0
  else
    let (n, s) := atofInt 0 s
    let s := if s.head? = some '.' then s.tail else s
    atofFrac n 10 s

end AudioPlayer
