import SysProg.Model.Transmission

/-! # Numbers as text

The functions of the standard library with which the programs read and print an `int`:
`atoi`, `sprintf` with `%12d`, and `fgets`. An `int` has 32 bits. -/

namespace SysProg.Transmission

/-- The conversion to `int`. -/
def int32 (n : ℤ) : ℤ :=
  n.bmod (2 ^ 32)

/-- The string that a block of memory holds: the bytes before the first NUL byte. -/
def cString (block : List (Option UInt8)) : Bytes :=
  (block.takeWhile fun b => b != some 0).reduceOption

def isspace (b : UInt8) : Bool :=
  b == 32 || 9 ≤ b && b ≤ 13

def isdigit (b : UInt8) : Bool :=
  48 ≤ b && b ≤ 57

def digitsValue (digits : Bytes) : ℕ :=
  digits.foldl (fun n b => 10 * n + (b.toNat - 48)) 0

/-- `strtol(str, NULL, 10)`: a number out of range is replaced by the closest `long`. -/
def strtol (str : Bytes) : ℤ :=
  match str.dropWhile isspace with
  | 45 :: str => max (-(2 ^ 63)) (-(digitsValue (str.takeWhile isdigit) : ℤ))
  | 43 :: str => min (2 ^ 63 - 1) (digitsValue (str.takeWhile isdigit) : ℤ)
  | str => min (2 ^ 63 - 1) (digitsValue (str.takeWhile isdigit) : ℤ)

def atoi (str : Bytes) : ℤ :=
  int32 (strtol str)

def decimal (n : ℕ) : Bytes :=
  if n = 0 then [48] else (Nat.digits 10 n).reverse.map fun d => UInt8.ofNat (48 + d)

/-- What `%d` prints. -/
def formatInt (n : ℤ) : Bytes :=
  if n < 0 then 45 :: decimal n.natAbs else decimal n.natAbs

/-- What `%12d` prints: blanks on the left make up for missing characters. -/
def format12d (n : ℤ) : Bytes :=
  List.replicate (12 - (formatInt n).length) 32 ++ formatInt n

/-- The line that `fgets` stores, without the NUL byte, and the input it leaves. -/
def fgets : ℕ → Bytes → Bytes × Bytes
  | 0, stdin => ([], stdin)
  | 1, stdin => ([], stdin)
  | _ + 2, [] => ([], [])
  | size + 2, b :: stdin =>
      if b = 10 then ([b], stdin)
      else (b :: (fgets (size + 1) stdin).1, (fgets (size + 1) stdin).2)

end SysProg.Transmission
