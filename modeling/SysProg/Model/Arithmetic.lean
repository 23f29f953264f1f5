import Mathlib

/-! # Addition and subtraction with carry

`posix/c/arithmetic.c`. `uint64` and `uint8` are `UInt64` and `UInt8`, `uint128` is `BitVec 128`,
and `int` is `Int32`. -/

namespace SysProg.Arithmetic

/-- `CHECK_HIGHEST_BIT(x)` -/
def CHECK_HIGHEST_BIT (x : UInt64) : Int32 :=
  if x.toInt64 < 0 then 1 else 0

/-- `struct unsigned_result_with_carry` -/
structure UnsignedResultWithCarry where
  value : UInt64
  carry : UInt8
  deriving DecidableEq, Repr

def adc (x y : UInt64) (carry : UInt8) : UnsignedResultWithCarry :=
  let z := x + y + carry.toUInt64
  let xh := CHECK_HIGHEST_BIT x
  let yh := CHECK_HIGHEST_BIT y
  let zh := CHECK_HIGHEST_BIT z
  let cc := if zh ≠ 0 then xh &&& yh else xh ||| yh
  ⟨z, cc.toUInt32.toUInt8⟩

def sbb (x y : UInt64) (carry : UInt8) : UnsignedResultWithCarry :=
  let z := x - y - carry.toUInt64
  let xh := CHECK_HIGHEST_BIT x
  let yh := CHECK_HIGHEST_BIT y
  let zh := CHECK_HIGHEST_BIT z
  let cc := if xh ≠ 0 then yh &&& zh else yh ||| zh
  ⟨z, cc.toUInt32.toUInt8⟩

def add (x y : UInt64) : UnsignedResultWithCarry :=
  adc x y 0

def lower (x : BitVec 128) : UInt64 :=
  UInt64.ofBitVec (x.setWidth 64)

def upper (x : BitVec 128) : UInt64 :=
  UInt64.ofBitVec ((x >>> 64).setWidth 64)

def mul (x y : UInt64) : BitVec 128 :=
  x.toBitVec.setWidth 128 * y.toBitVec.setWidth 128

/-- `struct unsigned_divx_result` -/
structure UnsignedDivxResult where
  quotient : UInt64
  remainder : UInt64
  overflow : UInt8
  deriving DecidableEq, Repr

/-- A division by zero has no result. -/
def divx (x : BitVec 128) (y : UInt64) : Option UnsignedDivxResult :=
  if y = 0 then none
  else
    let q := x / y.toBitVec.setWidth 128
    let r := lower (x % y.toBitVec.setWidth 128)
    let ql := lower q
    let qu := upper q
    some ⟨ql, r, if qu ≠ 0 then 1 else 0⟩

end SysProg.Arithmetic
