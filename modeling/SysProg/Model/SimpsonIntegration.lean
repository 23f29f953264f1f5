import SysProg.Model.Text

/-! # Simpson integration

`akka/scala/SimpsonIntegration.scala`, with exact rationals for `Double`. `Int` has 32 bits. -/

namespace SysProg.SimpsonIntegration

open Transmission

/-- `first to last` -/
def rangeTo (first last : ℤ) : List ℤ :=
  (List.range (last + 1 - first).toNat).map fun k : ℕ => first + k

/-- `integrate` of the class; the variable `sum` goes through the turns of `foreach`. -/
def integrate (f : ℚ → ℚ) (A B : ℚ) (n : ℤ) : ℚ :=
  let len := B - A
  let step := len / int32 (2 * n)
  let step3 := step / 3
  (rangeTo 0 (int32 (n - 1))).foldl (fun sum i =>
    let x0 := A + int32 (2 * i) * step
    let x1 := x0 + step
    let x2 := x1 + step
    let y0 := f x0
    let y1 := f x1
    let y2 := f x2
    sum + step3 * (y0 + 4 * y1 + y2)) 0

end SysProg.SimpsonIntegration
