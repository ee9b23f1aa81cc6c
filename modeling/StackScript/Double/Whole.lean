import StackScript.Double.Parts

/-!
# StackScript.Double.Whole — doubles as whole numbers

Truncation towards zero, the remainder of a division that truncates, and the two word types that
the machine passes through: signed 64-bit words for the bitwise operators, and counts for indices
and arities.  Values beyond a word go to its nearest end, and not-a-number goes to zero.
-/

namespace StackScript.Double

/-- The integer part of a finite double. -/
def truncate (x : Float) : Int :=
  let n : Nat := units x >>> 1074
  if isNegative x then -Int.ofNat n else Int.ofNat n

/-- `x` has no fractional part; infinities and not-a-number do not count as whole. -/
def isWhole (x : Float) : Bool := isFinite x && units x % 1 <<< 1074 == 0

/-- The signed 64-bit word of a double. -/
def toWord (x : Float) : Int64 :=
  if x.isNaN then 0
  else if !isFinite x then (if isNegative x then Int64.minValue else Int64.maxValue)
  else
    let i := truncate x
    if i < Int64.minValue.toInt then Int64.minValue
    else if Int64.maxValue.toInt < i then Int64.maxValue
    else Int64.ofInt i

/-- The double nearest to an integer. -/
def ofInt (i : Int) : Float :=
  if i < 0 then -(Float.ofScientific i.natAbs false 0) else Float.ofScientific i.natAbs false 0

/-- The double nearest to a signed word. -/
def ofWord (w : Int64) : Float := ofInt w.toInt

/-- The count that a double gives: zero below zero, at most the largest unsigned word. -/
def toCount (x : Float) : Nat :=
  if x.isNaN || isNegative x then 0
  else if !isFinite x then UInt64.size - 1
  else min (units x >>> 1074) (UInt64.size - 1)

/-- The remainder of the division of `x` by `y` that truncates: it has the sign of `x` and is
exact. -/
def remainder (x y : Float) : Float :=
  if x.isNaN || y.isNaN || !isFinite x || units y = 0 then 0.0 / 0.0
  else if !isFinite y then x
  else ofUnits (isNegative x) (units x % units y)

end StackScript.Double
