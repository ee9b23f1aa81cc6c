/-!
# StackScript.Double.Parts — what a double stands for, in exact numbers

Every finite double is a whole multiple of the smallest positive one, `2 ^ -1074`.  `units` gives
that multiple, `ofUnits` the double of a multiple that one stands for exactly, and `significand`
the pair `m, q` with value `m * 2 ^ q`.  Everything that must be exact is computed on these.
-/

namespace StackScript.Double

/-- The sign bit. -/
def isNegative (x : Float) : Bool := x.toBits >>> 63 == 1

/-- The exponent field, eleven bits. -/
def exponentField (x : Float) : Nat := ((x.toBits >>> 52) &&& 0x7ff).toNat

/-- The fraction field, fifty-two bits. -/
def fractionField (x : Float) : Nat := (x.toBits &&& 0xfffffffffffff).toNat

/-- The absolute value of a finite double as `m * 2 ^ q`. -/
def significand (x : Float) : Nat × Int :=
  if exponentField x = 0 then (fractionField x, -1074)
  else (1 <<< 52 + fractionField x, (exponentField x : Int) - 1075)

/-- The absolute value of a finite double in units of `2 ^ -1074`. -/
def units (x : Float) : Nat :=
  if exponentField x = 0 then fractionField x
  else (1 <<< 52 + fractionField x) <<< (exponentField x - 1)

/-- The double of `n` units, for an `n` that has at most 53 significant bits. -/
def ofUnits (negative : Bool) (n : Nat) : Float :=
  let magnitude : Nat :=
    if n < 1 <<< 52 then n
    else
      let e := n.log2 - 52
      (e + 1) <<< 52 + (n >>> e - 1 <<< 52)
  Float.ofBits ((if negative then (1 : UInt64) <<< 63 else 0) + magnitude.toUInt64)

/-- Neither infinite nor not-a-number. -/
def isFinite (x : Float) : Bool := exponentField x < 2047

end StackScript.Double
