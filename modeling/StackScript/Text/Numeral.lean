/-!
# StackScript.Text.Numeral — whole numbers as decimal text

`digits` writes a natural number, `value` reads a run of digits.  `natural?` and `integer?` read a
whole text: one or more ASCII digits, for integers after an optional sign.
-/

namespace StackScript.Text

/-- The decimal digits of `n`, most significant first. -/
def digits (n : Nat) : List Char := Nat.toDigits 10 n

/-- The number that a run of digits denotes. -/
def value (ds : List Char) : Nat :=
  ds.foldl (fun n d => 10 * n + (d.toNat - '0'.toNat)) 0

/-- The number written by a nonempty run of ASCII digits. -/
def natural? (cs : List Char) : Option Nat :=
  if !cs.isEmpty && cs.all Char.isDigit then some (value cs) else none

/-- The number written by ASCII digits after an optional `+` or `-`. -/
def integer? : List Char → Option Int
  | '+' :: ds => (natural? ds).map Int.ofNat
  | '-' :: ds => (natural? ds).map fun n => -Int.ofNat n
  | ds => (natural? ds).map Int.ofNat

/-- The integer fits a signed 64-bit word. -/
def fitsWord (i : Int) : Bool :=
  decide (Int64.minValue.toInt ≤ i) && decide (i ≤ Int64.maxValue.toInt)

/-- The decimal digits of an integer after its sign, which only negative numbers have. -/
def signedDigits (i : Int) : List Char :=
  if i < 0 then '-' :: digits i.natAbs else digits i.natAbs

/-- Lower case hexadecimal digits of `n`. -/
def hexDigits (n : Nat) : List Char := Nat.toDigits 16 n

/-- `n` in sixteen hexadecimal digits. -/
def hexWord (n : UInt64) : List Char :=
  let ds := hexDigits n.toNat
  List.replicate (16 - ds.length) '0' ++ ds

end StackScript.Text
