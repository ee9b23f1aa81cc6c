import StackScript.Text.Measure
import StackScript.Text.Numeral
import StackScript.Decimal

/-!
# StackScript.Double.Reading — doubles from text

`ofChars?` reads an optional sign and then `inf`, `infinity` or `nan` in any case, or digits with
at most one point among them and an optional exponent.  The value is the double nearest to the
number that the text denotes.
-/

namespace StackScript.Double

open Text

/-- The double nearest to `n * 10 ^ e`.  Far outside the range of doubles the answer is known
without computing the power. -/
def nearest (n : Nat) (e : Int) : Float :=
  if n = 0 then 0.0
  else
    let top := e + (digits n).length
    if top < -330 then 0.0
    else if 310 < top then 1.0 / 0.0
    else if 0 ≤ e then Float.ofScientific n false e.toNat
    else Float.ofScientific n true (-e).toNat

/-- Reads an exponent: nothing, or `e` and an integer. -/
private def exponent? : List Char → Option Int
  | [] => some 0
  | c :: cs => if c = 'e' || c = 'E' then integer? cs else none

/-- Reads digits, a point and more digits, one side of the point being enough, and an exponent. -/
private def unsigned? (cs : List Char) : Option Float :=
  let whole := cs.takeWhile Char.isDigit
  let afterWhole := cs.dropWhile Char.isDigit
  let fraction := match afterWhole with
    | '.' :: rest => rest.takeWhile Char.isDigit
    | _ => []
  let tail := match afterWhole with
    | '.' :: rest => rest.dropWhile Char.isDigit
    | rest => rest
  if whole.isEmpty && fraction.isEmpty then none
  else (exponent? tail).map fun e => nearest (value (whole ++ fraction)) (e - fraction.length)

/-- Reads a number or one of the three words. -/
private def magnitude? (cs : List Char) : Option Float :=
  let word := String.ofList (cs.map Char.toLower)
  if word = "inf" || word = "infinity" then some (1.0 / 0.0)
  else if word = "nan" then some (0.0 / 0.0)
  else unsigned? cs

/-- Reads a double. -/
def ofChars? : List Char → Option Float
  | '-' :: cs => (magnitude? cs).map fun x => -x
  | '+' :: cs => magnitude? cs
  | cs => magnitude? cs

/-- Reads a double. -/
def ofText? (s : String) : Option Float := ofChars? s.toList

end StackScript.Double

namespace StackScript.Decimal

/-- The nearest double. -/
def toDouble (d : Decimal) : Float :=
  let x := Double.nearest d.unscaled.natAbs (-(d.scale.toNat : Int))
  if d.unscaled < 0 then -x else x

/-- The nearest double, which is read from the text of the decimal, so that there has to be one. -/
def toDouble? (d : Decimal) : Option Float := if d.isPrintable then some d.toDouble else none

end StackScript.Decimal
