import StackScript.Text.Measure
import StackScript.Text.Numeral

/-!
# StackScript.Decimal — decimal numbers with every digit kept

A decimal is an integer over a power of ten: `12.50` is `1250` at scale `2`.  Number literals keep
all their digits this way, and so do the listings that carry them.  `Decimal.ofText?` reads a
literal.  `Decimal.text` is the decimal with all its digits, and `Decimal.text?` what the program
makes of it: digits are padded to a width, and a width has 16 bits.
-/

namespace StackScript

/-- The number `unscaled / 10 ^ scale`, with the scale it was written with. -/
structure Decimal where
  unscaled : Int
  /-- how many digits stand behind the point, in 32 bits -/
  scale : UInt32
deriving DecidableEq, Repr, Inhabited

namespace Decimal

open Text

/-- Reads digits, with a point and more digits if there is a fraction.  Of the number of these the
scale keeps the lowest 32 bits. -/
def ofUnsigned? (cs : List Char) : Option (Nat × UInt32) :=
  match splitFirst (· == '.') cs with
  | none => (natural? cs).map fun n => (n, 0)
  | some (whole, fraction) =>
    match natural? whole, natural? fraction with
    | some _, some _ => some (value (whole ++ fraction), .ofNat fraction.length)
    | _, _ => none

/-- Reads a decimal: an optional minus sign, digits, and a point with more digits if wanted. -/
def ofChars? : List Char → Option Decimal
  | '-' :: cs => (ofUnsigned? cs).map fun p => ⟨-Int.ofNat p.1, p.2⟩
  | cs => (ofUnsigned? cs).map fun p => ⟨Int.ofNat p.1, p.2⟩

/-- The digits of the absolute value, with the point and at least one digit before it, whatever the
scale. -/
def unsignedChars (d : Decimal) : List Char :=
  let ds := digits d.unscaled.natAbs
  if d.scale = 0 then ds
  else
    let padded := List.replicate (d.scale.toNat + 1 - ds.length) '0' ++ ds
    let point := padded.length - d.scale.toNat
    padded.take point ++ '.' :: padded.drop point

/-- The decimal as characters. -/
def chars (d : Decimal) : List Char :=
  if d.unscaled < 0 then '-' :: d.unsignedChars else d.unsignedChars

/-- Reads a decimal literal. -/
def ofText? (s : String) : Option Decimal := ofChars? s.toList

/-- The decimal with all digits of its scale, and no superfluous leading zero. -/
def text (d : Decimal) : String := String.ofList d.chars

/-- The width to which digits are padded, one more than the scale, has to fit 16 bits. -/
def isPrintable (d : Decimal) : Bool := decide (d.scale.toNat + 1 < UInt16.size)

/-- Writes a decimal.  For one that cannot be padded there is no text: the program crashes. -/
def text? (d : Decimal) : Option String := if d.isPrintable then some d.text else none

/-- No fractional digits were written. -/
def isInteger (d : Decimal) : Bool := d.scale == 0

/-- The value, if no fractional digits were written and it fits a signed 64-bit word. -/
def toWord? (d : Decimal) : Option Int :=
  if d.scale = 0 && fitsWord d.unscaled then some d.unscaled else none

/-- What is said of text that is no decimal. -/
def refusal (s : String) : String := "invalid decimal literal '" ++ s ++ "'"

end Decimal

end StackScript
