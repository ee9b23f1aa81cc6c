import StackScript.Double.Parts
import StackScript.Text.Numeral

/-!
# StackScript.Double.Shortest — the fewest digits that read back to a double

`shortest` picks, for a finite positive double, the decimal with the fewest digits in the interval
of reals that round to it; of two such decimals the nearer, of two equally near ones the greater.
`text` lays the digits out positionally, never with an exponent, and whole numbers without a point.
-/

namespace StackScript.Double

open Text

/-- A decimal `d * 10 ^ e`. -/
structure Digits where
  mantissa : Nat
  exponent : Int
deriving DecidableEq, Repr

/-- `n * base ^ e` over the power that a negative exponent puts below it. -/
private def scaled (n base : Nat) (e : Int) : Nat × Nat :=
  (n * base.pow e.toNat, base.pow (-e).toNat)

/-- `a * 10 ^ e ≤ b * 2 ^ q`, and strictly less if `strict`. -/
private def below (strict : Bool) (a : Nat) (e : Int) (b : Nat) (q : Int) : Bool :=
  let x := scaled a 10 e
  let y := scaled b 2 q
  if strict then decide (x.1 * y.2 < y.1 * x.2) else decide (x.1 * y.2 ≤ y.1 * x.2)

/-- `b * 2 ^ q ≤ a * 10 ^ e`, and strictly less if `strict`. -/
private def above (strict : Bool) (b : Nat) (q : Int) (a : Nat) (e : Int) : Bool :=
  let x := scaled a 10 e
  let y := scaled b 2 q
  if strict then decide (y.1 * x.2 < x.1 * y.2) else decide (y.1 * x.2 ≤ x.1 * y.2)

/-- The decimal `a * 10 ^ e` rounds to `m * 2 ^ q`: it lies between the halfway points to the two
neighbours, which count in if `m` is even.  Below a power of two the neighbour is half as far. -/
def readsBack (m : Nat) (q : Int) (a : Nat) (e : Int) : Bool :=
  let strict := m % 2 == 1
  let lower := if m = 1 <<< 52 && decide (-1074 < q) then 4 * m - 1 else 4 * m - 2
  above strict lower (q - 2) a e && below strict a e (4 * m + 2) (q - 2)

/-- The least `k`, searched upwards from `k₀`, with `m * 2 ^ q < 10 ^ k`. -/
private def scaleFrom (m : Nat) (q : Int) : Nat → Int → Int
  | 0, k => k
  | fuel + 1, k => if below false 1 k m q then scaleFrom m q fuel (k + 1) else k

/-- The decimal on the grid `10 ^ e` that is nearest to `m * 2 ^ q` of those that round to it; of
two that are equally near it is the greater. -/
private def onGrid (m : Nat) (q : Int) (e : Int) : Option Digits :=
  let v := scaled m 2 q
  let g := scaled 1 10 e
  let low := v.1 * g.2 / (v.2 * g.1)
  let nearLow := above true (2 * m) q (2 * low + 1) e
  match readsBack m q low e && 0 < low, readsBack m q (low + 1) e with
  | true, true => some ⟨if nearLow then low else low + 1, e⟩
  | true, false => some ⟨low, e⟩
  | false, true => some ⟨low + 1, e⟩
  | false, false => none

/-- Moves zeros at the end of the mantissa into the exponent. -/
private def strip : Nat → Digits → Digits
  | 0, d => d
  | fuel + 1, d =>
    if d.mantissa % 10 = 0 && 0 < d.mantissa then strip fuel ⟨d.mantissa / 10, d.exponent + 1⟩
    else d

/-- The shortest decimal of `m * 2 ^ q`, for `0 < m`. -/
def shortest (m : Nat) (q : Int) : Digits :=
  let start := (((m.log2 : Int) + q) * 30103) / 100000 - 1
  let k := scaleFrom m q 8 start
  let found := (List.range 17).findSome? fun n : Nat => onGrid m q (k - (n + 1 : Nat))
  match found with
  | some d => strip 20 d
  | none => strip 1100 (if 0 ≤ q then ⟨m <<< q.toNat, 0⟩ else ⟨m * Nat.pow 5 (-q).toNat, q⟩)

/-- Digits written positionally. -/
def positional (d : Digits) : List Char :=
  let ds := digits d.mantissa
  if 0 ≤ d.exponent then ds ++ List.replicate d.exponent.toNat '0'
  else
    let fraction := (-d.exponent).toNat
    if fraction < ds.length then
      ds.take (ds.length - fraction) ++ '.' :: ds.drop (ds.length - fraction)
    else '0' :: '.' :: List.replicate (fraction - ds.length) '0' ++ ds

/-- The text of a double: `NaN`, `inf` and `-inf`, else the shortest digits that read back. -/
def text (x : Float) : String :=
  if x.isNaN then "NaN"
  else
    let sign := if isNegative x then ['-'] else []
    let magnitude :=
      if !isFinite x then ['i', 'n', 'f']
      else if units x = 0 then ['0']
      else
        let p := significand x
        positional (shortest p.1 p.2)
    String.ofList (sign ++ magnitude)

end StackScript.Double
