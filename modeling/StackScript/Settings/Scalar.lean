import StackScript.Double.Parts
import StackScript.Double.Reading
import StackScript.Settings.Text
import StackScript.Text.Measure

/-!
# StackScript.Settings.Scalar — numbers, booleans and dates of settings

A theme needs none of these values, but a file that holds them has to be well formed by the rules of
the TOML format.  Each function gives what follows a value of its kind at the start of a text.
-/

namespace StackScript.Settings

open StackScript.Text StackScript.Double

/-! ### Numbers -/

/-- A text without the sign at its start. -/
def skipSign : List Char → List Char
  | '+' :: cs => cs
  | '-' :: cs => cs
  | cs => cs

/-- What follows digits, between any two of which there may be an underscore. -/
def skipDigits (isDigit : Char → Bool) : List Char → List Char
  | '_' :: d :: cs => if isDigit d then skipDigits isDigit cs else '_' :: d :: cs
  | d :: cs => if isDigit d then skipDigits isDigit cs else d :: cs
  | [] => []

/-- What follows one or more digits. -/
def afterDigits? (isDigit : Char → Bool) : List Char → Option (List Char)
  | d :: cs => if isDigit d then some (skipDigits isDigit cs) else none
  | [] => none

/-- What follows an integer with a sign, which has no zero in front of other digits. -/
def afterInteger? (cs : List Char) : Option (List Char) :=
  match skipSign cs with
  | '0' :: rest => some rest
  | rest => afterDigits? Char.isDigit rest

/-- What follows an exponent. -/
def afterExponent? : List Char → Option (List Char)
  | 'e' :: cs => afterDigits? Char.isDigit (skipSign cs)
  | 'E' :: cs => afterDigits? Char.isDigit (skipSign cs)
  | _ => none

/-- The characters of a text before its rest, without underscores. -/
def plainBefore (cs rest : List Char) : List Char :=
  (cs.take (cs.length - rest.length)).filter (· != '_')

/-- What follows a number with a fraction, an exponent or both, which does not exceed all finite
numbers. -/
def afterFloat? (cs : List Char) : Option (List Char) :=
  let rest? := (afterInteger? cs).bind fun rest =>
    match rest with
    | '.' :: more =>
      (afterDigits? Char.isDigit more).map fun behind => (afterExponent? behind).getD behind
    | _ => afterExponent? rest
  rest?.filter fun rest =>
    (ofChars? (plainBefore cs rest)).any fun x => isNegative x || isFinite x

/-- What follows an infinite number or none. -/
def afterSpecial? (cs : List Char) : Option (List Char) :=
  (dropStart? ['i', 'n', 'f'] (skipSign cs)).orElse fun _ =>
    dropStart? ['n', 'a', 'n'] (skipSign cs)

/-- A digit to the base `b`. -/
def isDigitTo (b : Nat) (c : Char) : Bool := (hexDigit? c).any fun d => decide (d < b)

/-- The number that digits to the base `b` denote. -/
def valueTo (b : Nat) (ds : List Char) : Nat :=
  ds.foldl (fun n d => b * n + (hexDigit? d).getD 0) 0

/-- What follows an integer in digits to the base `b`, which fits a word. -/
def afterWordTo? (b : Nat) (cs : List Char) : Option (List Char) :=
  (afterDigits? (isDigitTo b) cs).filter fun rest =>
    fitsWord (Int.ofNat (valueTo b (plainBefore cs rest)))

/-- What follows an integer that fits a word. -/
def afterWord? : List Char → Option (List Char)
  | '0' :: 'x' :: cs => afterWordTo? 16 cs
  | '0' :: 'o' :: cs => afterWordTo? 8 cs
  | '0' :: 'b' :: cs => afterWordTo? 2 cs
  | cs =>
    (afterInteger? cs).filter fun rest => (integer? (plainBefore cs rest)).any fitsWord

/-! ### Dates -/

/-- The number of exactly `n` digits, and what follows them. -/
def digits? (n : Nat) (cs : List Char) : Option (Nat × List Char) :=
  if (cs.take n).length = n then (natural? (cs.take n)).map (·, cs.drop n) else none

/-- The number of two digits in a range, and what follows them. -/
def pair? (low high : Nat) (cs : List Char) : Option (Nat × List Char) :=
  (digits? 2 cs).filter fun p => decide (low ≤ p.1) && decide (p.1 ≤ high)

/-- What follows a character. -/
def after? (c : Char) (cs : List Char) : Option (List Char) := dropStart? [c] cs

/-- The length of a month. -/
def daysIn (year month : Nat) : Nat :=
  if month = 2 then
    if year % 4 = 0 ∧ (year % 100 ≠ 0 ∨ year % 400 = 0) then 29 else 28
  else if month = 4 ∨ month = 6 ∨ month = 9 ∨ month = 11 then 30
  else 31

/-- What follows a year, a month and a day. -/
def afterDate? (cs : List Char) : Option (List Char) := do
  let (year, cs) ← digits? 4 cs
  let (month, cs) ← pair? 1 12 (← after? '-' cs)
  let (_, cs) ← pair? 1 (daysIn year month) (← after? '-' cs)
  return cs

/-- What follows a time of day. -/
def afterTime? (cs : List Char) : Option (List Char) := do
  let (_, cs) ← pair? 0 23 cs
  let (_, cs) ← pair? 0 59 (← after? ':' cs)
  let (_, cs) ← pair? 0 60 (← after? ':' cs)
  match cs with
  | '.' :: d :: rest => return if d.isDigit then rest.dropWhile Char.isDigit else cs
  | _ => return cs

/-- What follows a distance from universal time. -/
def afterOffset? (cs : List Char) : Option (List Char) :=
  match cs with
  | 'Z' :: rest | 'z' :: rest => some rest
  | '+' :: rest | '-' :: rest => do
    let (_, rest) ← pair? 0 23 rest
    let (_, rest) ← pair? 0 59 (← after? ':' rest)
    return rest
  | _ => none

/-- What follows a date, a time or both. -/
def afterMoment? (cs : List Char) : Option (List Char) :=
  match afterDate? cs with
  | none => afterTime? cs
  | some rest =>
    match rest with
    | d :: time =>
      if d = 'T' ∨ d = 't' ∨ d = ' ' then
        match afterTime? time with
        | some behind => (afterOffset? behind).getD behind
        | none => rest
      else rest
    | [] => rest

/-! ### Scalars -/

/-- What follows a boolean. -/
def afterBoolean? (cs : List Char) : Option (List Char) :=
  (dropStart? "true".toList cs).orElse fun _ => dropStart? "false".toList cs

/-- What follows a number, a boolean or a date. -/
def afterScalar? (cs : List Char) : Option (List Char) :=
  [afterMoment?, afterFloat?, afterSpecial?, afterWord?, afterBoolean?].findSome? fun after =>
    after cs

end StackScript.Settings
