import StackScript.Text.Numeral

/-!
# StackScript.Settings.Text — lines, strings and keys of settings

Settings are written in lines.  Gaps of spaces and tabs separate what stands in a line, and `#`
begins a comment.  Strings in double quotes have escapes, strings in single quotes have none; three
quotes let a string go over several lines.  A key is a string in one line or a word.  All of this
is as the TOML format has it.
-/

namespace StackScript.Settings

open StackScript.Text

/-! ### Lines -/

/-- A space or a tab. -/
def isGap (c : Char) : Bool := c == ' ' || c == '\t'

/-- A text without the gap at its start. -/
def skipGap (cs : List Char) : List Char := cs.dropWhile isGap

/-- A character that comments and strings may hold: no control but the tab. -/
def isShown (c : Char) : Bool := c == '\t' || decide (0x20 ≤ c.toNat) && c != '\x7f'

/-- What follows a line break. -/
def lineBreak? : List Char → Option (List Char)
  | '\n' :: cs => some cs
  | '\r' :: '\n' :: cs => some cs
  | _ => none

/-- A text without the comment at its start. -/
def skipComment : List Char → List Char
  | '#' :: cs => cs.dropWhile isShown
  | cs => cs

/-- What follows the end of a line, before which there may be a comment. -/
def lineEnd? (cs : List Char) : Option (List Char) :=
  match skipComment (skipGap cs) with
  | [] => some []
  | rest => lineBreak? rest

/-- A text without the gaps and line breaks at its start; `skip` may leave out more before a line
break. -/
def skipLines (skip : List Char → List Char) : Nat → List Char → List Char
  | 0, cs => cs
  | fuel + 1, cs =>
    match lineBreak? (skip (skipGap cs)) with
    | some rest => skipLines skip fuel rest
    | none => skipGap cs

/-- A text without the gaps, line breaks and comments at its start. -/
def skipBlank (cs : List Char) : List Char := skipLines skipComment cs.length cs

/-! ### Strings -/

/-- The value of a hexadecimal digit. -/
def hexDigit? (c : Char) : Option Nat :=
  if c.isDigit then some (c.toNat - '0'.toNat)
  else if 'a' ≤ c ∧ c ≤ 'f' then some (c.toNat - 'a'.toNat + 10)
  else if 'A' ≤ c ∧ c ≤ 'F' then some (c.toNat - 'A'.toNat + 10)
  else none

/-- The character with the code point that hexadecimal digits denote. -/
def codePoint? (ds : List Char) : Option Char :=
  (ds.mapM hexDigit?).bind fun values =>
    let n := values.foldl (fun n d => 16 * n + d) 0
    if n.isValidChar then some (Char.ofNat n) else none

/-- The character that an escape stands for, after its backslash, and what follows it. -/
def escape? : List Char → Option (Char × List Char)
  | 'b' :: rest => some ('\x08', rest)
  | 't' :: rest => some ('\t', rest)
  | 'n' :: rest => some ('\n', rest)
  | 'f' :: rest => some ('\x0c', rest)
  | 'r' :: rest => some ('\r', rest)
  | '"' :: rest => some ('"', rest)
  | '\\' :: rest => some ('\\', rest)
  | 'u' :: a :: b :: c :: d :: rest => (codePoint? [a, b, c, d]).map (·, rest)
  | 'U' :: a :: b :: c :: d :: e :: f :: g :: h :: rest =>
    (codePoint? [a, b, c, d, e, f, g, h]).map (·, rest)
  | _ => none

/-- What follows a line break that an escape takes out, with all white space behind it. -/
def escapedBreak? (cs : List Char) : Option (List Char) :=
  (lineBreak? (skipGap cs)).map fun rest => skipLines id rest.length rest

/-- The quotes at the end of a string that still belong to it, and what follows the string.  Over
several lines it ends with three quotes, and up to two more may stand before them. -/
def closing? (quote : Char) (lines : Bool) (cs : List Char) : Option (List Char × List Char) :=
  let run := (cs.takeWhile (· == quote)).length
  if lines then
    if run < 3 then none
    else some (List.replicate (min 2 (run - 3)) quote, cs.drop (min 5 run))
  else if run = 0 then none
  else some ([], cs.drop 1)

/-- The rest of a string, of which `taken` was read, and what follows it. -/
def stringRest? (quote : Char) (lines : Bool) :
    Nat → List Char → List Char → Option (List Char × List Char)
  | 0, _, _ => none
  | fuel + 1, taken, cs =>
    match closing? quote lines cs, cs with
    | some (quotes, rest), _ => some (taken ++ quotes, rest)
    | none, [] => none
    | none, c :: rest =>
      if c = '\\' ∧ quote = '"' then
        match escape? rest with
        | some (e, rest) => stringRest? quote lines fuel (taken ++ [e]) rest
        | none =>
          if lines then (escapedBreak? rest).bind (stringRest? quote lines fuel taken) else none
      else if isShown c then stringRest? quote lines fuel (taken ++ [c]) rest
      else if lines then
        (lineBreak? (c :: rest)).bind (stringRest? quote lines fuel (taken ++ ['\n']))
      else none

/-- A string after its first quotes, and what follows it. -/
def stringAfter? (quote : Char) (lines : Bool) (cs : List Char) : Option (String × List Char) :=
  (stringRest? quote lines (cs.length + 1) [] cs).map fun p => (String.ofList p.1, p.2)

/-- A string and what follows it.  A line break right after three quotes is no part of it. -/
def string? : List Char → Option (String × List Char)
  | '"' :: '"' :: '"' :: cs => stringAfter? '"' true ((lineBreak? cs).getD cs)
  | '\'' :: '\'' :: '\'' :: cs => stringAfter? '\'' true ((lineBreak? cs).getD cs)
  | '"' :: cs => stringAfter? '"' false cs
  | '\'' :: cs => stringAfter? '\'' false cs
  | _ => none

/-! ### Keys -/

/-- A character of a key without quotes. -/
def isKeyChar (c : Char) : Bool := c.isAlphanum || c == '_' || c == '-'

/-- A part of a key and what follows it. -/
def keyPart? : List Char → Option (String × List Char)
  | '"' :: cs => stringAfter? '"' false cs
  | '\'' :: cs => stringAfter? '\'' false cs
  | cs =>
    match cs.takeWhile isKeyChar with
    | [] => none
    | part => some (String.ofList part, cs.dropWhile isKeyChar)

/-- A key has fewer parts than this. -/
def partLimit : Nat := 80

/-- The parts of a key with points between them, the last one apart, and what follows the key. -/
def keyFrom? : Nat → List String → List Char → Option ((List String × String) × List Char)
  | 0, _, _ => none
  | fuel + 1, parts, cs =>
    (keyPart? (skipGap cs)).bind fun (part, rest) =>
      match skipGap rest with
      | '.' :: more => keyFrom? fuel (parts ++ [part]) more
      | behind => some ((parts, part), behind)

/-- A key and what follows it. -/
def key? (cs : List Char) : Option ((List String × String) × List Char) :=
  keyFrom? (partLimit - 1) [] cs

end StackScript.Settings
