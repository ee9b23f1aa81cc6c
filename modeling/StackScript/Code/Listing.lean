import StackScript.Code.Instruction
import StackScript.Text.Quoted
import StackScript.Text.WordChar

/-!
# StackScript.Code.Listing — code as text

A listing has one instruction a line: the name of the opcode, and after a tab the operand, `null` if
the opcode takes one and has none.  An operand shows its kind in front: `BOOLtrue`, `NUM-3`,
`DEC2.5`, `TXTname`.  Line breaks, tabs and backslashes of a text follow a backslash, so that an
operand never ends its line early.  `Code.listing?` writes a listing and `Code.ofListing?` reads
one; blank lines are skipped.
-/

namespace StackScript

open Text

/-! ### Errors -/

/-- What is wrong with a line of a listing. -/
inductive ListingProblem where
  | unknownOpcode (name : String)
  | badBoolean (text : String)
  | badInteger (text : String)
  | badDecimal (text : String)
  | unknownOperand (text : String)
deriving DecidableEq, Repr, Inhabited

/-- A problem and the line it is on, counted from one. -/
structure ListingError where
  line : Nat
  problem : ListingProblem
deriving DecidableEq, Repr, Inhabited

/-- What is said of a problem. -/
def ListingProblem.message : ListingProblem → String
  | unknownOpcode name => "unknown opcode " ++ quoted name
  | badBoolean text => "bad boolean " ++ quoted text
  | badInteger text => "bad integer " ++ quoted text
  | badDecimal text => "bad decimal " ++ quoted text
  | unknownOperand text => "unknown operand " ++ quoted text

/-- What is said of a listing that cannot be read. -/
def ListingError.message (e : ListingError) : String :=
  "disassembly line " ++ toString e.line ++ ": " ++ e.problem.message

/-! ### Writing -/

/-- A character of a text operand. -/
def escapedChar (c : Char) : List Char :=
  if c = '\\' then ['\\', '\\']
  else if c = '\n' then ['\\', 'n']
  else if c = '\t' then ['\\', 't']
  else if c = '\r' then ['\\', 'r']
  else [c]

namespace Operand

/-- An operand as characters. -/
def chars : Operand → List Char
  | boolean true => ['B', 'O', 'O', 'L', 't', 'r', 'u', 'e']
  | boolean false => ['B', 'O', 'O', 'L', 'f', 'a', 'l', 's', 'e']
  | integer i => 'N' :: 'U' :: 'M' :: signedDigits i
  | decimal d => 'D' :: 'E' :: 'C' :: d.chars
  | text s => 'T' :: 'X' :: 'T' :: s.toList.flatMap escapedChar

/-- The operand can be written: a decimal has a text only up to a scale. -/
def isPrintable : Operand → Bool
  | decimal d => d.isPrintable
  | boolean _ | integer _ | text _ => true

/-- Writes an operand. -/
def text? (o : Operand) : Option String :=
  if o.isPrintable then some (String.ofList o.chars) else none

end Operand

namespace Instruction

/-- An instruction as characters. -/
def chars (i : Instruction) : List Char :=
  i.opcode.name.toList ++
    match i.operand with
    | some o => '\t' :: o.chars
    | none => if i.opcode.takesOperand then ['\t', 'n', 'u', 'l', 'l'] else []

end Instruction

namespace Code

/-- A listing as characters: each instruction ends its line. -/
def chars (c : Code) : List Char := c.flatMap fun i => i.chars ++ ['\n']

/-- Every operand can be written. -/
def isPrintable (c : Code) : Bool := c.all fun i => i.operand.all Operand.isPrintable

/-- Writes the listing of a sequence. -/
def listing? (c : Code) : Option String :=
  if c.isPrintable then some (String.ofList c.chars) else none

end Code

/-! ### Reading -/

/-- Resolves the escapes of a text operand; a backslash at the very end stands for itself. -/
def unescapeOperand : List Char → List Char
  | [] => []
  | ['\\'] => ['\\']
  | '\\' :: 'n' :: cs => '\n' :: unescapeOperand cs
  | '\\' :: 't' :: cs => '\t' :: unescapeOperand cs
  | '\\' :: 'r' :: cs => '\r' :: unescapeOperand cs
  | '\\' :: c :: cs => c :: unescapeOperand cs
  | c :: cs => c :: unescapeOperand cs

namespace Operand

/-- The integer of a listing, which has to fit a signed 64-bit word. -/
def word? (cs : List Char) : Option Int :=
  (integer? cs).filter fitsWord

/-- Reads an operand; `null` is none. -/
def ofChars? (cs : List Char) : Except ListingProblem (Option Operand) :=
  if cs = ['n', 'u', 'l', 'l'] then .ok none
  else
    match cs with
    | 'B' :: 'O' :: 'O' :: 'L' :: rest =>
      if rest = ['t', 'r', 'u', 'e'] then .ok (some (boolean true))
      else if rest = ['f', 'a', 'l', 's', 'e'] then .ok (some (boolean false))
      else .error (.badBoolean (String.ofList rest))
    | 'N' :: 'U' :: 'M' :: rest =>
      match word? rest with
      | some i => .ok (some (integer i))
      | none => .error (.badInteger (String.ofList rest))
    | 'D' :: 'E' :: 'C' :: rest =>
      match Decimal.ofChars? rest with
      | some d => .ok (some (decimal d))
      | none => .error (.badDecimal (String.ofList rest))
    | 'T' :: 'X' :: 'T' :: rest => .ok (some (text (String.ofList (unescapeOperand rest))))
    | _ => .error (.unknownOperand (String.ofList cs))

end Operand

namespace Instruction

/-- Reads an instruction: the name up to the first tab, and the operand after it. -/
def ofChars? (cs : List Char) : Except ListingProblem Instruction :=
  let (name, operand) :=
    match splitFirst (· == '\t') cs with
    | some (name, operand) => (name, some operand)
    | none => (cs, none)
  match Opcode.ofName? (String.ofList (trimBy isBlank name)) with
  | none => .error (.unknownOpcode (String.ofList name))
  | some opcode =>
    match operand with
    | none => .ok ⟨opcode, none⟩
    | some text => (Operand.ofChars? text).map fun o => ⟨opcode, o⟩

end Instruction

/-- A line without the carriage return that belongs to its line break. -/
def chompReturn (line : List Char) : List Char :=
  if line.getLast? = some '\r' then line.dropLast else line

/-- The lines of a text, of which `line` begins the first.  A line break ends a line, so that none
follows the last one. -/
def linesFrom (line : List Char) : List Char → List (List Char)
  | [] => if line = [] then [] else [line]
  | c :: cs =>
    if c = '\n' then chompReturn line :: linesFrom [] cs else linesFrom (line ++ [c]) cs

namespace Code

/-- Reads the lines of a listing, the first of them being line `number`. -/
def ofLines? (number : Nat) : List (List Char) → Except ListingError Code
  | [] => .ok []
  | line :: lines =>
    if line.all isBlank then ofLines? (number + 1) lines
    else
      match Instruction.ofChars? line with
      | .error problem => .error ⟨number, problem⟩
      | .ok i => (ofLines? (number + 1) lines).map (i :: ·)

/-- Reads a listing. -/
def ofListing? (s : String) : Except ListingError Code := ofLines? 1 (linesFrom [] s.toList)

end Code

end StackScript
