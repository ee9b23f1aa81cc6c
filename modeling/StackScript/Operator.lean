/-!
# StackScript.Operator — the operators of expressions

The binary operators come in four classes of tokens besides `**`.  Within its class an operator is
known by the text of its token; a text that names no operator of the class stands for the last one
listed, which the lexer leaves as the only case.
-/

namespace StackScript

/-- A binary operator. -/
inductive BinaryOp where
  | add | sub | mul | div | mod | pow
  | equal | notEqual | greater | greaterEqual | less | lessEqual
  | and | or | bitAnd | bitOr | bitXor | shiftLeft | shiftRight
deriving DecidableEq, Repr, Inhabited

/-- A prefix operator. -/
inductive UnaryOp where
  | negative | not | bitNot
deriving DecidableEq, Repr, Inhabited

namespace BinaryOp

/-- The multiplying operator with a given text. -/
def factor (text : String) : BinaryOp :=
  if text = "*" then mul else if text = "%" then mod else div

/-- The adding operator with a given text. -/
def term (text : String) : BinaryOp := if text = "+" then add else sub

/-- The comparison with a given text. -/
def comparison (text : String) : BinaryOp :=
  if text = "==" then equal
  else if text = "!=" then notEqual
  else if text = ">" then greater
  else if text = "<" then less
  else if text = "<=" then lessEqual
  else greaterEqual

/-- The logical, bitwise or shift operator with a given text. -/
def logic (text : String) : BinaryOp :=
  if text = ">>" then shiftRight
  else if text = "<<" then shiftLeft
  else if text = "^" then bitXor
  else if text = "&" then bitAnd
  else if text = "and" || text = "&&" then and
  else if text = "or" || text = "||" then or
  else bitOr

/-- The spelling of an operator in source text. -/
def symbol : BinaryOp → String
  | add => "+" | sub => "-" | mul => "*" | div => "/" | mod => "%" | pow => "**"
  | equal => "==" | notEqual => "!=" | greater => ">" | greaterEqual => ">=" | less => "<"
  | lessEqual => "<=" | and => "and" | or => "or" | bitAnd => "&" | bitOr => "|" | bitXor => "^"
  | shiftLeft => "<<" | shiftRight => ">>"

end BinaryOp

namespace UnaryOp

/-- The spelling of an operator in source text. -/
def symbol : UnaryOp → String
  | negative => "-" | not => "!" | bitNot => "~"

end UnaryOp

end StackScript
