/-!
# StackScript.Token.Literal — line breaks and string literals

The two kinds of token with rules of their own.  A run of line breaks takes in the blank lines
between them but leaves the indentation after the last break.  A string literal stands between two
equal quotes, single or double, and a backslash takes away the meaning of the character after it;
`unquote` gives the text that a literal denotes.
-/

namespace StackScript.Token

/-- Characters up to and including the last line break of the white space that `cs` begins with.
`seen` counts the characters before `cs`, `upTo` is the answer as far as they go. -/
def lastBreak (seen upTo : Nat) : List Char → Nat
  | '\n' :: cs => lastBreak (seen + 1) (seen + 1) cs
  | ' ' :: cs => lastBreak (seen + 1) upTo cs
  | '\t' :: cs => lastBreak (seen + 1) upTo cs
  | '\r' :: cs => lastBreak (seen + 1) upTo cs
  | _ => upTo

/-- Length of the run of line breaks that a text begins with. -/
def newlineRun? : List Char → Option Nat
  | '\n' :: cs => some (lastBreak 1 1 cs)
  | '\r' :: '\n' :: cs => some (lastBreak 2 2 cs)
  | _ => none

/-- Characters up to and including the next `quote` that no backslash escapes. -/
def closingQuote? (quote : Char) (escaped : Bool) : List Char → Option Nat
  | [] => none
  | c :: cs =>
    if escaped then (closingQuote? quote false cs).map (· + 1)
    else if c = '\\' then (closingQuote? quote true cs).map (· + 1)
    else if c = quote then some 1
    else (closingQuote? quote false cs).map (· + 1)

/-- Length of the string literal that a text begins with. -/
def stringLiteral? : List Char → Option Nat
  | [] => none
  | q :: cs => if q = '"' || q = '\'' then (closingQuote? q false cs).map (· + 1) else none

/-- The character that a backslash and `c` stand for. -/
def escapeOf (c : Char) : Char :=
  if c = 'n' then '\n'
  else if c = 't' then '\t'
  else if c = 'r' then '\r'
  else if c = '0' then '\x00'
  else c

/-- Resolves the escapes of a text; a backslash at the very end stands for itself. -/
def unescape : List Char → List Char
  | [] => []
  | ['\\'] => ['\\']
  | '\\' :: c :: cs => escapeOf c :: unescape cs
  | c :: cs => c :: unescape cs

/-- The text that a string literal denotes. -/
def unquote (literal : List Char) : List Char :=
  if 2 ≤ literal.length then unescape (literal.drop 1).dropLast else unescape literal

end StackScript.Token
