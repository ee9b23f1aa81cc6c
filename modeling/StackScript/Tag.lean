/-!
# StackScript.Tag — the categories of tokens and of reduced spans

A tag says what a token is: layout, a literal, an operator, a bracket or a keyword as the lexer
found it, or a piece of syntax as the grammar put it together.  Lexical tags are written in capitals
and the results of the grammar in small letters, which is how listings of tags tell them apart.
`other` holds a tag that neither the lexer nor the grammar knows.
-/

namespace StackScript

/-- The category of a token. -/
inductive Tag where
  /-- one or more line breaks, with the blank lines between them -/
  | newline
  /-- spaces, tabs and carriage returns -/
  | blank
  /-- from two slashes to the end of the line -/
  | comment
  /-- a string literal -/
  | text
  /-- a number literal -/
  | number
  /-- `true` or `false` -/
  | boolean
  | null
  /-- a name that is no keyword -/
  | name
  /-- the operator `**` -/
  | power
  /-- `*`, `/` and `%` -/
  | factor
  /-- `+` and `-` -/
  | term
  /-- the logical, bitwise and shift operators -/
  | logic
  | comparison
  /-- `!` or `not` -/
  | negation
  | tilde
  /-- a single `=` -/
  | equals
  | semicolon
  | comma
  | colon
  | dot
  | leftBrace
  | rightBrace
  | leftParen
  | rightParen
  | leftBracket
  | rightBracket
  | printWord
  | whileWord
  | ifWord
  /-- `else` and `if` with white space between them -/
  | elseIfWord
  | elseWord
  | varWord
  | funcWord
  | returnWord
  | continueWord
  | breakWord
  | classWord
  | extendsWord
  | newWord
  | thisWord
  | superWord
  /-- anything that gives a value -/
  | expression
  /-- a statement, or several in sequence -/
  | program
  /-- the part of an assignment or declaration up to its `=` -/
  | assignmentHead
  /-- a call up to its opening parenthesis -/
  | callHead
  /-- an instantiation up to its opening parenthesis -/
  | newHead
  /-- a function declaration up to its opening brace -/
  | functionHead
  /-- a class declaration up to its opening brace -/
  | classHead
  | other (written : String)
deriving DecidableEq, Repr, Inhabited

namespace Tag

/-- The tags of the lexer and the grammar with their written forms. -/
def written : List (Tag × String) :=
  [(newline, "NEWLINE"), (blank, "IGNORE"), (comment, "COMMENT"), (text, "TXT"), (number, "NUM"),
   (boolean, "BOOL"), (null, "NULL"), (name, "ID"), (power, "EXPONENTIATION"), (factor, "OP1"),
   (term, "OP2"), (logic, "OP3"), (comparison, "COMP"), (negation, "NOT"), (tilde, "TILDE"),
   (equals, "SET"), (semicolon, "SEMICOLON"), (comma, "COMMA"), (colon, "COLON"), (dot, "DOT"),
   (leftBrace, "LEFT_BRACE"), (rightBrace, "RIGHT_BRACE"), (leftParen, "LEFT_PARENTHESIS"),
   (rightParen, "RIGHT_PARENTHESIS"), (leftBracket, "LEFT_BRACKET"),
   (rightBracket, "RIGHT_BRACKET"), (printWord, "PRINT"), (whileWord, "WHILE"), (ifWord, "IF"),
   (elseIfWord, "ELSEIF"), (elseWord, "ELSE"), (varWord, "VAR"), (funcWord, "FUNC"),
   (returnWord, "RETURN"), (continueWord, "CONTINUE"), (breakWord, "BREAK"),
   (classWord, "CLASS"), (extendsWord, "EXTENDS"), (newWord, "NEW"), (thisWord, "THIS"),
   (superWord, "SUPER"), (expression, "expression"), (program, "program"),
   (assignmentHead, "variable_set"), (callHead, "call_function"), (newHead, "new_instance"),
   (functionHead, "declare_function"), (classHead, "declare_class")]

/-- The written form of a tag. -/
def toText : Tag → String
  | other w => w
  | t => ((written.find? fun p => p.1 == t).map Prod.snd).getD ""

/-- The tag with a given written form. -/
def ofText (s : String) : Tag :=
  ((written.find? fun p => p.2 == s).map Prod.fst).getD (other s)

/-- The tag is of the lexer's kind: its written form has capitals and underscores only. -/
def isLexical (t : Tag) : Bool :=
  t.toText.toList.all fun c => c.isUpper || c == '_'

end Tag

end StackScript
