import StackScript.Diagnostic
import StackScript.Token
import StackScript.Token.Literal
import StackScript.Text.Measure
import StackScript.Text.WordChar

/-!
# StackScript.Token.Lexer — from source text to tokens

A lexer is an ordered list of recognizers.  At each place the first recognizer that consumes
anything gives the next token, so keywords stand before names and long operators before short ones.
`Lexer.scan` goes on as far as it can and returns the tokens found with the failure that stopped it;
`Lexer.tokenize` returns either all tokens or the failure.
-/

namespace StackScript

open Text

/-- How many characters at the start of a text belong to a token, if any. -/
abbrev Recognizer := List Char → Option Nat

namespace Recognizer

/-- No word character follows. -/
def atBoundary : List Char → Bool
  | [] => true
  | c :: _ => !isWordChar c

/-- The characters of `s`. -/
def symbol (s : String) : Recognizer := fun cs =>
  (dropStart? s.toList cs).map fun _ => s.toList.length

/-- The characters of `s`, and no word character after them. -/
def word (s : String) : Recognizer := fun cs =>
  (dropStart? s.toList cs).bind fun rest =>
    if atBoundary rest then some s.toList.length else none

/-- The first of several recognizers that matches. -/
def oneOf (rs : List Recognizer) : Recognizer := fun cs => rs.findSome? fun r => r cs

/-- As many characters of a class as there are, but at least one. -/
def run (p : Char → Bool) : Recognizer := fun cs =>
  match cs.takeWhile p with
  | [] => none
  | taken => some taken.length

/-- Two slashes and the rest of the line. -/
def comment : Recognizer := fun cs =>
  (dropStart? ['/', '/'] cs).map fun rest => 2 + (rest.takeWhile (· != '\n')).length

/-- Digits, and a point with more digits if they are there. -/
def numeral : Recognizer := fun cs =>
  match cs.takeWhile Char.isDigit with
  | [] => none
  | whole =>
    match cs.dropWhile Char.isDigit with
    | '.' :: rest =>
      match rest.takeWhile Char.isDigit with
      | [] => some whole.length
      | fraction => some (whole.length + 1 + fraction.length)
    | _ => some whole.length

/-- `else` and `if` with white space between them. -/
def elseIf : Recognizer := fun cs =>
  (dropStart? ['e', 'l', 's', 'e'] cs).bind fun rest =>
    match rest.takeWhile isBlank with
    | [] => none
    | gap => (word "if" (rest.dropWhile isBlank)).map fun n => 4 + gap.length + n

/-- A letter or underscore of ASCII, and more of these and digits after it. -/
def identifier : Recognizer
  | [] => none
  | c :: cs =>
    if c.isAlpha || c == '_' then some (1 + (cs.takeWhile isAsciiWord).length) else none

end Recognizer

/-- An ordered list of recognizers, each with the tag of what it recognizes. -/
abbrev Lexer := List (Tag × Recognizer)

/-- What a lexer made of a text: its tokens, and the failure that stopped it. -/
structure Lexed where
  tokens : List Token
  failure : Option Diagnostic
deriving Repr, Inhabited

namespace Lexer

open Recognizer

/-- The recognizers of the language. -/
def standard : Lexer :=
  [(.newline, Token.newlineRun?),
   (.text, Token.stringLiteral?),
   (.comment, comment),
   (.number, numeral),
   (.boolean, oneOf [word "true", word "false"]),
   (.null, word "null"),
   (.printWord, word "print"),
   (.semicolon, symbol ";"),
   (.power, symbol "**"),
   (.factor, oneOf [symbol "*", symbol "/", symbol "%"]),
   (.term, oneOf [symbol "-", symbol "+"]),
   (.logic, oneOf [symbol "||", symbol "&&", symbol "|", symbol "&", symbol "^", symbol ">>",
      symbol "<<", word "and", word "or"]),
   (.comparison, oneOf [symbol "!=", symbol "==", symbol "<=", symbol ">=", symbol "<",
      symbol ">"]),
   (.negation, oneOf [symbol "!", word "not"]),
   (.tilde, symbol "~"),
   (.equals, symbol "="),
   (.whileWord, word "while"),
   (.ifWord, word "if"),
   (.elseIfWord, elseIf),
   (.elseWord, word "else"),
   (.blank, run fun c => c == ' ' || c == '\t' || c == '\r'),
   (.leftBrace, symbol "\x7b"),
   (.rightBrace, symbol "\x7d"),
   (.leftParen, symbol "("),
   (.rightParen, symbol ")"),
   (.leftBracket, symbol "["),
   (.rightBracket, symbol "]"),
   (.colon, symbol ":"),
   (.dot, symbol "."),
   (.comma, symbol ","),
   (.varWord, word "var"),
   (.funcWord, word "func"),
   (.returnWord, word "return"),
   (.continueWord, word "continue"),
   (.breakWord, word "break"),
   (.classWord, word "class"),
   (.extendsWord, word "extends"),
   (.newWord, word "new"),
   (.thisWord, word "this"),
   (.superWord, word "super"),
   (.name, identifier)]

/-- The tag and length of the first token of a text: the first recognizer that makes progress. -/
def first? (lexer : Lexer) (cs : List Char) : Option (Tag × Nat) :=
  lexer.findSome? fun p =>
    match p.2 cs with
    | some (n + 1) => some (p.1, n + 1)
    | _ => none

theorem first?_pos {lexer : Lexer} {cs : List Char} {t : Tag} {n : Nat}
    (h : lexer.first? cs = some (t, n)) : 0 < n := by
  obtain ⟨p, _, hp⟩ := List.exists_of_findSome?_eq_some h
  split at hp
  · simp only [Option.some.injEq, Prod.mk.injEq] at hp
    omega
  · simp at hp

/-- Reads tokens from `cs`, which stands at byte `offset` on line `line` of the source. -/
def scan (lexer : Lexer) (offset line : Nat) (cs : List Char) : Lexed :=
  if _hcs : cs = [] then ⟨[], none⟩
  else
    match _h : lexer.first? cs with
    | none => ⟨[], some (.lexical line offset (String.ofList (cs.take 12)))⟩
    | some (tag, n) =>
      let text := cs.take n
      let stop := offset + byteLength text
      let rest := lexer.scan stop (line + text.count '\n') (cs.drop n)
      ⟨⟨tag, String.ofList text, line, ⟨offset, stop⟩⟩ :: rest.tokens, rest.failure⟩
termination_by cs.length
decreasing_by
  have := first?_pos _h
  have := List.length_pos_iff.2 _hcs
  simp only [List.length_drop]
  omega

/-- The tokens of a source up to the first failure, and that failure. -/
def scanSource (lexer : Lexer) (source : String) : Lexed := lexer.scan 0 1 source.toList

/-- All tokens of a source, or the failure that stopped the lexer. -/
def tokenize (lexer : Lexer) (source : String) : Except Diagnostic (List Token) :=
  let lexed := lexer.scanSource source
  match lexed.failure with
  | none => .ok lexed.tokens
  | some d => .error d

end Lexer

end StackScript
