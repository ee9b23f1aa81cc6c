import StackScript.Text.Grapheme
import StackScript.Text.Measure
import StackScript.Text.WordChar
import StackScript.Token.Lexer

/-!
# StackScript.Shell.Input — which lines belong together

An input goes on to the next line while a bracket or a string is open, or while its last token asks
for more.  `needsMore` decides that, and `joinLines` makes inputs of lines.

The lines come from a line editor, which the program takes from a library.  `Typed`, `takeBack` and
`joinLines` stand for what that library does with a text that is not typed at a terminal: where an
input goes on, and how a backspace takes back a character.  No theorem is about them.
-/

namespace StackScript.Shell

open Text

/-- What a token adds to the number of open brackets. -/
def bracketDepth : Tag → Int
  | .leftBrace | .leftParen | .leftBracket => 1
  | .rightBrace | .rightParen | .rightBracket => -1
  | _ => 0

/-- A token that is no source text of its own. -/
def isLayout : Tag → Bool
  | .blank | .newline | .comment => true
  | _ => false

/-- An input cannot end with this. -/
def asksForMore : Tag → Bool
  | .factor | .term | .logic | .comparison | .power | .equals | .comma | .dot => true
  | _ => false

/-- An input is not complete: it has open brackets, an open string or an operator at its end. -/
def needsMore (input : String) : Bool :=
  let lexed := Lexer.standard.scanSource input
  match lexed.failure with
  | some _ =>
    let stop := (lexed.tokens.getLast?.map fun t => t.span.stop).getD 0
    match dropBytes stop input.toList with
    | c :: _ => c == '"' || c == '\''
    | [] => false
  | none =>
    decide (0 < lexed.tokens.foldr (fun t n => bracketDepth t.tag + n) 0)
      || (lexed.tokens.reverse.find? fun t => !isLayout t.tag).any fun t => asksForMore t.tag

/-- An input can be evaluated.  A command is always complete. -/
def isComplete (input : String) : Bool :=
  (input.toList.dropWhile isBlank).head? == some '.' || !needsMore input

/-- The lines of a text with the line breaks that end them, of which `line` begins the first. -/
def linesWithBreaks (line : List Char) : List Char → List (List Char)
  | [] => if line = [] then [] else [line]
  | c :: cs =>
    if c = '\n' then (line ++ [c]) :: linesWithBreaks [] cs else linesWithBreaks (line ++ [c]) cs

/-- A line and the line break that ends it. -/
def splitBreak (line : List Char) : List Char × List Char :=
  match line.reverse with
  | '\n' :: '\r' :: rest => (rest.reverse, ['\r', '\n'])
  | '\n' :: rest => (rest.reverse, ['\n'])
  | _ => (line, [])

/-- What stays of a text while it is gone through: the text, and the lengths in bytes of the
graphemes that can be taken back, the newest first. -/
structure Typed where
  text : List Char
  lengths : List Nat
deriving DecidableEq, Repr, Inhabited

namespace Typed

/-- The line editor keeps the length of a grapheme in a byte: from this number on lengths start again
at 0. -/
def lengthLimit : Nat := 256

/-- A backspace takes back the newest grapheme; another grapheme is added. -/
def add (t : Typed) (g : List Char) : Typed :=
  if g = ['\x08'] then
    match t.lengths with
    | [] => t
    | n :: lengths => ⟨takeBytes (byteLength t.text - n) t.text, lengths⟩
  else ⟨t.text ++ g, byteLength g % lengthLimit :: t.lengths⟩

end Typed

/-- The text that is left when each backspace takes back the grapheme before it. -/
def takeBack (cs : List Char) : List Char :=
  if cs.contains '\x08' then ((graphemes cs).foldl Typed.add ⟨[], []⟩).text else cs

/-- The input that the lines `pending` and one more make up, and the break that ends it. -/
def joinLine (pending line : List Char) : List Char × List Char :=
  let (text, ending) := splitBreak line
  (takeBack (pending ++ text), ending)

/-- The inputs that lines make up, after the lines `pending` of an input that is not complete.  One
that is still not complete at the end is dropped. -/
def joinLines (pending : List Char) : List (List Char) → List String
  | [] => []
  | line :: lines =>
    let (input, ending) := joinLine pending line
    let text := String.ofList input
    if isComplete text then text :: joinLines [] lines else joinLines (input ++ ending) lines

/-- The inputs of a text. -/
def inputsOf (text : String) : List String := joinLines [] (linesWithBreaks [] text.toList)

end StackScript.Shell
