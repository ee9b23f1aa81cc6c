import StackScript.Terminal.Theme
import StackScript.Text.Measure
import StackScript.Token.Lexer

/-!
# StackScript.Terminal.Highlight — source lines in colours

Each token of a line is shown in the colour of its tag, behind what stands between it and the token
before.  Where no token begins, the rest of the line is red.  Without the escape sequences the line
is what it was.

How a text gets a colour is up to the terminal: `paint` stands for it, and `Color.paint` is what the
shell takes.
-/

namespace StackScript.Theme

/-- A token in its colour; one without a colour is left as it is. -/
def paintToken (paint : Color → String → String) (theme : Theme) (t : Token) : String :=
  let color := theme.color t.tag.toText
  if color = .plain then t.text else paint color t.text

/-- The line from the byte `shown` on: the tokens that are left, each in its colour behind what
stands before it, and the text behind the last one, in red if the lexer failed there. -/
def highlightFrom (paint : Color → String → String) (theme : Theme) (line : List Char)
    (failed : Bool) (shown : Nat) : List Token → String
  | [] =>
    let rest := String.ofList (Text.dropBytes shown line)
    if failed then paint .red rest else rest
  | t :: ts =>
    let before := Text.takeBytes (t.span.start - shown) (Text.dropBytes shown line)
    String.ofList before ++ theme.paintToken paint t ++
      highlightFrom paint theme line failed t.span.stop ts

/-- A line in the colours of a terminal. -/
def highlightWith (paint : Color → String → String) (theme : Theme) (line : String) : String :=
  let lexed := Lexer.standard.scanSource line
  highlightFrom paint theme line.toList lexed.failure.isSome 0 lexed.tokens

/-- A line in colours. -/
def highlight (theme : Theme) (line : String) : String := theme.highlightWith Color.paint line

/-- An input of the shell in colours; one that begins with a point is a command. -/
def highlightInput (theme : Theme) (input : String) : String :=
  if (input.toList.dropWhile Text.isBlank).head? = some '.' then Color.magenta.paint input
  else theme.highlight input

end StackScript.Theme
