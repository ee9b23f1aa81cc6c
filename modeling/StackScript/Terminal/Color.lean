/-!
# StackScript.Terminal.Color — colours and emphasis on a terminal

A text is shown in a colour by an escape sequence before it and one after it, which takes the colour
away again.  Bold and dimmed text is marked in the same way.
-/

namespace StackScript

/-- A colour of the terminal, or none. -/
inductive Color where
  | plain | black | red | green | yellow | blue | magenta | cyan | white
  | brightBlack | brightRed | brightGreen | brightYellow | brightBlue | brightMagenta | brightCyan
  | brightWhite
deriving DecidableEq, Repr, Inhabited

/-- An escape sequence that sets one mode. -/
def escapeSequence (mode : Nat) : String := "\x1b[" ++ toString mode ++ "m"

namespace Color

/-- All colours with their names in settings. -/
def table : List (Color × String) :=
  [(plain, "plain"), (black, "black"), (red, "red"), (green, "green"), (yellow, "yellow"),
   (blue, "blue"), (magenta, "magenta"), (cyan, "cyan"), (white, "white"),
   (brightBlack, "bright_black"), (brightRed, "bright_red"), (brightGreen, "bright_green"),
   (brightYellow, "bright_yellow"), (brightBlue, "bright_blue"),
   (brightMagenta, "bright_magenta"), (brightCyan, "bright_cyan"),
   (brightWhite, "bright_white")]

/-- The name of a colour in settings. -/
def name (c : Color) : String := (table.lookup c).getD ""

/-- The colour with a name. -/
def ofName? (s : String) : Option Color := (table.find? fun p => p.2 == s).map Prod.fst

/-- The mode that sets a colour. -/
def mode? : Color → Option Nat
  | plain => none
  | black => some 30
  | red => some 31
  | green => some 32
  | yellow => some 33
  | blue => some 34
  | magenta => some 35
  | cyan => some 36
  | white => some 37
  | brightBlack => some 90
  | brightRed => some 91
  | brightGreen => some 92
  | brightYellow => some 93
  | brightBlue => some 94
  | brightMagenta => some 95
  | brightCyan => some 96
  | brightWhite => some 97

/-- A text in a colour. -/
def paint (c : Color) (s : String) : String :=
  match c.mode? with
  | none => s
  | some n => escapeSequence n ++ s ++ escapeSequence 39

end Color

/-- A text in bold. -/
def bold (s : String) : String := escapeSequence 1 ++ s ++ escapeSequence 0

/-- A text dimmed. -/
def dimmed (s : String) : String := escapeSequence 2 ++ s ++ escapeSequence 0

end StackScript
