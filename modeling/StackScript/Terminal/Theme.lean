import StackScript.Settings.Reading
import StackScript.Tag
import StackScript.Terminal.Color

/-!
# StackScript.Terminal.Theme — the colours of tokens

A theme gives a colour to each tag; a tag that it does not know stays plain.  The table `colors` of
the settings may change the colour of any tag of the standard theme.
-/

namespace StackScript

/-- Colours by the written form of a tag. -/
structure Theme where
  colors : Names Color
deriving Inhabited

namespace Theme

/-- The tags that have a colour, by groups. -/
def groups : List (List Tag × Color) :=
  [([.printWord, .whileWord, .ifWord, .elseIfWord, .elseWord, .varWord, .funcWord, .returnWord,
      .continueWord, .breakWord, .classWord, .extendsWord, .newWord], .magenta),
   ([.power, .factor, .term, .logic, .comparison, .negation, .tilde, .equals], .cyan),
   ([.leftBrace, .rightBrace, .leftParen, .rightParen, .leftBracket, .rightBracket], .yellow),
   ([.number], .yellow),
   ([.text], .green),
   ([.boolean, .null, .thisWord, .superWord], .blue),
   ([.comment], .brightBlack)]

/-- The theme without settings. -/
def standard : Theme := ⟨groups.flatMap fun g => g.1.map fun t => (t.toText, g.2)⟩

/-- The colour of a tag. -/
def color (theme : Theme) (tag : String) : Color := (theme.colors.find? tag).getD .plain

/-- The colour that a setting names.  A table names one if its only entry has that name and is
empty. -/
def colorOf? : Setting → Option Color
  | .text name => Color.ofName? name
  | .table _ [(name, .list [])] | .table _ [(name, .table _ [])] => Color.ofName? name
  | _ => none

/-- Changes the colour of a tag. -/
def change? (theme : Theme) (entry : String × Setting) : Option Theme :=
  (colorOf? entry.2).map fun c => ⟨theme.colors.put entry.1 c⟩

/-- The standard theme changed by settings; all colours that they name have to be known. -/
def ofSettings? (settings : Settings) : Option Theme :=
  match settings.find? "colors" with
  | none => some standard
  | some (.table _ entries) => entries.foldlM change? standard
  | some _ => none

/-- The standard theme changed by settings as text. -/
def ofText? (text : String) : Option Theme := (Settings.ofText? text).bind ofSettings?

end Theme

end StackScript
