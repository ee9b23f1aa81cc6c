import StackScript.Text.Numeral
import StackScript.Text.Printable

/-!
# StackScript.Text.Quoted — text between double quotes

`quoted` writes a text so that each of its characters can be told: the quote and the backslash
follow a backslash, four controls have a letter, and every other character that is not printable
stands as its code point in braces.  Lists show their strings this way, and messages the input
that they complain of.
-/

namespace StackScript.Text

/-- A character as it stands between double quotes. -/
def quotedChar (c : Char) : List Char :=
  if c = '\x00' then ['\\', '0']
  else if c = '\t' then ['\\', 't']
  else if c = '\r' then ['\\', 'r']
  else if c = '\n' then ['\\', 'n']
  else if c = '"' then ['\\', '"']
  else if c = '\\' then ['\\', '\\']
  else if isPrintable c then [c]
  else ['\\', 'u', '\x7b'] ++ hexDigits c.toNat ++ ['\x7d']

/-- A text between double quotes. -/
def quoted (s : String) : String :=
  String.ofList ('"' :: s.toList.flatMap quotedChar ++ ['"'])

end StackScript.Text
