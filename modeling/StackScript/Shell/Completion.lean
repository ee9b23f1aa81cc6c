import StackScript.Shell.Command
import StackScript.Terminal.Color
import StackScript.Text.Measure
import StackScript.Text.WordChar

/-!
# StackScript.Shell.Completion — words offered while a line is typed

The word before the cursor begins one byte after the last character that cannot be part of a word.
If that character takes more than one byte, the word begins within it, and there is nothing to
offer.
-/

namespace StackScript.Shell

open Text

/-- The keywords that are offered. -/
def keywords : List String :=
  ["break", "class", "continue", "else", "extends", "false", "func", "if", "new", "not", "null",
   "print", "return", "super", "this", "true", "var", "while"]

/-- All words that are offered: keywords and commands. -/
def words : List String :=
  keywords ++ Command.descriptions.map fun d =>
    String.ofList (d.1.toList.takeWhile fun c => !isBlank c)

/-- A character of a word: a letter, a digit, an underscore or a point. -/
def isWordPart (c : Char) : Bool := isAlphanumeric c || c == '_' || c == '.'

/-- The byte at which the last word of a text begins. -/
def wordStart (cs : List Char) : Nat :=
  match cs.reverse.dropWhile isWordPart with
  | [] => 0
  | _ :: before => byteLength before + 1

/-- A byte offset falls between two characters. -/
def isBoundary (offset : Nat) (cs : List Char) : Bool := byteLength (takeBytes offset cs) == offset

/-- The last word of a text, unless it begins within a character. -/
def lastWord? (cs : List Char) : Option (List Char) :=
  if isBoundary (wordStart cs) cs then some (dropBytes (wordStart cs) cs) else none

/-- A word offered, with what is missing of it. -/
structure Candidate where
  display : String
  replacement : String
deriving DecidableEq, Repr, Inhabited

/-- The words that begin with the last word of a text. -/
def complete? (before : String) : Option (List Candidate) :=
  (lastWord? before.toList).map fun word =>
    if word.isEmpty then []
    else words.filterMap fun w =>
      (dropStart? word w.toList).map fun rest => ⟨w, String.ofList rest⟩

/-- What is missing of the first longer word that begins with the last word of a line, if that has
two bytes or more. -/
def hint? (line : String) : Option (Option String) :=
  (lastWord? line.toList).map fun word =>
    if byteLength word < 2 then none
    else words.findSome? fun w =>
      match dropStart? word w.toList with
      | some (c :: rest) => some (dimmed (String.ofList (c :: rest)))
      | _ => none

/-- What is offered while a line is typed. -/
structure Offer where
  candidates : List Candidate
  hint : Option String
deriving DecidableEq, Repr, Inhabited

/-- What is offered with the cursor at a byte of a line.  A hint is only given at its end. -/
def offer? (line : String) (cursor : Nat) : Option Offer := do
  let candidates ← complete? (String.ofList (takeBytes cursor line.toList))
  let hint ← if cursor < byteLength line.toList then some none else hint? line
  return ⟨candidates, hint⟩

end StackScript.Shell
