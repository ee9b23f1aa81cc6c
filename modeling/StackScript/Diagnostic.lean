import StackScript.Text.Quoted

/-!
# StackScript.Diagnostic — problems found in a source program

A compilation gathers its diagnostics in the order in which they were found.  Each has the line it
is about and one message.
-/

namespace StackScript

/-- A problem of the source program. -/
inductive Diagnostic where
  /-- no recognizer matched at this byte of the source -/
  | lexical (line offset : Nat) (snippet : String)
  /-- `else` or `else if` without an `if` to attach to -/
  | danglingElse (line : Nat)
  /-- `else if` after a final `else` -/
  | elseIfAfterElse (line : Nat)
  /-- a token that did not fold into the program -/
  | unexpected (text : String) (line : Nat)
  /-- a read of a name that was never declared -/
  | undefinedRead (name : String) (line : Nat)
  /-- an assignment to a name that was never declared -/
  | undefinedWrite (name : String) (line : Nat)
deriving DecidableEq, Repr, Inhabited

namespace Diagnostic

/-- The source line that the problem is on. -/
def line : Diagnostic → Nat
  | lexical line _ _ => line
  | danglingElse line => line
  | elseIfAfterElse line => line
  | unexpected _ line => line
  | undefinedRead _ line => line
  | undefinedWrite _ line => line

/-- The problem is one of meaning: an undefined name. -/
def isSemantic : Diagnostic → Bool
  | undefinedRead _ _ => true
  | undefinedWrite _ _ => true
  | _ => false

/-- The message shown for the problem. -/
def message : Diagnostic → String
  | lexical line _ snippet =>
    "Syntax error: unexpected input " ++ Text.quoted snippet ++ " (line " ++ toString line ++ ")"
  | danglingElse line =>
    "Else-if/Else statements can only be used after an if statement (line "
      ++ toString line ++ ")"
  | elseIfAfterElse line =>
    "Else-if statements can not be used after an else statement (line " ++ toString line ++ ")"
  | unexpected text line =>
    "Syntax error: unexpected " ++ Text.quoted text ++ " (line " ++ toString line ++ ")"
  | undefinedRead name line =>
    "Tried to access undefined variable \"" ++ name ++ "\" in line " ++ toString line
  | undefinedWrite name line =>
    "Tried to modify the value of an undefined variable \"" ++ name ++ "\" in line "
      ++ toString line

end Diagnostic

end StackScript
