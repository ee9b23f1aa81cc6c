import StackScript.Text.Measure
import StackScript.Text.WordChar

/-!
# StackScript.Shell.Command — the commands of the shell

A command begins with a point and may have an argument after white space.  Most commands have short
names besides their full one, and the case of a name does not matter.
-/

namespace StackScript

/-- A command of the shell. -/
inductive Command where
  | help | exit | clear | version | load | bytecode | globals
deriving DecidableEq, Repr, Inhabited

namespace Command

open Text

/-- The names of commands, without the point. -/
def names : List (String × Command) :=
  [("help", help), ("h", help), ("?", help), ("exit", exit), ("quit", exit), ("q", exit),
   ("clear", clear), ("cls", clear), ("version", version), ("v", version), ("load", load),
   ("l", load), ("bytecode", bytecode), ("bc", bytecode), ("globals", globals), ("g", globals)]

/-- The commands as the help shows them. -/
def descriptions : List (String × String) :=
  [(".help", "Show this help message"),
   (".exit", "Exit the shell"),
   (".clear", "Clear the screen"),
   (".version", "Show version information"),
   (".load <file>", "Compile and run a file in this session"),
   (".bytecode", "Toggle printing the disassembly of each input"),
   (".globals", "List the globals declared so far")]

/-- Reads a command and its argument. -/
def read? (input : String) : Option (Command × Option String) :=
  match trimBy isBlank input.toList with
  | '.' :: rest =>
    let name := rest.takeWhile fun c => !isBlank c
    let arg := trimBy isBlank (rest.dropWhile fun c => !isBlank c)
    (names.lookup (String.ofList (name.map Char.toLower))).map fun c =>
      (c, if arg.isEmpty then none else some (String.ofList arg))
  | _ => none

end Command

end StackScript
