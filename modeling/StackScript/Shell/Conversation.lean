import StackScript.Code.Listing
import StackScript.Folder
import StackScript.Session
import StackScript.Shell.Command
import StackScript.Shell.Input
import StackScript.Terminal.Color

/-!
# StackScript.Shell.Conversation — what the shell answers

The shell runs each input in one session and shows the value that it leaves on the stack.  A command
acts on the shell itself.  `Shell.accept` answers a single input and `Shell.converse` a whole text
of them; what goes to the two output channels is a `Transcript`.  A crash ends the whole program.
-/

namespace StackScript

open Text

/-- What is written to the output and to the error channel. -/
structure Transcript where
  out : String
  err : String
deriving DecidableEq, Repr, Inhabited

namespace Transcript

instance : Append Transcript := ⟨fun a b => ⟨a.out ++ b.out, a.err ++ b.err⟩⟩

/-- Nothing is written. -/
def empty : Transcript := ⟨"", ""⟩

/-- Output. -/
def say (s : String) : Transcript := ⟨s, ""⟩

/-- A line of output. -/
def sayLine (s : String) : Transcript := ⟨s ++ "\n", ""⟩

/-- A line on the error channel. -/
def complain (s : String) : Transcript := ⟨"", s ++ "\n"⟩

/-- Transcripts one after another. -/
def concat (ts : List Transcript) : Transcript := ts.foldl (· ++ ·) empty

/-- What is left of a program that crashes. -/
def crash : Transcript := complain Stop.crashed.message

end Transcript

/-- The text of a value in the colour of its type. -/
def Heap.coloredText (h : Heap) (v : Value) : String :=
  match v with
  | .null => Color.blue.paint "null"
  | .boolean _ | .number _ => Color.yellow.paint (h.text v)
  | .text s => Color.green.paint (quoted s)
  | .function _ | .ofClass _ => Color.magenta.paint (h.text v)
  | .list _ | .map _ | .object _ | .view _ _ => Color.cyan.paint (h.text v)

/-- The shell between two inputs. -/
structure Shell where
  session : Session
  /-- the code of each input is shown -/
  showsCode : Bool

/-- What an input leaves of the shell. -/
inductive Shell.Next where
  | goesOn (s : Shell)
  /-- the program ends with this exit code -/
  | ends (code : Nat)

/-- The exit code of a program that crashes. -/
def crashCode : Nat := 101

namespace Shell

open Transcript

/-- The version of the program. -/
def versionText : String := "0.1.0"

/-- A shell that has read nothing. -/
def start : Shell := ⟨.start .keepingValues defaultMaxDepth, false⟩

/-- An error in bold red, up to the first colon if it has one. -/
def complainOf (message : String) : Transcript :=
  match splitFirst (· == ':') message.toList with
  | some (kind, rest) =>
    complain (bold (Color.red.paint (String.ofList kind)) ++ ":" ++ String.ofList rest)
  | none => complain (Color.red.paint message)

/-- The word in front of the shell's own errors. -/
def errorWord : String := bold (Color.red.paint "Error")

/-- The code of an input, if it is to be shown; there is none if it cannot be written. -/
def shown? (s : Shell) (code : Code) : Option Transcript :=
  if s.showsCode then code.listing?.map fun listing => say (dimmed listing) else some empty

/-- Runs a source and shows the value that it leaves. -/
def evaluate (s : Shell) (source : String) : Transcript × Next :=
  let depth := s.session.machine.stack.length
  match s.session.feed Machine.ampleFuel source with
  | (.refused problems, _) => (concat (problems.map fun d => complainOf d.message), .goesOn s)
  | (.ran code stop, session) =>
    match s.shown? code, stop with
    | none, _ => (crash, .ends crashCode)
    | some listing, some .crashed => (listing ++ crash, .ends crashCode)
    | some listing, stop =>
      let (output, machine) := session.machine.takeOutput
      let (answer, machine) :=
        match stop with
        | some e => (complainOf e.message, machine)
        | none =>
          if depth < machine.stack.length then
            match machine.pop with
            | (some v, machine) => (sayLine (machine.heap.coloredText v), machine)
            | (none, machine) => (empty, machine)
          else (empty, machine)
      (listing ++ say output ++ answer,
        .goesOn { s with session := { session with machine := machine.recover depth } })

/-- A name in a column of sixteen characters, in a colour, and a description. -/
def helpLine (color : Color) (entry : String × String) : String :=
  let padding := String.ofList (List.replicate (16 - entry.1.toList.length) ' ')
  "  " ++ color.paint (entry.1 ++ padding) ++ " " ++ dimmed entry.2 ++ "\n"

/-- The help text. -/
def helpText : String :=
  "\n" ++ bold (Color.white.paint "Shell Commands:") ++ "\n"
    ++ "".intercalate (Command.descriptions.map (helpLine .cyan))
    ++ "\n" ++ bold (Color.white.paint "Keyboard Shortcuts:") ++ "\n"
    ++ "".intercalate ([("Ctrl+C", "Cancel current input"), ("Ctrl+D", "Exit"),
        ("Tab", "Complete keywords")].map (helpLine .yellow))
    ++ "\n"

/-- The text at the start of the shell. -/
def banner : String :=
  "\n  " ++ bold (Color.white.paint "Quill") ++ " " ++ dimmed "v" ++ " "
    ++ Color.brightYellow.paint versionText ++ "\n  " ++ dimmed "Type" ++ " "
    ++ Color.cyan.paint ".help" ++ " " ++ dimmed "for available commands" ++ "\n\n"

/-- The text in front of each input. -/
def prompt : String := bold (Color.brightGreen.paint "quill>") ++ " "

/-- The text at the end of all input. -/
def farewell : String := dimmed "^D" ++ "\n"

/-- The globals with their values. -/
def globalsText (s : Shell) : String :=
  let m := s.session.machine
  "".intercalate (s.session.sortedGlobals.map fun name =>
    "  " ++ Color.cyan.paint name ++ " = "
      ++ m.heap.coloredText ((m.globals.find? name).getD .null) ++ "\n")

/-- Runs a file in the session. -/
def loadFile (s : Shell) (read : Reader) (path : String) : Transcript × Next :=
  match read path with
  | .ok source => s.evaluate source
  | .error e =>
    (complain (errorWord ++ ": cannot read " ++ path ++ ": " ++ e.message), .goesOn s)

/-- Carries out a command. -/
def obey (s : Shell) (read : Reader) (command : Command) (arg : Option String) :
    Transcript × Next :=
  match command, arg with
  | .help, _ => (say helpText, .goesOn s)
  | .exit, _ => (empty, .ends 0)
  | .clear, _ => (say "\x1b[2J\x1b[H", .goesOn s)
  | .version, _ =>
    (sayLine (bold (Color.brightCyan.paint "Quill") ++ ": " ++ versionText), .goesOn s)
  | .load, some path => s.loadFile read path
  | .load, none =>
    (complain (errorWord ++ ": " ++ Color.cyan.paint ".load" ++ " "
      ++ dimmed "requires a file path"), .goesOn s)
  | .bytecode, _ =>
    (sayLine (dimmed "bytecode" ++ " " ++ Color.cyan.paint (if s.showsCode then "off" else "on")),
      .goesOn { s with showsCode := !s.showsCode })
  | .globals, _ => (say s.globalsText, .goesOn s)

/-- Answers an input. -/
def accept (s : Shell) (read : Reader) (input : String) : Transcript × Next :=
  if input.toList.all isBlank then (empty, .goesOn s)
  else
    match Command.read? input with
    | some (command, arg) => s.obey read command arg
    | none => s.evaluate input

/-- Answers inputs, each after a prompt, and gives the exit code. -/
def answerAll (s : Shell) (read : Reader) : List String → Transcript × Nat
  | [] => (say (prompt ++ farewell), 0)
  | input :: inputs =>
    match s.accept read input with
    | (t, .goesOn s) =>
      let (rest, code) := s.answerAll read inputs
      (say prompt ++ t ++ rest, code)
    | (t, .ends code) => (say prompt ++ t, code)

/-- The whole conversation over an input text, and the exit code. -/
def converse (read : Reader) (text : String) : Transcript × Nat :=
  let (answers, code) := start.answerAll read (inputsOf text)
  (say banner ++ answers, code)

end Shell

end StackScript
