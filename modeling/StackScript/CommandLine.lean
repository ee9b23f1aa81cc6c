import StackScript.Shell.Conversation

/-!
# StackScript.CommandLine — the program as it is called

The arguments ask for one task: to run a file or a piece of source, to print the listing of a file,
to check files, or to start the shell.  `Invocation.ofArgs?` reads the arguments, and `perform` does
the task on what a reader gives for the files.
-/

namespace StackScript

/-- What the program is asked to do. -/
inductive Task where
  | shell
  | evaluate (source : String)
  | run (path : String)
  | disassemble (path : String)
  | check (paths : List String)
deriving DecidableEq, Repr, Inhabited

/-- A task with its options. -/
structure Invocation where
  task : Task
  /-- the values of statements stay on the stack, and the last one is shown -/
  keepsValues : Bool
deriving DecidableEq, Repr, Inhabited

/-! ### Arguments -/

/-- Arguments sorted into kinds. -/
structure Arguments where
  positional : List String
  source : Option String
  keepsValues : Bool
  /-- more is logged; the log is no part of the output -/
  logsMore : Bool
deriving DecidableEq, Repr, Inhabited

namespace Arguments

/-- No arguments. -/
def empty : Arguments := ⟨[], none, false, false⟩

/-- Adds a path, which cannot be empty. -/
def withPath (a : Arguments) (s : String) : Option Arguments :=
  if s.isEmpty then none else some { a with positional := a.positional ++ [s] }

/-- Adds paths. -/
def withPaths (a : Arguments) (paths : List String) : Option Arguments :=
  paths.foldlM withPath a

/-- Adds the source to run; there can be one. -/
def withSource (a : Arguments) (s : String) : Option Arguments :=
  if a.source.isSome then none else some { a with source := some s }

/-- Asks to keep values, once. -/
def keepingValues (a : Arguments) : Option Arguments :=
  if a.keepsValues then none else some { a with keepsValues := true }

/-- Asks to log more, once. -/
def loggingMore (a : Arguments) : Option Arguments :=
  if a.logsMore then none else some { a with logsMore := true }

/-- The letters of short options in one argument: the arguments with them, and whether the last one
asks for a value. -/
def shortOptions (a : Arguments) : List Char → Option (Arguments × Bool)
  | [] => some (a, false)
  | 'v' :: rest => a.loggingMore.bind fun a => a.shortOptions rest
  | ['e'] => some (a, true)
  | 'e' :: '=' :: source => (a.withSource (String.ofList source)).map (·, false)
  | 'e' :: source => (a.withSource (String.ofList source)).map (·, false)
  | _ => none

/-- An argument that starts as an option does. -/
def isOption (s : String) : Bool :=
  match s.toList with
  | '-' :: _ :: _ => true
  | _ => false

/-- Sorts arguments.  `wantsSource` says that the first is the value of an option. -/
def sort (a : Arguments) (wantsSource : Bool) : List String → Option Arguments
  | [] => if wantsSource then none else some a
  | s :: rest =>
    if wantsSource then
      if isOption s then none else (a.withSource s).bind fun a => a.sort false rest
    else
      match s.toList with
      | ['-', '-'] => a.withPaths rest
      | '-' :: '-' :: name =>
        if name = "eval".toList then a.sort true rest
        else if name = "no-pop".toList then a.keepingValues.bind fun a => a.sort false rest
        else if name = "verbose".toList then a.loggingMore.bind fun a => a.sort false rest
        else
          match Text.dropStart? "eval=".toList name with
          | some source => (a.withSource (String.ofList source)).bind fun a => a.sort false rest
          | none => none
      | '-' :: c :: letters =>
        (a.shortOptions (c :: letters)).bind fun (a, wants) => a.sort wants rest
      | _ => (a.withPath s).bind fun a => a.sort false rest

end Arguments

/-- The task that the word for it asks for, on paths. -/
def Task.named? : String → List String → Option Task
  | "run", [path] => some (.run path)
  | "disasm", [path] => some (.disassemble path)
  | "check", path :: paths => some (.check (path :: paths))
  | _, _ => none

/-- The task that paths and a source ask for without a word for it. -/
def Task.unnamed? : List String → Option String → Option Task
  | [], none => some .shell
  | [], some source => some (.evaluate source)
  | [path], none => some (.run path)
  | _, _ => none

/-- The words for tasks, each with its full form. -/
def Task.words : List (String × String) :=
  [("run", "run"), ("disasm", "disasm"), ("dis", "disasm"), ("check", "check")]

/-- The task that arguments ask for, if they make sense.  Only the first argument can be the word
for a task. -/
def Invocation.ofArgs? (args : List String) : Option Invocation :=
  match args.head?.bind fun name => Task.words.lookup name with
  | some word =>
    (Arguments.empty.sort false args.tail).bind fun a =>
      if a.source.isSome then none
      else (Task.named? word a.positional).map fun task => ⟨task, a.keepsValues⟩
  | none =>
    (Arguments.empty.sort false args).bind fun a =>
      (Task.unnamed? a.positional a.source).map fun task => ⟨task, a.keepsValues⟩

/-! ### Tasks -/

/-- The exit code and the output of a call. -/
structure Outcome where
  code : Nat
  transcript : Transcript
deriving DecidableEq, Repr, Inhabited

namespace Outcome

open Transcript

/-- Success with an output. -/
def success (t : Transcript) : Outcome := ⟨0, t⟩

/-- Failure with an output. -/
def failure (t : Transcript) : Outcome := ⟨1, t⟩

/-- The program crashes, and what was not yet written is lost. -/
def crashed : Outcome := ⟨crashCode, crash⟩

/-- A line about a problem with something that has a name. -/
def problemLine (name message : String) : Transcript :=
  complain (bold name ++ ": " ++ bold (Color.red.paint "error") ++ ": " ++ message)

/-- Lines about the problems of a source. -/
def problemLines (name : String) (problems : List Diagnostic) : Transcript :=
  concat (problems.map fun d => problemLine name d.message)

/-- A line about a file that could not be read. -/
def unreadable (path : String) (e : ReadError) : Transcript :=
  problemLine path ("File system error: " ++ e.message)

/-- Compiles a source with a name, and goes on with its code. -/
def ofCode (compiler : Compiler) (name source : String) (go : Code → Outcome) : Outcome :=
  let compilation := compiler.compile [] source
  match compiler.generate compilation with
  | .ok code => go code
  | .error _ => failure (problemLines name compilation.diagnostics)

/-- Runs a source with a name. -/
def ofSource (compiler : Compiler) (shows : Bool) (name source : String) : Outcome :=
  ofCode compiler name source fun code =>
    let (stop, machine) := (Machine.start defaultMaxDepth).run Machine.ampleFuel code
    let (output, machine) := machine.takeOutput
    match stop with
    | some .crashed => crashed
    | some e => failure (say output ++ complain (bold name ++ ": " ++ Color.red.paint e.message))
    | none =>
      match machine.pop with
      | (some v, machine) =>
        success (say output ++ if shows then sayLine (machine.heap.text v) else empty)
      | (none, _) => success (say output)

/-- Goes on with the content of a file. -/
def ofFile (read : Reader) (path : String) (go : String → Outcome) : Outcome :=
  match read path with
  | .ok source => go source
  | .error e => failure (unreadable path e)

/-- The lines about a file that is checked; there are none if it is well. -/
def checkFile (compiler : Compiler) (read : Reader) (path : String) : Option Transcript :=
  match read path with
  | .error e => some (unreadable path e)
  | .ok source =>
    match (compiler.compile [] source).diagnostics with
    | [] => none
    | problems => some (problemLines path problems)

/-- Checks files. -/
def ofCheck (compiler : Compiler) (read : Reader) (paths : List String) : Outcome :=
  let failed := paths.filterMap (checkFile compiler read)
  if failed.isEmpty then success (sayLine (toString paths.length ++ " file(s) ok"))
  else
    failure (concat failed ++ complain
      (toString failed.length ++ " of " ++ toString paths.length ++ " file(s) failed"))

end Outcome

/-- Does a task. -/
def Invocation.perform (i : Invocation) (read : Reader) (input : String) : Outcome :=
  let compiler := if i.keepsValues then Compiler.keepingValues else Compiler.standard
  match i.task with
  | .shell => let (t, code) := Shell.converse read input; ⟨code, t⟩
  | .evaluate source => .ofSource compiler i.keepsValues "<eval>" source
  | .run path => .ofFile read path (.ofSource compiler i.keepsValues path)
  | .disassemble path =>
    .ofFile read path fun source =>
      .ofCode compiler path source fun code =>
        match code.listing? with
        | some listing => .success (.say listing)
        | none => .crashed
  | .check paths => .ofCheck compiler read paths

/-- What is said of arguments that make no sense. -/
def usage : String :=
  "Usage: quill [FILE | -e CODE | run FILE | disasm FILE | check FILES] [--no-pop]"

end StackScript
