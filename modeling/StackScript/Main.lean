import StackScript.CommandLine

/-!
# StackScript.Main — the program

Reads the arguments, the files and the input, and writes what the library makes of them.  The shell
answers each input before it reads the next.
-/

namespace StackScript.Console

/-- The number of a system error, which may be given with its sign changed. -/
def numberOf : IO.Error → Option Nat
  | .noFileOrDirectory _ n _ | .inappropriateType _ n _ | .invalidArgument _ n _ =>
    some (min n (0 - n)).toNat
  | _ => none

/-- Reads a file. -/
def readFile (path : String) : IO (Except ReadError String) := do
  if path.toList.contains '\x00' then return .error .badPath
  try
    return .ok (← IO.FS.readFile path)
  catch e =>
    let known := (numberOf e).bind fun n => ReadError.numbered.lookup n
    return .error (known.getD (.other (toString e)))

/-- Writes a transcript. -/
def write (t : Transcript) : IO Unit := do
  IO.print t.out
  (← IO.getStdout).flush
  IO.eprint t.err

/-- A reader for the files that an input asks to load. -/
def readerFor (input : String) : IO Reader := do
  match Command.read? input with
  | some (.load, some path) =>
    let content ← readFile path
    return fun _ => content
  | _ => return fun _ => .error .missing

/-- Reads lines until they make an input, after the lines `pending`. -/
partial def nextInput (stdin : IO.FS.Stream) (pending : List Char) : IO (Option String) := do
  let line ← stdin.getLine
  if line.isEmpty then return none
  let (input, ending) := Shell.joinLine pending line.toList
  let text := String.ofList input
  if Shell.isComplete text then return some text
  else nextInput stdin (input ++ ending)

/-- Answers inputs until there are no more or one ends the program, and gives the exit code. -/
partial def talk (stdin : IO.FS.Stream) (shell : Shell) : IO Nat := do
  write (.say Shell.prompt)
  match ← nextInput stdin [] with
  | none =>
    write (.say Shell.farewell)
    return 0
  | some input =>
    let (answer, next) := shell.accept (← readerFor input) input
    write answer
    match next with
    | .goesOn shell => talk stdin shell
    | .ends code => return code

/-- The files that a task reads. -/
def pathsOf : Task → List String
  | .shell | .evaluate _ => []
  | .run path | .disassemble path => [path]
  | .check paths => paths

end StackScript.Console

open StackScript Console

def main (args : List String) : IO UInt32 := do
  match Invocation.ofArgs? args with
  | none =>
    IO.eprintln usage
    return 2
  | some ⟨.shell, _⟩ =>
    write (.say Shell.banner)
    return (← talk (← IO.getStdin) .start).toUInt32
  | some invocation =>
    let files ← (pathsOf invocation.task).mapM fun path => return (path, ← readFile path)
    let read : Reader := fun path => (files.lookup path).getD (.error .missing)
    let outcome := invocation.perform read ""
    write outcome.transcript
    return outcome.code.toUInt32
