import StackScript.Compilation
import StackScript.Machine.Run

/-!
# StackScript.Session — sources that are run one after another

A session has one compiler and one machine.  Each source is compiled with the globals known so far
and run in a number of steps; the globals that it declares become known if the run succeeds.
-/

namespace StackScript

/-- A compiler, a machine and the globals that later sources may use. -/
structure Session where
  compiler : Compiler
  machine : Machine
  globals : List String

/-- What became of a source. -/
inductive Verdict where
  | refused (problems : List Diagnostic)
  /-- its code was run, and may have stopped early -/
  | ran (code : Code) (stop : Option Stop)

namespace Session

/-- A session in which nothing has been run. -/
def start (compiler : Compiler) (maxDepth : Nat) : Session := ⟨compiler, .start maxDepth, []⟩

/-- Compiles a source and runs it in at most `fuel` steps. -/
def feed (s : Session) (fuel : Nat) (source : String) : Verdict × Session :=
  let compilation := s.compiler.compile s.globals source
  match s.compiler.generate compilation with
  | .error _ => (.refused compilation.diagnostics, s)
  | .ok code =>
    let (stop, machine) := s.machine.run fuel code
    (.ran code stop,
      { s with
        machine
        globals := if stop.isNone then compilation.globals else s.globals })

/-- The known globals in alphabetical order. -/
def sortedGlobals (s : Session) : List String := s.globals.mergeSort fun a b => decide (a ≤ b)

end Session

end StackScript
