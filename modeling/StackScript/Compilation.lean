import StackScript.Code.Generate
import StackScript.Grammar.Reduction
import StackScript.InPlace
import StackScript.Scope
import StackScript.Token.Lexer

/-!
# StackScript.Compilation — from source text to code

A compilation reads the tokens of a source, parses them, gives each name its binding and marks the
assignments that update a variable in place.  It goes on after a problem, so that all problems of a
source come to light at once; only text that is no token ends it.  Code is generated of a
compilation without problems.
-/

namespace StackScript

/-- The parts of a compiler that can be chosen. -/
structure Compiler where
  lexer : Lexer
  grammar : Grammar
  /-- what follows a statement that is an expression -/
  discard : Code

/-- What a compilation found. -/
structure Compilation where
  root : Block
  diagnostics : List Diagnostic
  /-- the globals known at the end -/
  globals : List String
  /-- how many nodes were made -/
  nodes : Nat
  /-- how many variables have got a binding -/
  bound : Nat

namespace Compiler

/-- The compiler of the language. -/
def standard : Compiler := ⟨.standard, .standard, dropValue⟩

/-- The compiler of a shell, which keeps the values of statements. -/
def keepingValues : Compiler := { standard with discard := [] }

/-- Compiles a source in which some globals are declared. -/
def compile (c : Compiler) (globals : List String) (source : String) : Compilation :=
  match c.lexer.tokenize source with
  | .error problem => ⟨.mk 1 [], [problem], [], 1, 0⟩
  | .ok tokens =>
    let parsed := c.grammar.parse tokens
    let (root, scope) := (parsed.root.resolve false).run (.start globals)
    ⟨root.markInPlace, parsed.record.diagnostics ++ scope.diagnostics, scope.globals,
      parsed.record.nodes + scope.added, scope.bound⟩

/-- The code of a compilation, or the number of its problems. -/
def generate (c : Compiler) (compilation : Compilation) : Except Nat Code :=
  match compilation.diagnostics with
  | [] => .ok (compilation.root.generate c.discard)
  | problems => .error problems.length

end Compiler

/-- What is said when no code is generated because of problems. -/
def refusalMessage (problems : Nat) : String :=
  "compilation failed with " ++ toString problems ++ " error(s)"

end StackScript
