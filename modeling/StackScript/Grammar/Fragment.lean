import StackScript.Token
import StackScript.Tree

/-!
# StackScript.Grammar.Fragment — what a reduced token stands for

Reducing a run of tokens leaves one symbol in their place.  Its fragment is the piece of the tree
built so far: a finished expression or program, or the head of a construct that waits for the rest.
-/

namespace StackScript

/-- A finished statement, or several joined into one block. -/
inductive Program where
  | single (s : Stmt)
  | several (b : Block)
deriving Inhabited

namespace Program

/-- The statements of a program. -/
def statements : Program → List Stmt
  | single s => [s]
  | several b => b.statements

/-- A program as a block; a single statement gives its line. -/
def toBlock : Program → Block
  | single s => .mk s.line [s]
  | several b => b

/-- The number of blocks that `toBlock` makes. -/
def wrappers : Program → Nat
  | single _ => 1
  | several _ => 0

/-- The kind of a program's node. -/
def kind : Program → String
  | single s => s.kind
  | several _ => "Blocks"

end Program

/-- The piece of the tree behind a symbol. -/
inductive Fragment where
  | value (e : Expr)
  | program (p : Program)
  /-- `name =`, `var name =` or `receiver.name =`, waiting for its value -/
  | assignmentHead (line : Nat) (declares : Bool) (receiver : Option Expr) (name : String)
  /-- `name(` or `receiver.name(`, waiting for its arguments -/
  | callHead (line : Nat) (receiver : Option Expr) (name : String)
  /-- `new Name(`, waiting for its arguments -/
  | newHead (line : Nat) (className : String)
  /-- `func name(params) {`, waiting for its body -/
  | functionHead (line : Nat) (name : String) (params : List String)
  /-- `class Name {`, waiting for its members -/
  | classHead (line : Nat) (name : String) (parent : Option String)
deriving Inhabited

namespace Fragment

/-- The kind of a fragment's node. -/
def kind : Fragment → String
  | value e => e.kind
  | program p => p.kind
  | assignmentHead .. => "SetVariable"
  | callHead .. => "Call"
  | newHead .. => "New"
  | functionHead .. => "Function"
  | classHead .. => "Class"

end Fragment

/-- A token of the list that the grammar reduces; a reduced one has a fragment. -/
structure Symbol extends Token where
  fragment : Option Fragment
deriving Inhabited

namespace Symbol

/-- A token as the lexer found it. -/
def ofToken (t : Token) : Symbol := { t with fragment := none }

/-- The symbol that replaces a reduced run. -/
def reduced (tag : Tag) (line : Nat) (span : Span) (fragment : Option Fragment) : Symbol :=
  { tag, text := "", line, span, fragment }

/-- The expression behind a symbol. -/
def expr? (s : Symbol) : Option Expr :=
  match s.fragment with
  | some (.value e) => some e
  | _ => none

/-- The program behind a symbol. -/
def program? (s : Symbol) : Option Program :=
  match s.fragment with
  | some (.program p) => some p
  | _ => none

end Symbol

end StackScript
