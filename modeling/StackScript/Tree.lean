import StackScript.Binding
import StackScript.Decimal
import StackScript.Operator

/-!
# StackScript.Tree — the syntax tree

Expressions give values, statements act, and a block is a sequence of statements.  Each node carries
the source line it was built from.  Three fields are filled in after parsing: the binding of a
variable that is read, the binding of a variable that is set, and the target of an operation whose
result goes straight back into its left operand.
-/

namespace StackScript

/-- An expression. -/
inductive Expr where
  | number (line : Nat) (value : Decimal)
  | text (line : Nat) (value : String)
  | boolean (line : Nat) (value : Bool)
  | null (line : Nat)
  | this (line : Nat)
  | super (line : Nat)
  | list (line : Nat) (items : List Expr)
  | map (line : Nat) (entries : List (Expr × Expr))
  | variable (line : Nat) (name : String) (binding : Option Binding)
  | field (line : Nat) (receiver : Expr) (name : String)
  /-- `target` is the variable that an assignment of this value updates in place -/
  | binary (line : Nat) (op : BinaryOp) (left right : Expr) (target : Option Binding)
  | unary (line : Nat) (op : UnaryOp) (operand : Expr)
  | call (line : Nat) (name : String) (args : List Expr)
  | method (line : Nat) (receiver : Expr) (name : String) (args : List Expr)
  | create (line : Nat) (className : String) (args : List Expr)
deriving Inhabited, Repr

mutual

/-- A statement. -/
inductive Stmt where
  /-- an expression whose value is not kept -/
  | value (e : Expr)
  | declare (line : Nat) (name : String) (init : Option Expr) (binding : Option Binding)
  | assign (line : Nat) (name : String) (value : Expr) (binding : Option Binding)
  | setField (line : Nat) (receiver : Expr) (name : String) (value : Expr)
  | print (line : Nat) (value : Expr)
  | branch (line : Nat) (condition : Expr) (body : Block) (rest : Rest)
  | loop (line : Nat) (condition : Expr) (body : Block)
  | function (line : Nat) (name : String) (params : List String) (body : Block)
  | classDecl (line : Nat) (name : String) (parent : Option String) (members : Block)
  | returns (line : Nat) (value : Option Expr)
  | continues (line : Nat)
  | breaks (line : Nat)
  /-- the end of a local variable, which gives its slot back -/
  | free (line : Nat) (name : String) (slot : Nat)

/-- What follows the body of an `if`. -/
inductive Rest where
  | nothing
  | elseIf (line : Nat) (condition : Expr) (body : Block) (rest : Rest)
  | otherwise (body : Block)

/-- Statements in sequence. -/
inductive Block where
  | mk (line : Nat) (statements : List Stmt)

end

instance : Inhabited Stmt := ⟨.breaks 1⟩

instance : Inhabited Block := ⟨.mk 1 []⟩

namespace Expr

/-- The line of an expression. -/
def line : Expr → Nat
  | .number l _ | .text l _ | .boolean l _ | .null l | .this l | .super l | .list l _ | .map l _
  | .variable l _ _ | .field l _ _ | .binary l _ _ _ _ | .unary l _ _ | .call l _ _
  | .method l _ _ _ | .create l _ _ => l

/-- The name of an expression's kind. -/
def kind : Expr → String
  | .number .. => "Number"
  | .text .. => "Text"
  | .boolean .. => "Boolean"
  | .null .. => "Null"
  | .this .. => "This"
  | .super .. => "Super"
  | .list .. => "List"
  | .map .. => "Map"
  | .variable .. | .field .. => "Variable"
  | .binary .. => "Binary"
  | .unary .. => "Unary"
  | .call .. | .method .. => "Call"
  | .create .. => "New"

end Expr

namespace Stmt

/-- The line of a statement. -/
def line : Stmt → Nat
  | .value e => e.line
  | .declare l _ _ _ | .assign l _ _ _ | .setField l _ _ _ | .print l _ | .branch l _ _ _
  | .loop l _ _ | .function l _ _ _ | .classDecl l _ _ _ | .returns l _ | .continues l
  | .breaks l | .free l _ _ => l

/-- The name of a statement's kind; an expression has its own. -/
def kind : Stmt → String
  | .value e => e.kind
  | .declare .. | .assign .. | .setField .. => "SetVariable"
  | .print .. => "Print"
  | .branch .. => "If"
  | .loop .. => "While"
  | .function .. => "Function"
  | .classDecl .. => "Class"
  | .returns .. => "Return"
  | .continues .. => "Continue"
  | .breaks .. => "Break"
  | .free .. => "Free"

end Stmt

namespace Block

/-- The line of a block. -/
def line : Block → Nat
  | mk l _ => l

/-- The statements of a block. -/
def statements : Block → List Stmt
  | mk _ ss => ss

end Block

end StackScript
