import StackScript.Tree

/-!
# StackScript.InPlace — assignments that update a variable in place

An assignment `x = x op e` needs no copy of `x` on the stack: one instruction takes the value of `e`
and updates `x`.  `Block.markInPlace` gives the operation of each such assignment its target.  The
variable that is read must be the one that is set, and the operator must have such an instruction.
-/

namespace StackScript

/-- The operator has an instruction that updates a variable. -/
def BinaryOp.updates : BinaryOp → Bool
  | .add | .sub | .mul | .div | .mod | .pow | .bitAnd | .bitOr | .bitXor | .shiftLeft
  | .shiftRight => true
  | .equal | .notEqual | .greater | .greaterEqual | .less | .lessEqual | .and | .or => false

/-- An assignment that updates its variable. -/
structure Update where
  op : BinaryOp
  /-- the right operand; the left one is the variable -/
  right : Expr
  target : Binding
deriving Inhabited, Repr

namespace Expr

/-- What the assignment of this value to `name` updates its variable by, if it does so. -/
def update? (name : String) (binding : Option Binding) : Expr → Option Update
  | .binary _ op (.variable _ read bound) right _ =>
    if op.updates && read == name && bound == binding then
      binding.map fun target => ⟨op, right, target⟩
    else none
  | _ => none

/-- The value with another target, if it is an operation. -/
def withTarget (target : Option Binding) : Expr → Expr
  | .binary line op left right _ => .binary line op left right target
  | e => e

/-- The value is an operation with a target. -/
def isInPlace : Expr → Bool
  | .binary _ _ _ _ (some _) => true
  | _ => false

end Expr

/-- Which assigned operations have a target, and which one. -/
abbrev Marking := String → Option Binding → Expr → Option Binding

/-- Every assignment that updates its variable has it as its target. -/
def Marking.inPlace : Marking := fun name binding value =>
  (value.update? name binding).map Update.target

/-- No assignment has a target. -/
def Marking.empty : Marking := fun _ _ _ => none

mutual

/-- Marks the assignments of a statement. -/
def Stmt.mark (marking : Marking) : Stmt → Stmt
  | .assign line name value binding =>
    .assign line name (value.withTarget (marking name binding value)) binding
  | .branch line condition body rest =>
    .branch line condition (body.mark marking) (rest.mark marking)
  | .loop line condition body => .loop line condition (body.mark marking)
  | .function line name params body => .function line name params (body.mark marking)
  | .classDecl line name parent members => .classDecl line name parent (members.mark marking)
  | .value e => .value e
  | .declare line name init binding => .declare line name init binding
  | .setField line receiver name value => .setField line receiver name value
  | .print line value => .print line value
  | .returns line value => .returns line value
  | .continues line => .continues line
  | .breaks line => .breaks line
  | .free line name slot => .free line name slot

/-- Marks the assignments of what follows the body of an `if`. -/
def Rest.mark (marking : Marking) : Rest → Rest
  | .nothing => .nothing
  | .elseIf line condition body rest =>
    .elseIf line condition (body.mark marking) (rest.mark marking)
  | .otherwise body => .otherwise (body.mark marking)

/-- Marks the assignments of a block. -/
def Block.mark (marking : Marking) : Block → Block
  | .mk line statements => .mk line (Stmt.markAll marking statements)

/-- Marks the assignments of statements. -/
def Stmt.markAll (marking : Marking) : List Stmt → List Stmt
  | [] => []
  | s :: ss => s.mark marking :: Stmt.markAll marking ss

end

/-- Marks the assignments that update their variable. -/
def Block.markInPlace (b : Block) : Block := b.mark .inPlace

/-- The block without any marks. -/
def Block.unmarked (b : Block) : Block := b.mark .empty

mutual

/-- The number of marked assignments of a statement. -/
def Stmt.inPlaceCount : Stmt → Nat
  | .assign _ _ value _ => if value.isInPlace then 1 else 0
  | .branch _ _ body rest => body.inPlaceCount + rest.inPlaceCount
  | .loop _ _ body => body.inPlaceCount
  | .function _ _ _ body => body.inPlaceCount
  | .classDecl _ _ _ members => members.inPlaceCount
  | _ => 0

/-- The number of marked assignments of what follows the body of an `if`. -/
def Rest.inPlaceCount : Rest → Nat
  | .nothing => 0
  | .elseIf _ _ body rest => body.inPlaceCount + rest.inPlaceCount
  | .otherwise body => body.inPlaceCount

/-- The number of marked assignments of a block. -/
def Block.inPlaceCount : Block → Nat
  | .mk _ statements => Stmt.inPlaceCountAll statements

/-- The number of marked assignments of statements. -/
def Stmt.inPlaceCountAll : List Stmt → Nat
  | [] => 0
  | s :: ss => s.inPlaceCount + Stmt.inPlaceCountAll ss

end

end StackScript
