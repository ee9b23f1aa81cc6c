import StackScript.Tree

/-!
# StackScript.Proofs.Unlined — trees without their lines

Two trees that differ in the lines of their nodes alone have the same unlined tree.
-/

namespace StackScript

/-! ### Expressions -/

mutual

/-- The expression with all lines zero. -/
def Expr.unlined : Expr → Expr
  | .number _ d => .number 0 d
  | .text _ s => .text 0 s
  | .boolean _ b => .boolean 0 b
  | .null _ => .null 0
  | .this _ => .this 0
  | .super _ => .super 0
  | .list _ items => .list 0 (Expr.unlinedAll items)
  | .map _ entries => .map 0 (Expr.unlinedPairs entries)
  | .variable _ name binding => .variable 0 name binding
  | .field _ receiver name => .field 0 receiver.unlined name
  | .binary _ op left right target => .binary 0 op left.unlined right.unlined target
  | .unary _ op operand => .unary 0 op operand.unlined
  | .call _ name args => .call 0 name (Expr.unlinedAll args)
  | .method _ receiver name args => .method 0 receiver.unlined name (Expr.unlinedAll args)
  | .create _ className args => .create 0 className (Expr.unlinedAll args)

/-- The expressions with all lines zero. -/
def Expr.unlinedAll : List Expr → List Expr
  | [] => []
  | e :: es => e.unlined :: Expr.unlinedAll es

/-- The keys and values with all lines zero. -/
def Expr.unlinedPairs : List (Expr × Expr) → List (Expr × Expr)
  | [] => []
  | (k, v) :: es => (k.unlined, v.unlined) :: Expr.unlinedPairs es

end

/-! ### Statements -/

mutual

/-- The statement with all lines zero. -/
def Stmt.unlined : Stmt → Stmt
  | .value e => .value e.unlined
  | .declare _ name init binding => .declare 0 name (init.map Expr.unlined) binding
  | .assign _ name value binding => .assign 0 name value.unlined binding
  | .setField _ receiver name value => .setField 0 receiver.unlined name value.unlined
  | .print _ value => .print 0 value.unlined
  | .branch _ condition body rest => .branch 0 condition.unlined body.unlined rest.unlined
  | .loop _ condition body => .loop 0 condition.unlined body.unlined
  | .function _ name params body => .function 0 name params body.unlined
  | .classDecl _ name parent members => .classDecl 0 name parent members.unlined
  | .returns _ value => .returns 0 (value.map Expr.unlined)
  | .continues _ => .continues 0
  | .breaks _ => .breaks 0
  | .free _ name slot => .free 0 name slot

/-- What follows the body of an `if`, with all lines zero. -/
def Rest.unlined : Rest → Rest
  | .nothing => .nothing
  | .elseIf _ condition body rest => .elseIf 0 condition.unlined body.unlined rest.unlined
  | .otherwise body => .otherwise body.unlined

/-- The block with all lines zero. -/
def Block.unlined : Block → Block
  | .mk _ statements => .mk 0 (Stmt.unlinedAll statements)

/-- The statements with all lines zero. -/
def Stmt.unlinedAll : List Stmt → List Stmt
  | [] => []
  | s :: ss => s.unlined :: Stmt.unlinedAll ss

end

theorem Stmt.unlined_value (e : Expr) : (Stmt.value e).unlined = .value e.unlined := by
  rw [Stmt.unlined]

end StackScript
