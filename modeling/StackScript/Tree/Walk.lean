import StackScript.Tree

/-!
# StackScript.Tree.Walk — the order in which a tree is gone through

Going through a tree enters a node, goes through its values in the order of their evaluation, then
through its blocks, and leaves it.  `Block.events` lists these steps for a whole program.  The
resolver goes through the tree in the same order.
-/

namespace StackScript

/-- A step of a walk. -/
inductive WalkEvent where
  /-- entering a node of a kind below a parent, which gives a value or not -/
  | enter (kind : String) (parent : Option String) (isValue : Bool)
  | leave (kind : String)
deriving DecidableEq, Repr, Inhabited

/-- The walk of a node around that of its children. -/
def around (kind : String) (parent : Option String) (isValue : Bool) (inner : List WalkEvent) :
    List WalkEvent :=
  .enter kind parent isValue :: inner ++ [.leave kind]

mutual

/-- The walk of an expression. -/
def Expr.events (parent : String) : Expr → List WalkEvent
  | .list _ items => around "List" (some parent) true (Expr.eventsAll "List" items)
  | .map _ entries => around "Map" (some parent) true (Expr.eventsPairs "Map" entries)
  | .field _ receiver _ =>
    around "Variable" (some parent) true (receiver.events "Variable")
  | .binary _ _ left right _ =>
    around "Binary" (some parent) true (left.events "Binary" ++ right.events "Binary")
  | .unary _ _ operand => around "Unary" (some parent) true (operand.events "Unary")
  | .call _ _ args => around "Call" (some parent) true (Expr.eventsAll "Call" args)
  | .method _ receiver _ args =>
    around "Call" (some parent) true (Expr.eventsAll "Call" args ++ receiver.events "Call")
  | .create _ _ args => around "New" (some parent) true (Expr.eventsAll "New" args)
  | .number .. => around "Number" (some parent) true []
  | .text .. => around "Text" (some parent) true []
  | .boolean .. => around "Boolean" (some parent) true []
  | .null .. => around "Null" (some parent) true []
  | .this .. => around "This" (some parent) true []
  | .super .. => around "Super" (some parent) true []
  | .variable .. => around "Variable" (some parent) true []

/-- The walks of several expressions. -/
def Expr.eventsAll (parent : String) : List Expr → List WalkEvent
  | [] => []
  | e :: es => e.events parent ++ Expr.eventsAll parent es

/-- The walks of keys and values. -/
def Expr.eventsPairs (parent : String) : List (Expr × Expr) → List WalkEvent
  | [] => []
  | (k, v) :: es => k.events parent ++ v.events parent ++ Expr.eventsPairs parent es

end

/-- The walk of an expression that may be absent. -/
def Expr.eventsOption (parent : String) : Option Expr → List WalkEvent
  | none => []
  | some e => e.events parent

mutual

/-- The walk of a statement. -/
def Stmt.events (parent : String) : Stmt → List WalkEvent
  | .value e => e.events parent
  | .declare _ _ init _ =>
    around "SetVariable" (some parent) false (Expr.eventsOption "SetVariable" init)
  | .assign _ _ value _ => around "SetVariable" (some parent) false (value.events "SetVariable")
  | .setField _ receiver _ value =>
    around "SetVariable" (some parent) false
      (receiver.events "SetVariable" ++ value.events "SetVariable")
  | .print _ value => around "Print" (some parent) false (value.events "Print")
  | .branch _ condition body rest =>
    around "If" (some parent) false
      (condition.events "If" ++ body.events (some "If") ++ rest.events)
  | .loop _ condition body =>
    around "While" (some parent) false (condition.events "While" ++ body.events (some "While"))
  | .function _ _ _ body => around "Function" (some parent) false (body.events (some "Function"))
  | .classDecl _ _ _ members => around "Class" (some parent) false (members.events (some "Class"))
  | .returns _ value => around "Return" (some parent) false (Expr.eventsOption "Return" value)
  | .continues _ => around "Continue" (some parent) false []
  | .breaks _ => around "Break" (some parent) false []
  | .free .. => around "Free" (some parent) false []

/-- The walk of what follows the body of an `if`, below that `if`. -/
def Rest.events : Rest → List WalkEvent
  | .nothing => []
  | .elseIf _ condition body rest =>
    around "If" (some "If") false
      (condition.events "If" ++ body.events (some "If") ++ rest.events)
  | .otherwise body => body.events (some "If")

/-- The walk of a block. -/
def Block.events (parent : Option String) : Block → List WalkEvent
  | .mk _ statements => around "Blocks" parent false (Stmt.eventsAll statements)

/-- The walks of the statements of a block. -/
def Stmt.eventsAll : List Stmt → List WalkEvent
  | [] => []
  | s :: ss => s.events "Blocks" ++ Stmt.eventsAll ss

end

/-- A step as it is listed. -/
def WalkEvent.text : WalkEvent → String
  | .enter kind parent isValue =>
    "enter " ++ kind ++ " in " ++ parent.getD "-" ++ (if isValue then " value" else " statement")
  | .leave kind => "leave " ++ kind

end StackScript
