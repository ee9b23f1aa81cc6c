import StackScript.Diagnostic
import StackScript.SlotPool
import StackScript.Tree

/-!
# StackScript.Scope — what each name refers to

The bodies of `if`, `else`, `while` and functions open a frame.  A variable declared in a frame is a
local: it gets a slot, and gives it back when the frame closes, after the body got a `free` for it.
A variable declared outside every frame is a global, and the parameters of a function belong to its
frame.  A name refers to its innermost declaration so far, looked for in every open frame, so that a
function body sees the locals of the blocks around it.  The fields declared by a class body are no
variables.

`Block.resolve` goes through the tree in the order of `Block.events`, gives each variable its
binding, and records every read or assignment of a name that was not declared.
-/

namespace StackScript

/-- A body that is being resolved. -/
structure Frame where
  /-- parameters and locals, the latest first -/
  names : List (String × Binding)
  /-- the locals in the order of their declaration -/
  declared : List (String × Nat)
deriving Inhabited

/-- What is known of names while a tree is resolved. -/
structure Scope where
  /-- the open frames, the innermost first -/
  frames : List Frame
  globals : List String
  pool : SlotPool Nat
  /-- slots are handed out again after the end of their frame -/
  reuses : Bool
  diagnostics : List Diagnostic
  /-- how many variables have got a binding -/
  bound : Nat
  /-- how many nodes were added to the tree -/
  added : Nat
deriving Inhabited

namespace Scope

/-- Only the given globals are declared. -/
def start (globals : List String) : Scope := ⟨[], globals.eraseDups, .empty, true, [], 0, 0⟩

/-- The innermost declaration of a name. -/
def lookup (s : Scope) (name : String) : Option Binding :=
  match s.frames.findSome? (·.names.lookup name) with
  | some b => some b
  | none => if s.globals.contains name then some .global else none

/-- Declares a name in the innermost frame, or as a global. -/
def declare (s : Scope) (name : String) : Binding × Scope :=
  match s.frames with
  | [] =>
    (.global,
      { s with globals := if s.globals.contains name then s.globals else s.globals ++ [name] })
  | f :: fs =>
    match f.declared.lookup name with
    | some slot => (.slot slot, s)
    | none =>
      let (slot, pool) := s.pool.allocate
      let f := ⟨(name, .slot slot) :: f.names, f.declared ++ [(name, slot)]⟩
      (.slot slot, { s with frames := f :: fs, pool := pool })

/-- Opens a frame with parameters; of two of one name the last counts. -/
def push (s : Scope) (params : List String) : Scope :=
  let names := (params.zipIdx 1).map fun p => (p.1, Binding.param p.2)
  { s with frames := ⟨names.reverse, []⟩ :: s.frames }

/-- Closes the innermost frame and returns its locals. -/
def pop (s : Scope) : List (String × Nat) × Scope :=
  match s.frames with
  | [] => ([], s)
  | f :: fs =>
    let pool := if s.reuses then f.declared.foldl (fun p d => p.release d.2) s.pool else s.pool
    (f.declared, { s with frames := fs, pool := pool, added := s.added + f.declared.length })

/-- Records a problem. -/
def report (s : Scope) (d : Diagnostic) : Scope :=
  { s with diagnostics := s.diagnostics ++ [d] }

/-- Counts a binding. -/
def counted (s : Scope) : Scope := { s with bound := s.bound + 1 }

end Scope

/-- Resolving a piece of the tree. -/
abbrev Resolve := StateM Scope

namespace Resolve

/-- The binding of a name that is used, or the problem that it has none. -/
def use (name : String) (problem : Diagnostic) : Resolve (Option Binding) := fun s =>
  match s.lookup name with
  | some b => (some b, s.counted)
  | none => (none, s.report problem)

/-- The binding of a name that is declared. -/
def declare (name : String) : Resolve (Option Binding) := fun s =>
  let (b, s) := s.declare name
  (some b, s.counted)

/-- Resolves the statements of a body in a frame of its own, and ends its locals after them. -/
def inFrame (params : List String) (line : Nat) (statements : Resolve (List Stmt)) :
    Resolve Block := fun s =>
  let (ss, s) := statements (s.push params)
  let (locals, s) := s.pop
  (.mk line (ss ++ locals.map fun d => .free line d.1 d.2), s)

end Resolve

mutual

/-- Resolves an expression. -/
def Expr.resolve : Expr → Resolve Expr
  | .list line items => return .list line (← Expr.resolveAll items)
  | .map line entries => return .map line (← Expr.resolvePairs entries)
  | .variable line name _ =>
    return .variable line name (← Resolve.use name (.undefinedRead name line))
  | .field line receiver name => return .field line (← receiver.resolve) name
  | .binary line op left right target => do
    let left ← left.resolve
    let right ← right.resolve
    return .binary line op left right target
  | .unary line op operand => return .unary line op (← operand.resolve)
  | .call line name args => return .call line name (← Expr.resolveAll args)
  | .method line receiver name args => do
    let args ← Expr.resolveAll args
    let receiver ← receiver.resolve
    return .method line receiver name args
  | .create line className args => return .create line className (← Expr.resolveAll args)
  | .number line value => return .number line value
  | .text line value => return .text line value
  | .boolean line value => return .boolean line value
  | .null line => return .null line
  | .this line => return .this line
  | .super line => return .super line

/-- Resolves expressions from first to last. -/
def Expr.resolveAll : List Expr → Resolve (List Expr)
  | [] => return []
  | e :: es => do
    let e ← e.resolve
    let es ← Expr.resolveAll es
    return e :: es

/-- Resolves keys and values from first to last. -/
def Expr.resolvePairs : List (Expr × Expr) → Resolve (List (Expr × Expr))
  | [] => return []
  | (k, v) :: es => do
    let k ← k.resolve
    let v ← v.resolve
    let es ← Expr.resolvePairs es
    return (k, v) :: es

end

/-- Resolves an expression that may be absent. -/
def Expr.resolveOption : Option Expr → Resolve (Option Expr)
  | none => return none
  | some e => return some (← e.resolve)

mutual

/-- Resolves a statement.  `isMember` says that it stands directly in a class body, where a
declaration makes a field. -/
def Stmt.resolve (isMember : Bool) : Stmt → Resolve Stmt
  | .value e => return .value (← e.resolve)
  | .declare line name init binding => do
    let init ← Expr.resolveOption init
    if isMember then return .declare line name init binding
    else return .declare line name init (← Resolve.declare name)
  | .assign line name value _ => do
    let value ← value.resolve
    return .assign line name value (← Resolve.use name (.undefinedWrite name line))
  | .setField line receiver name value => do
    let receiver ← receiver.resolve
    let value ← value.resolve
    return .setField line receiver name value
  | .print line value => return .print line (← value.resolve)
  | .branch line condition body rest => do
    let condition ← condition.resolve
    let body ← Block.resolveBody [] body
    let rest ← rest.resolve
    return .branch line condition body rest
  | .loop line condition body => do
    let condition ← condition.resolve
    let body ← Block.resolveBody [] body
    return .loop line condition body
  | .function line name params body =>
    return .function line name params (← Block.resolveBody params body)
  | .classDecl line name parent members =>
    return .classDecl line name parent (← Block.resolve true members)
  | .returns line value => return .returns line (← Expr.resolveOption value)
  | .continues line => return .continues line
  | .breaks line => return .breaks line
  | .free line name slot => return .free line name slot

/-- Resolves what follows the body of an `if`. -/
def Rest.resolve : Rest → Resolve Rest
  | .nothing => return .nothing
  | .elseIf line condition body rest => do
    let condition ← condition.resolve
    let body ← Block.resolveBody [] body
    let rest ← rest.resolve
    return .elseIf line condition body rest
  | .otherwise body => return .otherwise (← Block.resolveBody [] body)

/-- Resolves a body in a frame of its own. -/
def Block.resolveBody (params : List String) : Block → Resolve Block
  | .mk line statements => Resolve.inFrame params line (Stmt.resolveAll false statements)

/-- Resolves a block that opens no frame: the whole program, or the members of a class. -/
def Block.resolve (isMember : Bool) : Block → Resolve Block
  | .mk line statements => return .mk line (← Stmt.resolveAll isMember statements)

/-- Resolves statements from first to last. -/
def Stmt.resolveAll (isMember : Bool) : List Stmt → Resolve (List Stmt)
  | [] => return []
  | s :: ss => do
    let s ← s.resolve isMember
    let ss ← Stmt.resolveAll isMember ss
    return s :: ss

end

end StackScript
