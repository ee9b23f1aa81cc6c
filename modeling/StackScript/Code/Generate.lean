import StackScript.Code.Instruction
import StackScript.Tree

/-!
# StackScript.Code.Generate — code for a resolved tree

The code of an expression leaves its value on the stack, that of a statement leaves nothing, except
that the value of an expression statement is followed by a `discard` sequence, which need not drop
it.  The code of a program outside loops and functions is run as it stands, and its skips count
instructions.  The bodies of loops and functions are recorded, and there skips count slots.

A loop of the program records its body and its condition and leaves the rounds to the machine.  A
loop in recorded code is made of skips, with `C` slots for the body and `K` for the condition:

| code | |
|---|---|
| `SKIP C` | to the condition |
| body | |
| condition | |
| `SKIPIF -(C+K+2)` | back to the body |

In it a `continue` or `break` is at first an opcode with operand zero; the innermost loop around it
puts the skip in its place.
-/

namespace StackScript

open Instruction

/-! ### Expressions -/

/-- Puts a constant on the stack. -/
def putConstant (o : Operand) : Instruction := ⟨.put, some o⟩

/-- Puts a text on the stack. -/
def putText (s : String) : Instruction := withName .put s

/-- Puts `null` on the stack. -/
def putNull : Instruction := plain .put

/-- A number as an operand: an integer if it fits a word. -/
def Decimal.operand (d : Decimal) : Operand :=
  match d.toWord? with
  | some i => .integer i
  | none => .decimal d

/-- Reads a variable. -/
def loadVariable (name : String) : Option Binding → Instruction
  | some (.slot id) => withNumber .load id
  | some (.param ordinal) => withNumber .loadParam ordinal
  | some .global | none => withName .load name

mutual

/-- The code of an expression. -/
def Expr.code : Expr → Code
  | .number _ value => [putConstant value.operand]
  | .text _ value => [putText value]
  | .boolean _ value => [putConstant (.boolean value)]
  | .null _ => [putNull]
  | .this _ => [plain .this]
  | .super _ => [plain .this, putConstant (.boolean true), plain .getMember]
  | .list _ items => Expr.codeBackwards items ++ [withNumber .makeList items.length]
  | .map _ entries => Expr.codePairs entries ++ [withNumber .makeMap entries.length]
  | .variable _ name binding => [loadVariable name binding]
  | .field _ receiver name => receiver.code ++ [putText name, plain .getMember]
  | .binary _ op left right _ => left.code ++ right.code ++ [plain (.compute op)]
  | .unary _ op operand => operand.code ++ [plain (.prefixed op)]
  | .call _ name args => Expr.codeAll args ++ [withName .call name]
  | .method _ receiver name args =>
    Expr.codeAll args ++ receiver.code ++ [withName .callMethod ("#" ++ name)]
  | .create _ className args => Expr.codeAll args ++ [withName .makeInstance className]

/-- The code of expressions from first to last. -/
def Expr.codeAll : List Expr → Code
  | [] => []
  | e :: es => e.code ++ Expr.codeAll es

/-- The code of expressions from last to first, which leaves the first on top. -/
def Expr.codeBackwards : List Expr → Code
  | [] => []
  | e :: es => Expr.codeBackwards es ++ e.code

/-- The code of keys and values from first to last. -/
def Expr.codePairs : List (Expr × Expr) → Code
  | [] => []
  | (k, v) :: es => k.code ++ v.code ++ Expr.codePairs es

end

/-- The code of a value that is `null` if it is absent. -/
def Expr.codeOrNull : Option Expr → Code
  | none => [putNull]
  | some e => e.code

/-! ### Statements -/

/-- The operand that an assignment addresses its variable by. -/
def targetOperand (name : String) (binding : Option Binding) : Operand :=
  match binding.bind Binding.id? with
  | some id => .integer id
  | none => .text name

/-- Assigns a value.  An operation with a target takes its right operand only. -/
def assignCode (name : String) (binding : Option Binding) (value : Expr) : Code :=
  let plainly := value.code ++ [⟨.store, some (targetOperand name binding)⟩]
  match value with
  | .binary _ op _ right (some target) =>
    match Opcode.update? op with
    | some o => right.code ++ [⟨o, some (targetOperand name (some target))⟩]
    | none => plainly
  | _ => plainly

/-- A jump out of a round of a loop.  In recorded code it waits for its distance. -/
def jumpCode (m : Measure) (o : Opcode) : Instruction :=
  match m with
  | .instructions => plain o
  | .slots => withNumber o 0

/-- A branch.  Behind its body it skips what is done otherwise. -/
def branchCode (m : Measure) (condition body : Code) : Option Code → Code
  | none => condition ++ [withNumber .skipUnless (m.length body)] ++ body
  | some rest =>
    let past := withNumber .skip (m.length rest)
    condition ++ [withNumber .skipUnless (m.length body + m.width past)] ++ body ++ [past] ++ rest

/-- Code between the marks of a recording. -/
def recorded (c : Code) : Code := plain .record :: c ++ [plain .endRecord]

/-- Puts skips for the waiting jumps of a loop.  `depth` counts the recordings around the code,
whose jumps are left alone, and `condition` is the length of the loop's condition.  The code goes on
to the skip back at the end of the loop. -/
def resolveJumps (condition depth : Nat) : Code → Code
  | [] => []
  | i :: is =>
    let left := Int.ofNat (Code.slotCount (i :: is))
    if i.opcode = .record then i :: resolveJumps condition (depth + 1) is
    else if i.opcode = .endRecord then i :: resolveJumps condition (depth - 1) is
    else if depth = 0 ∧ i = jumpCode .slots .next then
      withNumber .skip (left - condition - 4) :: resolveJumps condition depth is
    else if depth = 0 ∧ i = jumpCode .slots .leave then
      withNumber .skip (left - 2) :: resolveJumps condition depth is
    else i :: resolveJumps condition depth is

/-- A loop made of skips. -/
def skippingLoop (condition body : Code) : Code :=
  let back := withNumber .skipIf (-(body.slotCount + condition.slotCount + 2))
  withNumber .skip body.slotCount ::
    resolveJumps condition.slotCount 0 (body ++ condition ++ [back])

/-- A loop whose rounds the machine keeps. -/
def recordedLoop (condition body : Code) : Code :=
  recorded body ++ recorded condition ++ [plain .loop]

/-- A function: its recorded body, its arity and its name. -/
def functionCode (name : String) (arity : Nat) (body : Code) : Code :=
  recorded body ++ [putConstant (.integer arity), withName .makeFunction name]

/-- The key that a class keeps a method under. -/
def methodKey (name : String) : String := if name = "init" then "<init>" else "#" ++ name

/-- A class: its members as a map, with the parent under the key `false`. -/
def classCode (name : String) (parent : Option String) (members : List Code) : Code :=
  let parents : List Code :=
    match parent with
    | some p => [[putConstant (.boolean false), putText p]]
    | none => []
  let entries := members ++ parents
  entries.flatten ++ [withNumber .makeMap entries.length, withName .makeClass name]

mutual

/-- The code of a statement. -/
def Stmt.code (discard : Code) (m : Measure) : Stmt → Code
  | .value e => e.code ++ discard
  | .declare _ name init binding =>
    Expr.codeOrNull init ++ [⟨.store, some (targetOperand name binding)⟩]
  | .assign _ name value binding => assignCode name binding value
  | .setField _ receiver name value =>
    receiver.code ++ [putText name] ++ value.code ++ [plain .setMember, plain .pop]
  | .print _ value => value.code ++ [plain .call]
  | .branch _ condition body rest =>
    branchCode m condition.code (body.code discard m) (rest.code discard m)
  | .loop _ condition body =>
    match m with
    | .instructions => recordedLoop condition.code (body.code discard .slots)
    | .slots => skippingLoop condition.code (body.code discard .slots)
  | .function _ name params body => functionCode name params.length (body.code discard .slots)
  | .classDecl _ name parent members =>
    classCode name parent (members.memberCodes discard name)
  | .returns _ value => Expr.codeOrNull value ++ [plain .giveBack]
  | .continues _ => [jumpCode m .next]
  | .breaks _ => [jumpCode m .leave]
  | .free _ _ slot => [withNumber .clear slot]

/-- The code of what follows the body of an `if`. -/
def Rest.code (discard : Code) (m : Measure) : Rest → Option Code
  | .nothing => none
  | .elseIf _ condition body rest =>
    some (branchCode m condition.code (body.code discard m) (rest.code discard m))
  | .otherwise body => some (body.code discard m)

/-- The code of a block. -/
def Block.code (discard : Code) (m : Measure) : Block → Code
  | .mk _ statements => Stmt.codeAll discard m statements

/-- The code of statements from first to last. -/
def Stmt.codeAll (discard : Code) (m : Measure) : List Stmt → Code
  | [] => []
  | s :: ss => s.code discard m ++ Stmt.codeAll discard m ss

/-- The code of a member of a class: its value and its key.  Other statements make no member. -/
def Stmt.memberCode (discard : Code) (className : String) : Stmt → Option Code
  | .declare _ name init _ => some (putText name :: Expr.codeOrNull init)
  | .assign _ name value _ => some (putText name :: value.code)
  | .setField _ _ name value => some (putText name :: value.code)
  | .function _ name params body =>
    some (functionCode (className ++ "#" ++ name) params.length (body.code discard .slots)
      ++ [putText (methodKey name), plain .lastFunction])
  | _ => none

/-- The codes of the members of a class. -/
def Block.memberCodes (discard : Code) (className : String) : Block → List Code
  | .mk _ statements => Stmt.memberCodesAll discard className statements

/-- The codes of members in sequence. -/
def Stmt.memberCodesAll (discard : Code) (className : String) : List Stmt → List Code
  | [] => []
  | s :: ss =>
    match s.memberCode discard className with
    | some c => c :: Stmt.memberCodesAll discard className ss
    | none => Stmt.memberCodesAll discard className ss

end

/-- What follows a statement that is an expression, unless something else is asked for. -/
def dropValue : Code := [plain .pop]

/-- The code of a program. -/
def Block.generate (discard : Code) (root : Block) : Code := root.code discard .instructions

end StackScript
