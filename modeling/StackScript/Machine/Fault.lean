import StackScript.Machine.Value
import StackScript.Text.Quoted

/-!
# StackScript.Machine.Fault — why a run ends early

A fault ends a run.  Some come from the values that a program computes, some from calls, and the
rest from code that no compilation makes, such as a recording without an end.  Each has one message.
-/

namespace StackScript

/-- Why a run ended early. -/
inductive Fault where
  /-- a jump or `return` that nothing takes -/
  | strayReturn | strayNext | strayLeave
  /-- a jump in the condition of a loop -/
  | jumpInCondition
  | unclosedRecording
  | unopenedRecording
  | noRecording
  /-- a skip by this distance to where no instruction begins -/
  | badSkip (offset : Int)
  | unsupported (opcode : Opcode)
  | needsInteger (opcode : Opcode)
  | needsText (opcode : Opcode)
  | badVariable (operand : Option Operand)
  | stackUnderflow
  | badSlot (id : Int)
  | unsetSlot (id : Nat)
  | missingParameter (ordinal : Nat)
  | undefinedVariable (name : String)
  | undefinedFunction (name : String)
  | undefinedClass (name : String)
  | undefinedParent (name : String)
  /-- an operation on a value that is no number -/
  | notNumber (operation : String) (type : ValueType)
  | unordered (left right : ValueType)
  /-- `shown` is the text of the index -/
  | badIndex (shown : String)
  | cannotRead (shown : String) (type : ValueType)
  | cannotAssign (shown : String) (type : ValueType)
  | noField (name className : String)
  | noParent (className : String)
  | cannotCall (key : String) (type : ValueType)
  | noMethod (className key : String)
  | noFunction
  | noThis
  | tooDeep (function : String)
  | missingArguments (function : String)
  | badDescriptor (className : String)
  | badMember (shown className : String)
deriving DecidableEq, Repr, Inhabited

namespace Operand

/-- An operand as messages show its parts. -/
def parts : Operand → String
  | boolean b => "Bool(" ++ (if b then "true" else "false") ++ ")"
  | integer i => "Int(" ++ toString i ++ ")"
  | decimal d =>
    "Decimal(Decimal \x7b unscaled: " ++ toString d.unscaled ++ ", scale: " ++ toString d.scale
      ++ " \x7d)"
  | text s => "Text(" ++ Text.quoted s ++ ")"

end Operand

open Text in
/-- The message of a fault. -/
def Fault.message : Fault → String
  | strayReturn => "return outside a function"
  | strayNext => "continue outside a loop"
  | strayLeave => "break outside a loop"
  | jumpInCondition => "jump inside a loop condition"
  | unclosedRecording => "REC without END"
  | unopenedRecording => "END without REC"
  | noRecording => "no recording to consume"
  | badSkip offset => "skip of " ++ toString offset ++ " lands outside an instruction"
  | unsupported o => "unsupported opcode " ++ o.name
  | needsInteger o => o.name ++ " needs an integer operand"
  | needsText o => o.name ++ " needs a text operand"
  | badVariable none => "bad variable operand None"
  | badVariable (some o) => "bad variable operand Some(" ++ o.parts ++ ")"
  | stackUnderflow => "stack underflow"
  | badSlot id => "bad slot id " ++ toString id
  | unsetSlot id => "unset local slot " ++ toString id
  | missingParameter ordinal => "missing parameter " ++ toString ordinal
  | undefinedVariable name => "undefined variable " ++ quoted name
  | undefinedFunction name => "undefined function " ++ quoted name
  | undefinedClass name => "undefined class " ++ quoted name
  | undefinedParent name => "undefined parent class " ++ quoted name
  | notNumber operation type => operation ++ " expects a number, got " ++ type.name
  | unordered left right => "cannot order " ++ left.name ++ " and " ++ right.name
  | badIndex shown => "index " ++ shown ++ " out of range"
  | cannotRead shown type => "cannot read " ++ shown ++ " of a " ++ type.name
  | cannotAssign shown type => "cannot assign " ++ shown ++ " of a " ++ type.name
  | noField name className => "no field " ++ quoted name ++ " on " ++ className
  | noParent className => "class " ++ className ++ " has no parent"
  | cannotCall key type => "cannot call " ++ quoted key ++ " on a " ++ type.name
  | noMethod className key => "class " ++ className ++ " has no method " ++ quoted key
  | noFunction => "no function defined yet"
  | noThis => "this outside a method"
  | tooDeep function => "call depth exceeded in " ++ function
  | missingArguments function => "missing arguments for " ++ function
  | badDescriptor className => "bad descriptor for class " ++ className
  | badMember shown className => "bad member key " ++ shown ++ " in class " ++ className

end StackScript
