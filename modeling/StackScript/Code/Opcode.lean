import StackScript.Operator

/-!
# StackScript.Code.Opcode — the operations of the stack machine

An opcode has a name, which listings use, and a number, which the machine's array of slots holds.
`Opcode.table` gives both: the numbers count from one in the order of the table.  Each binary
operator has an opcode that takes two values, and most have a second one that takes the right value
and updates a variable with the result.
-/

namespace StackScript

/-- An operation of the stack machine. -/
inductive Opcode where
  /-- puts its operand on the stack -/
  | put
  | add | sub | mul | div | mod | pow
  /-- takes a value into a variable -/
  | store
  /-- puts the value of a variable on the stack -/
  | load
  /-- ends a local variable -/
  | clear
  /-- begins a recording -/
  | record
  /-- ends a recording -/
  | endRecord
  /-- skips if the value it takes is true -/
  | skipIf
  /-- skips if the value it takes is not true -/
  | skipUnless
  /-- repeats the last two recordings as body and condition -/
  | loop
  | notEqual | equal | greater | greaterEqual | less | lessEqual
  /-- a second code of `lessEqual`, which no machine runs -/
  | lessEqualAlt
  | and | or | bitAnd | bitOr | bitNot | not | shiftLeft | shiftRight
  | bitXor | negate
  /-- drops a value -/
  | pop
  /-- makes a list of the values on top -/
  | makeList
  /-- reads a member of a container -/
  | getMember
  /-- writes a member of a container -/
  | setMember
  /-- makes a map of the keys and values on top -/
  | makeMap
  /-- makes a function of the last recording -/
  | makeFunction
  /-- calls a function by its name; without one it prints -/
  | call
  /-- puts the value of a parameter on the stack -/
  | loadParam
  /-- goes on to the next round of a loop -/
  | next
  /-- leaves a loop -/
  | leave
  /-- leaves a function with a value -/
  | giveBack
  /-- a loop that no machine runs -/
  | loopTest
  /-- skips -/
  | skip
  /-- makes a class of a descriptor map -/
  | makeClass
  /-- makes an instance of a class -/
  | makeInstance
  /-- a call of a member, which no machine runs -/
  | callField
  /-- calls a method of the value that it takes -/
  | callMethod
  /-- puts the instance of the running method on the stack -/
  | this
  /-- puts the function made last on the stack -/
  | lastFunction
  /-- a test of the class, which no machine runs -/
  | isInstance
  | addTo | subFrom | mulBy | divBy | modBy | powBy | bitAndWith | bitOrWith
  | shiftLeftBy | shiftRightBy | bitXorWith
  /-- a call out of the machine, which no machine runs -/
  | nativeCall
deriving DecidableEq, Repr, Inhabited

namespace Opcode

/-- The opcodes with their names, in the order of their numbers. -/
def table : List (Opcode × String) :=
  [(put, "PUT"), (add, "ADD"), (sub, "SUB"), (mul, "MUL"), (div, "DIV"), (mod, "MOD"),
   (pow, "POW"), (store, "SETVAR"), (load, "GETVAR"), (clear, "DELVAR"), (record, "REC"),
   (endRecord, "END"), (skipIf, "SKIPIF"), (skipUnless, "SKIPIFN"), (loop, "WHILE"),
   (notEqual, "NEQ"), (equal, "EQ"), (greater, "GT"), (greaterEqual, "GE"), (less, "LT"),
   (lessEqual, "LE"), (lessEqualAlt, "LEQ"), (and, "AND"), (or, "OR"), (bitAnd, "B_AND"),
   (bitOr, "B_OR"), (bitNot, "B_NOT"), (not, "NOT"), (shiftLeft, "LSHIFT"),
   (shiftRight, "RSHIFT"), (bitXor, "XOR"), (negate, "NEGATE"), (pop, "POP"),
   (makeList, "CREATE_ARR"), (getMember, "GET"), (setMember, "SET"), (makeMap, "CREATE_MAP"),
   (makeFunction, "MKFUNC"), (call, "CALLFUNC"), (loadParam, "GETPARAM"), (next, "CONTINUE"),
   (leave, "BREAK"), (giveBack, "RETURN"), (loopTest, "WHILET"), (skip, "SKIP"),
   (makeClass, "CREATE_CLASS"), (makeInstance, "CREATE_INSTANCE"),
   (callField, "CALLFUNCFROMINS"), (callMethod, "CALLMETHOD"), (this, "THIS"),
   (lastFunction, "GETPTRTOLASTFUNC"), (isInstance, "IS"), (addTo, "INCREASE"),
   (subFrom, "DECREASE"), (mulBy, "INPLACE_MUL"), (divBy, "INPLACE_DIV"), (modBy, "INPLACE_MOD"),
   (powBy, "INPLACE_POW"), (bitAndWith, "INPLACE_AND"), (bitOrWith, "INPLACE_OR"),
   (shiftLeftBy, "INPLACE_LSHIFT"), (shiftRightBy, "INPLACE_RSHIFT"),
   (bitXorWith, "INPLACE_XOR"), (nativeCall, "DLCALL")]

/-- Every opcode, in the order of the numbers. -/
def all : List Opcode := table.map Prod.fst

/-- The name of an opcode. -/
def name (o : Opcode) : String := (table.lookup o).getD ""

/-- The opcode with a name. -/
def ofName? (s : String) : Option Opcode := (table.find? fun p => p.2 == s).map Prod.fst

/-- The number of an opcode. -/
def code (o : Opcode) : Nat := all.idxOf o + 1

/-- The opcode with a number. -/
def ofCode? : Nat → Option Opcode
  | 0 => none
  | n + 1 => all[n]?

/-- The opcode takes up a slot for its operand even if it has none. -/
def takesOperand : Opcode → Bool
  | put | load | store | clear | makeList | makeMap | addTo | subFrom | makeFunction | call
  | loadParam | skipUnless | skipIf | skip | makeClass | makeInstance | callField | callMethod
  | isInstance | mulBy | divBy | modBy | powBy | bitAndWith | bitOrWith | shiftLeftBy
  | shiftRightBy | bitXorWith | nativeCall => true
  | _ => false

/-- The opcode that takes two values and puts the result of a binary operator. -/
def compute : BinaryOp → Opcode
  | .add => add
  | .sub => sub
  | .mul => mul
  | .div => div
  | .mod => mod
  | .pow => pow
  | .equal => equal
  | .notEqual => notEqual
  | .greater => greater
  | .greaterEqual => greaterEqual
  | .less => less
  | .lessEqual => lessEqual
  | .and => and
  | .or => or
  | .bitAnd => bitAnd
  | .bitOr => bitOr
  | .bitXor => bitXor
  | .shiftLeft => shiftLeft
  | .shiftRight => shiftRight

/-- The opcode that updates a variable by a binary operator. -/
def update? : BinaryOp → Option Opcode
  | .add => some addTo
  | .sub => some subFrom
  | .mul => some mulBy
  | .div => some divBy
  | .mod => some modBy
  | .pow => some powBy
  | .bitAnd => some bitAndWith
  | .bitOr => some bitOrWith
  | .bitXor => some bitXorWith
  | .shiftLeft => some shiftLeftBy
  | .shiftRight => some shiftRightBy
  | .equal | .notEqual | .greater | .greaterEqual | .less | .lessEqual | .and | .or => none

/-- The opcode of a prefix operator. -/
def prefixed : UnaryOp → Opcode
  | .negative => negate
  | .not => not
  | .bitNot => bitNot

/-- The binary operator that an opcode computes. -/
def computed? : Opcode → Option BinaryOp
  | add => some .add
  | sub => some .sub
  | mul => some .mul
  | div => some .div
  | mod => some .mod
  | pow => some .pow
  | equal => some .equal
  | notEqual => some .notEqual
  | greater => some .greater
  | greaterEqual => some .greaterEqual
  | less => some .less
  | lessEqual => some .lessEqual
  | and => some .and
  | or => some .or
  | bitAnd => some .bitAnd
  | bitOr => some .bitOr
  | bitXor => some .bitXor
  | shiftLeft => some .shiftLeft
  | shiftRight => some .shiftRight
  | _ => none

/-- The binary operator that an opcode updates a variable by. -/
def updated? : Opcode → Option BinaryOp
  | addTo => some .add
  | subFrom => some .sub
  | mulBy => some .mul
  | divBy => some .div
  | modBy => some .mod
  | powBy => some .pow
  | bitAndWith => some .bitAnd
  | bitOrWith => some .bitOr
  | bitXorWith => some .bitXor
  | shiftLeftBy => some .shiftLeft
  | shiftRightBy => some .shiftRight
  | _ => none

/-- The opcode that computes what an updating opcode puts into its variable. -/
def base? (o : Opcode) : Option Opcode := o.updated?.map compute

end Opcode

end StackScript
