import StackScript.Machine.Operation

/-!
# StackScript.Machine.State — the state of the machine and how instructions change it

The machine has a stack of values, one store of local variables for all calls, and a frame for the
running call.  Globals, functions and classes stay from one run to the next.  `Effect` is a change of
this state that may stop early; what was changed before the stop stays changed.  `Exec` is an effect
on the machine that runs code.  `Machine.perform` is the effect of an instruction that neither jumps
nor calls.
-/

namespace StackScript

/-- What belongs to a single call. -/
structure CallFrame where
  params : List Value
  /-- the object of a method -/
  this : Option Nat
deriving Inhabited

/-- The state of the machine. -/
structure Machine (β : Type := Code) where
  /-- the values, the top first -/
  stack : List Value
  /-- the local variables by their slots -/
  locals : List Value
  /-- the frame of the running call -/
  frame : CallFrame
  /-- the frames of its callers, the nearest first -/
  callers : List CallFrame
  globals : Names Value
  functions : Names Nat
  classes : Names Nat
  /-- recorded bodies that wait for their use, the latest first -/
  recordings : List β
  lastFunction : Option Nat
  output : String
  heap : Heap β
  /-- how many calls can be running at one time -/
  maxDepth : Nat
deriving Inhabited

/-- Why an execution stopped early. -/
inductive Stop where
  | fault (f : Fault)
  /-- the machine itself broke down, and there is no state after it that anything could see -/
  | crashed
  /-- the number of steps that was allowed is used up -/
  | exhausted
  /-- given up by the one who watches the execution; the machine never does so -/
  | abandoned
deriving DecidableEq, Repr, Inhabited

/-- A change of the machine's state. -/
abbrev Effect (β : Type) := EStateM Stop (Machine β)

/-- A change of the state of a machine that runs code. -/
abbrev Exec := Effect Code

/-- The calls that can be running at one time unless something else is asked for. -/
def defaultMaxDepth : Nat := 512

namespace Machine

variable {β : Type}

/-- A machine that has not run yet. -/
def start (maxDepth : Nat) : Machine β :=
  { stack := [], locals := [], frame := ⟨[], none⟩, callers := [], globals := [], functions := [],
    classes := [], recordings := [], lastFunction := none, output := "", heap := .empty, maxDepth }

/-! ### Pieces of effects -/

/-- Ends the run with a fault. -/
def stopWith {α : Type} (f : Fault) : Effect β α := throw (.fault f)

/-- The result of an operation, or its fault. -/
def ofResult {α : Type} : Except Fault α → Effect β α
  | .ok a => pure a
  | .error f => stopWith f

/-- Puts a value on the stack. -/
def push (v : Value) : Effect β Unit := modify fun m => { m with stack := v :: m.stack }

/-- Takes the value on top of the stack. -/
def take : Effect β Value := do
  let m ← get
  match m.stack with
  | [] => stopWith .stackUnderflow
  | v :: rest =>
    set { m with stack := rest }
    return v

/-- Takes `n` values, the top first. -/
def takeMany : Nat → Effect β (List Value)
  | 0 => return []
  | n + 1 => do
    let v ← take
    let vs ← takeMany n
    return v :: vs

/-- Takes `n` keys with the values above them, in the order in which they were put. -/
def takePairs : Nat → List (Value × Value) → Effect β (List (Value × Value))
  | 0, taken => return taken
  | n + 1, taken => do
    let v ← take
    let k ← take
    takePairs n ((k, v) :: taken)

/-- Keeps a recording for its use. -/
def keepRecording (b : β) : Effect β Unit :=
  modify fun m => { m with recordings := b :: m.recordings }

/-- Takes the latest recording. -/
def takeRecording : Effect β β := do
  let m ← get
  match m.recordings with
  | [] => stopWith .noRecording
  | c :: rest =>
    set { m with recordings := rest }
    return c

/-- The integer of an instruction. -/
def integerOf (i : Instruction) : Effect β Int :=
  match i.operand with
  | some (.integer n) => pure n
  | _ => stopWith (.needsInteger i.opcode)

/-- The name of an instruction. -/
def nameOf (i : Instruction) : Effect β String :=
  match i.operand with
  | some (.text s) => pure s
  | _ => stopWith (.needsText i.opcode)

/-! ### Variables -/

/-- Where a variable is kept. -/
inductive Place where
  | slot (id : Nat)
  /-- the parameter with this index -/
  | param (index : Nat)
  | global (name : String)
deriving DecidableEq, Repr, Inhabited

/-- The place that an operand addresses. -/
def placeOf : Option Operand → Effect β Place
  | some (.integer (.ofNat id)) => pure (.slot id)
  | some (.integer (.negSucc index)) => pure (.param index)
  | some (.text name) => pure (.global name)
  | other => stopWith (.badVariable other)

/-- The value of a name outside every call: a global, else a function, else a class. -/
def named? (m : Machine β) (name : String) : Option Value :=
  match m.globals.find? name with
  | some v => some v
  | none =>
    match m.functions.find? name with
    | some f => some (.function f)
    | none => (m.classes.find? name).map .ofClass

/-- The value at a place. -/
def read (place : Place) : Effect β Value := do
  let m ← get
  match place with
  | .slot id =>
    match m.locals[id]? with
    | some v => return v
    | none => stopWith (.unsetSlot id)
  | .param index =>
    match m.frame.params[index]? with
    | some v => return v
    | none => stopWith (.missingParameter (index + 1))
  | .global name =>
    match m.named? name with
    | some v => return v
    | none => stopWith (.undefinedVariable name)

/-- Local variables with one written; those before it that were never written are `null`.  There is
room for every slot here, while the program breaks down, without an outcome, over a slot so large
that its memory does not hold all those before it. -/
def putLocal (id : Nat) (v : Value) (locals : List Value) : List Value :=
  (locals ++ List.replicate (id + 1 - locals.length) Value.null).set id v

/-- Writes the value at a place. -/
def write (place : Place) (v : Value) : Effect β Unit := do
  let m ← get
  match place with
  | .slot id => set { m with locals := putLocal id v m.locals }
  | .param index =>
    if index < m.frame.params.length then
      set { m with frame := { m.frame with params := m.frame.params.set index v } }
    else stopWith (.missingParameter (index + 1))
  | .global name => set { m with globals := m.globals.put name v }

/-! ### Operations on values

These leave the stack as it is; instructions take their arguments from it and put their results on
it. -/

variable [Body β]

/-- The result of a binary operator on two values. -/
def compute (op : BinaryOp) (v w : Value) : Effect β Value := do
  let m ← get
  let (result, heap) ← ofResult (m.heap.binary op v w)
  set { m with heap }
  return result

/-- The result of a prefix operator on a value. -/
def computePrefix (op : UnaryOp) (v : Value) : Effect β Value := do
  let m ← get
  ofResult (m.heap.unary op v)

/-- A new list. -/
def newList (items : List Value) : Effect β Value := do
  let m ← get
  let (v, heap) := m.heap.newList items
  set { m with heap }
  return v

/-- A new map. -/
def newMap (entries : List (Value × Value)) : Effect β Value := do
  let m ← get
  let (v, heap) := m.heap.newMap entries
  set { m with heap }
  return v

/-- The member of a container under a key. -/
def member (container key : Value) : Effect β Value := do
  let m ← get
  ofResult (m.heap.get container key)

/-- Writes the member of a container under a key. -/
def writeMember (container key v : Value) : Effect β Unit := do
  let m ← get
  let heap ← ofResult (m.heap.set container key v)
  set { m with heap }

/-- Makes a function whose calls take `arity` values. -/
def defineFunction (name : String) (arity : Nat) (body : β) : Effect β Unit := do
  let m ← get
  let (f, heap) := m.heap.newFunction ⟨name, arity, Body.slots body, body⟩
  set { m with heap, functions := m.functions.put name f, lastFunction := some f }

/-- The parent and the members that the entries of a class's map tell. -/
def readDescriptor (m : Machine β) (className : String) :
    List (Value × Value) → Except Fault (Option Nat × List (String × Value))
  | [] => .ok (none, [])
  | (.boolean false, .text parent) :: rest =>
    match m.classes.find? parent with
    | none => .error (.undefinedParent parent)
    | some id => (m.readDescriptor className rest).map fun r => (some (r.1.getD id), r.2)
  | (.text name, v) :: rest =>
    (m.readDescriptor className rest).map fun r => (r.1, (name, v) :: r.2)
  | (key, _) :: _ => .error (.badMember (m.heap.text key) className)

/-- Makes a class of its map. -/
def defineClass (name : String) : Value → Effect β Unit
  | .map id => do
    let m ← get
    let (parent, members) ← ofResult (m.readDescriptor name (m.heap.map id))
    let ancestors :=
      match parent with
      | some p => m.heap.lineage p
      | none => []
    let (c, heap) := m.heap.newClass ⟨name, members, ancestors⟩
    set { m with heap, classes := m.classes.put name c }
  | _ => stopWith (.badDescriptor name)

/-- The function that was made last. -/
def latestFunction : Effect β Value := do
  match (← get).lastFunction with
  | some f => return .function f
  | none => stopWith .noFunction

/-- The object of the running method. -/
def self : Effect β Value := do
  match (← get).frame.this with
  | some o => return .object o
  | none => stopWith .noThis

/-- Ends a local variable. -/
def clearSlot (slot : Nat) : Effect β Unit :=
  modify fun m => { m with locals := m.locals.set slot .null }

/-- Prints a value. -/
def print (v : Value) : Effect β Unit :=
  modify fun m => { m with output := m.output ++ m.heap.text v ++ "\n" }

/-! ### Instructions -/

/-- The constant of an operand. -/
def constant (operand : Option Operand) : Effect β Value :=
  match Value.ofOperand? operand with
  | some v => return v
  | none => throw .crashed

/-- Takes the right and the left value of a binary operator and puts its result. -/
def performBinary (op : BinaryOp) : Effect β Unit := do
  let right ← take
  let left ← take
  push (← compute op left right)

/-- Updates a variable by the value on top. -/
def performUpdate (op : BinaryOp) (operand : Option Operand) : Effect β Unit := do
  let right ← take
  let place ← placeOf operand
  let current ← read place
  write place (← compute op current right)

/-- Makes a function of the latest recording, and of its arity on top. -/
def makeFunction (name : String) : Effect β Unit := do
  let arity ← ofResult ((← take).asNumber (Opcode.name .makeFunction))
  defineFunction name (Double.toCount arity) (← takeRecording)

/-- The effect of an instruction that neither jumps nor calls. -/
def perform (i : Instruction) : Effect β Unit := do
  match i.opcode with
  | .put => push (← constant i.operand)
  | .pop => discard take
  | .load => push (← read (← placeOf i.operand))
  | .loadParam => push (← read (← placeOf (some (.integer (-(← integerOf i))))))
  | .store =>
    let v ← take
    write (← placeOf i.operand) v
  | .clear =>
    match ← integerOf i with
    | .ofNat slot => clearSlot slot
    | .negSucc n => stopWith (.badSlot (.negSucc n))
  | .negate => push (← computePrefix .negative (← take))
  | .not => push (← computePrefix .not (← take))
  | .bitNot => push (← computePrefix .bitNot (← take))
  | .makeList => push (← newList (← takeMany (← integerOf i).toNat))
  | .makeMap => push (← newMap (← takePairs (← integerOf i).toNat []))
  | .getMember =>
    let key ← take
    let container ← take
    push (← member container key)
  | .setMember =>
    let v ← take
    let key ← take
    let container ← take
    writeMember container key v
    push container
  | .makeFunction => makeFunction (← nameOf i)
  | .makeClass =>
    let name ← nameOf i
    defineClass name (← take)
  | .lastFunction => push (← latestFunction)
  | .this => push (← self)
  | o =>
    match o.computed?, o.updated? with
    | some op, _ => performBinary op
    | none, some op => performUpdate op i.operand
    | none, none => stopWith (.unsupported o)

end Machine

end StackScript
