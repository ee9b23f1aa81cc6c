import StackScript.Machine.State

/-!
# StackScript.Machine.Run — running code

`runFrom` runs code from one of its instructions on.  `advance` is what it does with one of them:
it changes the state and tells where to go on, or how the code ends.  Each instruction uses up one
unit of fuel, and so does each round of a loop; `ampleFuel` is so much that no run in practice uses
it up.  A call takes its arguments off the stack, and when it ends, however it does, the stack
is cut back to what was below them, and the local variables that its body declares get their values
back.
-/

namespace StackScript

/-- How a piece of code ended. -/
inductive Flow where
  | done
  /-- a `return` with its value -/
  | gaveBack (v : Value)
  | next
  | leave
deriving DecidableEq, Repr, Inhabited

namespace Code

/-- How many instructions come before the end of a recording, in the code after its begin.  `depth`
counts the recordings opened in it. -/
def recordingLength? (depth : Nat) : Code → Option Nat
  | [] => none
  | i :: is =>
    if i.opcode = .record then (recordingLength? (depth + 1) is).map (· + 1)
    else if i.opcode = .endRecord then
      match depth with
      | 0 => some 0
      | d + 1 => (recordingLength? d is).map (· + 1)
    else (recordingLength? depth is).map (· + 1)

end Code

namespace Machine

variable {β : Type}

/-! ### Loops -/

/-- Takes a value and tells whether it is true. -/
def takeTruth : Effect β Bool := do
  let v ← take
  return (← get).heap.truth v

/-- What a loop does when its condition has put its value: its body, after which it goes on with
`again`.  In the end a loop is done or has returned a value. -/
def turn (body again : Effect β Flow) : Effect β Flow := do
  if ← takeTruth then
    match ← body with
    | .done | .next => again
    | .leave => return .done
    | .gaveBack v => return .gaveBack v
  else return .done

/-- A round of a loop, which goes on with `again`. -/
def round (condition body again : Effect β Flow) : Effect β Flow := do
  match ← condition with
  | .done => turn body again
  | .gaveBack v => return .gaveBack v
  | .next | .leave => stopWith .jumpInCondition

/-- At most `n` rounds of a loop. -/
def rounds (condition body : Effect β Flow) : Nat → Effect β Flow
  | 0 => throw .exhausted
  | n + 1 => round condition body (rounds condition body n)

/-! ### Calls -/

/-- Local variables as they were before a call. -/
abbrev Saved := List (Nat × Option Value)

/-- The local variables that a function declares, as they are. -/
def save (m : Machine β) (f : Function β) : Saved := f.slots.map fun slot => (slot, m.locals[slot]?)

/-- Gives saved local variables their values back. -/
def restore (saved : Saved) (locals : List Value) : List Value :=
  saved.foldl (fun locals s => locals.set s.1 (s.2.getD .null)) locals

/-- The state in which the body of a function begins. -/
def enter (m : Machine β) (f : Function β) (this : Option Nat) : Machine β :=
  { m with
    stack := m.stack.drop f.arity
    frame := ⟨(m.stack.take f.arity).reverse, this⟩
    callers := m.frame :: m.callers }

/-- The state after a call that left `base` values below its arguments. -/
def leave (m : Machine β) (base : Nat) (saved : Saved) : Machine β :=
  { m with
    stack := m.stack.drop (m.stack.length - base)
    locals := restore saved m.locals
    frame := m.callers.headD m.frame
    callers := m.callers.tail }

/-- The value of a call. -/
def valueOf : Flow → Value
  | .gaveBack v => v
  | .done | .next | .leave => .null

/-- A call around the run of its body. -/
def calling (f : Function β) (this : Option Nat) (body : Effect β Flow) : Effect β Value := fun m =>
  if m.maxDepth ≤ m.callers.length then .error (.fault (.tooDeep f.name)) m
  else if m.stack.length < f.arity then .error (.fault (.missingArguments f.name)) m
  else
    let base := m.stack.length - f.arity
    let saved := m.save f
    match body (m.enter f this) with
    | .ok flow m' => .ok (valueOf flow) (m'.leave base saved)
    | .error e m' => .error e (m'.leave base saved)

variable [Body β]

/-- The function of a name. -/
def functionNamed (name : String) : Effect β (Function β) := do
  let m ← get
  match m.functions.find? name with
  | some f => return m.heap.function f
  | none => stopWith (.undefinedFunction name)

/-- The method of a receiver and the object to call it on. -/
def methodOf (key : String) (receiver : Value) : Effect β (Function β × Nat) := do
  let m ← get
  match m.heap.instance? receiver with
  | none => stopWith (.cannotCall key receiver.type)
  | some (objectId, classId) =>
    match m.heap.method? classId key with
    | some f => return (m.heap.function f, objectId)
    | none => stopWith (.noMethod (m.heap.classAt classId).name key)

/-- Makes an object of the class of a name, and finds the constructor to call on it. -/
def makeObject (name : String) : Effect β (Nat × Option (Function β)) := do
  let m ← get
  match m.classes.find? name with
  | none => stopWith (.undefinedClass name)
  | some classId =>
    let (objectId, heap) := m.heap.newObject ⟨classId, m.heap.fieldsOf classId⟩
    set { m with heap }
    return (objectId, (m.heap.method? classId "<init>").map m.heap.function)

/-- A call that an instruction asks for. -/
structure Call (β : Type) where
  function : Function β
  /-- the object of a method -/
  this : Option Nat
  /-- the new object of a constructor, which counts in place of the value of the call -/
  made : Option Value

/-- The effect of an instruction that does not jump, up to the call that it asks for. -/
def prepare (i : Instruction) : Effect β (Option (Call β)) := do
  match i.opcode with
  | .call =>
    match i.operand with
    | none => do
      print (← take)
      return none
    | some _ => return some ⟨← functionNamed (← nameOf i), none, none⟩
  | .callMethod => do
    let key ← nameOf i
    let (f, this) ← methodOf key (← take)
    return some ⟨f, some this, none⟩
  | .makeInstance => do
    let (this, init) ← makeObject (← nameOf i)
    match init with
    | some f => return some ⟨f, some this, some (.object this)⟩
    | none => do
      push (.object this)
      return none
  | _ => do
    perform i
    return none

/-- The effect of an instruction that does not jump; `run` runs the bodies of functions. -/
def act (run : β → Effect β Flow) (i : Instruction) : Effect β Unit := do
  match ← prepare i with
  | none => return ()
  | some c =>
    let v ← calling c.function c.this (run c.function.body)
    push (c.made.getD v)

/-! ### Code -/

/-- Where a skip leads. -/
def skipFrom (measure : Measure) (code : Code) (pc : Nat) (i : Instruction) : Exec Nat := do
  let offset ← integerOf i
  match measure.target? code pc offset with
  | some target => return target
  | none => stopWith (.badSkip offset)

/-- Where code goes on, or how it ends. -/
inductive Move where
  | to (pc : Nat)
  | out (flow : Flow)
deriving Repr, Inhabited

/-- The effect of the instruction at `pc`.  `run` runs the bodies of functions and loops, and a loop
has at most `limit` rounds. -/
def advance (run : Code → Exec Flow) (limit : Nat) (measure : Measure) (code : Code) (pc : Nat)
    (i : Instruction) : Exec Move :=
  match i.opcode with
  | .record =>
    match Code.recordingLength? 0 (code.drop (pc + 1)) with
    | none => stopWith .unclosedRecording
    | some n => do
      keepRecording ((code.drop (pc + 1)).take n)
      return .to (pc + n + 2)
  | .endRecord => stopWith .unopenedRecording
  | .skip => return .to (← skipFrom measure code pc i)
  | .skipIf => do
    if ← takeTruth then return .to (← skipFrom measure code pc i) else return .to (pc + 1)
  | .skipUnless => do
    if ← takeTruth then return .to (pc + 1) else return .to (← skipFrom measure code pc i)
  | .loop => do
    let condition ← takeRecording
    let body ← takeRecording
    match ← rounds (run condition) (run body) limit with
    | .gaveBack v => return .out (.gaveBack v)
    | _ => return .to (pc + 1)
  | .next => return .out .next
  | .leave => return .out .leave
  | .giveBack => return .out (.gaveBack (← take))
  | _ => do
    act run i
    return .to (pc + 1)

/-- Runs code from the instruction at `pc` on. -/
def runFrom (measure : Measure) (code : Code) (fuel pc : Nat) : Exec Flow :=
  match fuel with
  | 0 => throw .exhausted
  | fuel + 1 =>
    match code[pc]? with
    | none => return .done
    | some i => do
      match ← advance (fun c => runFrom .slots c fuel 0) fuel measure code pc i with
      | .to pc => runFrom measure code fuel pc
      | .out flow => return flow
termination_by structural fuel

/-- What a run makes of the way its code ended. -/
def finish : Flow → Effect β Unit
  | .done => return ()
  | .gaveBack _ => stopWith .strayReturn
  | .next => stopWith .strayNext
  | .leave => stopWith .strayLeave

/-- Runs the code of a program in at most `fuel` steps. -/
def runFor (fuel : Nat) (code : Code) : Exec Unit := do
  finish (← runFrom .instructions code fuel 0)

/-- More steps than a run takes in practice. -/
def ampleFuel : Nat := 1000000000000000

/-- Runs the code of a program in at most `fuel` steps: why it stopped early, and the state that it
left. -/
def run (m : Machine) (fuel : Nat) (code : Code) : Option Stop × Machine :=
  match runFor fuel code m with
  | .ok () m' => (none, m')
  | .error e m' => (some e, m')

/-! ### Between runs -/

/-- Cuts the stack back to its lowest `depth` values and drops what a failed run left of calls. -/
def recover (m : Machine) (depth : Nat) : Machine :=
  { m with
    stack := m.stack.drop (m.stack.length - depth)
    locals := []
    frame := m.callers.getLast?.getD m.frame
    callers := []
    recordings := [] }

/-- Takes the value on top of the stack, if there is one. -/
def pop (m : Machine) : Option Value × Machine :=
  match m.stack with
  | [] => (none, m)
  | v :: rest => (some v, { m with stack := rest })

/-- Takes what has been printed. -/
def takeOutput (m : Machine) : String × Machine := (m.output, { m with output := "" })

end Machine

/-- The message of a run that stopped early. -/
def Stop.message : Stop → String
  | fault f => "RuntimeError: " ++ f.message
  | crashed => "Formatting argument out of range"
  | exhausted => "RuntimeError: out of steps"
  | abandoned => "RuntimeError: given up"

end StackScript
