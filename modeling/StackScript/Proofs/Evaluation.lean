import StackScript.InPlace
import StackScript.Code.Generate
import StackScript.Proofs.Execution

/-!
# StackScript.Proofs.Evaluation — direct evaluation of trees

`Expr.evaluate` and `Stmt.evaluate` say what a resolved tree means without code, instructions or a
stack: expressions have values, statements change the state by the operations on values that the
machine has, and the control of statements is that of `Stmt.execute`.

A call passes a list of arguments.  If their number is not the one that the callee takes,
evaluation is given up: with such a call the machine takes more or fewer values than were put, and
no meaning of the call alone can tell which.

A watched evaluation also looks at each assignment `x = x op e`, and is given up where the value of
`x` cannot be read before `e` or is another one after it.
-/

namespace StackScript

open Machine

namespace Machine

/-! ### Variables and calls -/

/-- Where the variable of a name with a binding is kept. -/
def placeFor (name : String) (binding : Option Binding) : Place :=
  match binding.bind Binding.id? with
  | some (.ofNat id) => .slot id
  | some (.negSucc index) => .param index
  | none => .global name

variable {β : Type}

/-- The state in which the body of a call begins. -/
def begun (m : Machine β) (this : Option Nat) (args : List Value) : Machine β :=
  { m with frame := ⟨args, this⟩, callers := m.frame :: m.callers }

/-- The state after a call. -/
def returned (m : Machine β) (saved : Saved) : Machine β :=
  { m with
    locals := restore saved m.locals
    frame := m.callers.headD m.frame
    callers := m.callers.tail }

/-- A call with its arguments; `run` runs the body. -/
def callWith (run : β → Effect β Flow) (f : Function β) (this : Option Nat) (args : List Value) :
    Effect β Value := fun m =>
  if m.maxDepth ≤ m.callers.length then .error (.fault (.tooDeep f.name)) m
  else if args.length ≠ f.arity then .error .abandoned m
  else
    let saved := m.save f
    match run f.body (m.begun this args) with
    | .ok flow m' => .ok (valueOf flow) (m'.returned saved)
    | .error e m' => .error e (m'.returned saved)

/-- A call that takes its arguments off a stack, as many as its function asks for. -/
def callOn (run : β → Effect β Flow) (f : Function β) (this : Option Nat) (stack : List Value) :
    Effect β Value := fun m =>
  if m.maxDepth ≤ m.callers.length then .error (.fault (.tooDeep f.name)) m
  else if stack.length < f.arity then .error (.fault (.missingArguments f.name)) m
  else
    let saved := m.save f
    match run f.body (m.begun this (stack.take f.arity).reverse) with
    | .ok flow m' => .ok (valueOf flow) (m'.returned saved)
    | .error e m' => .error e (m'.returned saved)

/-- A call whose arguments are as many as its function asks for takes exactly these. -/
theorem callWith_eq_callOn (run : β → Effect β Flow) {f : Function β} (this : Option Nat)
    {args : List Value} (h : args.length = f.arity) (stack : List Value) :
    callWith run f this args = callOn run f this (args.reverse ++ stack) := by
  have hlength : ¬ (args.reverse ++ stack).length < f.arity := by
    rw [List.length_append, List.length_reverse, h]
    omega
  have htake : ((args.reverse ++ stack).take f.arity).reverse = args := by
    rw [← h, ← List.length_reverse, List.take_left, List.reverse_reverse]
  funext m
  unfold callWith callOn
  rw [if_neg (not_not_intro h), if_neg hlength, htake]

/-- The value at a place; what cannot be read is given up. -/
def readable (place : Place) : Effect β Value := fun m =>
  match read place m with
  | .ok v m' => .ok v m'
  | .error _ m' => .error .abandoned m'

end Machine

/-! ### Expressions -/

mutual

/-- The value of an expression. -/
def Expr.evaluate (run : Block → Effect Block Flow) : Expr → Effect Block Value
  | .number _ value => constant (some value.operand)
  | .text _ value => return .text value
  | .boolean _ value => return .boolean value
  | .null _ => return .null
  | .this _ => self
  | .super _ => do
    let object ← self
    member object (.boolean true)
  | .list _ items => do
    let values ← Expr.evaluateBackwards run items
    newList values
  | .map _ entries => do
    let pairs ← Expr.evaluatePairs run entries
    newMap pairs
  | .variable _ name binding => read (placeFor name binding)
  | .field _ receiver name => do
    let container ← receiver.evaluate run
    member container (.text name)
  | .binary _ op left right _ => do
    let v ← left.evaluate run
    let w ← right.evaluate run
    compute op v w
  | .unary _ op operand => do
    let v ← operand.evaluate run
    computePrefix op v
  | .call _ name args => do
    let values ← Expr.evaluateAll run args
    let f ← functionNamed name
    callWith run f none values
  | .method _ receiver name args => do
    let values ← Expr.evaluateAll run args
    let object ← receiver.evaluate run
    let method ← methodOf ("#" ++ name) object
    callWith run method.1 (some method.2) values
  | .create _ className args => do
    let values ← Expr.evaluateAll run args
    let made ← makeObject className
    match made.2 with
    | some f =>
      let _ ← callWith run f (some made.1) values
      return .object made.1
    | none => if values.isEmpty then return .object made.1 else throw .abandoned

/-- The values of expressions from first to last. -/
def Expr.evaluateAll (run : Block → Effect Block Flow) : List Expr → Effect Block (List Value)
  | [] => return []
  | e :: es => do
    let v ← e.evaluate run
    let vs ← Expr.evaluateAll run es
    return v :: vs

/-- The values of expressions, the last evaluated first. -/
def Expr.evaluateBackwards (run : Block → Effect Block Flow) :
    List Expr → Effect Block (List Value)
  | [] => return []
  | e :: es => do
    let vs ← Expr.evaluateBackwards run es
    let v ← e.evaluate run
    return v :: vs

/-- The values of keys and of what they lead to, from first to last. -/
def Expr.evaluatePairs (run : Block → Effect Block Flow) :
    List (Expr × Expr) → Effect Block (List (Value × Value))
  | [] => return []
  | (k, e) :: es => do
    let key ← k.evaluate run
    let v ← e.evaluate run
    let pairs ← Expr.evaluatePairs run es
    return (key, v) :: pairs

end

/-- The value of an expression that is `null` if it is absent. -/
def Expr.evaluateOrNull (run : Block → Effect Block Flow) : Option Expr → Effect Block Value
  | none => return .null
  | some e => e.evaluate run

/-! ### Statements -/

/-- The number of parameters of a function, as the machine keeps it. -/
def arityOf (params : List String) : Nat := Double.toCount (Double.ofInt params.length)

/-- An update of a variable whose value does not change in between. -/
def Update.evaluate (run : Block → Effect Block Flow) (name : String) (u : Update) :
    Effect Block Unit := do
  let place := placeFor name (some u.target)
  let before ← readable place
  let v ← u.right.evaluate run
  let after ← readable place
  if before = after then write place (← compute u.op before v) else throw .abandoned

/-- The entries that a statement adds to the map of a class. -/
def Stmt.evaluateMember (run : Block → Effect Block Flow) (className : String) :
    Stmt → Effect Block (List (Value × Value))
  | .declare _ name init _ => return [(.text name, ← Expr.evaluateOrNull run init)]
  | .assign _ name e _ => return [(.text name, ← e.evaluate run)]
  | .setField _ _ name e => return [(.text name, ← e.evaluate run)]
  | .function _ name params body => do
    defineFunction (className ++ "#" ++ name) (arityOf params) body
    return [(.text (methodKey name), ← latestFunction)]
  | _ => return []

/-- The entries of the map of a class. -/
def Stmt.evaluateMembers (run : Block → Effect Block Flow) (className : String) :
    List Stmt → Effect Block (List (Value × Value))
  | [] => return []
  | s :: ss => do
    let entries ← s.evaluateMember run className
    let rest ← Stmt.evaluateMembers run className ss
    return entries ++ rest

/-- The entry for the parent of a class. -/
def parentEntry : Option String → List (Value × Value)
  | some p => [(.boolean false, .text p)]
  | none => []

/-- What a statement that leads to the next one does. -/
def Stmt.evaluate (watched : Bool) (run : Block → Effect Block Flow) : Stmt → Effect Block Unit
  | .value e => do
    let _ ← e.evaluate run
    return ()
  | .declare _ name init binding => do
    let v ← Expr.evaluateOrNull run init
    write (placeFor name binding) v
  | .assign _ name e binding =>
    match watched, e.update? name binding with
    | true, some u => u.evaluate run name
    | _, _ => do
      let v ← e.evaluate run
      write (placeFor name binding) v
  | .setField _ receiver name e => do
    let container ← receiver.evaluate run
    let v ← e.evaluate run
    writeMember container (.text name) v
  | .print _ e => do
    let v ← e.evaluate run
    Machine.print v
  | .function _ name params body => defineFunction name (arityOf params) body
  | .classDecl _ name parent members => do
    let entries ← Stmt.evaluateMembers run name members.statements
    let map ← newMap (entries ++ parentEntry parent)
    defineClass name map
  | .free _ _ slot => clearSlot slot
  | _ => return ()

/-- The basis of direct evaluation. -/
def direct (watched : Bool) (_ : Nat) (run : Block → Effect Block Flow) : Basis Block where
  effect := Stmt.evaluate watched run
  test condition := do
    let v ← condition.evaluate run
    return (← get).heap.truth v
  result := Expr.evaluateOrNull run

/-! ### More steps -/

section
variable {run run' : Block → Effect Block Flow} (h : ∀ b, Below (run b) (run' b))

include h

theorem Machine.callWith_below (f : Function Block) (this : Option Nat) (args : List Value) :
    Below (callWith run f this args) (callWith run' f this args) := by
  intro m
  unfold callWith
  by_cases hd : m.maxDepth ≤ m.callers.length
  · exact .inr (by rw [if_pos hd, if_pos hd])
  by_cases ha : args.length ≠ f.arity
  · exact .inr (by rw [if_neg hd, if_neg hd, if_pos ha, if_pos ha])
  simp only [if_neg hd, if_neg ha]
  rcases h f.body (m.begun this args) with ⟨m', h'⟩ | h'
  · rw [h']
    exact .inl ⟨_, rfl⟩
  · rw [h']
    exact .inr rfl

omit h

mutual

theorem Expr.evaluate_below (h : ∀ b, Below (run b) (run' b)) :
    (e : Expr) → Below (e.evaluate run) (e.evaluate run')
  | .number _ _ | .text _ _ | .boolean _ _ | .null _ | .this _ | .super _ | .variable _ _ _ =>
    .refl _
  | .list _ items => (Expr.evaluateBackwards_below h items).bind fun _ => .refl _
  | .map _ entries => (Expr.evaluatePairs_below h entries).bind fun _ => .refl _
  | .field _ receiver _ => (receiver.evaluate_below h).bind fun _ => .refl _
  | .binary _ _ left right _ =>
    (left.evaluate_below h).bind fun _ => (right.evaluate_below h).bind fun _ => .refl _
  | .unary _ _ operand => (operand.evaluate_below h).bind fun _ => .refl _
  | .call _ _ args =>
    (Expr.evaluateAll_below h args).bind fun _ => (Below.refl _).bind fun f =>
      callWith_below h f none _
  | .method _ receiver _ args =>
    (Expr.evaluateAll_below h args).bind fun _ => (receiver.evaluate_below h).bind fun _ =>
      (Below.refl _).bind fun method => callWith_below h method.1 (some method.2) _
  | .create _ _ args => by
    refine (Expr.evaluateAll_below h args).bind fun vs => (Below.refl _).bind fun made => ?_
    cases made.2 with
    | some f => exact (callWith_below h f (some made.1) vs).bind fun _ => .refl _
    | none => exact .refl _

theorem Expr.evaluateAll_below (h : ∀ b, Below (run b) (run' b)) :
    (es : List Expr) → Below (Expr.evaluateAll run es) (Expr.evaluateAll run' es)
  | [] => .refl _
  | e :: es =>
    (e.evaluate_below h).bind fun _ => (Expr.evaluateAll_below h es).bind fun _ => .refl _

theorem Expr.evaluateBackwards_below (h : ∀ b, Below (run b) (run' b)) :
    (es : List Expr) → Below (Expr.evaluateBackwards run es) (Expr.evaluateBackwards run' es)
  | [] => .refl _
  | e :: es =>
    (Expr.evaluateBackwards_below h es).bind fun _ => (e.evaluate_below h).bind fun _ => .refl _

theorem Expr.evaluatePairs_below (h : ∀ b, Below (run b) (run' b)) :
    (es : List (Expr × Expr)) → Below (Expr.evaluatePairs run es) (Expr.evaluatePairs run' es)
  | [] => .refl _
  | (k, e) :: es =>
    (k.evaluate_below h).bind fun _ => (e.evaluate_below h).bind fun _ =>
      (Expr.evaluatePairs_below h es).bind fun _ => .refl _

end

include h

theorem Expr.evaluateOrNull_below (e : Option Expr) :
    Below (Expr.evaluateOrNull run e) (Expr.evaluateOrNull run' e) := by
  cases e with
  | none => exact .refl _
  | some e => exact e.evaluate_below h

theorem Update.evaluate_below (name : String) (u : Update) :
    Below (u.evaluate run name) (u.evaluate run' name) :=
  (Below.refl _).bind fun _ => (u.right.evaluate_below h).bind fun _ => .refl _

theorem Stmt.evaluateMembers_below (className : String) (ss : List Stmt) :
    Below (Stmt.evaluateMembers run className ss) (Stmt.evaluateMembers run' className ss) := by
  induction ss with
  | nil => exact .refl _
  | cons s ss ih =>
    refine Below.bind ?_ fun _ => ih.bind fun _ => .refl _
    cases s with
    | declare line name init => exact (Expr.evaluateOrNull_below h init).bind fun _ => .refl _
    | assign line name e => exact (e.evaluate_below h).bind fun _ => .refl _
    | setField line receiver name e => exact (e.evaluate_below h).bind fun _ => .refl _
    | _ => exact .refl _

theorem Stmt.evaluate_below (watched : Bool) (s : Stmt) :
    Below (s.evaluate watched run) (s.evaluate watched run') := by
  cases s with
  | value e => exact (e.evaluate_below h).bind fun _ => .refl _
  | declare line name init => exact (Expr.evaluateOrNull_below h init).bind fun _ => .refl _
  | assign line name e binding =>
    have hplain := (e.evaluate_below h).bind fun v => Below.refl (write (placeFor name binding) v)
    cases watched with
    | false => exact hplain
    | true =>
      cases hu : e.update? name binding with
      | none =>
        simp only [Stmt.evaluate, hu]
        exact hplain
      | some u =>
        simp only [Stmt.evaluate, hu]
        exact u.evaluate_below h name
  | setField line receiver name e =>
    exact (receiver.evaluate_below h).bind fun _ => (e.evaluate_below h).bind fun _ => .refl _
  | print line e => exact (e.evaluate_below h).bind fun _ => .refl _
  | classDecl line name parent members =>
    exact (Stmt.evaluateMembers_below h name _).bind fun _ => .refl _
  | _ => exact .refl _

end

theorem direct_rising (watched : Bool) : Rising (direct watched) := by
  intro n run run' h
  refine ⟨fun s => ?_, fun e => ?_, fun e => ?_, fun _ _ h => h⟩
  · exact below_iff_lockstep.mp (s.evaluate_below h watched)
  · exact below_iff_lockstep.mp ((e.evaluate_below h).bind fun _ => .refl _)
  · exact below_iff_lockstep.mp (Expr.evaluateOrNull_below h e)

end StackScript
