import StackScript.Proofs.OperationsCommute

/-!
# StackScript.Proofs.Views — machines seen with other bodies and another stack

A `View` is a guise that keeps the local variables, those of functions too.  So every operation on
values and every instruction commutes with it, whichever local variable it addresses.
-/

namespace StackScript

variable {β γ : Type}

/-- A function with another body. -/
def Function.mapBody (g : β → γ) (f : Function β) : Function γ := ⟨f.name, f.arity, f.slots, g f.body⟩

/-- A heap with other bodies. -/
def Heap.mapBodies (g : β → γ) (h : Heap β) : Heap γ :=
  ⟨h.lists, h.maps, h.functions.map (Function.mapBody g), h.classes, h.objects⟩

/-- A machine with other bodies, another stack and other recordings. -/
structure View (β γ : Type) [Body β] [Body γ] where
  body : β → γ
  stack : List Value → List Value
  recordings : List β → List γ
  body_default : body default = default
  body_slots : ∀ b, Body.slots (body b) = Body.slots b

/-- The machine that a view shows. -/
def View.see [Body β] [Body γ] (v : View β γ) (m : Machine β) : Machine γ :=
  { m with
    stack := v.stack m.stack
    recordings := v.recordings m.recordings
    heap := m.heap.mapBodies v.body }

namespace View

variable [Body β] [Body γ] (v : View β γ) (m : Machine β)

/-- A view as a guise. -/
def guise : Guise β γ where
  body := v.body
  slots f := f.slots
  stack := v.stack
  locals := id
  recordings := v.recordings
  body_default := v.body_default
  slots_default := rfl
  slots_made _ _ b := (v.body_slots b).symm

theorem guise_keeps (place : Machine.Place) : v.guise.Keeps place := fun _ _ _ => rfl

@[simp] theorem see_locals : (v.see m).locals = m.locals := rfl

@[simp] theorem see_frame : (v.see m).frame = m.frame := rfl

@[simp] theorem see_callers : (v.see m).callers = m.callers := rfl

@[simp] theorem see_functions : (v.see m).functions = m.functions := rfl

@[simp] theorem see_classes : (v.see m).classes = m.classes := rfl

@[simp] theorem see_lastFunction : (v.see m).lastFunction = m.lastFunction := rfl

@[simp] theorem see_heap : (v.see m).heap = m.heap.mapBodies v.body := rfl

@[simp] theorem see_named? (name : String) : (v.see m).named? name = m.named? name := rfl

end View

/-! ### Operations on values -/

namespace Machine

variable [Body β] [Body γ] (v : View β γ)

theorem read_commutes (place : Place) : Commutes id v.see (read place) (read place) :=
  v.guise.read_commutes (v.guise_keeps place)

theorem write_commutes (place : Place) (w : Value) :
    Commutes id v.see (write place w) (write place w) :=
  v.guise.write_commutes (v.guise_keeps place) w

theorem compute_commutes (op : BinaryOp) (a b : Value) :
    Commutes id v.see (compute op a b) (compute op a b) := v.guise.compute_commutes op a b

theorem computePrefix_commutes (op : UnaryOp) (a : Value) :
    Commutes id v.see (computePrefix op a) (computePrefix op a) :=
  v.guise.computePrefix_commutes op a

theorem newList_commutes (items : List Value) :
    Commutes id v.see (newList items) (newList items) := v.guise.newList_commutes items

theorem newMap_commutes (entries : List (Value × Value)) :
    Commutes id v.see (newMap entries) (newMap entries) := v.guise.newMap_commutes entries

theorem member_commutes (container key : Value) :
    Commutes id v.see (member container key) (member container key) :=
  v.guise.member_commutes container key

theorem writeMember_commutes (container key w : Value) :
    Commutes id v.see (writeMember container key w) (writeMember container key w) :=
  v.guise.writeMember_commutes container key w

theorem defineFunction_commutes (name : String) (arity : Nat) (b : β) :
    Commutes id v.see (defineFunction name arity (v.body b)) (defineFunction name arity b) :=
  v.guise.defineFunction_commutes name arity b

theorem defineClass_commutes (name : String) (w : Value) :
    Commutes id v.see (defineClass name w) (defineClass name w) :=
  v.guise.defineClass_commutes name w

theorem constant_commutes (o : Option Operand) :
    Commutes id v.see (constant o) (constant o) := v.guise.constant_commutes o

theorem latestFunction_commutes : Commutes id v.see latestFunction latestFunction :=
  v.guise.latestFunction_commutes

theorem self_commutes : Commutes id v.see self self := v.guise.self_commutes

theorem clearSlot_commutes (slot : Nat) :
    Commutes id v.see (clearSlot slot) (clearSlot slot) :=
  v.guise.clearSlot_commutes (fun _ => rfl) slot

theorem print_commutes (w : Value) : Commutes id v.see (print w) (print w) :=
  v.guise.print_commutes w

theorem functionNamed_commutes (name : String) :
    Commutes (Function.mapBody v.body) v.see (functionNamed name) (functionNamed name) :=
  v.guise.functionNamed_commutes name

theorem methodOf_commutes (key : String) (receiver : Value) :
    Commutes (fun r => (r.1.mapBody v.body, r.2)) v.see (methodOf key receiver)
      (methodOf key receiver) := v.guise.methodOf_commutes key receiver

theorem makeObject_commutes (name : String) :
    Commutes (fun r => (r.1, r.2.map (Function.mapBody v.body))) v.see (makeObject name)
      (makeObject name) := v.guise.makeObject_commutes name

/-! ### Instructions -/

/-- The call that is asked for, with another body. -/
def Call.mapBody (g : β → γ) (c : Call β) : Call γ := ⟨c.function.mapBody g, c.this, c.made⟩

variable {v} (hs : ∀ st, v.stack st = st) (hr : ∀ rs, v.recordings rs = rs.map v.body)

include hr in
theorem keepRecording_commutes (b : β) :
    Commutes id v.see (keepRecording (v.body b)) (keepRecording b) :=
  Guise.keepRecording_commutes (v := v.guise) hr b

include hs

theorem push_commutes (w : Value) : Commutes id v.see (push w) (push w) :=
  Guise.push_commutes (v := v.guise) hs w

theorem take_commutes : Commutes id v.see take take := Guise.take_commutes (v := v.guise) hs

theorem takeTruth_commutes : Commutes id v.see takeTruth takeTruth :=
  Guise.takeTruth_commutes (v := v.guise) hs

include hr in
/-- The effect of an instruction up to the call that it asks for. -/
theorem prepare_commutes (i : Instruction) :
    Commutes (Option.map (Call.mapBody v.body)) v.see (prepare i) (prepare i) :=
  Guise.prepare_commutes (v := v.guise) hs hr fun _ _ _ => rfl

end Machine

end StackScript
