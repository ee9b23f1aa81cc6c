import StackScript.Code.Instruction
import StackScript.Double.Reading
import StackScript.Double.Whole
import StackScript.Names
import StackScript.SlotPool

/-!
# StackScript.Machine.Value — values and the heap that they point into

Null, booleans, numbers and strings are plain values.  Lists, maps and objects can change after they
were made, and all who hold one see the change, so a value only has their place in the heap; so it
is with functions and classes, which are told apart by their place.  Nothing is ever taken out of
the heap.

The machine runs functions whose bodies are code.  What it does with values does not depend on
that, so functions, the heap and the state of the machine take the type of bodies as a parameter.
-/

namespace StackScript

/-- A value of the running program. -/
inductive Value where
  | null
  | boolean (b : Bool)
  | number (x : Float)
  | text (s : String)
  | list (id : Nat)
  | map (id : Nat)
  | function (id : Nat)
  | ofClass (id : Nat)
  | object (id : Nat)
  /-- an object as an instance of an ancestor of its class -/
  | view (objectId classId : Nat)
deriving DecidableEq, Repr, Inhabited

/-- The types that messages name. -/
inductive ValueType where
  | null | boolean | number | string | list | map | function | ofClass | object
deriving DecidableEq, Repr, Inhabited

/-- The name of a type. -/
def ValueType.name : ValueType → String
  | null => "null"
  | boolean => "boolean"
  | number => "number"
  | string => "string"
  | list => "list"
  | map => "map"
  | function => "function"
  | ofClass => "class"
  | object => "instance"

namespace Value

/-- The type of a value. -/
def type : Value → ValueType
  | null => .null
  | boolean _ => .boolean
  | number _ => .number
  | text _ => .string
  | list _ => .list
  | map _ => .map
  | function _ => .function
  | ofClass _ => .ofClass
  | object _ | view _ _ => .object

/-- The constant that an operand stands for; there is none for a decimal that cannot be written. -/
def ofOperand? : Option Operand → Option Value
  | none => some null
  | some (.boolean b) => some (boolean b)
  | some (.integer i) => some (number (Double.ofInt i))
  | some (.decimal d) => d.toDouble?.map number
  | some (.text s) => some (text s)

end Value

/-! ### What the heap holds -/

/-- What the bodies of functions can be. -/
class Body (β : Type) extends Inhabited β where
  /-- the local variables that a body ends, in ascending order -/
  slots : β → List Nat

/-- The numbers in ascending order, each of them once. -/
def ascending (slots : List Nat) : List Nat := slots.foldr SlotPool.insert []

/-- The local variables that code ends, those of recordings in it included. -/
def Code.freedSlots (c : Code) : List Nat :=
  c.filterMap fun i =>
    match i.opcode, i.operand with
    | .clear, some (.integer (.ofNat id)) => some id
    | _, _ => none

instance : Body Code where
  slots c := ascending c.freedSlots

/-- A function of the program. -/
structure Function (β : Type := Code) where
  name : String
  /-- how many values a call takes off the stack -/
  arity : Nat
  /-- the local variables of the body, in ascending order -/
  slots : List Nat
  body : β
deriving Inhabited

/-- A class of the program. -/
structure Class where
  name : String
  /-- fields by their names, methods by their names after `#`, the constructor as `<init>` -/
  members : List (String × Value)
  /-- the classes that it extends, the nearest first -/
  ancestors : List Nat
deriving Inhabited

/-- An instance of a class. -/
structure Object where
  classId : Nat
  fields : Names Value
deriving Inhabited

/-- The things that values point to. -/
structure Heap (β : Type := Code) where
  lists : Array (List Value)
  maps : Array (List (Value × Value))
  functions : Array (Function β)
  classes : Array Class
  objects : Array Object
deriving Inhabited

namespace Heap

variable {β : Type}

/-- Nothing has been made yet. -/
def empty : Heap β := ⟨#[], #[], #[], #[], #[]⟩

/-- The items of a list. -/
def list (h : Heap β) (id : Nat) : List Value := h.lists[id]?.getD []

/-- The entries of a map. -/
def map (h : Heap β) (id : Nat) : List (Value × Value) := h.maps[id]?.getD []

/-- The function at a place. -/
def function [Inhabited β] (h : Heap β) (id : Nat) : Function β := h.functions[id]?.getD default

/-- The class at a place. -/
def classAt (h : Heap β) (id : Nat) : Class := h.classes[id]?.getD default

/-- The object at a place. -/
def object (h : Heap β) (id : Nat) : Object := h.objects[id]?.getD default

/-- Makes a list. -/
def newList (h : Heap β) (items : List Value) : Value × Heap β :=
  (.list h.lists.size, { h with lists := h.lists.push items })

/-- Makes a map. -/
def newMap (h : Heap β) (entries : List (Value × Value)) : Value × Heap β :=
  (.map h.maps.size, { h with maps := h.maps.push entries })

/-- Makes a function. -/
def newFunction (h : Heap β) (f : Function β) : Nat × Heap β :=
  (h.functions.size, { h with functions := h.functions.push f })

/-- Makes a class. -/
def newClass (h : Heap β) (c : Class) : Nat × Heap β :=
  (h.classes.size, { h with classes := h.classes.push c })

/-- Makes an object. -/
def newObject (h : Heap β) (o : Object) : Nat × Heap β :=
  (h.objects.size, { h with objects := h.objects.push o })

/-- Changes the items of a list. -/
def setList (h : Heap β) (id : Nat) (items : List Value) : Heap β :=
  { h with lists := h.lists.setIfInBounds id items }

/-- Changes the entries of a map. -/
def setMap (h : Heap β) (id : Nat) (entries : List (Value × Value)) : Heap β :=
  { h with maps := h.maps.setIfInBounds id entries }

/-- Writes a field of an object. -/
def setField (h : Heap β) (id : Nat) (name : String) (v : Value) : Heap β :=
  let o := h.object id
  { h with objects := h.objects.setIfInBounds id { o with fields := o.fields.put name v } }

/-! ### Classes -/

/-- A class and the classes that it extends, the nearest first. -/
def lineage (h : Heap β) (classId : Nat) : List Nat := classId :: (h.classAt classId).ancestors

/-- A method that a class has itself. -/
def ownMethod? (h : Heap β) (classId : Nat) (key : String) : Option Nat :=
  (h.classAt classId).members.findSome? fun
    | (name, .function f) => if name = key then some f else none
    | _ => none

/-- The method of the nearest class of the lineage that has one under the key. -/
def method? (h : Heap β) (classId : Nat) (key : String) : Option Nat :=
  (h.lineage classId).findSome? fun c => h.ownMethod? c key

/-- A member is a field of the instances, and no method. -/
def isFieldName (name : String) : Bool := name.front? != some '#' && name != "<init>"

/-- The fields of a new instance.  A class overrides the classes that it extends. -/
def fieldsOf (h : Heap β) (classId : Nat) : Names Value :=
  (h.lineage classId).reverse.foldl
    (fun fields c =>
      ((h.classAt c).members.filter fun m => isFieldName m.1).foldl
        (fun fields m => fields.put m.1 m.2) fields)
    []

/-- The class that a value acts as an instance of, with the object. -/
def instance? (h : Heap β) : Value → Option (Nat × Nat)
  | .object id => some (id, (h.object id).classId)
  | .view id classId => some (id, classId)
  | _ => none

/-! ### Truth -/

/-- The truth of a value in a condition. -/
def truth (h : Heap β) : Value → Bool
  | .null => false
  | .boolean b => b
  | .number x => !x.isNaN && !(x == 0.0)
  | .text s => !s.isEmpty
  | .list id => !(h.list id).isEmpty
  | .map id => !(h.map id).isEmpty
  | .function _ | .ofClass _ | .object _ | .view _ _ => true

end Heap

end StackScript
