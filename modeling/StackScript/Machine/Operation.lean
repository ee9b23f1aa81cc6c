import StackScript.Machine.Comparison
import StackScript.Machine.Fault

/-!
# StackScript.Machine.Operation — what operators and containers do

The operators on values and the reading and writing of members.  All of them work on the heap, and
`+` on two lists makes a new one.  Members are the items of a list by their index, the entries of a
map by a key that is loosely equal, and the fields of an object by their name.
-/

namespace StackScript

/-! ### Operators -/

/-- A value as a number, for an operation with this name. -/
def Value.asNumber (operation : String) : Value → Except Fault Float
  | .number x => .ok x
  | .boolean b => .ok (Heap.ofBoolean b)
  | v => .error (.notNumber operation v.type)

/-- Two values as numbers. -/
def Value.bothNumbers (operation : String) (v w : Value) : Except Fault (Float × Float) := do
  let x ← v.asNumber operation
  let y ← w.asNumber operation
  return (x, y)

/-- An operation on numbers. -/
def onNumbers (op : BinaryOp) (f : Float → Float → Float) (v w : Value) : Except Fault Value :=
  (v.bothNumbers (Opcode.compute op).name w).map fun p => .number (f p.1 p.2)

/-- An operation on signed words. -/
def onWords (op : BinaryOp) (f : Int64 → Int64 → Int64) (v w : Value) : Except Fault Value :=
  onNumbers op (fun x y => Double.ofWord (f (Double.toWord x) (Double.toWord y))) v w

/-- A comparison by the order of two values. -/
def onOrder (f : Ordering → Bool) (v w : Value) : Except Fault Value :=
  match Heap.order? v w with
  | some o => .ok (.boolean (f o))
  | none => .error (.unordered v.type w.type)

namespace Heap

variable {β : Type} [Inhabited β]

/-- The sum of two values: a text if one of them is a text, a list of two lists. -/
def sum (h : Heap β) (v w : Value) : Except Fault (Value × Heap β) :=
  match v, w with
  | .text s, w => .ok (.text (s ++ h.text w), h)
  | v, .text t => .ok (.text (h.text v ++ t), h)
  | .list i, .list j => .ok (h.newList (h.list i ++ h.list j))
  | v, w => (onNumbers .add (· + ·) v w).map (·, h)

/-- The result of a binary operator other than `+`. -/
def combine (h : Heap β) (op : BinaryOp) (v w : Value) : Except Fault Value :=
  match op with
  | .add => onNumbers op (· + ·) v w
  | .sub => onNumbers op (· - ·) v w
  | .mul => onNumbers op (· * ·) v w
  | .div => onNumbers op (· / ·) v w
  | .mod => onNumbers op Double.remainder v w
  | .pow => onNumbers op Float.pow v w
  | .equal => .ok (.boolean (h.looselyEqual v w))
  | .notEqual => .ok (.boolean (!h.looselyEqual v w))
  | .greater => onOrder (· == .gt) v w
  | .greaterEqual => onOrder (· != .lt) v w
  | .less => onOrder (· == .lt) v w
  | .lessEqual => onOrder (· != .gt) v w
  | .and => .ok (.boolean (h.truth v && h.truth w))
  | .or => .ok (.boolean (h.truth v || h.truth w))
  | .bitAnd => onWords op (· &&& ·) v w
  | .bitOr => onWords op (· ||| ·) v w
  | .bitXor => onWords op (· ^^^ ·) v w
  | .shiftLeft => onWords op (· <<< ·) v w
  | .shiftRight => onWords op (· >>> ·) v w

/-- The result of a binary operator. -/
def binary (h : Heap β) (op : BinaryOp) (v w : Value) : Except Fault (Value × Heap β) :=
  match op with
  | .add => h.sum v w
  | op => (h.combine op v w).map (·, h)

/-- The result of a prefix operator. -/
def unary (h : Heap β) (op : UnaryOp) (v : Value) : Except Fault Value :=
  match op with
  | .negative => (v.asNumber op.symbol).map fun x => .number (-x)
  | .not => .ok (.boolean (!h.truth v))
  | .bitNot => (v.asNumber op.symbol).map fun x => .number (Double.ofWord (~~~ Double.toWord x))

/-! ### Members -/

/-- The index that a key means among `length` items.  Any key that means none is a fault, which
holds its text. -/
def index (h : Heap β) (key : Value) (length : Nat) : Except Fault Nat :=
  match key with
  | .number x =>
    if 0.0 ≤ x ∧ Double.isWhole x ∧ Double.toCount x < length then .ok (Double.toCount x)
    else .error (.badIndex (h.text key))
  | _ => .error (.badIndex (h.text key))

/-- The entry of a key: the value of the first key that is loosely equal. -/
def lookup? (h : Heap β) (entries : List (Value × Value)) (key : Value) : Option Value :=
  (entries.find? fun e => h.looselyEqual e.1 key).map Prod.snd

/-- The view of an object as an instance of the class that its class extends. -/
def parentView (h : Heap β) (objectId classId : Nat) : Except Fault Value :=
  match (h.classAt classId).ancestors with
  | parent :: _ => .ok (.view objectId parent)
  | [] => .error (.noParent (h.classAt classId).name)

/-- A field of an object, or a method of its class. -/
def field (h : Heap β) (objectId : Nat) (name : String) : Except Fault Value :=
  let o := h.object objectId
  match o.fields.find? name with
  | some v => .ok v
  | none =>
    match h.method? o.classId ("#" ++ name) with
    | some f => .ok (.function f)
    | none => .error (.noField name (h.classAt o.classId).name)

/-- The member of a container under a key. -/
def get (h : Heap β) (container key : Value) : Except Fault Value :=
  match container, key with
  | .list id, key =>
    match key with
    | .text "length" => .ok (.number (Double.ofInt (h.list id).length))
    | _ => (h.index key (h.list id).length).map fun i => (h.list id)[i]?.getD .null
  | .text s, key =>
    match key with
    | .text "length" => .ok (.number (Double.ofInt s.toList.length))
    | _ =>
      (h.index key s.toList.length).map fun i => .text (String.ofList (s.toList[i]?.toList))
  | .map id, key => .ok ((h.lookup? (h.map id) key).getD .null)
  | .object id, .boolean true => h.parentView id (h.object id).classId
  | .view id classId, .boolean true => h.parentView id classId
  | .object id, .text name => h.field id name
  | .view id _, .text name => h.field id name
  | v, key => .error (.cannotRead (h.text key) v.type)

/-- Writes the entry of a key: over the first key that is loosely equal, or at the end. -/
def putEntry (h : Heap β) (key v : Value) : List (Value × Value) → List (Value × Value)
  | [] => [(key, v)]
  | (k, w) :: rest =>
    if h.looselyEqual k key then (k, v) :: rest else (k, w) :: h.putEntry key v rest

/-- Writes an item of a list; the index behind the last item adds one. -/
def putItem (h : Heap β) (items : List Value) (key v : Value) : Except Fault (List Value) :=
  let atEnd :=
    match key with
    | .number x => x == Double.ofInt items.length
    | _ => false
  if atEnd then .ok (items ++ [v])
  else (h.index key items.length).map fun i => items.set i v

/-- Writes the member of a container under a key.  A list that is a key of itself, or lies in one, is
a fault here like any other key that is no index; the program breaks down over it before anything is
written, since it cannot read a list for the text of the fault while it holds the list for writing.
The same goes for a map whose keys are compared with the map itself. -/
def set (h : Heap β) (container key v : Value) : Except Fault (Heap β) :=
  match container, key with
  | .list id, key => (h.putItem (h.list id) key v).map (h.setList id)
  | .map id, key => .ok (h.setMap id (h.putEntry key v (h.map id)))
  | .object id, .text name => .ok (h.setField id name v)
  | .view id _, .text name => .ok (h.setField id name v)
  | w, key => .error (.cannotAssign (h.text key) w.type)

end Heap

end StackScript
