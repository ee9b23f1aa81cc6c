import StackScript.Double.Shortest
import StackScript.Machine.Value
import StackScript.Text.Quoted
import StackScript.Text.WordChar

/-!
# StackScript.Machine.Comparison — equality, order and the text of values

Two values are the same if they are of one type and equal; lists and maps are compared by what they
hold, all else in the heap by its place.  The operators use a looser equality, in which a number
equals the strings that read as it, and a boolean is one or zero.  Only two numbers or two strings
have an order.

Lists and maps may hold each other to any depth.  The recursion is bounded by the number of lists
and maps, which bounds the depth of every value that does not hold itself.  A list or map that does
hold itself has no end: the program runs out of its own stack over it and there is no outcome, where
the cut-off here gives an empty text and takes the values for different.
-/

namespace StackScript.Heap

open Text

variable {β : Type}

/-- How deep lists and maps can hold each other. -/
def depth (h : Heap β) : Nat := h.lists.size + h.maps.size + 1

variable [Inhabited β]

/-! ### Text -/

/-- The text of a value; `inside` a list or map a string stands in quotes.  Nothing is written for
values that lie `n` deep, of which there are none unless a list or map holds itself. -/
def textWithin (h : Heap β) : Nat → Bool → Value → String
  | 0, _, _ => ""
  | n + 1, inside, v =>
    match v with
    | .null => "null"
    | .boolean b => if b then "true" else "false"
    | .number x => Double.text x
    | .text s => if inside then quoted s else s
    | .list id => "[" ++ ", ".intercalate ((h.list id).map (h.textWithin n true)) ++ "]"
    | .map id =>
      let entry := fun e : Value × Value =>
        h.textWithin n true e.1 ++ ": " ++ h.textWithin n true e.2
      "\x7b" ++ ", ".intercalate ((h.map id).map entry) ++ "\x7d"
    | .function id => "<func " ++ (h.function id).name ++ ">"
    | .ofClass id => "<class " ++ (h.classAt id).name ++ ">"
    | .object id | .view id _ => "<" ++ (h.classAt (h.object id).classId).name ++ " instance>"

/-- The text of a value, as it is printed. -/
def text (h : Heap β) (v : Value) : String := h.textWithin h.depth false v

/-! ### Equality -/

/-- Equality of values that hold each other less than `n` deep.  Values that lie deeper, of which
there are none unless lists or maps hold themselves, are taken for different. -/
def sameWithin (h : Heap β) : Nat → Value → Value → Bool
  | 0, _, _ => false
  | n + 1, v, w =>
    match v, w with
    | .null, .null => true
    | .boolean a, .boolean b => a == b
    | .number x, .number y => x == y
    | .text s, .text t => s == t
    | .list i, .list j => i == j || (h.list i).isEqv (h.list j) (h.sameWithin n)
    | .map i, .map j =>
      i == j || (h.map i).isEqv (h.map j) fun d e =>
        h.sameWithin n d.1 e.1 && h.sameWithin n d.2 e.2
    | .function i, .function j => i == j
    | .ofClass i, .ofClass j => i == j
    | .object i, .object j => i == j
    | _, _ => false

/-- Equality of values of one type.  A value seen as an instance of an ancestor equals nothing.
The bound is the number of pairs that a comparison can meet. -/
def same (h : Heap β) (v w : Value) : Bool := h.sameWithin (h.depth * h.depth) v w

/-- A string reads as a number. -/
def readsAs (s : String) (x : Float) : Bool :=
  match Double.ofChars? (trimBy isBlank s.toList) with
  | some y => y == x
  | none => false

/-- A boolean as a number. -/
def ofBoolean (b : Bool) : Float := if b then 1.0 else 0.0

/-- The equality of the operators. -/
def looselyEqual (h : Heap β) (v w : Value) : Bool :=
  match v, w with
  | .number x, .text s => readsAs s x
  | .text s, .number x => readsAs s x
  | .boolean b, .number x => ofBoolean b == x
  | .number x, .boolean b => ofBoolean b == x
  | .boolean b, .text s => readsAs s (ofBoolean b)
  | .text s, .boolean b => readsAs s (ofBoolean b)
  | v, w => h.same v w

/-! ### Order -/

/-- The order of two numbers or two strings. -/
def order? : Value → Value → Option Ordering
  | .number x, .number y =>
    if x < y then some .lt else if x == y then some .eq else if y < x then some .gt else none
  | .text s, .text t => some (if s < t then .lt else if s = t then .eq else .gt)
  | _, _ => none

end StackScript.Heap
