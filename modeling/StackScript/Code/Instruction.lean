import StackScript.Code.Opcode
import StackScript.Decimal

/-!
# StackScript.Code.Instruction — instructions and the slots that they take up

An instruction is an opcode with an operand or without one.  The machine's array has a slot for each
opcode and one for each operand, also for the missing operand of an opcode that takes one.  Skips
over recorded code count these slots.
-/

namespace StackScript

/-- The operand of an instruction. -/
inductive Operand where
  | boolean (b : Bool)
  /-- a count, a distance, the number of a variable or a whole number of 64 bits -/
  | integer (i : Int)
  /-- any other number -/
  | decimal (d : Decimal)
  /-- a name or a string -/
  | text (s : String)
deriving DecidableEq, Repr, Inhabited

/-- An opcode and its operand. -/
structure Instruction where
  opcode : Opcode
  operand : Option Operand
deriving DecidableEq, Repr, Inhabited

/-- Instructions in sequence. -/
abbrev Code := List Instruction

/-- An entry of the machine's array. -/
inductive Slot where
  | opcode (number : Nat)
  /-- the operand of the opcode before -/
  | operand (o : Option Operand)
deriving DecidableEq, Repr, Inhabited

namespace Instruction

/-- An instruction without operand. -/
def plain (o : Opcode) : Instruction := ⟨o, none⟩

/-- An instruction with an integer. -/
def withNumber (o : Opcode) (i : Int) : Instruction := ⟨o, some (.integer i)⟩

/-- An instruction with a name or string. -/
def withName (o : Opcode) (s : String) : Instruction := ⟨o, some (.text s)⟩

/-- How many slots an instruction takes up. -/
def width (i : Instruction) : Nat := if i.operand.isSome || i.opcode.takesOperand then 2 else 1

theorem width_pos (i : Instruction) : 0 < i.width := by
  unfold width
  split <;> omega

/-- The slots of an instruction. -/
def slots (i : Instruction) : List Slot :=
  if i.width = 2 then [.opcode i.opcode.code, .operand i.operand] else [.opcode i.opcode.code]

end Instruction

namespace Code

/-- The slots of a sequence. -/
def slots (c : Code) : List Slot := c.flatMap Instruction.slots

end Code

/-! ### Distances -/

/-- What a skip counts. -/
inductive Measure where
  /-- instructions, in the code of a program outside every recording -/
  | instructions
  /-- slots, in recorded code -/
  | slots
deriving DecidableEq, Repr, Inhabited

namespace Measure

/-- The length of an instruction. -/
def width (m : Measure) (i : Instruction) : Nat :=
  match m with
  | instructions => 1
  | slots => i.width

/-- The length of a sequence. -/
def length (m : Measure) (c : Code) : Nat := c.foldr (fun i n => m.width i + n) 0

/-- The number of instructions that make up exactly the first `distance` units of a sequence. -/
def index? (m : Measure) : Nat → Code → Option Nat
  | 0, _ => some 0
  | _ + 1, [] => none
  | distance + 1, i :: is =>
    if m.width i ≤ distance + 1 then (m.index? (distance + 1 - m.width i) is).map (· + 1)
    else none

@[simp] theorem length_nil (m : Measure) : m.length [] = 0 := rfl

@[simp] theorem length_cons (m : Measure) (i : Instruction) (c : Code) :
    m.length (i :: c) = m.width i + m.length c := rfl

@[simp] theorem length_append (m : Measure) (c d : Code) :
    m.length (c ++ d) = m.length c + m.length d := by
  induction c with
  | nil => simp
  | cons i c ih => simp [ih, Nat.add_assoc]

theorem width_pos (m : Measure) (i : Instruction) : 0 < m.width i := by
  cases m
  · exact Nat.one_pos
  · exact i.width_pos

/-- Where a skip of `offset` from behind the instruction at `pc` lands. -/
def target? (m : Measure) (c : Code) (pc : Nat) (offset : Int) : Option Nat :=
  let position := Int.ofNat (m.length (c.take (pc + 1))) + offset
  if position < 0 then none else m.index? position.toNat c

end Measure

/-- How many slots a sequence takes up. -/
def Code.slotCount (c : Code) : Nat := Measure.slots.length c

end StackScript
