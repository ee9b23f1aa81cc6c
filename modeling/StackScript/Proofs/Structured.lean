import StackScript.Proofs.Execution
import StackScript.Proofs.Generated

/-!
# StackScript.Proofs.Structured — execution by instructions on the stack

`Block.structured` runs a tree by its structure, and does each of its expressions by the
instructions that are generated for it.  Function bodies stay blocks.  So it differs from the
machine in nothing but jumps and recordings.
-/

namespace StackScript

open Instruction Code

variable {β : Type}

/-! ### Instructions in sequence -/

namespace Machine

/-- The effects of instructions that lead to the next one; `run` runs the bodies of functions. -/
def actAll [Body β] (run : β → Effect β Flow) : Code → Effect β Unit
  | [] => return ()
  | i :: is => do
    act run i
    actAll run is

variable [Body β]

theorem actAll_append (run : β → Effect β Flow) (c d : Code) :
    actAll run (c ++ d) = (do actAll run c; actAll run d) := by
  induction c with
  | nil => rfl
  | cons i c ih =>
    show (act run i >>= fun _ => actAll run (c ++ d)) = _
    rw [ih]
    exact (bind_assoc _ _ _).symm

end Machine

open Machine

/-! ### Statements without control -/

/-- The code of the parent of a class, as an entry of its map. -/
def parentCode : Option String → Code
  | some p => [putConstant (.boolean false), putText p]
  | none => []

/-- How many entries the map of a class has. -/
def entryCount (className : String) (parent : Option String) (members : Block) : Nat :=
  (members.memberCodes [] className).length + parent.toList.length

/-- Puts a member of a class by its key and value. -/
def Stmt.putMember (run : Block → Effect Block Flow) (className : String) :
    Stmt → Effect Block Unit
  | .declare _ name init _ => actAll run (putText name :: Expr.codeOrNull init)
  | .assign _ name e _ => actAll run (putText name :: e.code)
  | .setField _ _ name e => actAll run (putText name :: e.code)
  | .function _ name params body => do
    keepRecording body
    actAll run [putConstant (.integer params.length),
      withName .makeFunction (className ++ "#" ++ name), putText (methodKey name),
      plain .lastFunction]
  | _ => return ()

/-- Puts members of a class. -/
def Stmt.putMembers (run : Block → Effect Block Flow) (className : String) :
    List Stmt → Effect Block Unit
  | [] => return ()
  | s :: ss => do
    s.putMember run className
    Stmt.putMembers run className ss

/-- The effect of a statement that leads to the next one. -/
def Stmt.perform (keeps : Bool) (marking : Marking) (run : Block → Effect Block Flow) :
    Stmt → Effect Block Unit
  | .value e => actAll run (e.code ++ discarding keeps)
  | .declare _ name init binding =>
    actAll run (Expr.codeOrNull init ++ [⟨.store, some (targetOperand name binding)⟩])
  | .assign _ name e binding =>
    actAll run (assignCode name binding (e.withTarget (marking name binding e)))
  | .setField _ receiver name e =>
    actAll run (receiver.code ++ [putText name] ++ e.code ++ [plain .setMember, plain .pop])
  | .print _ e => actAll run (e.code ++ [plain .call])
  | .function _ name params body => do
    keepRecording body
    actAll run [putConstant (.integer params.length), withName .makeFunction name]
  | .classDecl _ name parent members => do
    Stmt.putMembers run name members.statements
    actAll run (parentCode parent ++
      [withNumber .makeMap (entryCount name parent members), withName .makeClass name])
  | .free _ _ slot => actAll run [withNumber .clear slot]
  | _ => return ()

/-- The basis of the execution by instructions. -/
def onStack (keeps : Bool) (marking : Marking) (_ : Nat) (run : Block → Effect Block Flow) :
    Basis Block where
  effect := Stmt.perform keeps marking run
  test condition := do
    actAll run condition.code
    takeTruth
  result value := do
    actAll run (Expr.codeOrNull value)
    take

/-! ### Lockstep -/

/-- A relation of machines at the stop of an execution: every machine is related to itself, and the
end of a call does not break it. -/
structure Tolerant {β : Type} (E : Machine β → Machine β → Prop) : Prop where
  refl : ∀ m, E m m
  leave : ∀ m t base saved, E m t → E (m.leave base saved) (t.leave base saved)

theorem eq_tolerant : Tolerant (Eq (α := Machine β)) :=
  ⟨fun _ => rfl, fun _ _ _ _ h => by rw [h]⟩

section
variable {exempt : Stop → Prop}

theorem Lockstep.same {α : Type} {E : Machine β → Machine β → Prop} (hE : Tolerant E)
    (x : Effect β α) : Lockstep exempt Eq (Both Eq) E x x := by
  rintro m _ rfl
  cases x m with
  | ok a m' => exact .ok ⟨rfl, rfl⟩
  | error e m' => exact .error (hE.refl m')

theorem Machine.calling_lockstep {E : Machine β → Machine β → Prop} (hE : Tolerant E)
    (f : Function β) (this : Option Nat) {body body' : Effect β Flow}
    (h : Lockstep exempt Eq (Both Eq) E body body') :
    Lockstep exempt Eq (Both Eq) E (calling f this body) (calling f this body') := by
  rintro m _ rfl
  unfold calling
  by_cases hd : m.maxDepth ≤ m.callers.length
  · rw [if_pos hd, if_pos hd]
    exact .error (hE.refl m)
  by_cases ha : m.stack.length < f.arity
  · rw [if_neg hd, if_neg hd, if_pos ha, if_pos ha]
    exact .error (hE.refl m)
  rw [if_neg hd, if_neg hd, if_neg ha, if_neg ha]
  have h' := h (m.enter f this) _ rfl
  dsimp only
  generalize body (m.enter f this) = r at h' ⊢
  generalize body' (m.enter f this) = r' at h' ⊢
  cases h' with
  | exempt he => exact .exempt he
  | ok hq =>
    obtain ⟨rfl, rfl⟩ := hq
    exact .ok ⟨rfl, rfl⟩
  | error he => exact .error (hE.leave _ _ _ _ he)

variable {E : Machine Block → Machine Block → Prop} (hE : Tolerant E)
  {run run' : Block → Effect Block Flow}
  (h : ∀ b, Lockstep exempt Eq (Both Eq) E (run b) (run' b))

include hE h

theorem Machine.act_lockstep (i : Instruction) :
    Lockstep exempt Eq (Both Eq) E (act run i) (act run' i) := by
  refine (Lockstep.same hE _).both_bind fun c => ?_
  cases c with
  | none => exact .same hE _
  | some c =>
    exact (calling_lockstep hE c.function c.this (h _)).both_bind fun v => .same hE _

theorem Machine.actAll_lockstep (c : Code) :
    Lockstep exempt Eq (Both Eq) E (actAll run c) (actAll run' c) := by
  induction c with
  | nil => exact .same hE _
  | cons i c ih => exact (act_lockstep hE h i).both_bind fun _ => ih

theorem Stmt.putMembers_lockstep (className : String) (ss : List Stmt) :
    Lockstep exempt Eq (Both Eq) E (Stmt.putMembers run className ss)
      (Stmt.putMembers run' className ss) := by
  induction ss with
  | nil => exact .same hE _
  | cons s ss ih =>
    refine Lockstep.both_bind ?_ fun _ => ih
    cases s with
    | declare => exact actAll_lockstep hE h _
    | assign => exact actAll_lockstep hE h _
    | setField => exact actAll_lockstep hE h _
    | function => exact (Lockstep.same hE _).both_bind fun _ => actAll_lockstep hE h _
    | _ => exact .same hE _

theorem Stmt.perform_lockstep (keeps : Bool) (marking : Marking) (s : Stmt) :
    Lockstep exempt Eq (Both Eq) E (s.perform keeps marking run)
      (s.perform keeps marking run') := by
  cases s with
  | value => exact actAll_lockstep hE h _
  | declare => exact actAll_lockstep hE h _
  | assign => exact actAll_lockstep hE h _
  | setField => exact actAll_lockstep hE h _
  | print => exact actAll_lockstep hE h _
  | function => exact (Lockstep.same hE _).both_bind fun _ => actAll_lockstep hE h _
  | classDecl =>
    exact (Stmt.putMembers_lockstep hE h _ _).both_bind fun _ => actAll_lockstep hE h _
  | free => exact actAll_lockstep hE h _
  | _ => exact .same hE _

theorem onStack_inStep (keeps : Bool) (marking : Marking) (n n' : Nat) :
    Basis.InStep exempt Eq E (onStack keeps marking n run) (onStack keeps marking n' run') := by
  refine ⟨Stmt.perform_lockstep hE h keeps marking, fun e => ?_, fun e => ?_, ?_⟩
  · exact (actAll_lockstep hE h _).both_bind fun _ => .same hE _
  · exact (actAll_lockstep hE h _).both_bind fun _ => .same hE _
  · rintro m _ rfl
    exact hE.refl m

end

theorem onStack_rising (keeps : Bool) (marking : Marking) : Rising (onStack keeps marking) :=
  fun n _ _ h => onStack_inStep eq_tolerant (fun b => below_iff_lockstep.mp (h b)) keeps marking n _

/-- The execution of a block by instructions. -/
def Block.structured (keeps : Bool) (marking : Marking) : Block → Bounded (Machine Block) Flow :=
  execution (onStack_rising keeps marking)

end StackScript
