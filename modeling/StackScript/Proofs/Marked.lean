import StackScript.Proofs.Structured

/-!
# StackScript.Proofs.Marked — the code of a marked tree

Marks change the code of assignments and nothing else: the class members, their number, and the
local variables that end stay the same.  What ends in code is what ends in the block.  Marking by
the update of an assignment does not look at the marks that are there, so doing it twice is doing it
once.
-/

namespace StackScript

open Instruction Code

/-! ### The local variables that code ends -/

namespace Code

theorem freedSlots_append (c d : Code) : (c ++ d).freedSlots = c.freedSlots ++ d.freedSlots :=
  List.filterMap_append

theorem freedSlots_cons_of_ne {i : Instruction} (h : i.opcode ≠ .clear) (c : Code) :
    freedSlots (i :: c) = freedSlots c := by
  obtain ⟨o, operand⟩ := i
  cases o <;> first | rfl | exact absurd rfl h

theorem freedSlots_resolveJumps (k depth : Nat) (c : Code) :
    (resolveJumps k depth c).freedSlots = c.freedSlots := by
  induction c generalizing depth with
  | nil => rfl
  | cons i c ih =>
    have hkeep : ∀ d, freedSlots (i :: resolveJumps k d c) = freedSlots (i :: c) := by
      intro d
      show freedSlots ([i] ++ _) = freedSlots ([i] ++ _)
      rw [freedSlots_append, freedSlots_append, ih]
    have hjump : ∀ (o : Opcode) (n : Int) (d : Nat), i = jumpCode .slots o → o ≠ .clear →
        freedSlots (withNumber .skip n :: resolveJumps k d c) = freedSlots (i :: c) := by
      intro o n d hi ho
      rw [freedSlots_cons_of_ne (i := withNumber .skip n) (by exact fun h => nomatch h), ih,
        freedSlots_cons_of_ne (by rwa [hi])]
    unfold resolveJumps
    split
    · exact hkeep _
    split
    · exact hkeep _
    split
    · rename_i h
      exact hjump _ _ _ h.2 (by decide)
    split
    · rename_i h
      exact hjump _ _ _ h.2 (by decide)
    · exact hkeep _

theorem freedSlots_recorded (c : Code) : (recorded c).freedSlots = c.freedSlots := by
  rw [recorded, List.cons_append, freedSlots_cons_of_ne (by decide), freedSlots_append]
  exact List.append_nil _

end Code

/-! ### Code that ends no local variable -/

namespace Code

theorem freedSlots_eq_nil {c : Code} (h : ∀ i ∈ c, i.opcode ≠ .clear) : c.freedSlots = [] := by
  induction c with
  | nil => rfl
  | cons i c ih =>
    obtain ⟨hi, hc⟩ := List.forall_mem_cons.mp h
    rw [freedSlots_cons_of_ne hi, ih hc]

end Code

theorem Instruction.Evaluates.ne_clear {i : Instruction} (h : i.Evaluates) :
    i.opcode ≠ .clear := by
  cases h with
  | load name binding =>
    rcases binding with _ | binding
    · exact fun h => nomatch h
    · cases binding <;> exact fun h => nomatch h
  | compute op => cases op <;> exact fun h => nomatch h
  | prefixed op => cases op <;> exact fun h => nomatch h
  | _ => exact fun h => nomatch h

theorem Expr.freedSlots_code (e : Expr) : e.code.freedSlots = [] :=
  Code.freedSlots_eq_nil fun i hi => (e.code_evaluates i hi).ne_clear

theorem Expr.freedSlots_codeOrNull (e : Option Expr) : (Expr.codeOrNull e).freedSlots = [] := by
  cases e with
  | none => rfl
  | some e => exact e.freedSlots_code

theorem freedSlots_assignCode (name : String) (binding : Option Binding) (value : Expr) :
    (assignCode name binding value).freedSlots = [] := by
  have hplain : freedSlots (value.code ++ [⟨.store, some (targetOperand name binding)⟩]) = [] := by
    rw [freedSlots_append, value.freedSlots_code]
    rfl
  unfold assignCode
  dsimp only
  split
  · split
    · rename_i op _ right _ _ o ho
      rw [freedSlots_append, Expr.freedSlots_code, List.nil_append]
      refine freedSlots_cons_of_ne ?_ []
      cases op <;> cases ho <;> exact fun h => nomatch h
    · exact hplain
  · exact hplain

theorem freedSlots_discarding (keeps : Bool) : (discarding keeps).freedSlots = [] := by
  cases keeps <;> rfl

theorem freedSlots_branchCode (m : Measure) {condition : Code} (hc : condition.freedSlots = [])
    (body : Code) (rest : Option Code) :
    (branchCode m condition body rest).freedSlots =
      body.freedSlots ++ (rest.map freedSlots).getD [] := by
  cases rest with
  | none =>
    rw [branchCode, freedSlots_append, freedSlots_append, hc]
    simp [withNumber, freedSlots]
  | some rest =>
    rw [branchCode]
    simp only [freedSlots_append, hc]
    simp [withNumber, freedSlots]

theorem freedSlots_skippingLoop {condition : Code} (hc : condition.freedSlots = [])
    (body : Code) : (skippingLoop condition body).freedSlots = body.freedSlots := by
  have hskip : ∀ n, (withNumber .skip n).opcode ≠ .clear := by
    intro n h
    cases h
  rw [skippingLoop, freedSlots_cons_of_ne (hskip _), freedSlots_resolveJumps,
    freedSlots_append, freedSlots_append, hc, List.append_nil]
  exact List.append_nil _

theorem freedSlots_recordedLoop {condition : Code} (hc : condition.freedSlots = [])
    (body : Code) : (recordedLoop condition body).freedSlots = body.freedSlots := by
  rw [recordedLoop, freedSlots_append, freedSlots_append, freedSlots_recorded,
    freedSlots_recorded, hc, List.append_nil]
  exact List.append_nil _

theorem freedSlots_functionCode (name : String) (arity : Nat) (body : Code) :
    (functionCode name arity body).freedSlots = body.freedSlots := by
  rw [functionCode, freedSlots_append, freedSlots_recorded]
  exact List.append_nil _

theorem freedSlots_parentCode (parent : Option String) : (parentCode parent).freedSlots = [] := by
  cases parent <;> rfl

theorem classCode_eq (name : String) (parent : Option String) (members : List Code) :
    classCode name parent members = members.flatten ++ (parentCode parent ++
      [withNumber .makeMap (members.length + parent.toList.length), withName .makeClass name]) := by
  cases parent <;> simp [classCode, parentCode]

theorem freedSlots_classCode (name : String) (parent : Option String) (members : List Code) :
    (classCode name parent members).freedSlots = Code.freedSlots members.flatten := by
  rw [classCode_eq, freedSlots_append, freedSlots_append, freedSlots_parentCode]
  exact List.append_nil _

/-! ### Marked trees -/

theorem Expr.withTarget_code (target : Option Binding) (e : Expr) :
    (e.withTarget target).code = e.code := by
  cases e <;> rfl

variable {keeps : Bool} {marking : Marking}

mutual

theorem Stmt.freedSlots_code (m : Measure) :
    (s : Stmt) → ((s.mark marking).code (discarding keeps) m).freedSlots = s.freedSlots
  | .value e => by
    show (e.code ++ discarding keeps).freedSlots = []
    rw [freedSlots_append, e.freedSlots_code, freedSlots_discarding]
    rfl
  | .declare _ _ init _ => by
    show (Expr.codeOrNull init ++ _).freedSlots = []
    rw [freedSlots_append, Expr.freedSlots_codeOrNull]
    rfl
  | .assign _ _ _ _ => freedSlots_assignCode _ _ _
  | .setField _ receiver _ value => by
    show (receiver.code ++ _ ++ value.code ++ _).freedSlots = []
    rw [freedSlots_append, freedSlots_append, freedSlots_append, receiver.freedSlots_code,
      value.freedSlots_code]
    rfl
  | .print _ value => by
    show (value.code ++ _).freedSlots = []
    rw [freedSlots_append, value.freedSlots_code]
    rfl
  | .branch _ condition body rest => by
    show (branchCode _ _ _ _).freedSlots = body.freedSlots ++ rest.freedSlots
    rw [freedSlots_branchCode _ condition.freedSlots_code, body.freedSlots_code m,
      rest.freedSlots_code m]
  | .loop _ condition body => by
    cases m with
    | instructions =>
      exact (freedSlots_recordedLoop condition.freedSlots_code _).trans (body.freedSlots_code .slots)
    | slots =>
      exact (freedSlots_skippingLoop condition.freedSlots_code _).trans (body.freedSlots_code .slots)
  | .function _ _ _ body => (freedSlots_functionCode _ _ _).trans (body.freedSlots_code .slots)
  | .classDecl _ name _ members => (freedSlots_classCode _ _ _).trans (members.freedSlots_members name)
  | .returns _ value => by
    show (Expr.codeOrNull value ++ _).freedSlots = []
    rw [freedSlots_append, Expr.freedSlots_codeOrNull]
    rfl
  | .continues _ | .breaks _ => by
    cases m <;> rfl
  | .free _ _ _ => rfl

theorem Rest.freedSlots_code (m : Measure) : (r : Rest) →
    (((r.mark marking).code (discarding keeps) m).map freedSlots).getD [] = r.freedSlots
  | .nothing => rfl
  | .elseIf _ condition body rest => by
    show (branchCode _ _ _ _).freedSlots = body.freedSlots ++ rest.freedSlots
    rw [freedSlots_branchCode _ condition.freedSlots_code, body.freedSlots_code m,
      rest.freedSlots_code m]
  | .otherwise body => body.freedSlots_code m

theorem Block.freedSlots_code (m : Measure) :
    (b : Block) → ((b.mark marking).code (discarding keeps) m).freedSlots = b.freedSlots
  | .mk _ statements => Stmt.freedSlots_codeAll m statements

theorem Stmt.freedSlots_codeAll (m : Measure) : (ss : List Stmt) →
    (Stmt.codeAll (discarding keeps) m (Stmt.markAll marking ss)).freedSlots =
      Stmt.freedSlotsAll ss
  | [] => rfl
  | s :: ss => by
    show Code.freedSlots (_ ++ _) = _ ++ _
    rw [freedSlots_append, s.freedSlots_code m, Stmt.freedSlots_codeAll m ss]

theorem Block.freedSlots_members (className : String) : (b : Block) →
    Code.freedSlots ((b.mark marking).memberCodes (discarding keeps) className).flatten =
      b.memberSlots
  | .mk _ statements => Stmt.freedSlots_membersAll className statements

theorem Stmt.freedSlots_membersAll (className : String) : (ss : List Stmt) →
    Code.freedSlots (Stmt.memberCodesAll (discarding keeps) className
      (Stmt.markAll marking ss)).flatten = Stmt.memberSlotsAll ss
  | [] => rfl
  | .declare _ _ init _ :: ss => by
    show Code.freedSlots (_ :: Expr.codeOrNull init ++ List.flatten _) = Stmt.memberSlotsAll ss
    rw [freedSlots_append, freedSlots_cons_of_ne (by exact fun h => nomatch h),
      Expr.freedSlots_codeOrNull, Stmt.freedSlots_membersAll className ss]
    rfl
  | .assign _ _ value _ :: ss => by
    show Code.freedSlots (_ :: (value.withTarget _).code ++ List.flatten _) = Stmt.memberSlotsAll ss
    rw [freedSlots_append, freedSlots_cons_of_ne (by exact fun h => nomatch h),
      Expr.freedSlots_code, Stmt.freedSlots_membersAll className ss]
    rfl
  | .setField _ _ _ value :: ss => by
    show Code.freedSlots (_ :: value.code ++ List.flatten _) = Stmt.memberSlotsAll ss
    rw [freedSlots_append, freedSlots_cons_of_ne (by exact fun h => nomatch h),
      Expr.freedSlots_code, Stmt.freedSlots_membersAll className ss]
    rfl
  | .function _ _ _ body :: ss => by
    show Code.freedSlots (functionCode _ _ _ ++ _ ++ List.flatten _) =
      body.freedSlots ++ Stmt.memberSlotsAll ss
    rw [freedSlots_append, freedSlots_append, freedSlots_functionCode, body.freedSlots_code .slots,
      Stmt.freedSlots_membersAll className ss]
    exact congrArg (· ++ Stmt.memberSlotsAll ss) (List.append_nil _)
  | .value _ :: ss | .print _ _ :: ss | .branch _ _ _ _ :: ss | .loop _ _ _ :: ss
  | .classDecl _ _ _ _ :: ss | .returns _ _ :: ss | .continues _ :: ss | .breaks _ :: ss
  | .free _ _ _ :: ss => Stmt.freedSlots_membersAll className ss

end

/-! ### Marking twice -/

/-- A marking that does not look at the marks that are there. -/
def Marking.Blind (marking : Marking) : Prop :=
  ∀ name binding value target,
    marking name binding (value.withTarget target) = marking name binding value

theorem Marking.inPlace_blind : Marking.inPlace.Blind := by
  intro name binding value target
  cases value with
  | binary line op left right t => cases left <;> rfl
  | _ => rfl

theorem Expr.withTarget_withTarget (e : Expr) (t t' : Option Binding) :
    (e.withTarget t).withTarget t' = e.withTarget t' := by
  cases e <;> rfl

mutual

theorem Stmt.mark_mark (first : Marking) (h : marking.Blind) :
    (s : Stmt) → (s.mark first).mark marking = s.mark marking
  | .assign line name value binding => by
    show Stmt.assign line name ((value.withTarget _).withTarget _) binding = _
    rw [Expr.withTarget_withTarget, h]
    rfl
  | .branch line condition body rest => by
    show Stmt.branch line condition _ _ = Stmt.branch line condition _ _
    rw [body.mark_mark first h, rest.mark_mark first h]
  | .loop line condition body => congrArg (Stmt.loop line condition) (body.mark_mark first h)
  | .function line name params body =>
    congrArg (Stmt.function line name params) (body.mark_mark first h)
  | .classDecl line name parent members =>
    congrArg (Stmt.classDecl line name parent) (members.mark_mark first h)
  | .value _ | .declare _ _ _ _ | .setField _ _ _ _ | .print _ _ | .returns _ _ | .continues _
  | .breaks _ | .free _ _ _ => rfl

theorem Rest.mark_mark (first : Marking) (h : marking.Blind) :
    (r : Rest) → (r.mark first).mark marking = r.mark marking
  | .nothing => rfl
  | .elseIf line condition body rest => by
    show Rest.elseIf line condition _ _ = Rest.elseIf line condition _ _
    rw [body.mark_mark first h, rest.mark_mark first h]
  | .otherwise body => congrArg Rest.otherwise (body.mark_mark first h)

theorem Block.mark_mark (first : Marking) (h : marking.Blind) :
    (b : Block) → (b.mark first).mark marking = b.mark marking
  | .mk line statements => congrArg (Block.mk line) (Stmt.markAll_markAll first h statements)

theorem Stmt.markAll_markAll (first : Marking) (h : marking.Blind) : (ss : List Stmt) →
    Stmt.markAll marking (Stmt.markAll first ss) = Stmt.markAll marking ss
  | [] => rfl
  | s :: ss => by
    show _ :: _ = _ :: _
    rw [s.mark_mark first h, Stmt.markAll_markAll first h ss]

end

end StackScript
