import StackScript.Compilation
import StackScript.Proofs.Loops

/-!
# StackScript.Proofs.Generated — generated code is closed

The code of an expression has no jumps.  The code of a statement is closed, in instructions at the
top of a program and in slots in recorded code, whatever follows a statement that is an expression.
With it, the two codes of a loop agree.
-/

namespace StackScript

open Instruction Code

/-! ### Expressions -/

theorem Opcode.acts_compute (op : BinaryOp) : (Opcode.compute op).acts := by
  cases op <;> rfl

theorem Opcode.acts_prefixed (op : UnaryOp) : (Opcode.prefixed op).acts := by
  cases op <;> rfl

theorem Opcode.acts_of_update? {op : BinaryOp} {o : Opcode} (h : Opcode.update? op = some o) :
    o.acts := by
  cases op <;> cases h <;> rfl

theorem acts_single {i : Instruction} (h : i.opcode.acts) : Acts [i] := .cons h .nil

/-- The instructions that the code of expressions is made of. -/
inductive Instruction.Evaluates : Instruction → Prop
  | constant (o : Operand) : Evaluates (putConstant o)
  | null : Evaluates putNull
  | this : Evaluates (plain .this)
  | member : Evaluates (plain .getMember)
  | list (n : Nat) : Evaluates (withNumber .makeList n)
  | map (n : Nat) : Evaluates (withNumber .makeMap n)
  | load (name : String) (binding : Option Binding) : Evaluates (loadVariable name binding)
  | compute (op : BinaryOp) : Evaluates (plain (.compute op))
  | prefixed (op : UnaryOp) : Evaluates (plain (.prefixed op))
  | call (name : String) : Evaluates (withName .call name)
  | callMethod (key : String) : Evaluates (withName .callMethod key)
  | create (name : String) : Evaluates (withName .makeInstance name)

theorem Instruction.Evaluates.acts {i : Instruction} (h : i.Evaluates) : i.opcode.acts := by
  cases h with
  | load name binding =>
    rcases binding with _ | binding
    · rfl
    · cases binding <;> rfl
  | compute op => exact Opcode.acts_compute op
  | prefixed op => exact Opcode.acts_prefixed op
  | _ => rfl

mutual

theorem Expr.code_evaluates : (e : Expr) → ∀ i ∈ e.code, i.Evaluates
  | .number _ _ | .text _ _ | .boolean _ _ => List.forall_mem_singleton.mpr (.constant _)
  | .null _ => List.forall_mem_singleton.mpr .null
  | .this _ => List.forall_mem_singleton.mpr .this
  | .super _ =>
    List.forall_mem_cons.mpr ⟨.this, List.forall_mem_cons.mpr
      ⟨.constant _, List.forall_mem_singleton.mpr .member⟩⟩
  | .list _ items =>
    List.forall_mem_append.mpr
      ⟨Expr.codeBackwards_evaluates items, List.forall_mem_singleton.mpr (.list _)⟩
  | .map _ entries =>
    List.forall_mem_append.mpr
      ⟨Expr.codePairs_evaluates entries, List.forall_mem_singleton.mpr (.map _)⟩
  | .variable _ name binding => List.forall_mem_singleton.mpr (.load name binding)
  | .field _ receiver _ =>
    List.forall_mem_append.mpr ⟨receiver.code_evaluates, List.forall_mem_cons.mpr
      ⟨.constant _, List.forall_mem_singleton.mpr .member⟩⟩
  | .binary _ op left right _ =>
    List.forall_mem_append.mpr ⟨List.forall_mem_append.mpr
      ⟨left.code_evaluates, right.code_evaluates⟩, List.forall_mem_singleton.mpr (.compute op)⟩
  | .unary _ op operand =>
    List.forall_mem_append.mpr
      ⟨operand.code_evaluates, List.forall_mem_singleton.mpr (.prefixed op)⟩
  | .call _ name args =>
    List.forall_mem_append.mpr
      ⟨Expr.codeAll_evaluates args, List.forall_mem_singleton.mpr (.call name)⟩
  | .method _ receiver _ args =>
    List.forall_mem_append.mpr ⟨List.forall_mem_append.mpr
      ⟨Expr.codeAll_evaluates args, receiver.code_evaluates⟩,
        List.forall_mem_singleton.mpr (.callMethod _)⟩
  | .create _ name args =>
    List.forall_mem_append.mpr
      ⟨Expr.codeAll_evaluates args, List.forall_mem_singleton.mpr (.create name)⟩

theorem Expr.codeAll_evaluates : (es : List Expr) → ∀ i ∈ Expr.codeAll es, i.Evaluates
  | [] => fun _ h => nomatch h
  | e :: es => List.forall_mem_append.mpr ⟨e.code_evaluates, Expr.codeAll_evaluates es⟩

theorem Expr.codeBackwards_evaluates :
    (es : List Expr) → ∀ i ∈ Expr.codeBackwards es, i.Evaluates
  | [] => fun _ h => nomatch h
  | e :: es => List.forall_mem_append.mpr ⟨Expr.codeBackwards_evaluates es, e.code_evaluates⟩

theorem Expr.codePairs_evaluates :
    (es : List (Expr × Expr)) → ∀ i ∈ Expr.codePairs es, i.Evaluates
  | [] => fun _ h => nomatch h
  | (k, v) :: es =>
    List.forall_mem_append.mpr ⟨List.forall_mem_append.mpr ⟨k.code_evaluates, v.code_evaluates⟩,
      Expr.codePairs_evaluates es⟩

end

theorem Expr.code_acts (e : Expr) : Acts e.code := fun i hi => (e.code_evaluates i hi).acts

theorem Expr.codeOrNull_acts (e : Option Expr) : Acts (Expr.codeOrNull e) := by
  cases e with
  | none => exact acts_single rfl
  | some e => exact e.code_acts

theorem assignCode_acts (name : String) (binding : Option Binding) (value : Expr) :
    Acts (assignCode name binding value) := by
  have hplain : Acts (value.code ++ [⟨.store, some (targetOperand name binding)⟩]) :=
    value.code_acts.append (acts_single rfl)
  unfold assignCode
  dsimp only
  split
  · split
    · rename_i ho
      exact (Expr.code_acts _).append (acts_single (Opcode.acts_of_update? ho))
    · exact hplain
  · exact hplain

/-! ### Statements -/

theorem functionCode_closed (m : Measure) (name : String) (arity : Nat) {body : Code}
    (hb : Balanced body) : Closed m (functionCode name arity body) :=
  (Closed.recorded hb).append (.of_acts (.cons rfl (acts_single rfl)))

theorem flatten_closed {m : Measure} {cs : List Code} (h : ∀ c ∈ cs, Closed m c) :
    Closed m cs.flatten := by
  induction cs with
  | nil => exact .nil m
  | cons c cs ih =>
    rw [List.flatten_cons]
    exact (h c (by simp)).append (ih fun d hd => h d (by simp [hd]))

theorem classCode_closed {m : Measure} (name : String) (parent : Option String)
    {members : List Code} (h : ∀ c ∈ members, Closed m c) :
    Closed m (classCode name parent members) := by
  refine (flatten_closed fun c hc => ?_).append (.of_acts (.cons rfl (acts_single rfl)))
  rcases List.mem_append.mp hc with hc | hc
  · exact h c hc
  · cases parent with
    | none => cases hc
    | some p =>
      cases hc with
      | head => exact .of_acts (.cons rfl (acts_single rfl))
      | tail _ hc => cases hc

theorem jumpCode_closed {m : Measure} {o : Opcode} (h : o.isJump) : Closed m [jumpCode m o] := by
  have ho : (jumpCode m o).opcode = o := by
    cases m <;> rfl
  refine .single ?_ ?_ fun _ => by rw [ho]
  · rw [ho]
    cases o <;> first | rfl | cases h
  · rw [ho]
    cases o <;> first | rfl | cases h

variable {discard : Code}

mutual

theorem Stmt.code_closed (hd : Acts discard) (m : Measure) :
    (s : Stmt) → Closed m (s.code discard m)
  | .value e => .of_acts (e.code_acts.append hd)
  | .declare _ _ init _ => .of_acts ((Expr.codeOrNull_acts init).append (acts_single rfl))
  | .assign _ name value binding => .of_acts (assignCode_acts name binding value)
  | .setField _ receiver _ value =>
    .of_acts (((receiver.code_acts.append (acts_single rfl)).append value.code_acts).append
      (.cons rfl (acts_single rfl)))
  | .print _ value => .of_acts (value.code_acts.append (acts_single rfl))
  | .branch _ condition body rest =>
    rest.branch_closed hd m (.of_acts condition.code_acts) (body.code_closed hd m)
  | .loop _ condition body =>
    match m with
    | .instructions =>
      Machine.recordedLoop_closed (.of_acts condition.code_acts) (body.code_closed hd .slots).balanced
    | .slots => Machine.skippingLoop_closed condition.code_acts (body.code_closed hd .slots)
  | .function _ name params body =>
    functionCode_closed m name params.length (body.code_closed hd .slots).balanced
  | .classDecl _ name parent members =>
    classCode_closed name parent (members.memberCodes_closed hd m name)
  | .returns _ value =>
    (Closed.of_acts (Expr.codeOrNull_acts value)).append (.single rfl rfl fun h => nomatch h)
  | .continues _ => jumpCode_closed rfl
  | .breaks _ => jumpCode_closed rfl
  | .free _ _ _ => .of_acts (acts_single rfl)

theorem Rest.branch_closed (hd : Acts discard) (m : Measure) {condition body : Code}
    (hc : Closed m condition) (hb : Closed m body) :
    (r : Rest) → Closed m (branchCode m condition body (r.code discard m))
  | .nothing => Machine.branch_closed hc hb
  | .elseIf _ cond block rest =>
    Machine.branch_else_closed hc hb
      (rest.branch_closed hd m (.of_acts cond.code_acts) (block.code_closed hd m))
  | .otherwise block => Machine.branch_else_closed hc hb (block.code_closed hd m)

theorem Block.code_closed (hd : Acts discard) (m : Measure) : (b : Block) → Closed m (b.code discard m)
  | .mk _ statements => Stmt.codeAll_closed hd m statements

theorem Stmt.codeAll_closed (hd : Acts discard) (m : Measure) :
    (ss : List Stmt) → Closed m (Stmt.codeAll discard m ss)
  | [] => .nil m
  | s :: ss => (s.code_closed hd m).append (Stmt.codeAll_closed hd m ss)

theorem Block.memberCodes_closed (hd : Acts discard) (m : Measure) (className : String) :
    (b : Block) → ∀ c ∈ b.memberCodes discard className, Closed m c
  | .mk _ statements => Stmt.memberCodesAll_closed hd m className statements

theorem Stmt.memberCodesAll_closed (hd : Acts discard) (m : Measure) (className : String) :
    (ss : List Stmt) → ∀ c ∈ Stmt.memberCodesAll discard className ss, Closed m c
  | [] => fun c hc => nomatch hc
  | s :: ss => by
    intro c hc
    have hs := s.memberCode_closed hd m className
    have hss := Stmt.memberCodesAll_closed hd m className ss
    rw [Stmt.memberCodesAll] at hc
    cases hm : s.memberCode discard className with
    | none =>
      rw [hm] at hc
      exact hss c hc
    | some d =>
      rw [hm] at hc
      cases hc with
      | head => exact hs _ hm
      | tail _ hc => exact hss c hc

theorem Stmt.memberCode_closed (hd : Acts discard) (m : Measure) (className : String) :
    (s : Stmt) → ∀ c, s.memberCode discard className = some c → Closed m c
  | .declare _ _ init _ => by
    rintro _ ⟨⟩
    exact .of_acts (.cons rfl (Expr.codeOrNull_acts init))
  | .assign _ _ value _ | .setField _ _ _ value => by
    rintro _ ⟨⟩
    exact .of_acts (.cons rfl value.code_acts)
  | .function _ name params body => by
    rintro _ ⟨⟩
    exact (functionCode_closed m _ params.length (body.code_closed hd .slots).balanced).append
      (.of_acts (.cons rfl (acts_single rfl)))
  | .value _ | .print _ _ | .branch _ _ _ _ | .loop _ _ _ | .classDecl _ _ _ _ | .returns _ _
  | .continues _ | .breaks _ | .free _ _ _ => fun c hc => nomatch hc

end

/-! ### The two codes of a loop -/

/-- What the compiler of the language, or the one that keeps values, puts behind a statement that is
an expression. -/
def discarding (keeps : Bool) : Code :=
  if keeps then Compiler.keepingValues.discard else Compiler.standard.discard

theorem discarding_acts (keeps : Bool) : Acts (discarding keeps) := by
  cases keeps with
  | true => exact .nil
  | false => exact acts_single rfl

/-- A loop at the top of a program, which the machine keeps, and the same loop in recorded code,
which is made of skips, do the same in every state: they end alike, with the same state, or both
run for ever. -/
theorem loop_codes_agree (keeps : Bool) (line : Nat) (condition : Expr) (body : Block)
    (s : Machine) :
    let loop := Stmt.loop line condition body
    let atTop := Machine.runFrom .instructions (loop.code (discarding keeps) .instructions)
    let recorded := Machine.runFrom .slots (loop.code (discarding keeps) .slots)
    (∀ r, Ends (atTop · 0) s r ↔ Ends (recorded · 0) s r) ∧
      (Diverges (atTop · 0) s ↔ Diverges (recorded · 0) s) := by
  intro loop atTop recorded
  have hbody := body.code_closed (discarding_acts keeps) .slots
  have htop := Machine.running_recordedLoop_acts (m := .instructions) condition.code_acts
    hbody.balanced
  have hrec := Machine.running_skippingLoop condition.code_acts hbody
  exact ⟨fun r => htop.ends_iff.trans hrec.ends_iff.symm,
    htop.diverges_iff.trans hrec.diverges_iff.symm⟩

end StackScript
