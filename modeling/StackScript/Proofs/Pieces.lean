import StackScript.Proofs.Bodies
import StackScript.Proofs.AlignedTrees

/-!
# StackScript.Proofs.Pieces — what addresses variables in the code of a tree

The code of a tree is put together of the code of its expressions, of what stores and ends its
variables, and of instructions that address no variable.  `Block.Pieces A` says that the former have
a property; if it is one of what an instruction addresses, all of the code has it
(`Block.code_all`).
-/

namespace StackScript

open Instruction Code

/-! ### Instructions -/

/-- The instruction addresses no variable. -/
def Instruction.Apart (i : Instruction) : Prop :=
  i.opcode.addresses = false ∧ i.opcode ≠ .loadParam

/-- A property that each instruction has that addresses no variable, and that an instruction that
updates a variable has if the assignment has it. -/
structure OfVariables (A : Instruction → Prop) : Prop where
  apart : ∀ i, i.Apart → A i
  update : ∀ op o operand, Opcode.update? op = some o → A ⟨.store, operand⟩ → A ⟨o, operand⟩

/-! ### Trees -/

mutual

/-- Whatever addresses variables in the code of a statement has the property. -/
def Stmt.Pieces (A : Instruction → Prop) : Stmt → Prop
  | .value e => ∀ i ∈ e.code, A i
  | .declare _ name init binding =>
    (∀ i ∈ Expr.codeOrNull init, A i) ∧ A ⟨.store, some (targetOperand name binding)⟩
  | .assign _ name e binding =>
    (∀ i ∈ e.code, A i) ∧ A ⟨.store, some (targetOperand name binding)⟩
  | .setField _ receiver _ e => (∀ i ∈ receiver.code, A i) ∧ ∀ i ∈ e.code, A i
  | .print _ e => ∀ i ∈ e.code, A i
  | .branch _ condition body rest =>
    (∀ i ∈ condition.code, A i) ∧ body.Pieces A ∧ rest.Pieces A
  | .loop _ condition body => (∀ i ∈ condition.code, A i) ∧ body.Pieces A
  | .function _ _ _ body => body.Pieces A
  | .classDecl _ _ _ members => members.MemberPieces A
  | .returns _ e => ∀ i ∈ Expr.codeOrNull e, A i
  | .continues _ | .breaks _ => True
  | .free _ _ slot => A (withNumber .clear slot)

/-- The same for what follows the body of an `if`. -/
def Rest.Pieces (A : Instruction → Prop) : Rest → Prop
  | .nothing => True
  | .elseIf _ condition body rest =>
    (∀ i ∈ condition.code, A i) ∧ body.Pieces A ∧ rest.Pieces A
  | .otherwise body => body.Pieces A

/-- The same for a block. -/
def Block.Pieces (A : Instruction → Prop) : Block → Prop
  | .mk _ ss => Stmt.AllPieces A ss

/-- The same for the members of a class. -/
def Block.MemberPieces (A : Instruction → Prop) : Block → Prop
  | .mk _ ss => Stmt.EachPieces A ss

/-- The same for statements. -/
def Stmt.AllPieces (A : Instruction → Prop) : List Stmt → Prop
  | [] => True
  | s :: ss => s.Pieces A ∧ Stmt.AllPieces A ss

/-- The same for members, whose declarations store nothing. -/
def Stmt.EachPieces (A : Instruction → Prop) : List Stmt → Prop
  | [] => True
  | .declare _ _ init _ :: ss => (∀ i ∈ Expr.codeOrNull init, A i) ∧ Stmt.EachPieces A ss
  | .assign _ _ e _ :: ss => (∀ i ∈ e.code, A i) ∧ Stmt.EachPieces A ss
  | .setField _ _ _ e :: ss => (∀ i ∈ e.code, A i) ∧ Stmt.EachPieces A ss
  | .function _ _ _ body :: ss => body.Pieces A ∧ Stmt.EachPieces A ss
  | _ :: ss => Stmt.EachPieces A ss

end

/-! ### Constructs -/

namespace OfVariables

variable {A : Instruction → Prop} (h : OfVariables A) {condition body : Code}

include h

theorem single {i : Instruction} (haddresses : i.opcode.addresses = false)
    (hparam : i.opcode ≠ .loadParam) : ∀ j ∈ [i], A j :=
  List.forall_mem_singleton.mpr (h.apart i ⟨haddresses, hparam⟩)

theorem recorded (hb : ∀ i ∈ body, A i) : ∀ i ∈ recorded body, A i :=
  List.forall_mem_cons.mpr ⟨h.apart _ ⟨rfl, nofun⟩,
    List.forall_mem_append.mpr ⟨hb, h.single rfl nofun⟩⟩

theorem functionCode (hb : ∀ i ∈ body, A i) (name : String) (arity : Nat) :
    ∀ i ∈ functionCode name arity body, A i :=
  List.forall_mem_append.mpr ⟨h.recorded hb, List.forall_mem_cons.mpr
    ⟨h.apart _ ⟨rfl, nofun⟩, h.single rfl nofun⟩⟩

theorem classCode (name : String) (parent : Option String) {members : List Code}
    (hm : ∀ c ∈ members, ∀ i ∈ c, A i) : ∀ i ∈ classCode name parent members, A i := by
  have hparent : ∀ i ∈ parentCode parent, A i := by
    cases parent with
    | none => exact List.forall_mem_nil _
    | some p => exact List.forall_mem_cons.mpr ⟨h.apart _ ⟨rfl, nofun⟩, h.single rfl nofun⟩
  have hclass : ∀ i ∈ [withNumber .makeMap (members.length + parent.toList.length),
      withName .makeClass name], A i :=
    List.forall_mem_cons.mpr ⟨h.apart _ ⟨rfl, nofun⟩, h.single rfl nofun⟩
  rw [classCode_eq]
  refine List.forall_mem_append.mpr ⟨fun i hi => ?_, List.forall_mem_append.mpr ⟨hparent, hclass⟩⟩
  obtain ⟨c, hc, hi⟩ := List.mem_flatten.mp hi
  exact hm c hc i hi

theorem jumpCode (m : Measure) {o : Opcode} (ho : o.isJump) : ∀ i ∈ [jumpCode m o], A i := by
  have hopcode : (StackScript.jumpCode m o).opcode = o := by cases m <;> rfl
  refine h.single ?_ ?_
  · rw [hopcode]
    cases o <;> first | rfl | cases ho
  · rw [hopcode]
    rintro rfl
    cases ho

theorem branchCode (m : Measure) (hc : ∀ i ∈ condition, A i) (hb : ∀ i ∈ body, A i)
    {rest : Option Code} (hr : ∀ c ∈ rest, ∀ i ∈ c, A i) :
    ∀ i ∈ branchCode m condition body rest, A i := by
  have htest : ∀ n : Int, ∀ i ∈ condition ++ [withNumber .skipUnless n], A i := fun n =>
    List.forall_mem_append.mpr ⟨hc, h.single rfl nofun⟩
  cases rest with
  | none => exact List.forall_mem_append.mpr ⟨htest _, hb⟩
  | some rest =>
    have hpast : ∀ i ∈ [withNumber .skip (m.length rest)], A i := h.single rfl nofun
    exact List.forall_mem_append.mpr ⟨List.forall_mem_append.mpr
      ⟨List.forall_mem_append.mpr ⟨htest _, hb⟩, hpast⟩, hr rest rfl⟩

theorem resolveJumps (k depth : Nat) {c : Code} (hc : ∀ i ∈ c, A i) :
    ∀ i ∈ resolveJumps k depth c, A i := by
  induction c generalizing depth with
  | nil => exact List.forall_mem_nil _
  | cons i c ih =>
    obtain ⟨hi, hc⟩ := List.forall_mem_cons.mp hc
    have hskip : ∀ n, A (withNumber .skip n) := fun n => h.apart _ ⟨rfl, nofun⟩
    unfold StackScript.resolveJumps
    split
    · exact List.forall_mem_cons.mpr ⟨hi, ih _ hc⟩
    split
    · exact List.forall_mem_cons.mpr ⟨hi, ih _ hc⟩
    split
    · exact List.forall_mem_cons.mpr ⟨hskip _, ih _ hc⟩
    split
    · exact List.forall_mem_cons.mpr ⟨hskip _, ih _ hc⟩
    · exact List.forall_mem_cons.mpr ⟨hi, ih _ hc⟩

theorem skippingLoop (hc : ∀ i ∈ condition, A i) (hb : ∀ i ∈ body, A i) :
    ∀ i ∈ skippingLoop condition body, A i :=
  List.forall_mem_cons.mpr ⟨h.apart _ ⟨rfl, nofun⟩, h.resolveJumps _ _ (List.forall_mem_append.mpr
    ⟨List.forall_mem_append.mpr ⟨hb, hc⟩, h.single rfl nofun⟩)⟩

theorem recordedLoop (hc : ∀ i ∈ condition, A i) (hb : ∀ i ∈ body, A i) :
    ∀ i ∈ recordedLoop condition body, A i :=
  List.forall_mem_append.mpr ⟨List.forall_mem_append.mpr ⟨h.recorded hb, h.recorded hc⟩,
    h.single rfl nofun⟩

/-- A marked assignment. -/
theorem assigned {e : Expr} (he : ∀ i ∈ e.code, A i) {name : String} {binding : Option Binding}
    (hstore : A ⟨.store, some (targetOperand name binding)⟩) :
    ∀ i ∈ e.assigned name binding, A i := by
  cases hu : e.update? name binding with
  | none =>
    rw [Expr.assigned_plain hu]
    exact List.forall_mem_append.mpr ⟨he, List.forall_mem_singleton.mpr hstore⟩
  | some u =>
    obtain ⟨o, ho, hcode⟩ := Expr.assigned_update hu
    obtain ⟨line, line', target, rfl, -, -⟩ := Expr.update?_eq_some hu
    rw [Expr.code, List.forall_mem_append, List.forall_mem_append] at he
    rw [hcode]
    exact List.forall_mem_append.mpr ⟨he.1.2,
      List.forall_mem_singleton.mpr (h.update u.op o _ ho hstore)⟩

end OfVariables

/-! ### All of the code -/

section
variable {A : Instruction → Prop} (keeps : Bool)

theorem discarding_all (h : OfVariables A) : ∀ i ∈ discarding keeps, A i := by
  cases keeps with
  | true => exact List.forall_mem_nil _
  | false => exact h.single rfl nofun

mutual

theorem Stmt.code_all (h : OfVariables A) (m : Measure) : (s : Stmt) → s.Pieces A →
    ∀ i ∈ (s.mark .inPlace).code (discarding keeps) m, A i
  | .value _, he => List.forall_mem_append.mpr ⟨he, discarding_all keeps h⟩
  | .declare _ _ _ _, ⟨hinit, hstore⟩ =>
    List.forall_mem_append.mpr ⟨hinit, List.forall_mem_singleton.mpr hstore⟩
  | .assign _ _ _ _, ⟨he, hstore⟩ => h.assigned he hstore
  | .setField _ _ _ _, ⟨hreceiver, he⟩ =>
    List.forall_mem_append.mpr ⟨List.forall_mem_append.mpr
      ⟨List.forall_mem_append.mpr ⟨hreceiver, h.single rfl nofun⟩, he⟩,
      List.forall_mem_cons.mpr ⟨h.apart _ ⟨rfl, nofun⟩, h.single rfl nofun⟩⟩
  | .print _ _, he => List.forall_mem_append.mpr ⟨he, h.single rfl nofun⟩
  | .branch _ _ body rest, ⟨hcondition, hbody, hrest⟩ =>
    h.branchCode m hcondition (body.code_all h m hbody) (rest.code_all h m hrest)
  | .loop _ _ body, ⟨hcondition, hbody⟩ =>
    match m with
    | .instructions => h.recordedLoop hcondition (body.code_all h .slots hbody)
    | .slots => h.skippingLoop hcondition (body.code_all h .slots hbody)
  | .function _ name params body, hbody =>
    h.functionCode (body.code_all h .slots hbody) name params.length
  | .classDecl _ name parent members, hmembers =>
    h.classCode name parent (members.memberCodes_all h name hmembers)
  | .returns _ _, he => List.forall_mem_append.mpr ⟨he, h.single rfl nofun⟩
  | .continues _, _ => h.jumpCode m rfl
  | .breaks _, _ => h.jumpCode m rfl
  | .free _ _ _, hslot => List.forall_mem_singleton.mpr hslot

theorem Rest.code_all (h : OfVariables A) (m : Measure) : (r : Rest) → r.Pieces A →
    ∀ c ∈ (r.mark .inPlace).code (discarding keeps) m, ∀ i ∈ c, A i
  | .nothing, _, _, hc => nomatch hc
  | .elseIf _ _ body rest, ⟨hcondition, hbody, hrest⟩, _, hc => by
    obtain rfl := Option.some.inj hc
    exact h.branchCode m hcondition (body.code_all h m hbody) (rest.code_all h m hrest)
  | .otherwise body, hbody, _, hc => by
    obtain rfl := Option.some.inj hc
    exact body.code_all h m hbody

/-- If the pieces of a block have the property, all of its code has it. -/
theorem Block.code_all (h : OfVariables A) (m : Measure) : (b : Block) → b.Pieces A →
    ∀ i ∈ (b.mark .inPlace).code (discarding keeps) m, A i
  | .mk _ ss, hss => Stmt.codeAll_all h m ss hss

theorem Stmt.codeAll_all (h : OfVariables A) (m : Measure) : (ss : List Stmt) →
    Stmt.AllPieces A ss → ∀ i ∈ Stmt.codeAll (discarding keeps) m (Stmt.markAll .inPlace ss), A i
  | [], _ => List.forall_mem_nil _
  | s :: ss, ⟨hs, hss⟩ =>
    List.forall_mem_append.mpr ⟨s.code_all h m hs, Stmt.codeAll_all h m ss hss⟩

theorem Block.memberCodes_all (h : OfVariables A) (className : String) : (b : Block) →
    b.MemberPieces A →
      ∀ c ∈ (b.mark .inPlace).memberCodes (discarding keeps) className, ∀ i ∈ c, A i
  | .mk _ ss, hss => Stmt.memberCodesAll_all h className ss hss

theorem Stmt.memberCodesAll_all (h : OfVariables A) (className : String) : (ss : List Stmt) →
    Stmt.EachPieces A ss →
      ∀ c ∈ Stmt.memberCodesAll (discarding keeps) className (Stmt.markAll .inPlace ss),
        ∀ i ∈ c, A i
  | [], _ => List.forall_mem_nil _
  | .declare _ _ _ _ :: ss, ⟨hinit, hss⟩ =>
    List.forall_mem_cons.mpr ⟨List.forall_mem_cons.mpr ⟨h.apart _ ⟨rfl, nofun⟩, hinit⟩,
      Stmt.memberCodesAll_all h className ss hss⟩
  | .assign _ _ _ _ :: ss, ⟨he, hss⟩ => by
    refine List.forall_mem_cons.mpr ⟨List.forall_mem_cons.mpr ⟨h.apart _ ⟨rfl, nofun⟩, ?_⟩,
      Stmt.memberCodesAll_all h className ss hss⟩
    rw [Expr.withTarget_code]
    exact he
  | .setField _ _ _ _ :: ss, ⟨he, hss⟩ =>
    List.forall_mem_cons.mpr ⟨List.forall_mem_cons.mpr ⟨h.apart _ ⟨rfl, nofun⟩, he⟩,
      Stmt.memberCodesAll_all h className ss hss⟩
  | .function _ _ params body :: ss, ⟨hbody, hss⟩ =>
    List.forall_mem_cons.mpr ⟨List.forall_mem_append.mpr
      ⟨h.functionCode (body.code_all h .slots hbody) _ params.length,
        List.forall_mem_cons.mpr ⟨h.apart _ ⟨rfl, nofun⟩, h.single rfl nofun⟩⟩,
      Stmt.memberCodesAll_all h className ss hss⟩
  | .value _ :: ss, hss | .print _ _ :: ss, hss | .branch _ _ _ _ :: ss, hss
  | .loop _ _ _ :: ss, hss | .classDecl _ _ _ _ :: ss, hss | .returns _ _ :: ss, hss
  | .continues _ :: ss, hss | .breaks _ :: ss, hss | .free _ _ _ :: ss, hss =>
    Stmt.memberCodesAll_all h className ss hss

end

end

end StackScript
