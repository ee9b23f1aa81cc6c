import StackScript.Proofs.Shaped

/-!
# StackScript.Proofs.Bodies — the bodies of functions in a tree

`Block.bodies` are the bodies of functions and methods that stand in a tree.  They are what the code
of the tree records, apart from loops outside of functions: if their code has a property, the code
of the tree is vetted where it is recorded (`Block.code_vetted`), and shaped where it is not
(`Block.code_shaped`).
-/

namespace StackScript

open Instruction Code Machine

mutual

/-- The bodies of functions and methods in a statement. -/
def Stmt.bodies : Stmt → List Block
  | .branch _ _ body rest => body.bodies ++ rest.bodies
  | .loop _ _ body => body.bodies
  | .function _ _ _ body => body :: body.bodies
  | .classDecl _ _ _ members => members.memberBodies
  | .value _ | .declare _ _ _ _ | .assign _ _ _ _ | .setField _ _ _ _ | .print _ _ | .returns _ _
  | .continues _ | .breaks _ | .free _ _ _ => []

/-- The bodies of functions and methods in what follows the body of an `if`. -/
def Rest.bodies : Rest → List Block
  | .nothing => []
  | .elseIf _ _ body rest => body.bodies ++ rest.bodies
  | .otherwise body => body.bodies

/-- The bodies of functions and methods in a block. -/
def Block.bodies : Block → List Block
  | .mk _ ss => Stmt.bodiesAll ss

/-- The bodies of the methods of a class, and those in them. -/
def Block.memberBodies : Block → List Block
  | .mk _ ss => Stmt.memberBodiesAll ss

/-- The bodies of functions and methods in statements. -/
def Stmt.bodiesAll : List Stmt → List Block
  | [] => []
  | s :: ss => s.bodies ++ Stmt.bodiesAll ss

/-- The bodies of methods, and those in them. -/
def Stmt.memberBodiesAll : List Stmt → List Block
  | [] => []
  | .function _ _ _ body :: ss => body :: (body.bodies ++ Stmt.memberBodiesAll ss)
  | _ :: ss => Stmt.memberBodiesAll ss

end

/-! ### Constructs -/

variable {P : Code → Prop} {discard condition body : Code}

namespace Code

theorem Straight.functionCode (hb : Sealed P body) (name : String) (arity : Nat) :
    (functionCode name arity body).Straight P :=
  append (.recording hb .nil) (.of_acts (.cons rfl (acts_single rfl)))

theorem Straight.classCode (name : String) (parent : Option String) {members : List Code}
    (h : ∀ c ∈ members, c.Straight P) : (classCode name parent members).Straight P := by
  refine (flatten fun c hc => ?_).append (of_acts (.cons rfl (acts_single rfl)))
  rcases List.mem_append.mp hc with hc | hc
  · exact h c hc
  · cases parent with
    | none => cases hc
    | some p =>
      obtain rfl := List.mem_singleton.mp hc
      exact of_acts (.cons rfl (acts_single rfl))

namespace Vetted

/-- An instruction that neither marks a recording nor makes a loop. -/
theorem single {i : Instruction} (hmark : i.opcode.isMark = false) (hloop : i.opcode ≠ .loop) :
    Vetted P [i] := .cons hmark hloop .nil

theorem skip {c : Code} (h : c.Vetted P) (n : Int) : Vetted P (withNumber .skip n :: c) :=
  .cons rfl Opcode.noConfusion h

theorem jumpCode (m : Measure) {o : Opcode} (ho : o.isJump) : Vetted P [jumpCode m o] := by
  have hopcode : (StackScript.jumpCode m o).opcode = o := by cases m <;> rfl
  refine single ?_ ?_
  · rw [hopcode]
    cases o <;> first | rfl | cases ho
  · rw [hopcode]
    rintro rfl
    cases ho

theorem branchCode (m : Measure) (hc : condition.Acts) (hb : body.Vetted P) {rest : Option Code}
    (hr : ∀ c ∈ rest, c.Vetted P) : (branchCode m condition body rest).Vetted P := by
  have htest : ∀ n : Int, Vetted P (condition ++ [withNumber .skipUnless n]) := fun n =>
    (of_acts hc).append (single rfl nofun)
  cases rest with
  | none => exact (htest _).append hb
  | some rest =>
    have hpast : Vetted P [withNumber .skip (m.length rest)] := single rfl nofun
    exact (((htest _).append hb).append hpast).append (hr rest rfl)

/-- The jumps of a loop become skips, and recordings stay as they are. -/
theorem resolveJumps {c : Code} (h : c.Vetted P) (k : Nat) : (resolveJumps k 0 c).Vetted P := by
  induction h with
  | nil => exact .nil
  | @cons i c hmark hloop h ih =>
    have hrecord : i.opcode ≠ .record := fun ho => by
      rw [ho] at hmark
      cases hmark
    have hend : i.opcode ≠ .endRecord := fun ho => by
      rw [ho] at hmark
      cases hmark
    rw [StackScript.resolveJumps, if_neg hrecord, if_neg hend]
    split
    · exact ih.skip _
    split
    · exact ih.skip _
    · exact .cons hmark hloop ih
  | recording hP hb _ _ ih =>
    rw [resolveJumps_record, resolveJumps_inside hb.balanced, resolveJumps_endRecord]
    exact .recording hP hb ih

theorem skippingLoop (hc : condition.Acts) (hb : body.Vetted P) :
    (skippingLoop condition body).Vetted P := by
  have hloop : ∀ n : Int, Vetted P (body ++ condition ++ [withNumber .skipIf n]) := fun n =>
    (hb.append (of_acts hc)).append (single rfl nofun)
  exact ((hloop _).resolveJumps _).skip _

end Vetted

namespace Shaped

theorem of_acts {c : Code} (h : c.Acts) : c.Shaped P [] := (Straight.of_acts h).shaped

theorem branchCode (hc : condition.Acts) (hb : body.Shaped P []) {rest : Option Code}
    (hr : ∀ c ∈ rest, c.Shaped P []) :
    (branchCode .instructions condition body rest).Shaped P [] := by
  cases rest with
  | none =>
    have hskip : Shaped P [] (withNumber .skipUnless body.length :: (body ++ [])) :=
      .skip rfl (hb.append .nil) .nil
    rw [List.append_nil] at hskip
    have hall := (of_acts hc).append hskip
    rwa [← List.singleton_append, ← List.append_assoc, ← Measure.instructions_length] at hall
  | some rest =>
    have hrest : rest.Shaped P [] := hr rest rfl
    let past := withNumber .skip rest.length
    have hpast : Shaped P [] (past :: (rest ++ [])) := .skip rfl (hrest.append .nil) .nil
    rw [List.append_nil, ← List.singleton_append] at hpast
    have hbody := hb.append hpast
    rw [← List.append_assoc] at hbody
    have hskip : Shaped P [] (withNumber .skipUnless (body ++ [past]).length ::
      (body ++ [past] ++ rest)) := .skip rfl hbody hrest
    have hall := (of_acts hc).append hskip
    rw [← Measure.instructions_length, Measure.length_append] at hall
    simpa [StackScript.branchCode, past, Measure.instructions_length] using hall

theorem recordedLoop (hc : condition.Acts) (hb : body.Vetted P) :
    (recordedLoop condition body).Shaped P [] := by
  have hloop : Shaped P [condition, body] [plain .loop] := .loop (.of_acts hc) hb .nil
  have hshaped : Shaped P [] _ := .wait hb (.wait (.of_acts hc) hloop)
  simpa [StackScript.recordedLoop, recorded] using hshaped

end Shaped

end Code

/-! ### Trees -/

mutual

/-- The code of a statement in a loop or a function. -/
theorem Stmt.code_vetted (hd : discard.Acts) : (s : Stmt) →
    (∀ f ∈ s.bodies, P (f.code discard .slots)) → (s.code discard .slots).Vetted P
  | .value e, _ => .of_acts (e.code_acts.append hd)
  | .declare _ _ init _, _ => .of_acts ((Expr.codeOrNull_acts init).append (acts_single rfl))
  | .assign _ name e binding, _ => .of_acts (assignCode_acts name binding e)
  | .setField _ receiver _ e, _ =>
    .of_acts (((receiver.code_acts.append (acts_single rfl)).append e.code_acts).append
      (.cons rfl (acts_single rfl)))
  | .print _ e, _ => .of_acts (e.code_acts.append (acts_single rfl))
  | .branch _ condition body rest, h =>
    have h := List.forall_mem_append.mp h
    .branchCode .slots condition.code_acts (body.code_vetted hd h.1) (rest.code_vetted hd h.2)
  | .loop _ condition body, h => .skippingLoop condition.code_acts (body.code_vetted hd h)
  | .function _ name params body, h =>
    have h := List.forall_mem_cons.mp h
    (Straight.functionCode ⟨h.1, body.code_vetted hd h.2⟩ name params.length).vetted
  | .classDecl _ name parent members, h =>
    (Straight.classCode name parent (members.memberCodes_straight hd name h)).vetted
  | .returns _ e, _ => (Vetted.of_acts (Expr.codeOrNull_acts e)).append (.single rfl nofun)
  | .continues _, _ => .jumpCode .slots rfl
  | .breaks _, _ => .jumpCode .slots rfl
  | .free _ _ _, _ => .of_acts (acts_single rfl)

theorem Rest.code_vetted (hd : discard.Acts) : (r : Rest) →
    (∀ f ∈ r.bodies, P (f.code discard .slots)) → ∀ c ∈ r.code discard .slots, c.Vetted P
  | .nothing, _, _, hc => nomatch hc
  | .elseIf _ condition body rest, h, _, hc => by
    obtain rfl := Option.some.inj hc
    have h := List.forall_mem_append.mp h
    exact .branchCode .slots condition.code_acts (body.code_vetted hd h.1) (rest.code_vetted hd h.2)
  | .otherwise body, h, _, hc => by
    obtain rfl := Option.some.inj hc
    exact body.code_vetted hd h

theorem Block.code_vetted (hd : discard.Acts) : (b : Block) →
    (∀ f ∈ b.bodies, P (f.code discard .slots)) → (b.code discard .slots).Vetted P
  | .mk _ ss, h => Stmt.codeAll_vetted hd ss h

theorem Stmt.codeAll_vetted (hd : discard.Acts) : (ss : List Stmt) →
    (∀ f ∈ Stmt.bodiesAll ss, P (f.code discard .slots)) →
      (Stmt.codeAll discard .slots ss).Vetted P
  | [], _ => .nil
  | s :: ss, h =>
    have h := List.forall_mem_append.mp h
    (s.code_vetted hd h.1).append (Stmt.codeAll_vetted hd ss h.2)

/-- The code of the members of a class does not jump. -/
theorem Block.memberCodes_straight (hd : discard.Acts) (className : String) : (b : Block) →
    (∀ f ∈ b.memberBodies, P (f.code discard .slots)) →
      ∀ c ∈ b.memberCodes discard className, c.Straight P
  | .mk _ ss, h => Stmt.memberCodesAll_straight hd className ss h

theorem Stmt.memberCodesAll_straight (hd : discard.Acts) (className : String) : (ss : List Stmt) →
    (∀ f ∈ Stmt.memberBodiesAll ss, P (f.code discard .slots)) →
      ∀ c ∈ Stmt.memberCodesAll discard className ss, c.Straight P
  | [], _ => List.forall_mem_nil _
  | .declare _ _ init _ :: ss, h =>
    List.forall_mem_cons.mpr ⟨.of_acts (.cons rfl (Expr.codeOrNull_acts init)),
      Stmt.memberCodesAll_straight hd className ss h⟩
  | .assign _ _ e _ :: ss, h | .setField _ _ _ e :: ss, h =>
    List.forall_mem_cons.mpr ⟨.of_acts (.cons rfl e.code_acts),
      Stmt.memberCodesAll_straight hd className ss h⟩
  | .function _ _ params body :: ss, h =>
    have ⟨hbody, hrest⟩ := List.forall_mem_cons.mp h
    have hrest := List.forall_mem_append.mp hrest
    List.forall_mem_cons.mpr
      ⟨(Straight.functionCode ⟨hbody, body.code_vetted hd hrest.1⟩ _ params.length).append
        (.of_acts (.cons rfl (acts_single rfl))),
        Stmt.memberCodesAll_straight hd className ss hrest.2⟩
  | .value _ :: ss, h | .print _ _ :: ss, h | .branch _ _ _ _ :: ss, h | .loop _ _ _ :: ss, h
  | .classDecl _ _ _ _ :: ss, h | .returns _ _ :: ss, h | .continues _ :: ss, h
  | .breaks _ :: ss, h | .free _ _ _ :: ss, h => Stmt.memberCodesAll_straight hd className ss h

end

mutual

/-- The code of a statement outside of loops and functions. -/
theorem Stmt.code_shaped (hd : discard.Acts) : (s : Stmt) →
    (∀ f ∈ s.bodies, P (f.code discard .slots)) → (s.code discard .instructions).Shaped P []
  | .value e, _ => .of_acts (e.code_acts.append hd)
  | .declare _ _ init _, _ => .of_acts ((Expr.codeOrNull_acts init).append (acts_single rfl))
  | .assign _ name e binding, _ => .of_acts (assignCode_acts name binding e)
  | .setField _ receiver _ e, _ =>
    .of_acts (((receiver.code_acts.append (acts_single rfl)).append e.code_acts).append
      (.cons rfl (acts_single rfl)))
  | .print _ e, _ => .of_acts (e.code_acts.append (acts_single rfl))
  | .branch _ condition body rest, h =>
    have h := List.forall_mem_append.mp h
    .branchCode condition.code_acts (body.code_shaped hd h.1) (rest.code_shaped hd h.2)
  | .loop _ condition body, h => .recordedLoop condition.code_acts (body.code_vetted hd h)
  | .function _ name params body, h =>
    have h := List.forall_mem_cons.mp h
    (Straight.functionCode ⟨h.1, body.code_vetted hd h.2⟩ name params.length).shaped
  | .classDecl _ name parent members, h =>
    (Straight.classCode name parent (members.memberCodes_straight hd name h)).shaped
  | .returns _ e, _ => (Shaped.of_acts (Expr.codeOrNull_acts e)).append (.out (.inr rfl) .nil)
  | .continues _, _ => .out (.inl rfl) .nil
  | .breaks _, _ => .out (.inl rfl) .nil
  | .free _ _ _, _ => .of_acts (acts_single rfl)

theorem Rest.code_shaped (hd : discard.Acts) : (r : Rest) →
    (∀ f ∈ r.bodies, P (f.code discard .slots)) →
      ∀ c ∈ r.code discard .instructions, c.Shaped P []
  | .nothing, _, _, hc => nomatch hc
  | .elseIf _ condition body rest, h, _, hc => by
    obtain rfl := Option.some.inj hc
    have h := List.forall_mem_append.mp h
    exact .branchCode condition.code_acts (body.code_shaped hd h.1) (rest.code_shaped hd h.2)
  | .otherwise body, h, _, hc => by
    obtain rfl := Option.some.inj hc
    exact body.code_shaped hd h

theorem Block.code_shaped (hd : discard.Acts) : (b : Block) →
    (∀ f ∈ b.bodies, P (f.code discard .slots)) → (b.code discard .instructions).Shaped P []
  | .mk _ ss, h => Stmt.codeAll_shaped hd ss h

theorem Stmt.codeAll_shaped (hd : discard.Acts) : (ss : List Stmt) →
    (∀ f ∈ Stmt.bodiesAll ss, P (f.code discard .slots)) →
      (Stmt.codeAll discard .instructions ss).Shaped P []
  | [], _ => .nil
  | s :: ss, h =>
    have h := List.forall_mem_append.mp h
    (s.code_shaped hd h.1).append (Stmt.codeAll_shaped hd ss h.2)

end

end StackScript
