import Mathlib.Data.List.Basic
import StackScript.Proofs.Relined

/-!
# StackScript.Proofs.Relining — a parse on other lines

No rule looks at a line.  So the same tokens on other lines are matched and reduced in the same way,
and all lines are those of tokens, or 1 where there is no token: parsing and changing the lines
commute (`Grammar.parse_relined`), and so do resolving and changing the lines.
-/

namespace StackScript

variable {f : Nat → Nat}

/-! ### The symbols of a match -/

namespace Matched

variable (ms : Matched)

theorem line_relined (hf : f 1 = 1) : line (ms.map (Symbol.relined f)) = f ms.line := by
  cases ms with
  | nil => exact hf.symm
  | cons => rfl

@[simp] theorem tag?_relined (i : Nat) : tag? (ms.map (Symbol.relined f)) i = ms.tag? i := by
  rw [tag?, List.getElem?_map, Option.map_map]
  rfl

@[simp] theorem text_relined (i : Nat) : text (ms.map (Symbol.relined f)) i = ms.text i := by
  rw [text, List.getElem?_map, Option.map_map]
  rfl

theorem lineAt_relined (hf : f 1 = 1) (i : Nat) :
    lineAt (ms.map (Symbol.relined f)) i = f (ms.lineAt i) := by
  rw [lineAt, List.getElem?_map, line_relined ms hf, lineAt]
  cases ms[i]? <;> rfl

@[simp] theorem expr?_relined (i : Nat) :
    expr? (ms.map (Symbol.relined f)) i = (ms.expr? i).map (Expr.relined f) := by
  rw [expr?, List.getElem?_map, expr?]
  cases ms[i]? with
  | none => rfl
  | some s => exact s.expr?_relined

@[simp] theorem program?_relined (i : Nat) :
    program? (ms.map (Symbol.relined f)) i = (ms.program? i).map (Program.relined f) := by
  rw [program?, List.getElem?_map, program?]
  cases ms[i]? with
  | none => rfl
  | some s => exact s.program?_relined

@[simp] theorem fragment?_relined (i : Nat) :
    fragment? (ms.map (Symbol.relined f)) i = (ms.fragment? i).map (Fragment.relined f) := by
  rw [fragment?, List.getElem?_map, fragment?]
  cases ms[i]? <;> rfl

@[simp] theorem exprs_relined :
    exprs (ms.map (Symbol.relined f)) = ms.exprs.map (Expr.relined f) := by
  rw [exprs, List.filterMap_map, exprs, List.map_filterMap]
  exact List.filterMap_congr fun s _ => s.expr?_relined

@[simp] theorem programs_relined :
    programs (ms.map (Symbol.relined f)) = ms.programs.map (Program.relined f) := by
  rw [programs, List.filterMap_map, programs, List.map_filterMap]
  exact List.filterMap_congr fun s _ => s.program?_relined

end Matched

/-! ### Building -/

namespace Build

/-- Building the one on other lines is building the other and then changing the lines. -/
def Relines (f : Nat → Nat) {α : Type} (g : α → α) (x x' : Build α) : Prop :=
  ∀ r : Record, x' (r.relined f) = (g (x r).1, (x r).2.relined f)

/-- Building gives a fragment on other lines. -/
abbrev RelinesFragment (f : Nat → Nat) (x x' : Build (Option Fragment)) : Prop :=
  Relines f (Option.map (Fragment.relined f)) x x'

variable {α β : Type} {g : α → α} {g' : β → β}

theorem relines_pure (a : α) : Relines f g (pure a) (pure (g a)) := fun _ => rfl

theorem Relines.bind {x x' : Build α} {k k' : α → Build β} (hx : Relines f g x x')
    (hk : ∀ a, Relines f g' (k a) (k' (g a))) : Relines f g' (x >>= k) (x' >>= k') := by
  intro r
  change k' (x' (r.relined f)).1 (x' (r.relined f)).2 = _
  rw [hx r]
  exact hk _ _

theorem relines_count (n : Nat) : Relines f id (count n) (count n) := fun _ => rfl

theorem relines_report (d : Diagnostic) : Relines f id (report d) (report (d.relined f)) := by
  intro r
  change ((), (⟨_, _, _⟩ : Record)) = ((), (⟨_, List.map _ (_ ++ [d]), _⟩ : Record))
  rw [List.map_append]
  rfl

theorem relines_drop (ms : Matched) :
    Relines f id (drop ms) (drop (ms.map (Symbol.relined f))) := by
  intro r
  change ((), (⟨_, _, _ ++ (ms.map _).filterMap _⟩ : Record)) =
    ((), (⟨_, _, List.map _ (_ ++ ms.filterMap _)⟩ : Record))
  rw [List.map_append, List.filterMap_map, List.map_filterMap]
  rfl

theorem relines_made (g : Fragment) : RelinesFragment f (made g) (made (g.relined f)) :=
  (relines_count 1).bind fun _ => relines_pure (some g)

end Build

open Build

theorem Matched.body_relined (hf : f 1 = 1) (ms : Matched) (i : Nat) :
    Relines f (Block.relined f) (ms.body i) (body (ms.map (Symbol.relined f)) i) := by
  rw [body, body, program?_relined, line_relined ms hf]
  cases ms.program? i with
  | none => exact (relines_count 1).bind fun _ => relines_pure _
  | some p =>
    simp only [Option.map_some, Program.wrappers_relined, Program.toBlock_relined]
    exact (relines_count _).bind fun _ => relines_pure _

section Rules

variable (hf : f 1 = 1) (ms : Matched)
include hf

theorem buildLiteral_relined :
    RelinesFragment f (buildLiteral ms) (buildLiteral (ms.map (Symbol.relined f))) := by
  rw [buildLiteral, buildLiteral]
  simp only [Matched.tag?_relined, Matched.text_relined, Matched.line_relined ms hf]
  split
  case h_1 => exact relines_pure none
  case h_2 =>
    cases Decimal.ofText? (ms.text 0) with
    | none => exact (relines_report _).bind fun _ => relines_pure none
    | some d => exact relines_made _
  all_goals exact relines_made _

omit hf in
@[simp] theorem binaryOperator_relined :
    binaryOperator (ms.map (Symbol.relined f)) = binaryOperator ms := by
  simp only [binaryOperator, Matched.tag?_relined, Matched.text_relined]

omit hf in
@[simp] theorem unaryOperator_relined :
    unaryOperator (ms.map (Symbol.relined f)) = unaryOperator ms := by
  simp only [unaryOperator, Matched.tag?_relined]

theorem buildBinary_relined :
    RelinesFragment f (buildBinary ms) (buildBinary (ms.map (Symbol.relined f))) := by
  rw [buildBinary, buildBinary, Matched.expr?_relined, Matched.expr?_relined,
    Matched.line_relined ms hf, binaryOperator_relined]
  cases ms.expr? 0 <;> cases ms.expr? 2 <;> first | exact relines_made _ | exact relines_pure none

theorem buildAssignmentHead_relined :
    RelinesFragment f (buildAssignmentHead ms)
      (buildAssignmentHead (ms.map (Symbol.relined f))) := by
  rw [buildAssignmentHead, buildAssignmentHead]
  simp only [Matched.tag?_relined, Matched.text_relined, Matched.line_relined ms hf,
    Matched.expr?_relined]
  split
  case h_1 => exact relines_pure none
  case h_4 => cases ms.expr? 0 <;> first | exact relines_made _ | exact relines_pure none
  all_goals exact relines_made _

theorem buildCallHead_relined :
    RelinesFragment f (buildCallHead ms) (buildCallHead (ms.map (Symbol.relined f))) := by
  rw [buildCallHead, buildCallHead]
  simp only [Matched.tag?_relined, Matched.text_relined, Matched.line_relined ms hf,
    Matched.expr?_relined]
  split
  case isTrue => exact relines_made _
  case isFalse => cases ms.expr? 0 <;> first | exact relines_made _ | exact relines_pure none

omit hf in
theorem buildArguments_relined :
    buildArguments (ms.map (Symbol.relined f)) = (buildArguments ms).map (Fragment.relined f) := by
  rw [buildArguments, buildArguments, Matched.fragment?_relined, Matched.exprs_relined,
    ← Expr.relinedAll_eq_map]
  rcases ms.fragment? 0 with _ | g
  · rfl
  · cases g with
    | callHead line receiver name => cases receiver <;> rfl
    | _ => rfl

omit hf in
theorem buildAssignment_relined :
    buildAssignment (ms.map (Symbol.relined f)) =
      (buildAssignment ms).map (Fragment.relined f) := by
  rw [buildAssignment, buildAssignment, Matched.fragment?_relined, Matched.expr?_relined]
  rcases ms.fragment? 0 with _ | g
  · rfl
  · cases g with
    | assignmentHead line declares receiver name =>
      cases declares <;> cases receiver <;> cases ms.expr? 1 <;> rfl
    | _ => rfl

theorem buildBranch_relined (isElseIf : Bool) {branch branch' : Build (Option Rest)}
    (hbranch : Relines f (Option.map (Rest.relined f)) branch branch') :
    RelinesFragment f (buildBranch ms isElseIf branch)
      (buildBranch (ms.map (Symbol.relined f)) isElseIf branch') := by
  have hstray : ∀ d d' : Diagnostic, d' = d.relined f → RelinesFragment f
      (do report d; drop (ms.drop 1); return ms.fragment? 0)
      (do report d'; drop ((ms.map (Symbol.relined f)).drop 1)
          return (ms.fragment? 0).map (Fragment.relined f)) := by
    rintro d _ rfl
    rw [← List.map_drop]
    exact (relines_report d).bind fun _ => (relines_drop _).bind fun _ => relines_pure _
  rw [buildBranch, buildBranch, Matched.program?_relined, Matched.lineAt_relined ms hf,
    Matched.fragment?_relined]
  rcases ms.program? 0 with _ | p
  · exact hstray _ _ rfl
  rcases p with s | b
  · cases s with
    | branch line condition body rest =>
      have hattach : (rest.relined f).attach .nothing =
          (rest.attach .nothing).map (Rest.relined f) :=
        rest.attach_relined .nothing
      simp only [Option.map_some, Program.relined, Stmt.relined, hattach]
      cases rest.attach .nothing with
      | none =>
        refine hstray _ _ ?_
        cases isElseIf <;> rfl
      | some rest' =>
        refine hbranch.bind fun new => ?_
        cases new with
        | none => exact relines_pure none
        | some new =>
          intro r
          simp only [Option.map_some, Rest.attach_relined]
          cases rest.attach new <;> rfl
    | _ => exact hstray _ _ rfl
  · exact hstray _ _ rfl

theorem buildDeclaration_relined :
    RelinesFragment f (buildDeclaration ms) (buildDeclaration (ms.map (Symbol.relined f))) := by
  have hbody := ms.body_relined hf 1
  rw [buildDeclaration, buildDeclaration, Matched.fragment?_relined]
  simp only [Matched.tag?_relined]
  rcases ms.fragment? 0 with _ | g
  · exact relines_pure none
  cases g with
  | functionHead line name params | classHead line name parent =>
    dsimp only [Option.map_some, Fragment.relined]
    split
    · exact hbody.bind fun _ => relines_pure _
    · exact fun _ => rfl
  | _ => exact relines_pure none

/-- What a rule builds on other lines is what it builds, on other lines. -/
theorem Rule.build_relined (r : Rule) :
    RelinesFragment f (r.build ms) (r.build (ms.map (Symbol.relined f))) := by
  have hline := ms.line_relined hf
  cases r with
  | literal => exact buildLiteral_relined hf ms
  | assignmentHead | fieldAssignmentHead => exact buildAssignmentHead_relined hf ms
  | methodHead | callHead => exact buildCallHead_relined hf ms
  | power | factor | term | comparison | logic => exact buildBinary_relined hf ms
  | functionEnd | classEnd => exact buildDeclaration_relined hf ms
  | arguments =>
    rw [build, build, buildArguments_relined]
    exact relines_pure _
  | assignment =>
    rw [build, build, buildAssignment_relined]
    exact relines_pure _
  | declaration =>
    rw [build, build, hline, Matched.text_relined]
    exact relines_made _
  | functionHead =>
    have hparams : (((ms.map (Symbol.relined f)).drop 2).filter (·.tag = .name)).map (·.text) =
        ((ms.drop 2).filter (·.tag = .name)).map (·.text) := by
      rw [← List.map_drop, List.filter_map, List.map_map]
      rfl
    rw [build, build, hline, Matched.text_relined, hparams]
    exact (relines_count 2).bind fun _ => relines_pure _
  | classHead =>
    rw [build, build, hline]
    simp only [Matched.text_relined, Matched.tag?_relined]
    exact (relines_count 2).bind fun _ => relines_pure _
  | newHead | «variable» =>
    rw [build, build, hline, Matched.text_relined]
    exact relines_made _
  | field =>
    rw [build, build, hline, Matched.text_relined, Matched.expr?_relined]
    cases ms.expr? 0 <;> first | exact relines_made _ | exact relines_pure none
  | list =>
    rw [build, build, hline, Matched.exprs_relined, ← Expr.relinedAll_eq_map]
    exact relines_made _
  | map =>
    rw [build, build, hline, Matched.exprs_relined, ← Expr.relinedPairs_pairsOf]
    exact relines_made _
  | group =>
    intro r
    rw [build, build, Matched.expr?_relined]
    cases ms.expr? 1 <;> rfl
  | unary =>
    rw [build, build, hline, Matched.expr?_relined, unaryOperator_relined]
    cases ms.expr? 1 <;> first | exact relines_made _ | exact relines_pure none
  | jump =>
    rw [build, build, hline]
    simp only [Matched.tag?_relined]
    split <;> exact relines_made _
  | print =>
    rw [build, build, hline, Matched.expr?_relined]
    cases ms.expr? 1 <;> first | exact relines_made _ | exact relines_pure none
  | returns =>
    rw [build, build, hline, Matched.expr?_relined]
    exact relines_made _
  | branch | loop =>
    rw [build, build, hline, Matched.expr?_relined]
    cases ms.expr? 1 with
    | none => exact relines_pure none
    | some condition => exact (ms.body_relined hf 3).bind fun _ => relines_made _
  | elseIf =>
    refine buildBranch_relined hf ms true ?_
    rw [Matched.expr?_relined, Matched.lineAt_relined ms hf]
    cases ms.expr? 2 with
    | none => exact relines_pure none
    | some condition =>
      exact (ms.body_relined hf 4).bind fun _ => (relines_count 1).bind fun _ => relines_pure _
  | otherwise =>
    exact buildBranch_relined hf ms false ((ms.body_relined hf 3).bind fun _ => relines_pure _)
  | sequence =>
    rw [build, build, hline, Matched.programs_relined, Program.flatMap_statements_relined,
      ← Stmt.relinedAll_eq_map]
    exact relines_made _
  | trailing =>
    rw [build, build, Matched.fragment?_relined]
    exact relines_pure _
  | statement =>
    intro r
    rw [build, build, Matched.expr?_relined]
    cases ms.expr? 0 <;> rfl

end Rules

end StackScript
