import Mathlib.Data.Multiset.OrderedMonoid
import StackScript.Proofs.Made
import StackScript.Proofs.Occurrences

/-!
# StackScript.Proofs.Uses — the reads and assignments that a rule makes

A rule moves what it has matched around: arguments come before their receiver, an assignment behind
its value.  So the reads and assignments of trees are counted here without their order.  A rule
makes one read or one assignment at most, of a name that it matches, and whatever else its fragment
has comes from the fragments of the match (`Rule.Makes.uses_le`).
-/

namespace StackScript

/-- A name is read or assigned. -/
def Occurrence.isUse : Occurrence → Bool
  | read .. | write .. => true
  | enter _ | leave | declare .. => false

/-- The reads and assignments among occurrences. -/
def usesOf (os : List Occurrence) : Multiset Occurrence := (os.filter Occurrence.isUse : List _)

@[simp] theorem usesOf_nil : usesOf [] = 0 := rfl

@[simp] theorem usesOf_append (os os' : List Occurrence) :
    usesOf (os ++ os') = usesOf os + usesOf os' := by
  rw [usesOf, List.filter_append, ← Multiset.coe_add]
  rfl

@[simp] theorem usesOf_read (name : String) (line : Nat) (binding : Option Binding) :
    usesOf [.read name line binding] = {.read name line binding} := rfl

@[simp] theorem usesOf_write (name : String) (line : Nat) (binding : Option Binding) :
    usesOf [.write name line binding] = {.write name line binding} := rfl

@[simp] theorem usesOf_declare (name : String) (binding : Option Binding) :
    usesOf [.declare name binding] = 0 := rfl

@[simp] theorem usesOf_leave : usesOf [.leave] = 0 := rfl

@[simp] theorem usesOf_enter_cons (params : List String) (os : List Occurrence) :
    usesOf (.enter params :: os) = usesOf os := rfl

theorem mem_usesOf {os : List Occurrence} {o : Occurrence} :
    o ∈ usesOf os ↔ o ∈ os ∧ o.isUse = true := List.mem_filter

/-! ### Uses of trees -/

/-- The uses of an expression. -/
def Expr.uses (e : Expr) : Multiset Occurrence := usesOf e.occurrences

/-- The uses of expressions. -/
def Expr.usesAll (es : List Expr) : Multiset Occurrence := usesOf (occurrencesAll es)

/-- The uses of an expression that may be absent. -/
def Expr.usesOption (e : Option Expr) : Multiset Occurrence := usesOf (occurrencesOption e)

/-- The uses of statements. -/
def Stmt.usesAll (ss : List Stmt) : Multiset Occurrence := usesOf (occurrencesAll false ss)

/-- The uses of a statement. -/
def Stmt.uses (s : Stmt) : Multiset Occurrence := usesOf (s.occurrences false)

/-- The uses of what follows the body of an `if`. -/
def Rest.uses (r : Rest) : Multiset Occurrence := usesOf r.occurrences

/-- The uses of a block. -/
def Block.uses (b : Block) : Multiset Occurrence := Stmt.usesAll b.statements

/-- The uses of what a symbol stands for; the head of an assignment to a variable has that of the
variable. -/
def Fragment.uses : Fragment → Multiset Occurrence
  | value e => e.uses
  | program p => Stmt.usesAll p.statements
  | assignmentHead line false none name => {.write name line none}
  | assignmentHead _ true none _ => 0
  | assignmentHead _ _ (some receiver) _ => receiver.uses
  | callHead _ receiver _ => Expr.usesOption receiver
  | newHead .. | functionHead .. | classHead .. => 0

/-- The uses of what a symbol stands for, if it does. -/
def Symbol.uses (s : Symbol) : Multiset Occurrence := (s.fragment.map Fragment.uses).getD 0

/-- The uses of symbols. -/
def Symbol.usesAll (ms : List Symbol) : Multiset Occurrence := (ms.map uses).sum

@[simp] theorem Expr.usesAll_nil : usesAll [] = 0 := rfl

@[simp] theorem Expr.usesAll_cons (e : Expr) (es : List Expr) :
    usesAll (e :: es) = e.uses + usesAll es := usesOf_append ..

@[simp] theorem Expr.usesOption_none : usesOption none = 0 := rfl

@[simp] theorem Expr.usesOption_some (e : Expr) : usesOption (some e) = e.uses := rfl

@[simp] theorem Stmt.usesAll_nil : usesAll [] = 0 := rfl

@[simp] theorem Stmt.usesAll_cons (s : Stmt) (ss : List Stmt) :
    usesAll (s :: ss) = s.uses + usesAll ss := usesOf_append ..

@[simp] theorem Stmt.usesAll_append (ss ss' : List Stmt) :
    usesAll (ss ++ ss') = usesAll ss + usesAll ss' := by
  induction ss with
  | nil => exact (zero_add _).symm
  | cons s ss ih => rw [List.cons_append, usesAll_cons, ih, usesAll_cons, add_assoc]

theorem Expr.usesAll_eq_sum (es : List Expr) : usesAll es = (es.map uses).sum := by
  induction es with
  | nil => rfl
  | cons e es ih => rw [usesAll_cons, ih, List.map_cons, List.sum_cons]

theorem Stmt.usesAll_flatMap (ps : List Program) :
    usesAll (ps.flatMap Program.statements) = (ps.map fun p => usesAll p.statements).sum := by
  induction ps with
  | nil => rfl
  | cons p ps ih => rw [List.flatMap_cons, usesAll_append, ih, List.map_cons, List.sum_cons]

@[simp] theorem Program.usesAll_toBlock (p : Program) :
    p.toBlock.uses = Stmt.usesAll p.statements := by
  cases p <;> rfl

@[simp] theorem Block.uses_mk (line : Nat) (ss : List Stmt) :
    (Block.mk line ss).uses = Stmt.usesAll ss := rfl

/-- Declarations are no uses, so it does not matter whether fields or variables are declared. -/
theorem Stmt.usesOf_occurrencesAll (isMember : Bool) (ss : List Stmt) :
    usesOf (occurrencesAll isMember ss) = usesAll ss := by
  have hstatement : ∀ s : Stmt, usesOf (s.occurrences isMember) = s.uses := by
    intro s
    cases s with
    | declare line name init binding =>
      rw [uses, occurrences, occurrences, usesOf_append, usesOf_append]
      cases isMember <;> rfl
    | _ => rfl
  induction ss with
  | nil => rfl
  | cons s ss ih => rw [occurrencesAll, usesOf_append, hstatement, ih, usesAll_cons]

theorem Block.usesOf_occurrences (isMember : Bool) (b : Block) :
    usesOf (b.occurrences isMember) = b.uses := by
  obtain ⟨line, ss⟩ := b
  exact Stmt.usesOf_occurrencesAll isMember ss

theorem Block.usesOf_occurrencesBody (params : List String) (b : Block) :
    usesOf (b.occurrencesBody params) = b.uses := by
  obtain ⟨line, ss⟩ := b
  rw [occurrencesBody, usesOf_enter_cons, usesOf_append, usesOf_leave, add_zero]
  rfl

namespace Expr

variable (line : Nat)

@[simp] theorem uses_list (items : List Expr) : (Expr.list line items).uses = usesAll items := rfl

@[simp] theorem uses_variable (name : String) (binding : Option Binding) :
    (Expr.variable line name binding).uses = {.read name line binding} := rfl

@[simp] theorem uses_field (receiver : Expr) (name : String) :
    (Expr.field line receiver name).uses = receiver.uses := rfl

@[simp] theorem uses_binary (op : BinaryOp) (left right : Expr) (target : Option Binding) :
    (Expr.binary line op left right target).uses = left.uses + right.uses := usesOf_append ..

@[simp] theorem uses_unary (op : UnaryOp) (operand : Expr) :
    (Expr.unary line op operand).uses = operand.uses := rfl

@[simp] theorem uses_call (name : String) (args : List Expr) :
    (Expr.call line name args).uses = usesAll args := rfl

@[simp] theorem uses_method (receiver : Expr) (name : String) (args : List Expr) :
    (Expr.method line receiver name args).uses = usesAll args + receiver.uses := usesOf_append ..

@[simp] theorem uses_create (className : String) (args : List Expr) :
    (Expr.create line className args).uses = usesAll args := rfl

/-- A key without a value is lost. -/
theorem uses_map_pairsOf (line : Nat) : (es : List Expr) →
    (Expr.map line (pairsOf es)).uses ≤ usesAll es
  | [] => le_refl _
  | [_] => zero_le
  | k :: v :: es => by
    have hes : usesOf (occurrencesPairs (pairsOf es)) ≤ usesAll es := uses_map_pairsOf line es
    rw [pairsOf, uses, occurrences, occurrencesPairs, usesOf_append, usesOf_append, usesAll_cons,
      usesAll_cons]
    exact add_le_add_right (add_le_add_right hes _) _

end Expr

namespace Stmt

variable (line : Nat)

@[simp] theorem uses_value (e : Expr) : (Stmt.value e).uses = e.uses := rfl

@[simp] theorem uses_declare (name : String) (init : Option Expr) (binding : Option Binding) :
    (Stmt.declare line name init binding).uses = Expr.usesOption init :=
  (usesOf_append ..).trans (add_zero _)

@[simp] theorem uses_assign (name : String) (value : Expr) (binding : Option Binding) :
    (Stmt.assign line name value binding).uses = value.uses + {.write name line binding} :=
  usesOf_append ..

@[simp] theorem uses_setField (receiver : Expr) (name : String) (value : Expr) :
    (Stmt.setField line receiver name value).uses = receiver.uses + value.uses := usesOf_append ..

@[simp] theorem uses_print (value : Expr) : (Stmt.print line value).uses = value.uses := rfl

@[simp] theorem uses_branch (condition : Expr) (body : Block) (rest : Rest) :
    (Stmt.branch line condition body rest).uses = condition.uses + (body.uses + rest.uses) := by
  rw [uses, occurrences, usesOf_append, usesOf_append, body.usesOf_occurrencesBody]
  rfl

@[simp] theorem uses_loop (condition : Expr) (body : Block) :
    (Stmt.loop line condition body).uses = condition.uses + body.uses := by
  rw [uses, occurrences, usesOf_append, body.usesOf_occurrencesBody]
  rfl

@[simp] theorem uses_function (name : String) (params : List String) (body : Block) :
    (Stmt.function line name params body).uses = body.uses := body.usesOf_occurrencesBody params

@[simp] theorem uses_classDecl (name : String) (parent : Option String) (members : Block) :
    (Stmt.classDecl line name parent members).uses = members.uses :=
  members.usesOf_occurrences true

@[simp] theorem uses_returns (value : Option Expr) :
    (Stmt.returns line value).uses = Expr.usesOption value := rfl

@[simp] theorem uses_continues : (Stmt.continues line).uses = 0 := rfl

@[simp] theorem uses_breaks : (Stmt.breaks line).uses = 0 := rfl

end Stmt

namespace Rest

@[simp] theorem uses_nothing : Rest.nothing.uses = 0 := rfl

@[simp] theorem uses_elseIf (line : Nat) (condition : Expr) (body : Block) (rest : Rest) :
    (Rest.elseIf line condition body rest).uses = condition.uses + (body.uses + rest.uses) := by
  rw [uses, occurrences, usesOf_append, usesOf_append, body.usesOf_occurrencesBody]
  rfl

@[simp] theorem uses_otherwise (body : Block) : (Rest.otherwise body).uses = body.uses :=
  body.usesOf_occurrencesBody []

theorem uses_attach {new : Rest} : {rest rest' : Rest} → rest.attach new = some rest' →
    rest'.uses = rest.uses + new.uses
  | nothing, rest', h => by
    obtain rfl := Option.some.inj h
    exact (zero_add _).symm
  | elseIf line condition body rest, rest', h => by
    obtain ⟨tail, htail, rfl⟩ := Option.map_eq_some_iff.mp h
    rw [uses_elseIf, uses_attach htail, uses_elseIf, add_assoc, add_assoc]
  | otherwise _, _, h => by cases h

end Rest

/-! ### Uses of symbols -/

namespace Symbol

variable {s : Symbol} {f : Fragment}

@[simp] theorem usesAll_nil : usesAll [] = 0 := rfl

@[simp] theorem usesAll_cons (s : Symbol) (ms : List Symbol) :
    usesAll (s :: ms) = s.uses + usesAll ms := List.sum_cons

theorem usesAll_append (ms ms' : List Symbol) :
    usesAll (ms ++ ms') = usesAll ms + usesAll ms' := by
  rw [usesAll, List.map_append, List.sum_append]
  rfl

theorem uses_eq_zero (h : s.fragment = none) : s.uses = 0 := by
  rw [uses, h]
  rfl

theorem uses_of_fragment (h : s.fragment = some f) : s.uses = f.uses := by
  rw [uses, h]
  rfl

theorem Bears.uses_eq (h : s.Bears f) : s.uses = f.uses := uses_of_fragment h.fragment_eq

theorem uses_le_of_mem {ms : List Symbol} (h : s ∈ ms) : s.uses ≤ usesAll ms := by
  obtain ⟨us, vs, rfl⟩ := List.append_of_mem h
  rw [usesAll_append, usesAll_cons]
  exact le_self_add.trans le_add_self

theorem uses_of_expr? {e : Expr} (h : s.expr? = some e) : s.uses = e.uses := by
  rw [expr?] at h
  split at h
  case h_1 e' hfragment =>
    obtain rfl := Option.some.inj h
    rw [uses, hfragment]
    rfl
  case h_2 => cases h

theorem uses_of_program? {p : Program} (h : s.program? = some p) :
    s.uses = Stmt.usesAll p.statements := by
  rw [program?] at h
  split at h
  case h_1 p' hfragment =>
    obtain rfl := Option.some.inj h
    rw [uses, hfragment]
    rfl
  case h_2 => cases h

/-- What is read off symbols has no other uses than they, if what is read off one has its uses. -/
theorem sum_filterMap_le {α : Type} {read? : Symbol → Option α} {g : α → Multiset Occurrence}
    (h : ∀ s a, read? s = some a → s.uses = g a) (ms : List Symbol) :
    ((ms.filterMap read?).map g).sum ≤ usesAll ms := by
  induction ms with
  | nil => exact le_refl _
  | cons s ms ih =>
    rw [List.filterMap_cons, usesAll_cons]
    cases hs : read? s with
    | none => exact ih.trans le_add_self
    | some a =>
      rw [List.map_cons, List.sum_cons, h s a hs]
      exact add_le_add_right ih _

/-- The expressions of symbols have no other uses. -/
theorem usesAll_exprs_le (ms : List Symbol) : Expr.usesAll (Matched.exprs ms) ≤ usesAll ms := by
  rw [Expr.usesAll_eq_sum]
  exact sum_filterMap_le (fun _ _ => uses_of_expr?) ms

/-- The programs of symbols have no other uses. -/
theorem usesAll_programs_le (ms : List Symbol) :
    Stmt.usesAll ((Matched.programs ms).flatMap Program.statements) ≤ usesAll ms := by
  rw [Stmt.usesAll_flatMap]
  exact sum_filterMap_le (fun _ _ => uses_of_program?) ms

end Symbol

/-! ### What a rule makes -/

namespace Rule

open StackScript.Symbol

variable {r : Rule} {ms : List Symbol} {f : Fragment} {n : Nat} {ds : List Diagnostic}

/-- The use that a rule makes of a name that it matches. -/
def newUses : Rule → Matched → Multiset Occurrence
  | .variable, [x] => {.read x.text x.line none}
  | .assignmentHead, [x, _] => {.write x.text x.line none}
  | _, _ => 0

theorem Body.uses_le {line : Nat} {b : Block} (h : Body line ms b n) : b.uses ≤ usesAll ms := by
  cases h with
  | empty hz => exact zero_le
  | @program s z p hs hz =>
    rw [Program.usesAll_toBlock, usesAll_cons, hs.uses_eq]
    exact le_self_add

theorem uses_literal {l : Symbol} {e : Expr} (he : Leaf.literal? ⟨l, false⟩ = some e) :
    e.uses = 0 := by
  unfold Leaf.literal? at he
  dsimp only [Leaf.tag, Leaf.text, Leaf.line] at he
  cases ht : l.tag <;> rw [ht] at he <;> try cases he; done
  case number =>
    obtain ⟨d, -, rfl⟩ := Option.map_eq_some_iff.mp he
    rfl
  all_goals
    obtain rfl := Option.some.inj he
    rfl

theorem uses_of_applied? {es : List Expr} {e : Expr} (h : f.applied? es = some e) :
    e.uses = f.uses + Expr.usesAll es := by
  unfold Fragment.applied? at h
  split at h <;> first | cases h; done | obtain rfl := Option.some.inj h
  · exact (zero_add _).symm
  · exact (Expr.uses_method ..).trans (add_comm ..)
  · exact (zero_add _).symm

theorem uses_of_assigned? {e : Expr} {s : Stmt} (h : f.assigned? e = some s) :
    s.uses = f.uses + e.uses := by
  unfold Fragment.assigned? at h
  split at h <;> first | cases h; done | obtain rfl := Option.some.inj h
  · exact (Stmt.uses_declare ..).trans (zero_add _).symm
  · exact (Stmt.uses_assign ..).trans (add_comm ..)
  · rw [Stmt.uses_setField, Fragment.uses]

theorem uses_of_declared? {line : Nat} {make : Block → Stmt} {b : Block}
    (h : f.declared? = some (line, make)) : (make b).uses = b.uses := by
  cases f <;> cases h <;> simp

/-- A rule makes at most one use, and has all others from its match. -/
theorem Makes.uses_le (h : r.Makes ms f n ds) : f.uses ≤ usesAll ms + r.newUses ms := by
  have hold : f.uses ≤ usesAll ms → f.uses ≤ usesAll ms + r.newUses ms :=
    fun h => h.trans le_self_add
  cases h with
  | «variable» hx => exact le_add_self
  | assignmentHead hx hs => exact le_add_self
  | literal hl he =>
    rw [Fragment.uses, uses_literal he]
    exact zero_le
  | declaringHead | declaration | functionHead | classHead | extendingHead | newHead | callHead =>
    exact zero_le
  | returnsBare hw => exact zero_le
  | jump hw =>
    refine hold ?_
    split <;> exact zero_le
  | methodHead ha hd hx hl | fieldAssignmentHead ha hd hx hs | field ha hd hx =>
    exact hold (ha.uses_eq ▸ uses_le_of_mem List.mem_cons_self)
  | list hl hms => exact hold ((usesAll_exprs_le _).trans le_add_self)
  | map hl hms heven =>
    exact hold ((Expr.uses_map_pairsOf _ _).trans
      ((usesAll_exprs_le _).trans le_add_self))
  | group hl ha hr => exact hold (ha.uses_eq ▸ uses_le_of_mem (by simp))
  | unary ho ha => exact hold (ha.uses_eq ▸ uses_le_of_mem (by simp))
  | binary ha ho hr hnone hb =>
    refine hold ?_
    simp [Fragment.uses, ha.uses_eq, hb.uses_eq, uses_eq_zero hnone]
  | arguments ht ha hms he =>
    refine hold ?_
    rw [Fragment.uses, uses_of_applied? he, usesAll_cons, uses_of_fragment ha]
    exact add_le_add_right (usesAll_exprs_le _) _
  | print hw ha | returns hw ha =>
    refine hold ?_
    simp [Fragment.uses, Program.statements, ha.uses_eq]
  | assignment ha hb hs =>
    refine hold ?_
    simp [Fragment.uses, Program.statements, uses_of_assigned? hs, ha.uses_eq, hb.uses_eq]
  | branch hw ha hl hms =>
    refine hold ?_
    simp only [Fragment.uses, Program.statements, Stmt.usesAll_cons, Stmt.usesAll_nil,
      Stmt.uses_branch, Rest.uses_nothing, add_zero, usesAll_cons, uses_eq_zero hw.fragment_eq,
      uses_eq_zero hl.fragment_eq, ha.uses_eq, zero_add]
    exact add_le_add_right hms.uses_le _
  | loop hw ha hl hms =>
    refine hold ?_
    simp only [Fragment.uses, Program.statements, Stmt.usesAll_cons, Stmt.usesAll_nil,
      Stmt.uses_loop, add_zero, usesAll_cons, uses_eq_zero hw.fragment_eq,
      uses_eq_zero hl.fragment_eq, ha.uses_eq, zero_add]
    exact add_le_add_right hms.uses_le _
  | elseIf ha ho hc hl hms hrest =>
    refine hold ?_
    simp only [Fragment.uses, Program.statements, Stmt.usesAll_cons, Stmt.usesAll_nil,
      Stmt.uses_branch, Rest.uses_attach hrest, Rest.uses_elseIf, Rest.uses_nothing, add_zero,
      usesAll_cons, uses_eq_zero ho.fragment_eq, uses_eq_zero hl.fragment_eq, ha.uses_eq,
      hc.uses_eq, zero_add, add_assoc]
    exact add_le_add_right (add_le_add_right (add_le_add_right
      (add_le_add_right hms.uses_le _) _) _) _
  | otherwise ha ho hl hms hrest =>
    refine hold ?_
    simp only [Fragment.uses, Program.statements, Stmt.usesAll_cons, Stmt.usesAll_nil,
      Stmt.uses_branch, Rest.uses_attach hrest, Rest.uses_otherwise, add_zero,
      usesAll_cons, uses_eq_zero ho.fragment_eq, uses_eq_zero hl.fragment_eq, ha.uses_eq,
      zero_add, add_assoc]
    exact add_le_add_right (add_le_add_right (add_le_add_right hms.uses_le _) _) _
  | stray hr ha hp | late hr ha hrest =>
    exact hold (ha.uses_eq ▸ uses_le_of_mem List.mem_cons_self)
  | closeEmpty hr ha hf hz =>
    refine hold ?_
    rw [Fragment.uses, Program.statements, Stmt.usesAll_cons, uses_of_declared? hf]
    exact zero_le
  | @close r a s z f line make p hr ha hf hs hz =>
    have huses : s.uses = Stmt.usesAll p.statements := hs.uses_eq
    refine hold ?_
    rw [Fragment.uses, Program.statements, Stmt.usesAll_cons, Stmt.usesAll_nil, add_zero,
      uses_of_declared? hf, Program.usesAll_toBlock, ← huses]
    exact uses_le_of_mem (by simp)
  | sequence hms => exact hold (usesAll_programs_le _)
  | trailing ha hs => exact hold (ha.uses_eq ▸ uses_le_of_mem List.mem_cons_self)
  | statement ha =>
    refine hold ?_
    simp [Fragment.uses, Program.statements, ha.uses_eq]

end Rule

end StackScript
