import StackScript.Grammar.Reduction

/-!
# StackScript.Proofs.Relined — other lines for the same source

The same tokens can stand on other lines.  Each thing that has lines, from tokens and trees to a
whole parse, has one here with a function applied to all its lines, and nothing else changed.  What
is read off such things is the same but for lines.
-/

namespace StackScript

variable (f : Nat → Nat)

/-! ### Trees -/

mutual

/-- The expression on other lines. -/
def Expr.relined : Expr → Expr
  | .number line d => .number (f line) d
  | .text line s => .text (f line) s
  | .boolean line b => .boolean (f line) b
  | .null line => .null (f line)
  | .this line => .this (f line)
  | .super line => .super (f line)
  | .list line items => .list (f line) (Expr.relinedAll items)
  | .map line entries => .map (f line) (Expr.relinedPairs entries)
  | .variable line name binding => .variable (f line) name binding
  | .field line receiver name => .field (f line) receiver.relined name
  | .binary line op left right target => .binary (f line) op left.relined right.relined target
  | .unary line op operand => .unary (f line) op operand.relined
  | .call line name args => .call (f line) name (Expr.relinedAll args)
  | .method line receiver name args =>
    .method (f line) receiver.relined name (Expr.relinedAll args)
  | .create line className args => .create (f line) className (Expr.relinedAll args)

/-- The expressions on other lines. -/
def Expr.relinedAll : List Expr → List Expr
  | [] => []
  | e :: es => e.relined :: Expr.relinedAll es

/-- The keys and values on other lines. -/
def Expr.relinedPairs : List (Expr × Expr) → List (Expr × Expr)
  | [] => []
  | (k, v) :: es => (k.relined, v.relined) :: Expr.relinedPairs es

end

mutual

/-- The statement on other lines. -/
def Stmt.relined : Stmt → Stmt
  | .value e => .value (e.relined f)
  | .declare line name init binding => .declare (f line) name (init.map (Expr.relined f)) binding
  | .assign line name value binding => .assign (f line) name (value.relined f) binding
  | .setField line receiver name value =>
    .setField (f line) (receiver.relined f) name (value.relined f)
  | .print line value => .print (f line) (value.relined f)
  | .branch line condition body rest =>
    .branch (f line) (condition.relined f) body.relined rest.relined
  | .loop line condition body => .loop (f line) (condition.relined f) body.relined
  | .function line name params body => .function (f line) name params body.relined
  | .classDecl line name parent members => .classDecl (f line) name parent members.relined
  | .returns line value => .returns (f line) (value.map (Expr.relined f))
  | .continues line => .continues (f line)
  | .breaks line => .breaks (f line)
  | .free line name slot => .free (f line) name slot

/-- What follows the body of an `if`, on other lines. -/
def Rest.relined : Rest → Rest
  | .nothing => .nothing
  | .elseIf line condition body rest =>
    .elseIf (f line) (condition.relined f) body.relined rest.relined
  | .otherwise body => .otherwise body.relined

/-- The block on other lines. -/
def Block.relined : Block → Block
  | .mk line statements => .mk (f line) (Stmt.relinedAll statements)

/-- The statements on other lines. -/
def Stmt.relinedAll : List Stmt → List Stmt
  | [] => []
  | s :: ss => s.relined :: Stmt.relinedAll ss

end

/-! ### Symbols -/

/-- The problem on another line. -/
def Diagnostic.relined : Diagnostic → Diagnostic
  | lexical line offset snippet => .lexical (f line) offset snippet
  | danglingElse line => .danglingElse (f line)
  | elseIfAfterElse line => .elseIfAfterElse (f line)
  | unexpected text line => .unexpected text (f line)
  | undefinedRead name line => .undefinedRead name (f line)
  | undefinedWrite name line => .undefinedWrite name (f line)

/-- The token on another line. -/
def Token.relined (t : Token) : Token := { t with line := f t.line }

/-- The program on other lines. -/
def Program.relined : Program → Program
  | single s => .single (s.relined f)
  | several b => .several (b.relined f)

/-- The fragment on other lines. -/
def Fragment.relined : Fragment → Fragment
  | value e => .value (e.relined f)
  | program p => .program (p.relined f)
  | assignmentHead line declares receiver name =>
    .assignmentHead (f line) declares (receiver.map (Expr.relined f)) name
  | callHead line receiver name => .callHead (f line) (receiver.map (Expr.relined f)) name
  | newHead line className => .newHead (f line) className
  | functionHead line name params => .functionHead (f line) name params
  | classHead line name parent => .classHead (f line) name parent

/-- The symbol on another line. -/
def Symbol.relined (s : Symbol) : Symbol :=
  { s with line := f s.line, fragment := s.fragment.map (Fragment.relined f) }

/-- The detached symbol on another line. -/
def Detached.relined (d : Detached) : Detached := { d with symbol := d.symbol.relined f }

/-- The symbols on other lines. -/
def Stream.relined (s : Stream) : Stream :=
  ⟨s.active.map (Symbol.relined f), s.detached.map (Detached.relined f)⟩

/-- The record of a building that went the same way on other lines. -/
def Record.relined (r : Record) : Record :=
  ⟨r.nodes, r.diagnostics.map (Diagnostic.relined f), r.dropped.map (Fragment.relined f)⟩

/-- The parsing on other lines. -/
def Parsing.relined (p : Parsing) : Parsing := ⟨p.stream.relined f, p.record.relined f⟩

/-- The outcome of a parse on other lines. -/
def Parsed.relined (p : Parsed) : Parsed :=
  ⟨p.root.relined f, p.record.relined f, p.remaining.map (Symbol.relined f)⟩

variable {f}

/-! ### What is read off trees -/

theorem Expr.relinedAll_eq_map (es : List Expr) : Expr.relinedAll f es = es.map (relined f) := by
  induction es with
  | nil => rfl
  | cons e es ih => rw [Expr.relinedAll, ih, List.map_cons]

theorem Stmt.relinedAll_eq_map (ss : List Stmt) : Stmt.relinedAll f ss = ss.map (relined f) := by
  induction ss with
  | nil => rfl
  | cons s ss ih => rw [Stmt.relinedAll, ih, List.map_cons]

theorem Expr.relinedPairs_pairsOf : (es : List Expr) →
    Expr.relinedPairs f (pairsOf es) = pairsOf (es.map (relined f))
  | [] | [_] => rfl
  | k :: v :: es => congrArg ((k.relined f, v.relined f) :: ·) (relinedPairs_pairsOf es)

@[simp] theorem Expr.line_relined (e : Expr) : (e.relined f).line = f e.line := by
  cases e <;> rfl

@[simp] theorem Stmt.line_relined (s : Stmt) : (s.relined f).line = f s.line := by
  cases s with
  | value e => exact e.line_relined
  | _ => rfl

@[simp] theorem Block.statements_relined (b : Block) :
    (b.relined f).statements = b.statements.map (Stmt.relined f) := by
  obtain ⟨line, ss⟩ := b
  exact Stmt.relinedAll_eq_map ss

@[simp] theorem Program.statements_relined (p : Program) :
    (p.relined f).statements = p.statements.map (Stmt.relined f) := by
  cases p with
  | single s => rfl
  | several b => exact b.statements_relined

@[simp] theorem Program.toBlock_relined (p : Program) :
    (p.relined f).toBlock = p.toBlock.relined f := by
  cases p with
  | single s =>
    rw [relined, toBlock, Stmt.line_relined]
    rfl
  | several b => rfl

@[simp] theorem Program.wrappers_relined (p : Program) : (p.relined f).wrappers = p.wrappers := by
  cases p <;> rfl

theorem Program.flatMap_statements_relined (ps : List Program) :
    (ps.map (relined f)).flatMap statements = (ps.flatMap statements).map (Stmt.relined f) := by
  rw [List.flatMap_map, List.map_flatMap]
  simp only [statements_relined]

/-- A branch goes to the end of a chain whatever the lines are. -/
theorem Rest.attach_relined : (rest branch : Rest) →
    (rest.relined f).attach (branch.relined f) = (rest.attach branch).map (Rest.relined f)
  | nothing, _ | otherwise _, _ => rfl
  | elseIf line condition body rest, branch => by
    rw [relined, attach, attach_relined rest branch, attach, Option.map_map, Option.map_map]
    rfl

/-! ### What is read off symbols -/

namespace Symbol

@[simp] theorem tag_relined (s : Symbol) : (s.relined f).tag = s.tag := rfl

@[simp] theorem text_relined (s : Symbol) : (s.relined f).text = s.text := rfl

@[simp] theorem span_relined (s : Symbol) : (s.relined f).span = s.span := rfl

@[simp] theorem line_relined (s : Symbol) : (s.relined f).line = f s.line := rfl

@[simp] theorem fragment_relined (s : Symbol) :
    (s.relined f).fragment = s.fragment.map (Fragment.relined f) := rfl

@[simp] theorem expr?_relined (s : Symbol) :
    (s.relined f).expr? = s.expr?.map (Expr.relined f) := by
  rw [expr?, fragment_relined, expr?]
  rcases s.fragment with _ | g
  · rfl
  · cases g <;> rfl

@[simp] theorem program?_relined (s : Symbol) :
    (s.relined f).program? = s.program?.map (Program.relined f) := by
  rw [program?, fragment_relined, program?]
  rcases s.fragment with _ | g
  · rfl
  · cases g <;> rfl

end Symbol

end StackScript
