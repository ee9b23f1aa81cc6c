import StackScript.Diagnostic
import StackScript.Grammar.Rule
import StackScript.Token.Literal

/-!
# StackScript.Grammar.Build — the fragment that a match is reduced to

`Rule.build` makes the fragment of a match from the symbols of the match.  On the way it counts the
nodes made, records structural problems, and keeps the fragments that such a problem leaves out of
the tree.  A symbol without the fragment that its tag promises gives no fragment.
-/

namespace StackScript

/-- What building keeps besides the fragments. -/
structure Record where
  /-- the number of nodes made, those included that are no part of the tree -/
  nodes : Nat
  diagnostics : List Diagnostic
  /-- fragments that an error left out of the tree -/
  dropped : List Fragment
deriving Inhabited

/-- Building a fragment. -/
abbrev Build := StateM Record

namespace Build

/-- Counts `n` nodes. -/
def count (n : Nat) : Build Unit := modify fun r => { r with nodes := r.nodes + n }

/-- Records a problem. -/
def report (d : Diagnostic) : Build Unit :=
  modify fun r => { r with diagnostics := r.diagnostics ++ [d] }

/-- Keeps what an error leaves out. -/
def drop (symbols : List Symbol) : Build Unit :=
  modify fun r => { r with dropped := r.dropped ++ symbols.filterMap (·.fragment) }

/-- One new node with its fragment. -/
def made (f : Fragment) : Build (Option Fragment) := do
  count 1
  return some f

end Build

namespace Rest

/-- Attaches a branch at the end of a chain; a chain that ends in an `else` takes none. -/
def attach : Rest → Rest → Option Rest
  | nothing, branch => some branch
  | elseIf line condition body rest, branch =>
    (rest.attach branch).map (elseIf line condition body)
  | otherwise _, _ => none

end Rest

/-! ### The symbols of a match -/

/-- The symbols that a rule matched. -/
abbrev Matched := List Symbol

namespace Matched

/-- The line of the first symbol, or 1 if there is none. -/
def line (ms : Matched) : Nat := (ms.head?.map (·.line)).getD 1

/-- The tag of the symbol at `i`. -/
def tag? (ms : Matched) (i : Nat) : Option Tag := ms[i]?.map (·.tag)

/-- The text of the symbol at `i`, empty if there is none. -/
def text (ms : Matched) (i : Nat) : String := (ms[i]?.map (·.text)).getD ""

/-- The line of the symbol at `i`, or that of the first. -/
def lineAt (ms : Matched) (i : Nat) : Nat := (ms[i]?.map (·.line)).getD ms.line

/-- The expression of the symbol at `i`. -/
def expr? (ms : Matched) (i : Nat) : Option Expr := ms[i]?.bind (·.expr?)

/-- The program of the symbol at `i`. -/
def program? (ms : Matched) (i : Nat) : Option Program := ms[i]?.bind (·.program?)

/-- The fragment of the symbol at `i`. -/
def fragment? (ms : Matched) (i : Nat) : Option Fragment := ms[i]?.bind (·.fragment)

/-- The expressions of the match. -/
def exprs (ms : Matched) : List Expr := ms.filterMap (·.expr?)

/-- The programs of the match. -/
def programs (ms : Matched) : List Program := ms.filterMap (·.program?)

/-- The block of the program at `i`, or an empty one where the braces hold nothing. -/
def body (ms : Matched) (i : Nat) : Build Block := do
  match ms.program? i with
  | some p =>
    Build.count p.wrappers
    return p.toBlock
  | none =>
    Build.count 1
    return .mk ms.line []

end Matched

/-! ### Fragments by rule -/

open Build

/-- Expressions as keys and values in turn. -/
def pairsOf : List Expr → List (Expr × Expr)
  | k :: v :: rest => (k, v) :: pairsOf rest
  | _ => []

/-- A literal, `this` or `super`. -/
def buildLiteral (ms : Matched) : Build (Option Fragment) :=
  match ms.tag? 0 with
  | none => return none
  | some .number =>
    match Decimal.ofText? (ms.text 0) with
    | some d => made (.value (.number ms.line d))
    | none => do
      report (.unexpected (ms.text 0) ms.line)
      return none
  | some .text =>
    made (.value (.text ms.line (String.ofList (Token.unquote (ms.text 0).toList))))
  | some .boolean => made (.value (.boolean ms.line (ms.text 0 = "true")))
  | some .thisWord => made (.value (.this ms.line))
  | some .superWord => made (.value (.super ms.line))
  | some _ => made (.value (.null ms.line))

/-- The operator of a binary match. -/
def binaryOperator (ms : Matched) : BinaryOp :=
  match ms.tag? 1 with
  | some .power => .pow
  | some .factor => .factor (ms.text 1)
  | some .term => .term (ms.text 1)
  | some .comparison => .comparison (ms.text 1)
  | _ => .logic (ms.text 1)

/-- The operator of a prefix match. -/
def unaryOperator (ms : Matched) : UnaryOp :=
  match ms.tag? 0 with
  | some .negation => .not
  | some .tilde => .bitNot
  | _ => .negative

/-- Two expressions and the operator between them. -/
def buildBinary (ms : Matched) : Build (Option Fragment) :=
  match ms.expr? 0, ms.expr? 2 with
  | some left, some right =>
    made (.value (.binary ms.line (binaryOperator ms) left right none))
  | _, _ => return none

/-- The head of an assignment or a declaration with a value. -/
def buildAssignmentHead (ms : Matched) : Build (Option Fragment) :=
  match ms.tag? 0 with
  | none => return none
  | some .varWord => made (.assignmentHead ms.line true none (ms.text 1))
  | some .name => made (.assignmentHead ms.line false none (ms.text 0))
  | some _ =>
    match ms.expr? 0 with
    | some receiver => made (.assignmentHead ms.line false (some receiver) (ms.text 2))
    | none => return none

/-- The head of a call. -/
def buildCallHead (ms : Matched) : Build (Option Fragment) :=
  if ms.tag? 0 = some .name then made (.callHead ms.line none (ms.text 0))
  else
    match ms.expr? 0 with
    | some receiver => made (.callHead ms.line (some receiver) (ms.text 2))
    | none => return none

/-- The head of a call or an instantiation and its arguments. -/
def buildArguments (ms : Matched) : Option Fragment :=
  match ms.fragment? 0 with
  | some (.callHead line none name) => some (.value (.call line name ms.exprs))
  | some (.callHead line (some receiver) name) =>
    some (.value (.method line receiver name ms.exprs))
  | some (.newHead line className) => some (.value (.create line className ms.exprs))
  | _ => none

/-- The head of an assignment and its value. -/
def buildAssignment (ms : Matched) : Option Fragment :=
  match ms.fragment? 0, ms.expr? 1 with
  | some (.assignmentHead line true none name), value =>
    some (.program (.single (.declare line name value none)))
  | some (.assignmentHead line false none name), some value =>
    some (.program (.single (.assign line name value none)))
  | some (.assignmentHead line _ (some receiver) name), some value =>
    some (.program (.single (.setField line receiver name value)))
  | _, _ => none

/-- A branch that goes at the end of the chain headed by the program before the keyword.  Without
such a chain, or after a final `else`, the branch is left out and reported at its keyword. -/
def buildBranch (ms : Matched) (isElseIf : Bool) (branch : Build (Option Rest)) :
    Build (Option Fragment) := do
  match ms.program? 0 with
  | some (.single (.branch line condition body rest)) =>
    match rest.attach .nothing with
    | none => do
      report (if isElseIf then .elseIfAfterElse (ms.lineAt 1) else .danglingElse (ms.lineAt 1))
      drop (ms.drop 1)
      return ms.fragment? 0
    | some _ =>
      match ← branch with
      | none => return none
      | some new =>
        return ((rest.attach new).map fun rest =>
          .program (.single (.branch line condition body rest)))
  | _ => do
    report (.danglingElse (ms.lineAt 1))
    drop (ms.drop 1)
    return ms.fragment? 0

/-- The head of a function or class and its body. -/
def buildDeclaration (ms : Matched) : Build (Option Fragment) := do
  match ms.fragment? 0 with
  | some (.functionHead line name params) =>
    let body ← if ms.tag? 1 = some .program then ms.body 1 else pure (.mk line [])
    return some (.program (.single (.function line name params body)))
  | some (.classHead line name parent) =>
    let members ← if ms.tag? 1 = some .program then ms.body 1 else pure (.mk line [])
    return some (.program (.single (.classDecl line name parent members)))
  | _ => return none

/-- The fragment that a match of a rule is reduced to. -/
def Rule.build (rule : Rule) (ms : Matched) : Build (Option Fragment) := do
  match rule with
  | literal => buildLiteral ms
  | assignmentHead | fieldAssignmentHead => buildAssignmentHead ms
  | declaration => made (.program (.single (.declare ms.line (ms.text 1) none none)))
  | functionHead =>
    let params := ((ms.drop 2).filter (·.tag = .name)).map (·.text)
    count 2
    return some (.functionHead ms.line (ms.text 1) params)
  | classHead =>
    let parent := if ms.tag? 2 = some .extendsWord then some (ms.text 3) else none
    count 2
    return some (.classHead ms.line (ms.text 1) parent)
  | newHead => made (.newHead ms.line (ms.text 1))
  | methodHead | callHead => buildCallHead ms
  | field =>
    match ms.expr? 0 with
    | some receiver => made (.value (.field ms.line receiver (ms.text 2)))
    | none => return none
  | .variable => made (.value (.variable ms.line (ms.text 0) none))
  | list => made (.value (.list ms.line ms.exprs))
  | map => made (.value (.map ms.line (pairsOf ms.exprs)))
  | group => return (ms.expr? 1).map .value
  | unary =>
    match ms.expr? 1 with
    | some operand => made (.value (.unary ms.line (unaryOperator ms) operand))
    | none => return none
  | power | factor | term | comparison | logic => buildBinary ms
  | arguments => return buildArguments ms
  | jump =>
    made (.program (.single
      (if ms.tag? 0 = some .breakWord then .breaks ms.line else .continues ms.line)))
  | print =>
    match ms.expr? 1 with
    | some value => made (.program (.single (.print ms.line value)))
    | none => return none
  | returns => made (.program (.single (.returns ms.line (ms.expr? 1))))
  | assignment => return buildAssignment ms
  | branch =>
    match ms.expr? 1 with
    | none => return none
    | some condition =>
      let body ← ms.body 3
      made (.program (.single (.branch ms.line condition body .nothing)))
  | elseIf =>
    buildBranch ms true do
      match ms.expr? 2 with
      | none => return none
      | some condition =>
        let body ← ms.body 4
        count 1
        return some (.elseIf (ms.lineAt 1) condition body .nothing)
  | otherwise =>
    buildBranch ms false do
      let body ← ms.body 3
      return some (.otherwise body)
  | loop =>
    match ms.expr? 1 with
    | none => return none
    | some condition =>
      let body ← ms.body 3
      made (.program (.single (.loop ms.line condition body)))
  | functionEnd | classEnd => buildDeclaration ms
  | sequence =>
    made (.program (.several (.mk ms.line (ms.programs.flatMap Program.statements))))
  | trailing => return ms.fragment? 0
  | statement => return (ms.expr? 0).map fun e => .program (.single (.value e))

end StackScript
