import StackScript.Grammar.Reduction
import StackScript.Proofs.Arena

/-!
# StackScript.Proofs.Planting — a parse that puts its nodes into an arena

Here each symbol that stands for something has a node, and building works on nodes alone: a head is
changed where it is when what it waits for is there, a branch is attached to the last link of a
chain, statements are moved from one block to another.  Which match is reduced next is a matter of
the symbols, so beside the nodes runs the parse itself (`Planting.parsing_reduce`).
-/

namespace StackScript

/-! ### Building in an arena -/

/-- Building in an arena. -/
abbrev Planter := StateM Arena

/-- The nodes of symbols. -/
abbrev Nodes := List (Option Nat)

/-- The node at `i`. -/
def Nodes.node? (ids : Nodes) (i : Nat) : Option Nat := ids[i]?.join

/-- The nodes of the symbols with a tag. -/
def Nodes.tagged (ids : Nodes) (ms : Matched) (tag : Tag) : List Nat :=
  ((ms.zip ids).filter (·.1.tag = tag)).filterMap (·.2)

/-- Nodes as keys and values in turn. -/
def Nodes.pairsOf : List Nat → List (Nat × Nat)
  | k :: v :: rest => (k, v) :: pairsOf rest
  | _ => []

namespace Arena

/-- The statements of a block; any other node is a statement itself. -/
def statements (a : Arena) (i : Nat) : List Nat :=
  match a[i]? with
  | some ⟨.blocks children, _⟩ => children
  | _ => [i]

/-- The last link of the chain that begins at a node, if an `else` does not end it. -/
def chainEnd? (a : Arena) : Nat → Nat → Option Nat
  | 0, _ => none
  | fuel + 1, i =>
    match a[i]? with
    | some ⟨.branch _ _ (some (.elseIf next)), _⟩ => a.chainEnd? fuel next
    | some ⟨.branch _ _ (some (.otherwise _)), _⟩ => none
    | _ => some i

/-- The last link of the chain at the first of the nodes.  A chain has no more links than the arena
has nodes. -/
def chain? (a : Arena) (ids : Nodes) : Option Nat :=
  match ids.node? 0 with
  | none => none
  | some i =>
    match a[i]? with
    | some ⟨.branch .., _⟩ => a.chainEnd? a.length i
    | _ => none

end Arena

namespace Node

/-- A call with its arguments. -/
def withArguments (args : List Nat) : Node Nat → Node Nat
  | call name receiver _ => .call name receiver args
  | create className _ => .create className args
  | node => node

/-- An assignment with its value. -/
def withValue (value : Nat) : Node Nat → Node Nat
  | setVariable name _ declares receiver => .setVariable name (some value) declares receiver
  | node => node

/-- A declaration with its body. -/
def withBody (body : Nat) : Node Nat → Node Nat
  | function name params _ => .function name params body
  | classDecl name parent _ => .classDecl name parent body
  | node => node

/-- An `if` with what follows its body. -/
def withRest (rest : Else Nat) : Node Nat → Node Nat
  | branch condition body _ => .branch condition body (some rest)
  | node => node

end Node

namespace Planter

/-- Adds a node. -/
def add (node : Node Nat) (line : Nat) : Planter Nat := do
  let a ← get
  set (a ++ [(⟨node, line⟩ : Cell)])
  return a.length

/-- Changes a node, which keeps its line. -/
def change (i : Nat) (f : Node Nat → Node Nat) : Planter Unit :=
  modify fun a => a.modify i fun c => { c with node := f c.node }

/-- A new node for a match. -/
def planted (node : Node Nat) (line : Nat) : Planter (Option Nat) := do
  let i ← add node line
  return some i

/-- A node as a block: in a block of its own unless it is one. -/
def asBlock (i : Nat) : Planter Nat := do
  match (← get)[i]? with
  | some ⟨.blocks _, _⟩ | none => return i
  | some cell => add (.blocks [i]) cell.line

/-- The block of the program at `i`, or an empty one where the braces hold nothing. -/
def body (ms : Matched) (ids : Nodes) (i : Nat) : Planter Nat :=
  match ms.tag? i, ids.node? i with
  | some .program, some node => asBlock node
  | _, _ => add (.blocks []) ms.line

end Planter

/-! ### Nodes by rule -/

open Planter

/-- A literal, `this` or `super`. -/
def plantLiteral (ms : Matched) : Planter (Option Nat) :=
  match ms.tag? 0 with
  | none => return none
  | some .number =>
    match Decimal.ofText? (ms.text 0) with
    | some d => planted (.number d) ms.line
    | none => return none
  | some .text => planted (.text (String.ofList (Token.unquote (ms.text 0).toList))) ms.line
  | some .boolean => planted (.boolean (ms.text 0 = "true")) ms.line
  | some .thisWord => planted .this ms.line
  | some .superWord => planted .super ms.line
  | some _ => planted .null ms.line

/-- The head of an assignment or a declaration with a value. -/
def plantAssignmentHead (ms : Matched) (ids : Nodes) : Planter (Option Nat) :=
  match ms.tag? 0 with
  | none => return none
  | some .varWord => planted (.setVariable (ms.text 1) none true none) ms.line
  | some .name => planted (.setVariable (ms.text 0) none false none) ms.line
  | some _ =>
    match ids.node? 0 with
    | some receiver => planted (.setVariable (ms.text 2) none false (some receiver)) ms.line
    | none => return none

/-- The head of a call. -/
def plantCallHead (ms : Matched) (ids : Nodes) : Planter (Option Nat) :=
  if ms.tag? 0 = some .name then planted (.call (ms.text 0) none []) ms.line
  else
    match ids.node? 0 with
    | some receiver => planted (.call (ms.text 2) (some receiver) []) ms.line
    | none => return none

/-- Two expressions and the operator between them. -/
def plantBinary (ms : Matched) (ids : Nodes) : Planter (Option Nat) :=
  match ids.node? 0, ids.node? 2 with
  | some left, some right => planted (.binary (binaryOperator ms) left right) ms.line
  | _, _ => return none

/-- A branch at the end of a chain, which keeps its first node. -/
def plantBranch (ids : Nodes) (branch : Planter (Option (Else Nat))) : Planter (Option Nat) := do
  match (← get).chain? ids with
  | none => return ids.node? 0
  | some last =>
    match ← branch with
    | none => return none
    | some new => do
      change last (Node.withRest new)
      return ids.node? 0

/-- The head of a function or class and its body. -/
def plantDeclaration (ms : Matched) (ids : Nodes) : Planter (Option Nat) :=
  match ids.node? 0 with
  | none => return none
  | some head =>
    if ms.tag? 1 = some .program then do
      let block ← body ms ids 1
      change head (Node.withBody block)
      return some head
    else return some head

/-- The node that a match of a rule is reduced to. -/
def Rule.plant (rule : Rule) (ms : Matched) (ids : Nodes) : Planter (Option Nat) := do
  match rule with
  | literal => plantLiteral ms
  | assignmentHead | fieldAssignmentHead => plantAssignmentHead ms ids
  | declaration => planted (.setVariable (ms.text 1) none true none) ms.line
  | functionHead =>
    let params := ((ms.drop 2).filter (·.tag = .name)).map (·.text)
    let block ← add (.blocks []) ms.line
    planted (.function (ms.text 1) params block) ms.line
  | classHead =>
    let parent := if ms.tag? 2 = some .extendsWord then some (ms.text 3) else none
    let block ← add (.blocks []) ms.line
    planted (.classDecl (ms.text 1) parent block) ms.line
  | newHead => planted (.create (ms.text 1) []) ms.line
  | methodHead | callHead => plantCallHead ms ids
  | field =>
    match ids.node? 0 with
    | some receiver => planted (.variable (ms.text 2) (some receiver)) ms.line
    | none => return none
  | .variable => planted (.variable (ms.text 0) none) ms.line
  | list => planted (.list (ids.tagged ms .expression)) ms.line
  | map => planted (.map (Nodes.pairsOf (ids.tagged ms .expression))) ms.line
  | group => return ids.node? 1
  | unary =>
    match ids.node? 1 with
    | some operand => planted (.unary (unaryOperator ms) operand) ms.line
    | none => return none
  | power | factor | term | comparison | logic => plantBinary ms ids
  | arguments =>
    match ids.node? 0 with
    | some head =>
      change head (Node.withArguments (ids.tagged ms .expression))
      return some head
    | none => return none
  | jump => planted (if ms.tag? 0 = some .breakWord then .breaks else .continues) ms.line
  | print =>
    match ids.node? 1 with
    | some value => planted (.print value) ms.line
    | none => return none
  | returns => planted (.returns (ids.node? 1)) ms.line
  | assignment =>
    match ids.node? 0, ids.node? 1 with
    | some head, some value =>
      change head (Node.withValue value)
      return some head
    | head, _ => return head
  | branch =>
    match ids.node? 1 with
    | some condition =>
      let block ← body ms ids 3
      planted (.branch condition block none) ms.line
    | none => return none
  | elseIf =>
    plantBranch ids do
      match ids.node? 2 with
      | none => return none
      | some condition =>
        let block ← body ms ids 4
        let new ← add (.branch condition block none) (ms.lineAt 1)
        return some (.elseIf new)
  | otherwise =>
    plantBranch ids do
      let block ← body ms ids 3
      return some (.otherwise block)
  | loop =>
    match ids.node? 1 with
    | some condition =>
      let block ← body ms ids 3
      planted (.loop condition block) ms.line
    | none => return none
  | functionEnd | classEnd => plantDeclaration ms ids
  | sequence =>
    let a ← get
    planted (.blocks ((ids.tagged ms .program).flatMap a.statements)) ms.line
  | trailing | statement => return ids.node? 0

/-! ### Parsing into an arena -/

/-- A parse with the arena of its nodes, and the nodes of the active symbols. -/
structure Planting where
  parsing : Parsing
  ids : Nodes
  arena : Arena

/-- Puts `x` for the run of active indices among entries. -/
def Stream.spliced {α : Type} (xs : List α) (run : List Entry) (x : α) : List α :=
  match (activeIndices run).head?, (activeIndices run).getLast? with
  | some first, some last => xs.take first ++ x :: xs.drop (last + 1)
  | _, _ => xs

namespace Planting

/-- The node of the symbol at an entry; a detached symbol has none. -/
def nodeAt? (p : Planting) : Entry → Option Nat
  | .active i => p.ids.node? i
  | .detached _ => none

/-- Reduces the leftmost match that the rule accepts. -/
def reduceOnce (p : Planting) (rule : Rule) : Option Planting := do
  let found ← p.parsing.stream.find rule
  let parsing ← p.parsing.reduceOnce rule
  let (id, arena) := (rule.plant (p.parsing.stream.collect found.run)
    (found.run.map p.nodeAt?)).run p.arena
  return ⟨parsing, Stream.spliced p.ids found.run id, arena⟩

/-- Reduces matches of a rule, at most `fuel` of them. -/
def applyFor (rule : Rule) : Nat → Planting → Planting
  | 0, p => p
  | fuel + 1, p =>
    match p.reduceOnce rule with
    | none => p
    | some q => applyFor rule fuel q

/-- Reduces matches of a rule until none is left. -/
def apply (p : Planting) (rule : Rule) : Planting := applyFor rule p.parsing.stream.weight p

/-- Applies rules in order. -/
def applyAll (p : Planting) (rules : List Rule) : Planting := rules.foldl apply p

/-- Runs passes until one leaves the tags unchanged, at most `limit` of them. -/
def passes (rules : List Rule) : Nat → Planting → Planting
  | 0, p => p
  | limit + 1, p =>
    let next := p.applyAll rules
    if next.parsing.tags = p.parsing.tags then next else passes rules limit next

/-- The start of a parse. -/
def start (tokens : List Token) : Planting :=
  let parsing := Parsing.start tokens
  ⟨parsing, parsing.stream.active.map fun _ => none, []⟩

end Planting

namespace Grammar

/-- Runs passes until one leaves the tags unchanged. -/
def plantAll (g : Grammar) (p : Planting) : Planting := Planting.passes g.rules g.maxPasses p

/-- Parses lexed tokens into an arena; gives the root of the tree. -/
def plant (g : Grammar) (tokens : List Token) : Nat × Arena :=
  let p := g.plantAll (.start tokens)
  let symbols := p.parsing.stream.active
  let line := (symbols.head?.map (·.line)).getD 1
  match p.ids.tagged symbols .program with
  | [single] => (asBlock single).run p.arena
  | programs => (add (.blocks (programs.flatMap p.arena.statements)) line).run p.arena

end Grammar

/-! ### The parse beside the arena -/

namespace Planting

variable {p : Planting}

theorem parsing_reduceOnce (p : Planting) (rule : Rule) :
    (p.reduceOnce rule).map (·.parsing) = p.parsing.reduceOnce rule := by
  cases hparsing : p.parsing.reduceOnce rule with
  | none =>
    rw [reduceOnce, hparsing]
    cases p.parsing.stream.find rule <;> rfl
  | some q =>
    obtain ⟨found, hfind, -⟩ := Option.bind_eq_some_iff.mp hparsing
    rw [reduceOnce, hparsing, hfind]
    rfl

theorem parsing_applyFor (rule : Rule) (fuel : Nat) (p : Planting) :
    (applyFor rule fuel p).parsing = (p.parsing.applyFor rule fuel).1 := by
  induction fuel generalizing p with
  | zero => rfl
  | succ fuel ih =>
    have hstep := p.parsing_reduceOnce rule
    rw [applyFor, Parsing.applyFor, ← hstep]
    cases p.reduceOnce rule with
    | none => rfl
    | some q => exact ih q

theorem parsing_applyAll (p : Planting) (rules : List Rule) :
    (p.applyAll rules).parsing = (p.parsing.applyAll rules).1 := by
  induction rules generalizing p with
  | nil => rfl
  | cons rule rules ih =>
    have happly : (p.apply rule).parsing = (p.parsing.apply rule).1 := parsing_applyFor ..
    rw [applyAll, List.foldl_cons, Parsing.applyAll, ← happly]
    exact ih _

theorem parsing_passes (rules : List Rule) (limit : Nat) (p : Planting) :
    (passes rules limit p).parsing = (p.parsing.passes rules limit).1 := by
  induction limit generalizing p with
  | zero => rfl
  | succ limit ih =>
    rw [passes, Parsing.passes]
    dsimp only
    rw [parsing_applyAll]
    split
    · exact parsing_applyAll p rules
    · rw [ih, parsing_applyAll]

/-- The symbols and the record are those of the parse. -/
theorem parsing_reduce (g : Grammar) (p : Planting) :
    (g.plantAll p).parsing = (g.reduce p.parsing).1 := parsing_passes ..

end Planting

end StackScript
