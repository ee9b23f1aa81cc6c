import StackScript.Grammar.Build

/-!
# StackScript.Grammar.Reduction — reducing to a fixpoint

`Parsing.reduceOnce` reduces the leftmost match that a rule accepts, `apply` does so until no match
is left, a pass applies every rule of a grammar in order, and `reduce` runs passes until one leaves
the tags unchanged.  Each reduction lowers the weight of the symbols, so `apply` ends.
-/

namespace StackScript

/-- Rules in order of priority, and a limit on the passes. -/
structure Grammar where
  rules : List Rule
  maxPasses : Nat
deriving Inhabited

/-- The grammar of the language. -/
def Grammar.standard : Grammar := ⟨Rule.standard, 10000⟩

/-- The weight of a symbol: a lexical one weighs most, a program least. -/
def Tag.weight : Tag → Nat
  | .program => 1
  | .expression => 2
  | _ => 3

/-- The weight of the active symbols. -/
def Stream.weight (s : Stream) : Nat := s.active.foldr (fun a n => a.tag.weight + n) 0

/-- Symbols under reduction, and what has been recorded. -/
structure Parsing where
  stream : Stream
  record : Record
deriving Inhabited

/-- A match of a rule: the entries of the match and its place among the active symbols. -/
structure Found where
  run : List Entry
  site : Site
deriving Repr, Inhabited

/-- The match of a rule at the front of what it sees, if it accepts the match. -/
def Stream.matchAt (s : Stream) (rule : Rule) (tags : List Tag) (seen : List Entry) :
    Option Found := do
  let n ← rule.pattern.length? tags
  let run := seen.take n
  let indices := Stream.activeIndices run
  let start ← indices.head?
  let site := ⟨start, indices.length⟩
  if rule.accepts s site then some ⟨run, site⟩ else none

/-- The match at the first of the entries, which have these tags, at which a rule accepts one. -/
def Stream.findIn (s : Stream) (rule : Rule) : List Tag → List Entry → Option Found
  | tag :: tags, entry :: seen =>
    match s.matchAt rule (tag :: tags) (entry :: seen) with
    | some found => some found
    | none => s.findIn rule tags seen
  | _, _ => none

/-- The leftmost match that the rule accepts. -/
def Stream.find (s : Stream) (rule : Rule) : Option Found :=
  let seen := s.entries rule.included
  s.findIn rule (seen.map Prod.fst) (seen.map Prod.snd)

namespace Parsing

/-- Reduces the leftmost match that the rule accepts. -/
def reduceOnce (p : Parsing) (rule : Rule) : Option Parsing := do
  let found ← p.stream.find rule
  let consumed := p.stream.collect found.run
  let first ← consumed.head?
  let last ← consumed.getLast?
  let (fragment, record) := (rule.build consumed).run p.record
  let symbol := Symbol.reduced rule.result first.line ⟨first.span.start, last.span.stop⟩ fragment
  let stream ← p.stream.replace found.run symbol
  return ⟨stream, record⟩

/-- Reduces matches of a rule, at most `fuel` of them, and counts them. -/
def applyFor (rule : Rule) : Nat → Parsing → Parsing × Nat
  | 0, p => (p, 0)
  | fuel + 1, p =>
    match p.reduceOnce rule with
    | none => (p, 0)
    | some q =>
      let r := applyFor rule fuel q
      (r.1, r.2 + 1)

/-- Reduces matches of a rule until none is left, and counts them. -/
def apply (p : Parsing) (rule : Rule) : Parsing × Nat := applyFor rule p.stream.weight p

/-- Applies rules in order, and counts the reductions. -/
def applyAll (p : Parsing) : List Rule → Parsing × Nat
  | [] => (p, 0)
  | rule :: rules =>
    let r := p.apply rule
    let rest := r.1.applyAll rules
    (rest.1, r.2 + rest.2)

/-- The tags of the active symbols. -/
def tags (p : Parsing) : List Tag := p.stream.active.map (·.tag)

/-- Runs passes until one leaves the tags unchanged, at most `limit` of them, and counts them. -/
def passes (rules : List Rule) : Nat → Parsing → Parsing × Nat
  | 0, p => (p, 0)
  | limit + 1, p =>
    let next := (p.applyAll rules).1
    if next.tags = p.tags then (next, 1)
    else
      let r := passes rules limit next
      (r.1, r.2 + 1)

end Parsing

namespace Grammar

/-- Applies every rule once, in order, and counts the reductions. -/
def runPass (g : Grammar) (p : Parsing) : Parsing × Nat := p.applyAll g.rules

/-- Runs passes until one leaves the tags unchanged, and counts them, the unchanged one included. -/
def reduce (g : Grammar) (p : Parsing) : Parsing × Nat := Parsing.passes g.rules g.maxPasses p

end Grammar

/-- Lexed tokens made ready for the rules: layout is dropped and line breaks are detached. -/
def Stream.prepare (tokens : List Token) : Stream :=
  (((Stream.ofSymbols (tokens.map Symbol.ofToken)).purge .blank).purge .comment).remove .newline

/-- The start of a parse. -/
def Parsing.start (tokens : List Token) : Parsing := ⟨Stream.prepare tokens, ⟨0, [], []⟩⟩

/-! ### Parsing a source -/

/-- What is reported of the symbols that remain.  A single program is complete.  Otherwise every
stray `else` is reported, or else the first symbol that did not fold into the program. -/
def leftovers (symbols : List Symbol) : List Diagnostic :=
  if symbols.length ≤ 1 && symbols.all (·.tag = .program) then []
  else
    let stray := symbols.filter fun s => s.tag = .elseWord || s.tag = .elseIfWord
    if stray.isEmpty then
      let rest := if (symbols.head?.map (·.tag)) = some .program then symbols.drop 1 else symbols
      match rest.head? with
      | none => []
      | some s => [.unexpected (if s.text = "" then s.tag.toText else s.text) s.line]
    else stray.map fun s => .danglingElse s.line

/-- The outcome of a parse. -/
structure Parsed where
  root : Block
  record : Record
  /-- the symbols that were left at the fixpoint -/
  remaining : List Symbol
deriving Inhabited

namespace Grammar

/-- Parses lexed tokens.  The root holds whatever did reduce to a program. -/
def parse (g : Grammar) (tokens : List Token) : Parsed :=
  let p := (g.reduce (Parsing.start tokens)).1
  let symbols := p.stream.active
  let record := { p.record with diagnostics := p.record.diagnostics ++ leftovers symbols }
  let line := (symbols.head?.map (·.line)).getD 1
  match (symbols.filter (·.tag = .program)).filterMap (·.program?) with
  | [single] => ⟨single.toBlock, { record with nodes := record.nodes + single.wrappers }, symbols⟩
  | programs =>
    ⟨.mk line (programs.flatMap Program.statements), { record with nodes := record.nodes + 1 },
      symbols⟩

end Grammar

end StackScript
