import Mathlib.Data.List.Chain
import StackScript.Grammar.Reduction

/-!
# StackScript.Proofs.Phrases — what the symbols under reduction stand for

The grammar reduces a list of symbols a bit at a time, in no fixed order.  What stays the same all
the while is the phrase that the list derives.  A phrase is a lexical token, or something whole: an
expression, a program or the head of a construct, with its fragment.  A `Production` says how a
whole phrase is put together of others, and for each rule there is the production that it undoes.

`Forest ps xs` says that the symbols `xs` derive the phrases `ps`: a phrase is derived by the one
symbol that stands for it, or by what its parts derive.  So `xs` may be reduced anywhere.

Expressions have a level, which tells where they can stand as they are written: an operand must have
a higher level than the operator, or the same level on the side on which the operator associates.

| level | expression |
|---|---|
| 1 to 4 | an operator of `logic`, `comparison`, `term`, `factor` |
| 5 | a prefix operator |
| 6 | `**` |
| 7 | any other |
-/

namespace StackScript

/-! ### Leaves and phrases -/

/-- An active symbol, and whether a line break stands before it. -/
structure Leaf where
  symbol : Symbol
  broken : Bool
deriving Inhabited

/-- Where a phrase begins. -/
structure Start where
  line : Nat
  broken : Bool
deriving Inhabited

namespace Leaf

/-- The tag of the symbol. -/
abbrev tag (l : Leaf) : Tag := l.symbol.tag

/-- The text of the symbol. -/
abbrev text (l : Leaf) : String := l.symbol.text

/-- The line of the symbol. -/
abbrev line (l : Leaf) : Nat := l.symbol.line

/-- The symbol as the begin of a phrase. -/
def start (l : Leaf) : Start := ⟨l.line, l.broken⟩

/-- The expression of a literal, `this` or `super`. -/
def literal? (l : Leaf) : Option Expr :=
  match l.tag with
  | .number => (Decimal.ofText? l.text).map (.number l.line)
  | .text => some (.text l.line (String.ofList (Token.unquote l.text.toList)))
  | .boolean => some (.boolean l.line (l.text = "true"))
  | .null => some (.null l.line)
  | .thisWord => some (.this l.line)
  | .superWord => some (.super l.line)
  | _ => none

end Leaf

/-- What symbols stand for. -/
inductive Phrase where
  /-- a lexical symbol -/
  | token (l : Leaf)
  /-- something that is reduced to one symbol with this tag and fragment -/
  | whole (tag : Tag) (start : Start) (level : Nat) (fragment : Fragment)

namespace Phrase

/-- The phrase of an expression. -/
abbrev expr (start : Start) (level : Nat) (e : Expr) : Phrase :=
  whole .expression start level (.value e)

/-- The phrase of a program. -/
abbrev program (start : Start) (p : Program) : Phrase := whole .program start 0 (.program p)

/-- The tag of the symbol that stands for a phrase. -/
def tag : Phrase → Tag
  | token l => l.tag
  | whole t _ _ _ => t

/-- Where a phrase begins. -/
def start : Phrase → Start
  | token l => l.start
  | whole _ st _ _ => st

/-- The fragment of a whole phrase. -/
def fragment? : Phrase → Option Fragment
  | token _ => none
  | whole _ _ _ f => some f

@[simp] theorem tag_token (l : Leaf) : (token l).tag = l.tag := rfl

@[simp] theorem tag_whole (t : Tag) (st : Start) (k : Nat) (f : Fragment) :
    (whole t st k f).tag = t := rfl

@[simp] theorem start_token (l : Leaf) : (token l).start = l.start := rfl

@[simp] theorem start_whole (t : Tag) (st : Start) (k : Nat) (f : Fragment) :
    (whole t st k f).start = st := rfl

@[simp] theorem fragment?_token (l : Leaf) : (token l).fragment? = none := rfl

@[simp] theorem fragment?_whole (t : Tag) (st : Start) (k : Nat) (f : Fragment) :
    (whole t st k f).fragment? = some f := rfl

end Phrase

/-- The symbol stands for the phrase. -/
inductive Stands : Leaf → Phrase → Prop
  | token {l : Leaf} (h : l.symbol.fragment = none) : Stands l (.token l)
  | whole {l : Leaf} {k : Nat} {f : Fragment} (h : l.symbol.fragment = some f) :
    Stands l (.whole l.tag l.start k f)

theorem Stands.tag_eq {l : Leaf} {p : Phrase} (h : Stands l p) : p.tag = l.tag := by
  cases h <;> rfl

theorem Stands.start_eq {l : Leaf} {p : Phrase} (h : Stands l p) : p.start = l.start := by
  cases h <;> rfl

theorem Stands.fragment_eq {l : Leaf} {p : Phrase} (h : Stands l p) :
    l.symbol.fragment = p.fragment? := by
  cases h with
  | token h => exact h
  | whole h => exact h

/-! ### Lists with commas -/

/-- Phrases with commas between them, one for each of these things. -/
inductive Commas {α : Type} (R : Phrase → α → Prop) : List Phrase → List α → Prop
  | last {p : Phrase} {a : α} (h : R p a) : Commas R [p] [a]
  | more {p : Phrase} {a : α} {c : Leaf} {ps : List Phrase} {as : List α} (h : R p a)
    (hc : c.tag = .comma) (hps : Commas R ps as) : Commas R (p :: .token c :: ps) (a :: as)

/-- Phrases with commas between them, or nothing. -/
def CommaList {α : Type} (R : Phrase → α → Prop) (ps : List Phrase) (as : List α) : Prop :=
  ps = [] ∧ as = [] ∨ Commas R ps as

/-- The phrase is this expression, of any level. -/
def IsExpr (p : Phrase) (e : Expr) : Prop := ∃ st k, p = .expr st k e

/-- The phrase is the token of this name. -/
def IsName (p : Phrase) (s : String) : Prop := ∃ x : Leaf, x.tag = .name ∧ p = .token x ∧ s = x.text

/-! ### Chunks of a block -/

/-- The last statement is a `return` without a value. -/
def Program.endsBare (s : Program) : Bool :=
  match s.statements.getLast? with
  | some (.returns _ none) => true
  | _ => false

/-- One or more statements of a block, and where they begin. -/
abbrev Chunk := Start × Program

namespace Chunk

/-- The phrase of a chunk. -/
def phrase (c : Chunk) : Phrase := .program c.1 c.2

/-- The chunk can stand behind another one: on a line of its own, and not behind a bare `return`. -/
def Follows (c d : Chunk) : Prop := d.1.broken = true ∧ c.2.endsBare = false

end Chunk

/-- Chunks that can stand in sequence. -/
def Chunks (cs : List Chunk) : Prop := cs.IsChain Chunk.Follows

/-- The block of chunks in braces that begin on this line. -/
def blockOf (line : Nat) : List Chunk → Block
  | [] => .mk line []
  | [c] => c.2.toBlock
  | c :: cs => .mk c.1.line ((c :: cs).flatMap fun c => c.2.statements)

/-! ### Operators -/

/-- How a binary operator takes its operands. -/
structure Operator where
  rule : Rule
  /-- the level of the result -/
  level : Nat
  /-- the least level of the left operand -/
  left : Nat
  /-- the least level of the right operand -/
  right : Nat

/-- The binary operator of a tag. -/
def Tag.operator? : Tag → Option Operator
  | .logic => some ⟨.logic, 1, 1, 2⟩
  | .comparison => some ⟨.comparison, 2, 2, 3⟩
  | .term => some ⟨.term, 3, 3, 4⟩
  | .factor => some ⟨.factor, 4, 4, 5⟩
  | .power => some ⟨.power, 6, 7, 5⟩
  | _ => none

/-- The operation of a binary operator. -/
def Leaf.binaryOp (o : Leaf) : BinaryOp :=
  match o.tag with
  | .power => .pow
  | .factor => .factor o.text
  | .term => .term o.text
  | .comparison => .comparison o.text
  | _ => .logic o.text

/-- The operation of a prefix operator. -/
def Leaf.unaryOp (o : Leaf) : UnaryOp :=
  match o.tag with
  | .negation => .not
  | .tilde => .bitNot
  | _ => .negative

/-- The symbol can be a prefix operator. -/
def Leaf.IsPrefix (o : Leaf) : Prop :=
  o.tag = .term ∧ o.text = "-" ∨ o.tag = .negation ∨ o.tag = .tilde

/-- The tags of prefix operators. -/
theorem Leaf.IsPrefix.tag_mem {o : Leaf} (h : o.IsPrefix) :
    o.tag ∈ [Tag.term, .negation, .tilde] := by
  rcases h with ⟨h, -⟩ | h | h <;> simp [h]

/-! ### Heads with what they wait for -/

namespace Fragment

/-- The head of a call or an instantiation with its arguments. -/
def applied? : Fragment → List Expr → Option Expr
  | callHead line none name, es => some (.call line name es)
  | callHead line (some receiver) name, es => some (.method line receiver name es)
  | newHead line className, es => some (.create line className es)
  | _, _ => none

/-- The head of an assignment with its value. -/
def assigned? : Fragment → Expr → Option Stmt
  | assignmentHead line true none name, e => some (.declare line name (some e) none)
  | assignmentHead line false none name, e => some (.assign line name e none)
  | assignmentHead line _ (some receiver) name, e => some (.setField line receiver name e)
  | _, _ => none

end Fragment

/-! ### Productions -/

open Phrase in
/-- What stands before the body of a block, up to where the body begins, and the statement that it
makes with its body.  A body of no statements is given a line by the statement. -/
inductive Heading : Rule → List Phrase → Start → ((Nat → Block) → Option Stmt) → Prop
  | branch {w l : Leaf} {st : Start} {k : Nat} {e : Expr} (hw : w.tag = .ifWord)
    (hl : l.tag = .leftBrace) :
    Heading .branch [token w, expr st k e, token l] w.start
      (fun body => some (.branch w.line e (body w.line) .nothing))
  | elseIf {st st' : Start} {line : Nat} {c : Expr} {b : Block} {rest : Rest} {o l : Leaf}
    {k : Nat} {e : Expr} (ho : o.tag = .elseIfWord) (hl : l.tag = .leftBrace) :
    Heading .elseIf
      [program st (.single (.branch line c b rest)), token o, expr st' k e, token l] st
      (fun body => (rest.attach (.elseIf o.line e (body st.line) .nothing)).map (.branch line c b))
  | otherwise {st : Start} {line : Nat} {c : Expr} {b : Block} {rest : Rest} {o l : Leaf}
    (ho : o.tag = .elseWord) (hl : l.tag = .leftBrace) :
    Heading .otherwise [program st (.single (.branch line c b rest)), token o, token l] st
      (fun body => (rest.attach (.otherwise (body st.line))).map (.branch line c b))
  | loop {w l : Leaf} {st : Start} {k : Nat} {e : Expr} (hw : w.tag = .whileWord)
    (hl : l.tag = .leftBrace) :
    Heading .loop [token w, expr st k e, token l] w.start
      (fun body => some (.loop w.line e (body w.line)))
  | functionEnd {st : Start} {line : Nat} {name : String} {params : List String} :
    Heading .functionEnd [whole .functionHead st 0 (.functionHead line name params)] st
      (fun body => some (.function line name params (body line)))
  | classEnd {st : Start} {line : Nat} {name : String} {parent : Option String} :
    Heading .classEnd [whole .classHead st 0 (.classHead line name parent)] st
      (fun body => some (.classDecl line name parent (body line)))

open Phrase in
/-- The phrases that a rule reduces to one. -/
inductive Production : Rule → List Phrase → Phrase → Prop
  | literal {l : Leaf} {e : Expr} (h : l.literal? = some e) :
    Production .literal [token l] (expr l.start 7 e)
  | assignmentHead {x s : Leaf} (hx : x.tag = .name) (hs : s.tag = .equals) :
    Production .assignmentHead [token x, token s]
      (whole .assignmentHead x.start 0 (.assignmentHead x.line false none x.text))
  | declaringHead {v x s : Leaf} (hv : v.tag = .varWord) (hx : x.tag = .name)
    (hs : s.tag = .equals) :
    Production .assignmentHead [token v, token x, token s]
      (whole .assignmentHead v.start 0 (.assignmentHead v.line true none x.text))
  | declaration {v x : Leaf} (hv : v.tag = .varWord) (hx : x.tag = .name) :
    Production .declaration [token v, token x]
      (program v.start (.single (.declare v.line x.text none none)))
  | functionHead {w x l r b : Leaf} {ps : List Phrase} {params : List String}
    (hw : w.tag = .funcWord) (hx : x.tag = .name) (hl : l.tag = .leftParen)
    (hps : CommaList IsName ps params) (hr : r.tag = .rightParen) (hb : b.tag = .leftBrace) :
    Production .functionHead (token w :: token x :: token l :: (ps ++ [token r, token b]))
      (whole .functionHead w.start 0 (.functionHead w.line x.text params))
  | classHead {w x b : Leaf} (hw : w.tag = .classWord) (hx : x.tag = .name)
    (hb : b.tag = .leftBrace) :
    Production .classHead [token w, token x, token b]
      (whole .classHead w.start 0 (.classHead w.line x.text none))
  | extendingHead {w x v y b : Leaf} (hw : w.tag = .classWord) (hx : x.tag = .name)
    (hv : v.tag = .extendsWord) (hy : y.tag = .name) (hb : b.tag = .leftBrace) :
    Production .classHead [token w, token x, token v, token y, token b]
      (whole .classHead w.start 0 (.classHead w.line x.text (some y.text)))
  | newHead {w x l : Leaf} (hw : w.tag = .newWord) (hx : x.tag = .name) (hl : l.tag = .leftParen) :
    Production .newHead [token w, token x, token l]
      (whole .newHead w.start 0 (.newHead w.line x.text))
  | methodHead {st : Start} {e : Expr} {d x l : Leaf} (hd : d.tag = .dot) (hb : d.broken = false)
    (hx : x.tag = .name) (hl : l.tag = .leftParen) :
    Production .methodHead [expr st 7 e, token d, token x, token l]
      (whole .callHead st 0 (.callHead st.line (some e) x.text))
  | fieldAssignmentHead {st : Start} {e : Expr} {d x s : Leaf} (hd : d.tag = .dot)
    (hb : d.broken = false) (hx : x.tag = .name) (hs : s.tag = .equals) :
    Production .fieldAssignmentHead [expr st 7 e, token d, token x, token s]
      (whole .assignmentHead st 0 (.assignmentHead st.line false (some e) x.text))
  | field {st : Start} {e : Expr} {d x : Leaf} (hd : d.tag = .dot) (hb : d.broken = false)
    (hx : x.tag = .name) :
    Production .field [expr st 7 e, token d, token x] (expr st 7 (.field st.line e x.text))
  | callHead {x l : Leaf} (hx : x.tag = .name) (hl : l.tag = .leftParen) :
    Production .callHead [token x, token l]
      (whole .callHead x.start 0 (.callHead x.line none x.text))
  | variable {x : Leaf} (hx : x.tag = .name) :
    Production .variable [token x] (expr x.start 7 (.variable x.line x.text none))
  | list {l r : Leaf} {ps : List Phrase} {es : List Expr} (hl : l.tag = .leftBracket)
    (hps : CommaList IsExpr ps es) (hr : r.tag = .rightBracket) :
    Production .list (token l :: (ps ++ [token r])) (expr l.start 7 (.list l.line es))
  | group {l r : Leaf} {st : Start} {k : Nat} {e : Expr} (hl : l.tag = .leftParen)
    (hr : r.tag = .rightParen) :
    Production .group [token l, expr st k e, token r] (expr l.start 7 e)
  | unary {o : Leaf} {st : Start} {k : Nat} {e : Expr} (ho : o.IsPrefix) (hk : 5 ≤ k) :
    Production .unary [token o, expr st k e] (expr o.start 5 (.unary o.line o.unaryOp e))
  | binary {r : Rule} {p : Operator} {o : Leaf} {st st' : Start} {i j : Nat} {e e' : Expr}
    (ho : o.tag.operator? = some p) (hr : p.rule = r) (hb : o.broken = false) (hi : p.left ≤ i)
    (hj : p.right ≤ j) :
    Production r [expr st i e, token o, expr st' j e']
      (expr st p.level (.binary st.line o.binaryOp e e' none))
  | arguments {t : Tag} {st : Start} {f : Fragment} {r : Leaf} {ps : List Phrase}
    {es : List Expr} {e : Expr} (ht : t = .callHead ∨ t = .newHead) (hf : f.applied? es = some e)
    (hps : CommaList IsExpr ps es) (hr : r.tag = .rightParen) :
    Production .arguments (whole t st 0 f :: (ps ++ [token r])) (expr st 7 e)
  | jump {w : Leaf} (hw : w.tag = .continueWord ∨ w.tag = .breakWord) :
    Production .jump [token w] (program w.start (.single
      (if w.tag = .breakWord then .breaks w.line else .continues w.line)))
  | print {w : Leaf} {st : Start} {k : Nat} {e : Expr} (hw : w.tag = .printWord) :
    Production .print [token w, expr st k e] (program w.start (.single (.print w.line e)))
  | returnsBare {w : Leaf} (hw : w.tag = .returnWord) :
    Production .returns [token w] (program w.start (.single (.returns w.line none)))
  | returns {w : Leaf} {st : Start} {k : Nat} {e : Expr} (hw : w.tag = .returnWord)
    (hst : st.broken = false) :
    Production .returns [token w, expr st k e]
      (program w.start (.single (.returns w.line (some e))))
  | assignment {st st' : Start} {f : Fragment} {k : Nat} {e : Expr} {s : Stmt}
    (hf : f.assigned? e = some s) :
    Production .assignment [whole .assignmentHead st 0 f, expr st' k e] (program st (.single s))
  | block {r : Rule} {head : List Phrase} {st : Start} {make : (Nat → Block) → Option Stmt}
    {cs : List Chunk} {b : Leaf} {s : Stmt} (hhead : Heading r head st make) (hcs : Chunks cs)
    (hb : b.tag = .rightBrace) (hs : make (fun line => blockOf line cs) = some s) :
    Production r (head ++ (cs.map Chunk.phrase ++ [token b])) (program st (.single s))
  | statement {st : Start} {k : Nat} {e : Expr} :
    Production .statement [expr st k e] (program st (.single (.value e)))

/-! ### Derivations -/

/-- Phrases one after another, each related to its part of the symbols. -/
inductive Each (R : Phrase → List Leaf → Prop) : List Phrase → List Leaf → Prop
  | nil : Each R [] []
  | cons {p : Phrase} {ps : List Phrase} {ys xs : List Leaf} (h : R p ys) (hs : Each R ps xs) :
    Each R (p :: ps) (ys ++ xs)

/-- The symbols derive the phrases.  No part is left to be reduced by one of the rules in `gone`. -/
inductive Forest (gone : List Rule) : List Phrase → List Leaf → Prop
  | nil : Forest gone [] []
  | leaf {l : Leaf} {p : Phrase} {ps : List Phrase} {xs : List Leaf} (h : Stands l p)
    (hs : Forest gone ps xs) : Forest gone (p :: ps) (l :: xs)
  | node {r : Rule} {qs : List Phrase} {q : Phrase} {ps : List Phrase} {ys xs : List Leaf}
    (hr : Production r qs q) (hgone : r ∉ gone) (h : Forest gone qs ys)
    (hs : Forest gone ps xs) : Forest gone (q :: ps) (ys ++ xs)

/-- The symbols derive the phrase. -/
abbrev Derives (gone : List Rule) (p : Phrase) (xs : List Leaf) : Prop := Forest gone [p] xs

namespace Each

variable {R R' : Phrase → List Leaf → Prop} {p : Phrase} {ps qs : List Phrase} {xs ys : List Leaf}

theorem nil_iff : Each R [] xs ↔ xs = [] := by
  constructor
  · intro h
    cases h
    rfl
  · rintro rfl
    exact .nil

theorem cons_iff : Each R (p :: ps) xs ↔ ∃ ys zs, xs = ys ++ zs ∧ R p ys ∧ Each R ps zs := by
  constructor
  · intro h
    cases h with
    | cons h hs => exact ⟨_, _, rfl, h, hs⟩
  · rintro ⟨ys, zs, rfl, h, hs⟩
    exact .cons h hs

theorem append (h : Each R ps xs) (h' : Each R qs ys) : Each R (ps ++ qs) (xs ++ ys) := by
  induction h with
  | nil => exact h'
  | cons hp _ ih =>
    rw [List.append_assoc]
    exact .cons hp ih

theorem split (h : Each R (ps ++ qs) xs) :
    ∃ ys zs, xs = ys ++ zs ∧ Each R ps ys ∧ Each R qs zs := by
  induction ps generalizing xs with
  | nil => exact ⟨[], xs, rfl, .nil, h⟩
  | cons p ps ih =>
    obtain ⟨ys, zs, rfl, hp, hs⟩ := cons_iff.mp h
    obtain ⟨us, vs, rfl, hps, hqs⟩ := ih hs
    exact ⟨ys ++ us, vs, (List.append_assoc ys us vs).symm, .cons hp hps, hqs⟩

theorem mono (h : Each R ps xs) (hR : ∀ p ys, p ∈ ps → R p ys → R' p ys) : Each R' ps xs := by
  induction h with
  | nil => exact .nil
  | cons hp _ ih =>
    exact .cons (hR _ _ List.mem_cons_self hp)
      (ih fun p ys hmem => hR p ys (List.mem_cons_of_mem _ hmem))

/-- What each part satisfies may depend on the parts before it and after it. -/
theorem context (h : Each R ps xs) (hR : ∀ qs₁ p qs₂ ys us zs, ps = qs₁ ++ p :: qs₂ →
    xs = ys ++ (us ++ zs) → Each R qs₁ ys → R p us → Each R qs₂ zs → R' p us) : Each R' ps xs := by
  suffices hsuffix : ∀ qs₁ ys, Each R qs₁ ys → ∀ {qs₂ zs}, ps = qs₁ ++ qs₂ → xs = ys ++ zs →
      Each R qs₂ zs → Each R' qs₂ zs from hsuffix [] [] .nil rfl rfl h
  intro qs₁ ys h₁ qs₂ zs hps hxs h₂
  induction h₂ generalizing qs₁ ys with
  | nil => exact .nil
  | @cons p qs us zs hp hs ih =>
    refine .cons (hR qs₁ p qs ys us zs hps hxs h₁ hp hs) ?_
    refine ih (qs₁ ++ [p]) (ys ++ us) (h₁.append ?_) (by simp [hps]) (by simp [hxs])
    have hone := Each.cons hp .nil
    rwa [List.append_nil] at hone

end Each

namespace Forest

variable {gone : List Rule} {p : Phrase} {ps qs : List Phrase} {xs ys : List Leaf}

theorem append (h : Forest gone ps xs) (h' : Forest gone qs ys) :
    Forest gone (ps ++ qs) (xs ++ ys) := by
  induction h with
  | nil => exact h'
  | leaf hl _ ih => exact .leaf hl ih
  | node hr hgone h _ _ ih =>
    rw [List.append_assoc]
    exact .node hr hgone h ih

theorem each_iff : Forest gone ps xs ↔ Each (Derives gone) ps xs := by
  constructor
  · intro h
    induction h with
    | nil => exact .nil
    | leaf hl _ ih =>
      have hl' : Derives gone _ [_] := .leaf hl .nil
      exact .cons hl' ih
    | node hr hgone h _ _ ih =>
      refine .cons ?_ ih
      have hnode := Forest.node hr hgone h .nil
      rwa [List.append_nil] at hnode
  · intro h
    induction h with
    | nil => exact .nil
    | cons h _ ih => exact h.append ih

theorem cons (h : Derives gone p ys) (hs : Forest gone ps xs) : Forest gone (p :: ps) (ys ++ xs) :=
  h.append hs

theorem split (h : Forest gone (ps ++ qs) xs) :
    ∃ ys zs, xs = ys ++ zs ∧ Forest gone ps ys ∧ Forest gone qs zs := by
  obtain ⟨ys, zs, rfl, hp, hq⟩ := (each_iff.mp h).split
  exact ⟨ys, zs, rfl, each_iff.mpr hp, each_iff.mpr hq⟩

theorem uncons (h : Forest gone (p :: ps) xs) :
    ∃ ys zs, xs = ys ++ zs ∧ Derives gone p ys ∧ Forest gone ps zs := by
  have h' : Forest gone ([p] ++ ps) xs := h
  exact h'.split

end Forest

namespace Derives

variable {gone : List Rule} {p : Phrase} {xs : List Leaf}

theorem of_stands {l : Leaf} (h : Stands l p) : Derives gone p [l] := .leaf h .nil

theorem of_production {r : Rule} {qs : List Phrase} (hr : Production r qs p) (hgone : r ∉ gone)
    (h : Forest gone qs xs) : Derives gone p xs := by
  have hnode := Forest.node hr hgone h .nil
  rwa [List.append_nil] at hnode

/-- A phrase is derived by the symbol that stands for it, or of its parts. -/
theorem cases (h : Derives gone p xs) : (∃ l, xs = [l] ∧ Stands l p) ∨
    ∃ r qs, Production r qs p ∧ r ∉ gone ∧ Forest gone qs xs := by
  cases h with
  | leaf hl hs =>
    cases hs
    exact .inl ⟨_, rfl, hl⟩
  | node hr hgone h hs =>
    cases hs
    rw [List.append_nil]
    exact .inr ⟨_, _, hr, hgone, h⟩

/-- Induction on derivations. -/
theorem inductOn {Q : Phrase → List Leaf → Prop} (leaf : ∀ {l p}, Stands l p → Q p [l])
    (node : ∀ {r qs q xs}, Production r qs q → r ∉ gone →
      Each (fun p ys => Derives gone p ys ∧ Q p ys) qs xs → Q q xs)
    (h : Derives gone p xs) : Q p xs := by
  have hforest : ∀ {ps xs}, Forest gone ps xs →
      Each (fun p ys => Derives gone p ys ∧ Q p ys) ps xs := by
    intro ps xs h
    induction h with
    | nil => exact .nil
    | leaf hl _ ih =>
      have hl' : Derives gone _ [_] ∧ Q _ [_] := ⟨.of_stands hl, leaf hl⟩
      exact .cons hl' ih
    | node hr hgone h _ ihq ih => exact .cons ⟨.of_production hr hgone h, node hr hgone ihq⟩ ih
  obtain ⟨ys, zs, rfl, hp, hs⟩ := Each.cons_iff.mp (hforest h)
  obtain rfl := Each.nil_iff.mp hs
  rw [List.append_nil]
  exact hp.2

end Derives

theorem Tag.result_of_operator? {t : Tag} {p : Operator} (h : t.operator? = some p) :
    p.rule.result = .expression := by
  cases t <;> cases h <;> rfl

theorem Heading.result_eq {r : Rule} {head : List Phrase} {st : Start}
    {make : (Nat → Block) → Option Stmt} (h : Heading r head st make) : r.result = .program := by
  cases h <;> rfl

/-- A production gives something whole, with the tag that its rule reduces to. -/
theorem Production.whole {r : Rule} {qs : List Phrase} {q : Phrase} (h : Production r qs q) :
    ∃ st k f, q = .whole r.result st k f := by
  cases h with
  | binary ho hr =>
    rw [← hr, Tag.result_of_operator? ho]
    exact ⟨_, _, _, rfl⟩
  | block hhead =>
    rw [hhead.result_eq]
    exact ⟨_, _, _, rfl⟩
  | _ => exact ⟨_, _, _, rfl⟩

/-- A token is derived by itself alone. -/
theorem Derives.token {gone : List Rule} {l : Leaf} {xs : List Leaf}
    (h : Derives gone (.token l) xs) : xs = [l] ∧ l.symbol.fragment = none := by
  rcases h.cases with ⟨_, rfl, hl⟩ | ⟨r, qs, hr, -, -⟩
  · cases hl with
    | token h => exact ⟨rfl, h⟩
  · obtain ⟨st, k, f, h⟩ := hr.whole
    cases h

end StackScript
