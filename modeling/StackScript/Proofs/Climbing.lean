import StackScript.Proofs.Lexed
import StackScript.Proofs.Writing

/-!
# StackScript.Proofs.Climbing — expressions read by precedence climbing

`Climbing.parse` reads an expression from left to right and never goes back: it takes an operand,
and then binary operators as long as they are of the least level that is asked for, each with a
right operand of a level of its own.  The table of the operators is all that it goes by.

Whatever is written as an expression (`Token.Expression`) is read to its end, and its tokens derive
what is read (`Token.Expression.climbs`).  So the grammar, which looks at neighbours and reduces in
passes, gives the same tree.
-/

namespace StackScript

open Leaf

/-! ### Tokens that are written as expressions -/

namespace Token

/-- The tokens are these pieces with commas between them. -/
inductive Separated : List (List Token) → List Token → Prop
  | none : Separated [] []
  | last (us : List Token) : Separated [us] us
  | more {c : Token} {us vs ts : List Token} {uss : List (List Token)} (hc : c.tag = .comma)
    (h : Separated (vs :: uss) ts) : Separated (us :: vs :: uss) (us ++ c :: ts)

/-- The token can be a prefix operator. -/
def isPrefix (t : Token) : Bool :=
  t.tag = .term && t.text = "-" || t.tag = .negation || t.tag = .tilde

/-- The tokens are an expression, whichever operators take which operands. -/
inductive Expression : List Token → Prop
  | literal {t : Token}
    (ht : t.tag ∈ [.number, .text, .boolean, .null, .thisWord, .superWord]) : Expression [t]
  | name {x : Token} (hx : x.tag = .name) : Expression [x]
  | group {l r : Token} {ts : List Token} (hl : l.tag = .leftParen) (h : Expression ts)
    (hr : r.tag = .rightParen) : Expression (l :: (ts ++ [r]))
  | list {l r : Token} {ts : List Token} {uss : List (List Token)} (hl : l.tag = .leftBracket)
    (hts : Separated uss ts) (h : ∀ us ∈ uss, Expression us) (hr : r.tag = .rightBracket) :
    Expression (l :: (ts ++ [r]))
  | call {x l r : Token} {ts : List Token} {uss : List (List Token)} (hx : x.tag = .name)
    (hl : l.tag = .leftParen) (hts : Separated uss ts) (h : ∀ us ∈ uss, Expression us)
    (hr : r.tag = .rightParen) : Expression (x :: l :: (ts ++ [r]))
  | create {w x l r : Token} {ts : List Token} {uss : List (List Token)} (hw : w.tag = .newWord)
    (hx : x.tag = .name) (hl : l.tag = .leftParen) (hts : Separated uss ts)
    (h : ∀ us ∈ uss, Expression us) (hr : r.tag = .rightParen) :
    Expression (w :: x :: l :: (ts ++ [r]))
  | field {d x : Token} {ts : List Token} (h : Expression ts) (hd : d.tag = .dot)
    (hx : x.tag = .name) : Expression (ts ++ [d, x])
  | method {d x l r : Token} {us ts : List Token} {uss : List (List Token)} (hus : Expression us)
    (hd : d.tag = .dot) (hx : x.tag = .name) (hl : l.tag = .leftParen) (hts : Separated uss ts)
    (h : ∀ us ∈ uss, Expression us) (hr : r.tag = .rightParen) :
    Expression (us ++ d :: x :: l :: (ts ++ [r]))
  | unary {o : Token} {ts : List Token} (ho : o.isPrefix = true) (h : Expression ts) :
    Expression (o :: ts)
  | binary {o : Token} {us vs : List Token} (hus : Expression us)
    (ho : o.tag.operator?.isSome = true) (hvs : Expression vs) : Expression (us ++ o :: vs)

end Token

/-! ### The reader -/

namespace Climbing

/-- Reads something off the front of a row, and gives what is left. -/
abbrev Reader (α : Type) := List Token → Option (α × List Token)

/-- A token of this tag. -/
def token (tag : Tag) : Reader Token
  | t :: ts => if t.tag = tag then some (t, ts) else none
  | [] => none

section

variable (expression : Nat → Reader Expr)

/-- One expression or more with commas between them, and what closes them. -/
def items (close : Tag) : Nat → Reader (List Expr)
  | 0, _ => none
  | fuel + 1, ts => do
    let (e, rest) ← expression 1 ts
    match rest with
    | [] => none
    | c :: rest =>
      if c.tag = close then return ([e], rest)
      else if c.tag = .comma then do
        let (es, rest) ← items close fuel rest
        return (e :: es, rest)
      else none

/-- Expressions with commas between them, or none, and what closes them. -/
def enclosed (close : Tag) : Reader (List Expr)
  | [] => none
  | t :: ts =>
    if t.tag = close then some ([], ts) else items expression close (t :: ts).length (t :: ts)

/-- The arguments in parentheses, if there are any parentheses. -/
def arguments : Reader (Option (List Expr))
  | [] => some (none, [])
  | l :: ts =>
    if l.tag = .leftParen then do
      let (es, rest) ← enclosed expression .rightParen ts
      return (some es, rest)
    else some (none, l :: ts)

/-- A literal, a name, a call, an instantiation, or something in brackets. -/
def primary : Reader Expr
  | [] => none
  | t :: ts =>
    match t.tag with
    | .name => do
      let (args, rest) ← arguments expression ts
      return (args.elim (.variable t.line t.text none) (.call t.line t.text), rest)
    | .newWord => do
      let (x, rest) ← token .name ts
      let (args, rest) ← arguments expression rest
      return (.create t.line x.text (← args), rest)
    | .leftBracket => do
      let (es, rest) ← enclosed expression .rightBracket ts
      return (.list t.line es, rest)
    | .leftParen => do
      let (e, rest) ← expression 1 ts
      let (_, rest) ← token .rightParen rest
      return (e, rest)
    | _ => do return (← (ofToken t false).literal?, ts)

/-- The fields and method calls behind a receiver that begins on this line. -/
def members (line : Nat) : Nat → Expr → Reader Expr
  | fuel + 1, e, d :: x :: ts =>
    if d.tag = .dot ∧ x.tag = .name then do
      let (args, rest) ← arguments expression ts
      members line fuel (args.elim (.field line e x.text) (.method line e x.text)) rest
    else some (e, d :: x :: ts)
  | _, e, ts => some (e, ts)

/-- An operand with the fields and calls behind it, or a prefix operator with what it is for. -/
def operand : Reader Expr
  | [] => none
  | t :: ts =>
    if t.isPrefix then do
      let (e, rest) ← expression 5 ts
      return (.unary t.line (ofToken t false).unaryOp e, rest)
    else do
      let (e, rest) ← primary expression (t :: ts)
      members expression t.line rest.length e rest

/-- Binary operators of a level that is not below `least`, each with its right operand. -/
def operators (least line : Nat) : Nat → Expr → Reader Expr
  | fuel + 1, left, o :: ts =>
    match o.tag.operator? with
    | some p =>
      if least ≤ p.level then do
        let (right, rest) ← expression p.right ts
        operators least line fuel (.binary line (ofToken o false).binaryOp left right none) rest
      else some (left, o :: ts)
    | none => some (left, o :: ts)
  | _, left, ts => some (left, ts)

/-- An operand and the operators behind it. -/
def climb (least : Nat) : Reader Expr
  | [] => none
  | t :: ts => do
    let (e, rest) ← operand expression (t :: ts)
    operators expression least t.line rest.length e rest

end

/-- An expression of a level that is not below `least`. -/
def expression? : Nat → Nat → Reader Expr
  | 0, _, _ => none
  | fuel + 1, least, ts => climb (expression? fuel) least ts

/-- The expression that a whole row is. -/
def parse (row : List Token) : Option Expr :=
  match expression? row.length 1 row with
  | some (e, []) => some e
  | _ => none

/-! ### What the reader stops at -/

/-- What is left has no call in front. -/
def Uncalled (rest : List Token) : Prop := ∀ t ∈ rest.head?, t.tag ≠ .leftParen

/-- What is left has nothing in front that would go on with an operand. -/
def Ends (rest : List Token) : Prop := ∀ t ∈ rest.head?, t.tag ≠ .leftParen ∧ t.tag ≠ .dot

/-- What is left has nothing in front that would go on with an expression. -/
def Closes (rest : List Token) : Prop :=
  ∀ t ∈ rest.head?, t.tag ≠ .leftParen ∧ t.tag ≠ .dot ∧ t.tag.operator? = none

theorem Closes.nil : Closes [] := by simp [Closes]

theorem closes_cons {t : Token} {ts : List Token} :
    Closes (t :: ts) ↔ t.tag ≠ .leftParen ∧ t.tag ≠ .dot ∧ t.tag.operator? = none := by
  simp [Closes]

theorem Closes.ends {rest : List Token} (h : Closes rest) : Ends rest :=
  fun t ht => ⟨(h t ht).1, (h t ht).2.1⟩

theorem Ends.uncalled {rest : List Token} (h : Ends rest) : Uncalled rest := fun t ht => (h t ht).1

/-- The line that tokens begin on. -/
def lineOf (ts : List Token) : Nat := (ts.head?.map Token.line).getD 0

theorem lineOf_append {ts : List Token} (hts : ts ≠ []) (us : List Token) :
    lineOf (ts ++ us) = lineOf ts := by
  cases ts with
  | nil => exact absurd rfl hts
  | cons => rfl

/-- The tokens are read as an expression that they derive, up to what closes them.  It is enough to
have fuel for as many readers within each other as there are tokens. -/
def Reads (ts : List Token) : Prop :=
  ∃ k e, Written (lineOf ts) k e ts ∧ ∀ n rest, ts.length ≤ n → Closes rest →
    expression? n 1 (ts ++ rest) = some (e, rest)

/-! ### Lists in brackets -/

/-- Brackets that can close a list. -/
def Bracket (close : Tag) : Prop := close = .rightParen ∨ close = .rightBracket

section

variable {e : Expr} {es : List Expr} {close : Tag} {r : Token} {ts rest : List Token}
  {uss : List (List Token)}

theorem Bracket.closes (h : Bracket close) (hr : r.tag = close) : Closes (r :: rest) := by
  rw [closes_cons, hr]
  rcases h with rfl | rfl <;> decide

theorem Bracket.ne_comma (h : Bracket close) : Tag.comma ≠ close := by
  rcases h with rfl | rfl <;> decide

theorem closes_comma {c : Token} (hc : c.tag = .comma) : Closes (c :: rest) := by
  rw [closes_cons, hc]
  decide

/-- No bracket that closes a list begins an expression. -/
theorem Bracket.not_head {line k : Nat} {t : Token} (hclose : Bracket close)
    (h : Written line k e (t :: ts)) : t.tag ≠ close := by
  obtain ⟨l, ys, hl, -, hstarts⟩ := (h.derives false).head
  rw [ofRow_cons] at hl
  obtain ⟨rfl, -⟩ := List.cons.inj hl
  intro ht
  rw [tag_ofToken, ht] at hstarts
  rcases hclose with rfl | rfl <;> cases hstarts

theorem items_spec (hclose : Bracket close) (h : Token.Separated uss ts) (hne : uss ≠ [])
    (hreads : ∀ us ∈ uss, Reads us) :
    ∃ es, WrittenItems es ts ∧ ∀ n fuel r rest, ts.length ≤ n → ts.length ≤ fuel → r.tag = close →
      items (expression? n) close fuel (ts ++ r :: rest) = some (es, rest) := by
  induction h with
  | none => exact absurd rfl hne
  | last us =>
    obtain ⟨k, e, hwritten, hread⟩ := hreads us List.mem_cons_self
    refine ⟨[e], .last hwritten, fun n fuel r rest hn hfuel hr => ?_⟩
    have hpos := List.length_pos_iff.mpr hwritten.nonempty
    obtain ⟨fuel, rfl⟩ : ∃ k, fuel = k + 1 := ⟨fuel - 1, by omega⟩
    rw [items, hread n _ hn (hclose.closes hr)]
    simp [hr]
  | @more c us vs ts uss hc h ih =>
    obtain ⟨k, e, hwritten, hread⟩ := hreads us List.mem_cons_self
    obtain ⟨es, hitems, hrest⟩ := ih (List.cons_ne_nil _ _)
      fun us hus => hreads us (List.mem_cons_of_mem _ hus)
    refine ⟨e :: es, .more hwritten hc hitems, fun n fuel r rest hn hfuel hr => ?_⟩
    rw [List.length_append, List.length_cons] at hn hfuel
    obtain ⟨fuel, rfl⟩ : ∃ k, fuel = k + 1 := ⟨fuel - 1, by omega⟩
    rw [List.append_assoc, List.cons_append, items, hread n _ (by omega) (closes_comma hc)]
    simp [hc, hclose.ne_comma, hrest n fuel r rest (by omega) (by omega) hr]

theorem enclosed_spec (hclose : Bracket close) (h : Token.Separated uss ts)
    (hreads : ∀ us ∈ uss, Reads us) :
    ∃ es, WrittenList es ts ∧ ∀ n r rest, ts.length ≤ n → r.tag = close →
      enclosed (expression? n) close (ts ++ r :: rest) = some (es, rest) := by
  cases uss with
  | nil =>
    cases h
    refine ⟨[], .inl ⟨rfl, rfl⟩, fun n r rest _ hr => ?_⟩
    rw [List.nil_append, enclosed, if_pos hr]
  | cons vs uss =>
    obtain ⟨es, hwritten, hread⟩ := items_spec hclose h (List.cons_ne_nil _ _) hreads
    obtain ⟨k, e, hfirst, -⟩ := hreads vs List.mem_cons_self
    obtain ⟨t, ts', rfl, ht⟩ : ∃ t ts', ts = t :: ts' ∧ t.tag ≠ close := by
      obtain ⟨t, vs', rfl⟩ := List.exists_cons_of_ne_nil hfirst.nonempty
      cases h with
      | last => exact ⟨t, vs', rfl, hclose.not_head hfirst⟩
      | more => exact ⟨t, _, List.cons_append, hclose.not_head hfirst⟩
    refine ⟨es, .inr hwritten, fun n r rest hn hr => ?_⟩
    rw [List.cons_append, enclosed, if_neg ht, ← List.cons_append]
    exact hread n _ r rest hn (by simp) hr

theorem arguments_of_uncalled {read : Nat → Reader Expr} (h : Uncalled ts) :
    arguments read ts = some (none, ts) := by
  cases ts with
  | nil => rfl
  | cons t ts => rw [arguments, if_neg (h t rfl)]

/-- What stands in parentheses are the arguments. -/
theorem arguments_spec {l : Token} (hl : l.tag = .leftParen) (h : Token.Separated uss ts)
    (hreads : ∀ us ∈ uss, Reads us) (hr : r.tag = .rightParen) :
    ∃ es, WrittenList es ts ∧ ∀ n rest, ts.length ≤ n →
      arguments (expression? n) (l :: (ts ++ [r]) ++ rest) = some (some es, rest) := by
  obtain ⟨es, hwritten, hread⟩ := enclosed_spec (.inl rfl) h hreads
  refine ⟨es, hwritten, fun n rest hn => ?_⟩
  rw [List.cons_append, List.append_assoc, arguments, if_pos hl, List.singleton_append,
    hread n r rest hn hr]
  rfl

end

/-! ### Operands -/

/-- The tokens are an operand that takes no prefix operator: they are read as an expression that
they derive, and then the reader goes on with the fields and calls behind it. -/
def Primary (us : List Token) : Prop :=
  ∃ e, Written (lineOf us) 7 e us ∧ ∀ n rest r, us.length ≤ n + 1 → Uncalled rest →
    (∀ fuel, rest.length ≤ fuel → members (expression? n) (lineOf us) fuel e rest = some r) →
    operand (expression? n) (us ++ rest) = some r

/-- What is read first goes on with the members behind it. -/
theorem Primary.of_primary {t : Token} {us : List Token} {e : Expr} (ht : t.isPrefix = false)
    (hwritten : Written t.line 7 e (t :: us))
    (hread : ∀ n rest, us.length ≤ n → Uncalled rest →
      primary (expression? n) (t :: (us ++ rest)) = some (e, rest)) : Primary (t :: us) := by
  refine ⟨e, hwritten, fun n rest r hn hrest hmembers => ?_⟩
  rw [List.length_cons] at hn
  rw [List.cons_append, operand, ht, if_neg Bool.false_ne_true, hread n rest (by omega) hrest]
  exact hmembers rest.length (Nat.le_refl _)

/-- A field or a call behind an operand. -/
theorem Primary.member {us ts : List Token} {d x : Token} (args : Option (List Expr))
    (h : ∀ e, Written (lineOf us) 7 e us → Written (lineOf us) 7
      (args.elim (.field (lineOf us) e x.text) (.method (lineOf us) e x.text)) (us ++ d :: x :: ts))
    (hus : Primary us) (hd : d.tag = .dot) (hx : x.tag = .name)
    (hargs : ∀ n rest, ts.length ≤ n → Uncalled rest →
      arguments (expression? n) (ts ++ rest) = some (args, rest)) :
    Primary (us ++ d :: x :: ts) := by
  obtain ⟨e, hwritten, hread⟩ := hus
  have hline := lineOf_append hwritten.nonempty (d :: x :: ts)
  refine ⟨_, hline ▸ h e hwritten, fun n rest r hn hrest hmembers => ?_⟩
  rw [List.length_append, List.length_cons, List.length_cons] at hn
  rw [List.append_assoc]
  refine hread n _ r (by omega) ?_ fun fuel hfuel => ?_
  · intro t ht
    obtain rfl := Option.some.inj ht
    rw [hd]
    decide
  · rw [List.cons_append, List.cons_append, List.length_cons, List.length_cons,
      List.length_append] at hfuel
    obtain ⟨fuel, rfl⟩ : ∃ k, fuel = k + 1 := ⟨fuel - 1, by omega⟩
    rw [List.cons_append, List.cons_append, members, if_pos ⟨hd, hx⟩,
      hargs n rest (by omega) hrest]
    rw [hline] at hmembers
    exact hmembers fuel (by omega)

/-! ### Forms of operands -/

theorem isPrefix_eq_false {t : Token} (h : t.tag ∉ [.term, .negation, .tilde]) :
    t.isPrefix = false := by
  simp only [List.mem_cons, List.not_mem_nil, or_false, not_or] at h
  simp [Token.isPrefix, h]

namespace Primary

variable {l r d x w : Token} {us ts : List Token} {uss : List (List Token)}

/-- A literal is read as what it denotes. -/
theorem literal {t : Token} (hlexical : t.Lexical)
    (ht : t.tag ∈ [.number, .text, .boolean, .null, .thisWord, .superWord]) : Primary [t] := by
  simp only [List.mem_cons, List.not_mem_nil, or_false] at ht
  obtain ⟨e, he⟩ : ∃ e, (ofToken t false).literal? = some e := by
    rw [← Option.isSome_iff_exists, literal?, tag_ofToken, text_ofToken]
    rcases ht with ht | ht | ht | ht | ht | ht <;> rw [ht]
    · simpa using hlexical.readable ht
    all_goals rfl
  refine .of_primary (isPrefix_eq_false ?_) (.literal he) fun n rest _ _ => ?_
  · rcases ht with ht | ht | ht | ht | ht | ht <;> rw [ht] <;> decide
  · rw [primary]
    rcases ht with ht | ht | ht | ht | ht | ht <;> simp [ht, he]

theorem name (hx : x.tag = .name) : Primary [x] := by
  refine .of_primary (isPrefix_eq_false (by rw [hx]; decide)) (.variable hx)
    fun n rest _ hrest => ?_
  rw [List.nil_append, primary]
  simp only [hx, arguments_of_uncalled hrest]
  rfl

theorem group (hl : l.tag = .leftParen) (h : Reads ts) (hr : r.tag = .rightParen) :
    Primary (l :: (ts ++ [r])) := by
  obtain ⟨k, e, hwritten, hread⟩ := h
  refine .of_primary (isPrefix_eq_false (by rw [hl]; decide)) (.group hl hwritten hr)
    fun n rest hn _ => ?_
  have hcloses : Closes (r :: rest) := by
    rw [closes_cons, hr]
    decide
  rw [List.length_append, List.length_singleton] at hn
  rw [primary, List.append_assoc, List.singleton_append]
  simp only [hl, hread n _ (by omega) hcloses]
  simp [token, hr]

theorem list (hl : l.tag = .leftBracket) (hts : Token.Separated uss ts) (h : ∀ us ∈ uss, Reads us)
    (hr : r.tag = .rightBracket) : Primary (l :: (ts ++ [r])) := by
  obtain ⟨es, hwritten, hread⟩ := enclosed_spec (.inr rfl) hts h
  refine .of_primary (isPrefix_eq_false (by rw [hl]; decide)) (.list hl hwritten hr)
    fun n rest hn _ => ?_
  rw [List.length_append, List.length_singleton] at hn
  rw [primary, List.append_assoc, List.singleton_append]
  simp only [hl, hread n r rest (by omega) hr]
  rfl

theorem call (hx : x.tag = .name) (hl : l.tag = .leftParen) (hts : Token.Separated uss ts)
    (h : ∀ us ∈ uss, Reads us) (hr : r.tag = .rightParen) : Primary (x :: l :: (ts ++ [r])) := by
  obtain ⟨es, hwritten, hread⟩ := arguments_spec hl hts h hr
  refine .of_primary (isPrefix_eq_false (by rw [hx]; decide)) (.call hx hl hwritten hr)
    fun n rest hn _ => ?_
  rw [List.length_cons, List.length_append] at hn
  rw [primary]
  simp only [hx, hread n rest (by omega)]
  rfl

theorem create (hw : w.tag = .newWord) (hx : x.tag = .name) (hl : l.tag = .leftParen)
    (hts : Token.Separated uss ts) (h : ∀ us ∈ uss, Reads us) (hr : r.tag = .rightParen) :
    Primary (w :: x :: l :: (ts ++ [r])) := by
  obtain ⟨es, hwritten, hread⟩ := arguments_spec hl hts h hr
  refine .of_primary (isPrefix_eq_false (by rw [hw]; decide)) (.create hw hx hl hwritten hr)
    fun n rest hn _ => ?_
  rw [List.length_cons, List.length_cons, List.length_append] at hn
  have htoken : token .name (x :: (l :: (ts ++ [r]) ++ rest)) =
      some (x, l :: (ts ++ [r]) ++ rest) := if_pos hx
  rw [primary, List.cons_append]
  simp only [hw, htoken, Option.bind_eq_bind, Option.bind_some, hread n rest (by omega)]
  rfl

theorem field (h : Primary us) (hd : d.tag = .dot) (hx : x.tag = .name) : Primary (us ++ [d, x]) :=
  h.member none (fun _ he => he.field hd hx) hd hx fun _ _ _ hrest => arguments_of_uncalled hrest

theorem method (hus : Primary us) (hd : d.tag = .dot) (hx : x.tag = .name)
    (hl : l.tag = .leftParen) (hts : Token.Separated uss ts) (h : ∀ us ∈ uss, Reads us)
    (hr : r.tag = .rightParen) : Primary (us ++ d :: x :: l :: (ts ++ [r])) := by
  obtain ⟨es, hwritten, hread⟩ := arguments_spec hl hts h hr
  refine hus.member (some es) (fun _ he => he.method hd hx hl hwritten hr) hd hx
    fun n rest hn _ => ?_
  rw [List.length_cons, List.length_append] at hn
  exact hread n rest (by omega)

end Primary

theorem members_of_ends {read : Nat → Reader Expr} {rest : List Token} (h : Ends rest)
    (line fuel : Nat) (e : Expr) : members read line fuel e rest = some (e, rest) := by
  cases fuel with
  | zero => rfl
  | succ fuel =>
    match rest, h with
    | [], _ => rfl
    | [t], _ => rfl
    | d :: x :: ts, h => rw [members, if_neg fun hd => (h d rfl).2 hd.1]

/-- An operand is read up to where it ends. -/
theorem Primary.read {us : List Token} (h : Primary us) : ∃ e, Written (lineOf us) 7 e us ∧
    ∀ n rest, us.length ≤ n + 1 → Ends rest →
      operand (expression? n) (us ++ rest) = some (e, rest) := by
  obtain ⟨e, hwritten, hread⟩ := h
  exact ⟨e, hwritten, fun n rest hn hrest =>
    hread n rest _ hn hrest.uncalled fun fuel _ => members_of_ends hrest _ fuel e⟩

/-! ### Operators -/

theorem operators_of_closes {read : Nat → Reader Expr} {rest : List Token} (h : Closes rest)
    (least line fuel : Nat) (e : Expr) :
    operators read least line fuel e rest = some (e, rest) := by
  cases fuel with
  | zero => rfl
  | succ fuel =>
    cases rest with
    | nil => rfl
    | cons o rest => rw [operators, (h o rfl).2.2]

section

variable {t : Tag} {p q : Operator}

theorem one_le_level (h : t.operator? = some p) : 1 ≤ p.level := by
  cases t <;> cases h <;> decide

theorem right_le (h : t.operator? = some p) : p.right ≤ 5 := by
  cases t <;> cases h <;> decide

theorem left_le (h : t.operator? = some p) : p.left ≤ 7 := by
  cases t <;> cases h <;> decide

/-- An operator that a prefix operator does not reach takes it as its left operand. -/
theorem left_le_prefix (h : t.operator? = some p) (hp : p.level < 5) : p.left ≤ 5 := by
  cases t <;> cases h <;> revert hp <;> decide

/-- An operator that a right operand does not reach takes the operation as its left operand. -/
theorem left_le_level {u : Tag} (hq : u.operator? = some q) (hp : t.operator? = some p)
    (h : q.level < p.right) : q.left ≤ p.level := by
  cases t <;> cases hp <;> cases u <;> cases hq <;> revert h <;> decide

end

/-- Operands with operators before and between them. -/
inductive Chain : List Token → Prop
  | last {us : List Token} (hus : Primary us) : Chain us
  | unary {o : Token} {ts : List Token} (ho : o.isPrefix = true) (h : Chain ts) : Chain (o :: ts)
  | binary {o : Token} {us vs : List Token} {p : Operator} (hus : Primary us)
    (ho : o.tag.operator? = some p) (hvs : Chain vs) : Chain (us ++ o :: vs)

/-- Nothing, or an operator of one of these levels and what is behind it. -/
inductive Tail (P : Operator → Prop) : List Token → Prop
  | nil : Tail P []
  | cons {o : Token} {p : Operator} {vs : List Token} (ho : o.tag.operator? = some p) (hp : P p)
    (hvs : Chain vs) : Tail P (o :: vs)

theorem Tail.mono {P P' : Operator → Prop} {ts : List Token} (h : Tail P ts)
    (hP : ∀ t p, Tag.operator? t = some p → P p → P' p) : Tail P' ts := by
  cases h with
  | nil => exact .nil
  | cons ho hp hvs => exact .cons ho (hP _ _ ho hp) hvs

/-- An operand ends before an operator. -/
theorem ends_of_operator {o : Token} {p : Operator} (ho : o.tag.operator? = some p)
    (ts : List Token) : Ends (o :: ts) := by
  intro t ht
  obtain rfl := Option.some.inj ht
  constructor <;> intro h <;> rw [h] at ho <;> cases ho

/-- The first tokens derive an expression of a level that is not below `least`, and an operator of a
lower level is next. -/
structure Climbed (least line : Nat) (e : Expr) (ts ws : List Token) : Prop where
  written : ∃ k vs, least ≤ k ∧ Written line k e vs ∧ ts = vs ++ ws
  tail : Tail (·.level < least) ws

/-- Chains that are not longer than this are read as what they derive. -/
def Climbs (bound : Nat) : Prop :=
  ∀ ts least, ts.length ≤ bound → Chain ts → least ≤ 5 → ∃ e ws,
    Climbed least (lineOf ts) e ts ws ∧ ∀ n rest, ts.length ≤ n → Closes rest →
      expression? n least (ts ++ rest) = some (e, ws ++ rest)

/-- Behind what is read already, operators are taken as far as the level allows. -/
theorem operators_spec {bound least line : Nat} (hbound : Climbs bound) (size : Nat) {left : Expr}
    {j : Nat} {vs ws : List Token} (hleft : Written line j left vs) (hj : least ≤ j)
    (hws : ws.length ≤ bound + 1) (hsize : ws.length ≤ size) (htail : Tail (·.left ≤ j) ws) :
    ∃ e ws', Climbed least line e (vs ++ ws) ws' ∧ ∀ n fuel rest, ws.length ≤ n + 1 →
      ws.length ≤ fuel → Closes rest →
      operators (expression? n) least line fuel left (ws ++ rest) = some (e, ws' ++ rest) := by
  induction size generalizing left j vs ws with
  | zero =>
    obtain rfl := List.eq_nil_of_length_eq_zero (Nat.le_zero.mp hsize)
    exact ⟨left, [], ⟨⟨j, vs, hj, hleft, rfl⟩, .nil⟩, fun n fuel rest _ _ hrest =>
      operators_of_closes hrest least line fuel left⟩
  | succ size ih =>
    cases htail with
    | nil =>
      exact ⟨left, [], ⟨⟨j, vs, hj, hleft, rfl⟩, .nil⟩, fun n fuel rest _ _ hrest =>
        operators_of_closes hrest least line fuel left⟩
    | @cons o p us ho hp hus =>
      rw [List.length_cons] at hws hsize
      by_cases hlevel : least ≤ p.level
      · obtain ⟨right, ws, ⟨⟨k, us', hk, hright, rfl⟩, htail⟩, hread⟩ :=
          hbound us p.right (by omega) hus (right_le ho)
        have hbinary := hleft.binary ho hp hright hk
        rw [List.length_append] at hws hsize
        obtain ⟨e, ws', hclimbed, hoperators⟩ := ih hbinary hlevel (by omega) (by omega)
          (htail.mono fun t q hq h => left_le_level hq ho h)
        refine ⟨e, ws', by simpa using hclimbed, fun n fuel rest hn hfuel hrest => ?_⟩
        rw [List.length_cons, List.length_append] at hn hfuel
        obtain ⟨fuel, rfl⟩ : ∃ k, fuel = k + 1 := ⟨fuel - 1, by omega⟩
        rw [List.cons_append, operators, ho]
        dsimp only
        rw [if_pos hlevel, hread n rest (by simp; omega) hrest]
        exact hoperators n fuel rest (by omega) (by omega) hrest
      · refine ⟨left, o :: us, ⟨⟨j, vs, hj, hleft, rfl⟩,
          .cons ho (Nat.lt_of_not_le hlevel) hus⟩, fun n fuel rest _ hfuel _ => ?_⟩
        obtain ⟨fuel, rfl⟩ : ∃ k, fuel = k + 1 := ⟨fuel - 1, by simp at hfuel; omega⟩
        rw [List.cons_append, operators, ho]
        dsimp only
        rw [if_neg hlevel]

/-- An operand is read, and then the operators behind it. -/
theorem climb_of_operand {bound least j : Nat} {e : Expr} {t : Token} {ts vs ws : List Token}
    (hbound : Climbs bound) (hts : t :: ts = vs ++ ws) (hlength : ts.length ≤ bound)
    (hoperand : ∀ n rest, ts.length ≤ n → Closes rest →
      operand (expression? n) (t :: (ts ++ rest)) = some (e, ws ++ rest))
    (hwritten : Written t.line j e vs) (hj : least ≤ j) (htail : Tail (·.left ≤ j) ws) :
    ∃ e ws, Climbed least t.line e (t :: ts) ws ∧ ∀ n rest, (t :: ts).length ≤ n → Closes rest →
      expression? n least (t :: ts ++ rest) = some (e, ws ++ rest) := by
  have hlengths := congrArg List.length hts
  rw [List.length_cons, List.length_append] at hlengths
  obtain ⟨e', ws', hclimbed, hoperators⟩ := operators_spec hbound ws.length hwritten hj (by omega)
    (Nat.le_refl _) htail
  refine ⟨e', ws', hts ▸ hclimbed, fun n rest hn hrest => ?_⟩
  rw [List.length_cons] at hn
  obtain ⟨n, rfl⟩ : ∃ k, n = k + 1 := ⟨n - 1, by omega⟩
  rw [List.cons_append, expression?, climb, hoperand n rest (by omega) hrest]
  exact hoperators n _ rest (by omega) (by simp) hrest

theorem isPrefix_iff {o : Token} : o.isPrefix = true ↔ (ofToken o false).IsPrefix := by
  simp [Token.isPrefix, IsPrefix, or_assoc]

/-- Every chain is read as what it derives. -/
theorem climbs (bound : Nat) : Climbs bound := by
  induction bound with
  | zero =>
    intro ts least hlength hts
    obtain rfl := List.eq_nil_of_length_eq_zero (Nat.le_zero.mp hlength)
    generalize hnil : ([] : List Token) = ts at hts
    cases hts with
    | last hus =>
      obtain ⟨e, hwritten, -⟩ := hus
      exact absurd hnil.symm hwritten.nonempty
    | unary => cases hnil
    | binary => simp at hnil
  | succ bound ih =>
    intro ts least hlength hts hleast
    cases hts with
    | last hus =>
      obtain ⟨e, hwritten, hread⟩ := hus.read
      obtain ⟨t, us, rfl⟩ := List.exists_cons_of_ne_nil hwritten.nonempty
      rw [List.length_cons] at hlength
      exact climb_of_operand ih (List.append_nil (t :: us)).symm (by omega)
        (fun n rest hn hrest => hread n rest (by simp; omega) hrest.ends) hwritten (by omega) .nil
    | @unary o ts ho h =>
      rw [List.length_cons] at hlength
      obtain ⟨e, ws, ⟨⟨k, vs, hk, hwritten, rfl⟩, htail⟩, hread⟩ :=
        ih ts 5 (by omega) h (Nat.le_refl 5)
      refine climb_of_operand ih List.cons_append.symm (by omega) (fun n rest hn hrest => ?_)
        (hwritten.unary (isPrefix_iff.mp ho) hk) hleast (htail.mono fun t p => left_le_prefix)
      rw [operand, if_pos ho, hread n rest hn hrest]
      rfl
    | @binary o us vs p hus ho hvs =>
      obtain ⟨e, hwritten, hread⟩ := hus.read
      obtain ⟨t, us, rfl⟩ := List.exists_cons_of_ne_nil hwritten.nonempty
      rw [List.length_append, List.length_cons, List.length_cons] at hlength
      rw [List.cons_append]
      refine climb_of_operand ih List.cons_append.symm (by simp; omega) (fun n rest hn hrest => ?_)
        hwritten (by omega) (.cons ho (left_le ho) hvs)
      rw [List.length_append, List.length_cons] at hn
      have hoperand := hread n (o :: vs ++ rest) (by simp; omega) (ends_of_operator ho _)
      rwa [← List.append_assoc] at hoperand

/-- A chain is read as an expression. -/
theorem Chain.reads {ts : List Token} (h : Chain ts) : Reads ts := by
  obtain ⟨e, ws, ⟨⟨k, vs, -, hwritten, rfl⟩, htail⟩, hread⟩ :=
    climbs ts.length ts 1 (Nat.le_refl _) h (by decide)
  cases htail with
  | nil =>
    rw [List.append_nil] at hread ⊢
    exact ⟨k, e, by simpa using hwritten, hread⟩
  | cons ho hp => exact absurd (one_le_level ho) (Nat.not_le_of_lt hp)

/-! ### Every expression is a chain -/

/-- A field or a call behind a chain is one behind its last operand. -/
theorem Chain.extend {ts ws : List Token} (h : Chain ts)
    (hws : ∀ us, Primary us → Primary (us ++ ws)) : Chain (ts ++ ws) := by
  induction h with
  | last hus => exact .last (hws _ hus)
  | unary ho _ ih => exact .unary ho ih
  | binary hus ho _ ih =>
    rw [List.append_assoc, List.cons_append]
    exact .binary hus ho ih

/-- Chains with an operator between them. -/
theorem Chain.join {o : Token} {p : Operator} {us vs : List Token} (hus : Chain us)
    (ho : o.tag.operator? = some p) (hvs : Chain vs) : Chain (us ++ o :: vs) := by
  induction hus with
  | last hus => exact .binary hus ho hvs
  | unary ho' _ ih => exact .unary ho' ih
  | binary hus ho' _ ih =>
    rw [List.append_assoc, List.cons_append]
    exact .binary hus ho' ih

end Climbing

namespace Token

open Climbing

theorem Separated.subset {uss : List (List Token)} {us ts : List Token} (h : Separated uss ts)
    (hus : us ∈ uss) : us ⊆ ts := by
  induction h with
  | none => cases hus
  | last =>
    rw [List.mem_singleton.mp hus]
    exact List.Subset.refl _
  | more _ _ ih =>
    rcases List.mem_cons.mp hus with rfl | hus
    · exact List.subset_append_left _ _
    · exact List.subset_append_of_subset_right _ (List.subset_cons_of_subset _ (ih hus))

/-- Whatever is written as an expression is operands with operators before and between them. -/
theorem Expression.chain {ts : List Token} (h : Expression ts) (hlexical : ∀ t ∈ ts, t.Lexical) :
    Chain ts := by
  have hreads : ∀ {uss : List (List Token)} {ts : List Token}, Separated uss ts →
      (∀ us ∈ uss, (∀ t ∈ us, t.Lexical) → Chain us) → (∀ t ∈ ts, t.Lexical) →
      ∀ us ∈ uss, Reads us := fun hts ih hts' us hus =>
    (ih us hus fun t ht => hts' t (hts.subset hus ht)).reads
  induction h with
  | literal ht => exact .last (.literal (hlexical _ List.mem_cons_self) ht)
  | name hx => exact .last (.name hx)
  | group hl h hr ih => exact .last (.group hl (ih fun t ht => hlexical t (by simp [ht])).reads hr)
  | list hl hts h hr ih =>
    exact .last (.list hl hts (hreads hts ih fun t ht => hlexical t (by simp [ht])) hr)
  | call hx hl hts h hr ih =>
    exact .last (.call hx hl hts (hreads hts ih fun t ht => hlexical t (by simp [ht])) hr)
  | create hw hx hl hts h hr ih =>
    exact .last (.create hw hx hl hts (hreads hts ih fun t ht => hlexical t (by simp [ht])) hr)
  | field h hd hx ih =>
    exact (ih fun t ht => hlexical t (by simp [ht])).extend fun us hus => hus.field hd hx
  | method hus hd hx hl hts h hr ihus ih =>
    have hargs := hreads hts ih fun t ht => hlexical t (by simp [ht])
    exact (ihus fun t ht => hlexical t (by simp [ht])).extend
      fun us hus => hus.method hd hx hl hts hargs hr
  | unary ho h ih => exact .unary ho (ih fun t ht => hlexical t (List.mem_cons_of_mem _ ht))
  | binary hus ho hvs ihus ihvs =>
    obtain ⟨p, hp⟩ := Option.isSome_iff_exists.mp ho
    exact (ihus fun t ht => hlexical t (by simp [ht])).join hp
      (ihvs fun t ht => hlexical t (by simp [ht]))

/-- Whatever is written as an expression is read to its end, and its tokens derive what is read. -/
theorem Expression.climbs {ts : List Token} (h : Expression ts) (hlexical : ∀ t ∈ ts, t.Lexical) :
    ∃ line k e, Climbing.parse ts = some e ∧ Written line k e ts := by
  obtain ⟨k, e, hwritten, hread⟩ := (h.chain hlexical).reads
  have hread := hread ts.length [] (Nat.le_refl _) .nil
  rw [List.append_nil] at hread
  refine ⟨_, k, e, ?_, hwritten⟩
  rw [Climbing.parse, hread]

end Token

end StackScript
