import StackScript.Proofs.Lexed
import StackScript.Proofs.Shapes

/-!
# StackScript.Proofs.Making — what a rule makes of the symbols it matches

Nothing is assumed of a source here but that it lexes, so symbols can stand in any order and may
come to nothing.  Still each symbol is a token of the lexer or stands for a fragment of the kind that
its tag promises.  For such symbols `Rule.Makes` says, one case for each form of a rule, what the
rule builds of a match: the fragment, how many new nodes, and what is reported.
-/

namespace StackScript

/-! ### Symbols -/

/-- The tag of a symbol that stands for this. -/
def Fragment.tag : Fragment → Tag
  | value _ => .expression
  | program _ => .program
  | assignmentHead .. => .assignmentHead
  | callHead .. => .callHead
  | newHead .. => .newHead
  | functionHead .. => .functionHead
  | classHead .. => .classHead

theorem Fragment.tag_mem_results (f : Fragment) : f.tag ∈ Rule.results := by
  cases f <;> simp only [Fragment.tag] <;> decide

namespace Symbol

variable {s : Symbol} {f : Fragment} {t : Tag}

/-- A token with one of these tags. -/
structure Among (s : Symbol) (of : List Tag) : Prop where
  mem : s.tag ∈ of
  fragment_eq : s.fragment = none

/-- A token with this tag. -/
structure Is (s : Symbol) (t : Tag) : Prop where
  tag_eq : s.tag = t
  fragment_eq : s.fragment = none

/-- The symbol stands for this. -/
structure Bears (s : Symbol) (f : Fragment) : Prop where
  tag_eq : s.tag = f.tag
  fragment_eq : s.fragment = some f

/-- A lexical token, or a symbol that stands for what its tag says. -/
def Sound (s : Symbol) : Prop := s.fragment = none ∧ s.toToken.Lexical ∨ ∃ f, s.Bears f

theorem Bears.expr? {e : Expr} (h : s.Bears (.value e)) : s.expr? = some e := by
  rw [Symbol.expr?, h.fragment_eq]

theorem Bears.program? {p : Program} (h : s.Bears (.program p)) : s.program? = some p := by
  rw [Symbol.program?, h.fragment_eq]

theorem expr?_of_fragment (h : s.fragment = none) : s.expr? = none := by
  rw [Symbol.expr?, h]

theorem program?_of_fragment (h : s.fragment = none) : s.program? = none := by
  rw [Symbol.program?, h]

namespace Sound

/-- With a tag of the lexer it is a token. -/
theorem fragment_eq (h : s.Sound) (hs : s.tag ∉ Rule.results) : s.fragment = none := by
  rcases h with ⟨hnone, -⟩ | ⟨f, hf⟩
  · exact hnone
  · exact absurd (hf.tag_eq ▸ f.tag_mem_results) hs

/-- With a tag of a reduction it stands for something. -/
theorem bears (h : s.Sound) (hs : s.tag ∈ Rule.results) : ∃ f, s.Bears f ∧ f.tag = s.tag := by
  rcases h with ⟨-, hs'⟩ | ⟨f, hf⟩
  · exact absurd hs hs'.not_result
  · exact ⟨f, hf, hf.tag_eq.symm⟩

theorem value (h : s.Sound) (hs : s.tag = .expression) : ∃ e, s.Bears (.value e) := by
  obtain ⟨f, hf, htag⟩ := h.bears (hs ▸ by decide)
  rw [hs] at htag
  cases f <;> cases htag
  exact ⟨_, hf⟩

theorem program (h : s.Sound) (hs : s.tag = .program) : ∃ p, s.Bears (.program p) := by
  obtain ⟨f, hf, htag⟩ := h.bears (hs ▸ by decide)
  rw [hs] at htag
  cases f <;> cases htag
  exact ⟨_, hf⟩

theorem literal (h : s.Sound)
    (hs : s.tag ∈ [Tag.number, .text, .boolean, .null, .thisWord, .superWord]) :
    s.fragment = none ∧ ∃ e, Leaf.literal? ⟨s, false⟩ = some e := by
  rcases h with ⟨hnone, hs'⟩ | ⟨f, hf⟩
  · refine ⟨hnone, ?_⟩
    have hreadable := hs'.readable
    simp only [List.mem_cons, List.not_mem_nil, or_false] at hs
    rcases hs with hs | hs | hs | hs | hs | hs <;> rw [Leaf.literal?, Leaf.tag, hs]
    case inl =>
      obtain ⟨d, hd⟩ := Option.isSome_iff_exists.mp (hreadable hs)
      exact ⟨_, congrArg (Option.map _) hd⟩
    all_goals exact ⟨_, rfl⟩
  · rw [hf.tag_eq] at hs
    cases f <;> simp [Fragment.tag] at hs

end Sound

/-- A token among others, or an expression. -/
def Item (of : List Tag) (s : Symbol) : Prop := s.Among of ∨ ∃ e, s.Bears (.value e)

/-- A token among others, or a program. -/
def Part (of : List Tag) (s : Symbol) : Prop := s.Among of ∨ ∃ p, s.Bears (.program p)

end Symbol

/-! ### Matches -/

/-- The head of a declaration: its line, and the statement that it makes with a body. -/
def Fragment.declared? : Fragment → Option (Nat × (Block → Stmt))
  | functionHead line name params => some (line, .function line name params)
  | classHead line name parent => some (line, .classDecl line name parent)
  | _ => none

/-- What stands in braces, closing one included: the block, and how many nodes are new in it. -/
inductive Rule.Body (line : Nat) : List Symbol → Block → Nat → Prop
  | empty {z : Symbol} (hz : z.Is .rightBrace) : Body line [z] (.mk line []) 1
  | program {s z : Symbol} {p : Program} (hs : s.Bears (.program p)) (hz : z.Is .rightBrace) :
    Body line [s, z] p.toBlock p.wrappers

/-- What a rule makes of a match: the fragment, how many nodes are new, and what is reported. -/
inductive Rule.Makes : Rule → List Symbol → Fragment → Nat → List Diagnostic → Prop
  | literal {l : Symbol} {e : Expr} (hl : l.fragment = none)
    (he : Leaf.literal? ⟨l, false⟩ = some e) : Makes .literal [l] (.value e) 1 []
  | assignmentHead {x s : Symbol} (hx : x.Is .name) (hs : s.Is .equals) :
    Makes .assignmentHead [x, s] (.assignmentHead x.line false none x.text) 1 []
  | declaringHead {v x s : Symbol} (hv : v.Is .varWord) (hx : x.Is .name) (hs : s.Is .equals) :
    Makes .assignmentHead [v, x, s] (.assignmentHead v.line true none x.text) 1 []
  | declaration {v x : Symbol} (hv : v.Is .varWord) (hx : x.Is .name) :
    Makes .declaration [v, x] (.program (.single (.declare v.line x.text none none))) 1 []
  | functionHead {w x : Symbol} {ms : List Symbol} (hw : w.Is .funcWord) (hx : x.Is .name)
    (hms : ∀ s ∈ ms, s.Among [.name, .comma, .leftParen, .rightParen, .leftBrace]) :
    Makes .functionHead (w :: x :: ms)
      (.functionHead w.line x.text ((ms.filter (·.tag = .name)).map (·.text))) 2 []
  | classHead {w x b : Symbol} (hw : w.Is .classWord) (hx : x.Is .name) (hb : b.Is .leftBrace) :
    Makes .classHead [w, x, b] (.classHead w.line x.text none) 2 []
  | extendingHead {w x v y b : Symbol} (hw : w.Is .classWord) (hx : x.Is .name)
    (hv : v.Is .extendsWord) (hy : y.Is .name) (hb : b.Is .leftBrace) :
    Makes .classHead [w, x, v, y, b] (.classHead w.line x.text (some y.text)) 2 []
  | newHead {w x l : Symbol} (hw : w.Is .newWord) (hx : x.Is .name) (hl : l.Is .leftParen) :
    Makes .newHead [w, x, l] (.newHead w.line x.text) 1 []
  | methodHead {a d x l : Symbol} {e : Expr} (ha : a.Bears (.value e)) (hd : d.Is .dot)
    (hx : x.Is .name) (hl : l.Is .leftParen) :
    Makes .methodHead [a, d, x, l] (.callHead a.line (some e) x.text) 1 []
  | fieldAssignmentHead {a d x s : Symbol} {e : Expr} (ha : a.Bears (.value e)) (hd : d.Is .dot)
    (hx : x.Is .name) (hs : s.Is .equals) :
    Makes .fieldAssignmentHead [a, d, x, s] (.assignmentHead a.line false (some e) x.text) 1 []
  | field {a d x : Symbol} {e : Expr} (ha : a.Bears (.value e)) (hd : d.Is .dot)
    (hx : x.Is .name) : Makes .field [a, d, x] (.value (.field a.line e x.text)) 1 []
  | callHead {x l : Symbol} (hx : x.Is .name) (hl : l.Is .leftParen) :
    Makes .callHead [x, l] (.callHead x.line none x.text) 1 []
  | variable {x : Symbol} (hx : x.Is .name) :
    Makes .variable [x] (.value (.variable x.line x.text none)) 1 []
  | list {l : Symbol} {ms : List Symbol} (hl : l.Is .leftBracket)
    (hms : ∀ s ∈ ms, s.Item [.comma, .rightBracket]) :
    Makes .list (l :: ms) (.value (.list l.line (Matched.exprs ms))) 1 []
  | map {l : Symbol} {ms : List Symbol} (hl : l.Is .leftBrace)
    (hms : ∀ s ∈ ms, s.Item [.comma, .colon, .rightBrace])
    (heven : (Matched.exprs ms).length % 2 = 0) :
    Makes .map (l :: ms) (.value (.map l.line (pairsOf (Matched.exprs ms)))) 1 []
  | group {l a r : Symbol} {e : Expr} (hl : l.Is .leftParen) (ha : a.Bears (.value e))
    (hr : r.Is .rightParen) : Makes .group [l, a, r] (.value e) 0 []
  | unary {o a : Symbol} {e : Expr} (ho : o.Among [.term, .negation, .tilde])
    (ha : a.Bears (.value e)) :
    Makes .unary [o, a] (.value (.unary o.line (Leaf.unaryOp ⟨o, false⟩) e)) 1 []
  | binary {r : Rule} {p : Operator} {a o b : Symbol} {e e' : Expr} (ha : a.Bears (.value e))
    (ho : o.tag.operator? = some p) (hr : p.rule = r) (hnone : o.fragment = none)
    (hb : b.Bears (.value e')) :
    Makes r [a, o, b] (.value (.binary a.line (Leaf.binaryOp ⟨o, false⟩) e e' none)) 1 []
  | arguments {a : Symbol} {ms : List Symbol} {f : Fragment} {e : Expr}
    (ht : a.tag = .callHead ∨ a.tag = .newHead) (ha : a.fragment = some f)
    (hms : ∀ s ∈ ms, s.Item [.comma, .rightParen])
    (he : f.applied? (Matched.exprs ms) = some e) : Makes .arguments (a :: ms) (.value e) 0 []
  | jump {w : Symbol} (hw : w.Among [.continueWord, .breakWord]) :
    Makes .jump [w] (.program (.single
      (if w.tag = .breakWord then .breaks w.line else .continues w.line))) 1 []
  | print {w a : Symbol} {e : Expr} (hw : w.Is .printWord) (ha : a.Bears (.value e)) :
    Makes .print [w, a] (.program (.single (.print w.line e))) 1 []
  | returnsBare {w : Symbol} (hw : w.Is .returnWord) :
    Makes .returns [w] (.program (.single (.returns w.line none))) 1 []
  | returns {w a : Symbol} {e : Expr} (hw : w.Is .returnWord) (ha : a.Bears (.value e)) :
    Makes .returns [w, a] (.program (.single (.returns w.line (some e)))) 1 []
  | assignment {a b : Symbol} {f : Fragment} {e : Expr} {s : Stmt} (ha : a.Bears f)
    (hb : b.Bears (.value e)) (hs : f.assigned? e = some s) :
    Makes .assignment [a, b] (.program (.single s)) 0 []
  | branch {w a l : Symbol} {ms : List Symbol} {e : Expr} {b : Block} {n : Nat}
    (hw : w.Is .ifWord) (ha : a.Bears (.value e)) (hl : l.Is .leftBrace)
    (hms : Body w.line ms b n) :
    Makes .branch (w :: a :: l :: ms) (.program (.single (.branch w.line e b .nothing))) (n + 1) []
  | elseIf {a o c l : Symbol} {ms : List Symbol} {line : Nat} {e₀ e : Expr} {b₀ b : Block}
    {rest rest' : Rest} {n : Nat} (ha : a.Bears (.program (.single (.branch line e₀ b₀ rest))))
    (ho : o.Is .elseIfWord) (hc : c.Bears (.value e)) (hl : l.Is .leftBrace)
    (hms : Body a.line ms b n) (hrest : rest.attach (.elseIf o.line e b .nothing) = some rest') :
    Makes .elseIf (a :: o :: c :: l :: ms) (.program (.single (.branch line e₀ b₀ rest')))
      (n + 1) []
  | otherwise {a o l : Symbol} {ms : List Symbol} {line : Nat} {e₀ : Expr} {b₀ b : Block}
    {rest rest' : Rest} {n : Nat} (ha : a.Bears (.program (.single (.branch line e₀ b₀ rest))))
    (ho : o.Is .elseWord) (hl : l.Is .leftBrace) (hms : Body a.line ms b n)
    (hrest : rest.attach (.otherwise b) = some rest') :
    Makes .otherwise (a :: o :: l :: ms) (.program (.single (.branch line e₀ b₀ rest'))) n []
  /-- a branch after what is no chain -/
  | stray {r : Rule} {a o : Symbol} {ms : List Symbol} {p : Program}
    (hr : r = .elseIf ∨ r = .otherwise) (ha : a.Bears (.program p))
    (hp : ∀ line e b rest, p ≠ .single (.branch line e b rest)) :
    Makes r (a :: o :: ms) (.program p) 0 [.danglingElse o.line]
  /-- a branch after a chain that ends in an `else` -/
  | late {r : Rule} {a o : Symbol} {ms : List Symbol} {line : Nat} {e : Expr} {b : Block}
    {rest : Rest} (hr : r = .elseIf ∨ r = .otherwise)
    (ha : a.Bears (.program (.single (.branch line e b rest))))
    (hrest : rest.attach .nothing = none) :
    Makes r (a :: o :: ms) (.program (.single (.branch line e b rest))) 0
      [if r = .elseIf then .elseIfAfterElse o.line else .danglingElse o.line]
  | loop {w a l : Symbol} {ms : List Symbol} {e : Expr} {b : Block} {n : Nat}
    (hw : w.Is .whileWord) (ha : a.Bears (.value e)) (hl : l.Is .leftBrace)
    (hms : Body w.line ms b n) :
    Makes .loop (w :: a :: l :: ms) (.program (.single (.loop w.line e b))) (n + 1) []
  | closeEmpty {r : Rule} {a z : Symbol} {f : Fragment} {line : Nat} {make : Block → Stmt}
    (hr : r = .functionEnd ∨ r = .classEnd) (ha : a.Bears f)
    (hf : f.declared? = some (line, make)) (hz : z.Is .rightBrace) :
    Makes r [a, z] (.program (.single (make (.mk line [])))) 0 []
  | close {r : Rule} {a s z : Symbol} {f : Fragment} {line : Nat} {make : Block → Stmt}
    {p : Program} (hr : r = .functionEnd ∨ r = .classEnd) (ha : a.Bears f)
    (hf : f.declared? = some (line, make)) (hs : s.Bears (.program p)) (hz : z.Is .rightBrace) :
    Makes r [a, s, z] (.program (.single (make p.toBlock))) p.wrappers []
  | sequence {ms : List Symbol} (hms : ∀ s ∈ ms, s.Part [.newline, .semicolon]) :
    Makes .sequence ms (.program (.several
      (.mk (Matched.line ms) ((Matched.programs ms).flatMap Program.statements)))) 1 []
  | trailing {a s : Symbol} {p : Program} (ha : a.Bears (.program p)) (hs : s.Is .semicolon) :
    Makes .trailing [a, s] (.program p) 0 []
  | statement {a : Symbol} {e : Expr} (ha : a.Bears (.value e)) :
    Makes .statement [a] (.program (.single (.value e))) 0 []

/-- A rule makes something of the symbols, of the kind that its result promises. -/
def Rule.Succeeds (r : Rule) (ms : List Symbol) : Prop :=
  ∃ f n ds, r.Makes ms f n ds ∧ f.tag = r.result

/-- Where one branch can be attached, so can any other. -/
theorem Rest.attach_isSome {branch : Rest} (other : Rest) : ∀ {rest new : Rest},
    rest.attach branch = some new → ∃ new', rest.attach other = some new'
  | .nothing, _, _ => ⟨other, rfl⟩
  | .elseIf _ _ _ rest, _, h => by
    obtain ⟨new, hnew, -⟩ := Option.map_eq_some_iff.mp h
    obtain ⟨new', hnew'⟩ := Rest.attach_isSome other hnew
    exact ⟨_, congrArg (Option.map _) hnew'⟩
  | .otherwise _, _, h => by cases h

/-! ### What the patterns of maps and sequences take -/

/-- Marks of a map, and an even number of expressions. -/
def Tag.Entries (ts : List Tag) : Prop :=
  ts.count .expression % 2 = 0 ∧ ∀ t ∈ ts, t ∈ [Tag.comma, .colon, .rightBrace] ∨ t = .expression

theorem Tag.Entries.append {ts us : List Tag} (ht : Tag.Entries ts) (hu : Tag.Entries us) :
    Tag.Entries (ts ++ us) := by
  refine ⟨?_, fun t h => (List.mem_append.mp h).elim (ht.2 t) (hu.2 t)⟩
  rw [List.count_append, Nat.add_mod, ht.1, hu.1]

open Pattern in
/-- The pattern of a map, from behind its opening brace. -/
theorem Rule.yields_entries :
    (andThen (commaList (tags [.expression, .colon, .expression])) (tag .rightBrace)).Yields
      Tag.Entries := by
  have happend : ∀ us vs, Tag.Entries us → Tag.Entries vs → Tag.Entries (us ++ vs) :=
    fun us vs => Tag.Entries.append
  have hnil : Tag.Entries [] := ⟨rfl, by decide⟩
  have hentry : (tags [.expression, .colon, .expression]).Yields Tag.Entries :=
    yields_tags ⟨rfl, by decide⟩
  have hcomma : (tags [.comma]).Yields Tag.Entries := yields_tags ⟨rfl, by decide⟩
  have hbrace : (tags [.rightBrace]).Yields Tag.Entries := yields_tags ⟨rfl, by decide⟩
  exact .andThen happend (.optional hnil (.andThen happend hentry
    (.many hnil happend (.andThen happend hcomma hentry)))) hbrace

open Pattern in
/-- A sequence takes programs and what separates them. -/
theorem Rule.yields_sequence : Rule.sequence.pattern.Yields
    fun ts => ∀ t ∈ ts, t ∈ [Tag.newline, .semicolon] ∨ t = .program := by
  have happend : ∀ us vs : List Tag,
      (∀ t ∈ us, t ∈ [Tag.newline, .semicolon] ∨ t = .program) →
      (∀ t ∈ vs, t ∈ [Tag.newline, .semicolon] ∨ t = .program) →
      ∀ t ∈ us ++ vs, t ∈ [Tag.newline, .semicolon] ∨ t = .program :=
    fun us vs hus hvs t h => (List.mem_append.mp h).elim (hus t) (hvs t)
  have hnil : ∀ t ∈ ([] : List Tag), t ∈ [Tag.newline, .semicolon] ∨ t = .program := by decide
  have hseparator : (one [.newline, .semicolon]).Yields
      fun ts => ∀ t ∈ ts, t ∈ [Tag.newline, .semicolon] ∨ t = .program := by
    intro ts ts' h
    obtain ⟨t, ht, rfl⟩ := rest?_one_iff.mp h
    exact ⟨[t], List.forall_mem_singleton.mpr (.inl ht), rfl⟩
  have hprogram : (tags [.program]).Yields
      fun ts => ∀ t ∈ ts, t ∈ [Tag.newline, .semicolon] ∨ t = .program := yields_tags (by decide)
  have hseparators := Yields.andThen happend hseparator (.many hnil happend hseparator)
  exact .andThen happend hprogram (.andThen happend hseparators (.andThen happend hprogram
    (.many hnil happend (.andThen happend hseparators hprogram))))

/-! ### Symbols with given tags -/

/-- What stands on the left of two related lists has a partner on the right. -/
theorem exists_of_mem_forall₂ {α β : Type} {R : α → β → Prop} {as : List α} {bs : List β} {a : α}
    (h : List.Forall₂ R as bs) (ha : a ∈ as) : ∃ b ∈ bs, R a b := by
  induction h with
  | nil => cases ha
  | cons hr _ ih =>
    rcases List.mem_cons.mp ha with rfl | ha
    · exact ⟨_, List.mem_cons_self, hr⟩
    · obtain ⟨b, hb, hab⟩ := ih ha
      exact ⟨b, List.mem_cons_of_mem _ hb, hab⟩

namespace Symbol

variable {ms : List Symbol} {s : Symbol} {t : Tag} {of : List Tag}

/-- A sound symbol with this tag. -/
def Of (s : Symbol) (t : Tag) : Prop := s.Sound ∧ s.tag = t

theorem Of.is (h : s.Of t) (ht : t ∉ Rule.results) : s.Is t :=
  ⟨h.2, h.1.fragment_eq (h.2 ▸ ht)⟩

theorem Of.value (h : s.Of .expression) : ∃ e, s.Bears (.value e) := h.1.value h.2

theorem Of.program (h : s.Of .program) : ∃ p, s.Bears (.program p) := h.1.program h.2

theorem Of.among (h : s.Of t) (ht : t ∈ of) (hof : ∀ t ∈ of, t ∉ Rule.results) : s.Among of :=
  ⟨h.2 ▸ ht, h.1.fragment_eq (h.2 ▸ hof t ht)⟩

theorem Sound.item (h : s.Sound) (hs : s.tag ∈ of ∨ s.tag = .expression)
    (hof : ∀ t ∈ of, t ∉ Rule.results) : s.Item of := by
  rcases hs with hs | hs
  · exact .inl ⟨hs, h.fragment_eq (hof _ hs)⟩
  · exact .inr (h.value hs)

theorem Sound.part (h : s.Sound) (hs : s.tag ∈ of ∨ s.tag = .program)
    (hof : ∀ t ∈ of, t ∉ Rule.results) : s.Part of := by
  rcases hs with hs | hs
  · exact .inl ⟨hs, h.fragment_eq (hof _ hs)⟩
  · exact .inr (h.program hs)

/-- The expressions of sound symbols are where their tags say. -/
theorem length_exprs (h : ∀ s ∈ ms, s.Sound) :
    (Matched.exprs ms).length = (ms.map (·.tag)).count .expression := by
  induction ms with
  | nil => rfl
  | cons s ms ih =>
    obtain ⟨hs, hms⟩ := List.forall_mem_cons.mp h
    have ih := ih hms
    rw [Matched.exprs] at ih
    rw [Matched.exprs, List.filterMap_cons, List.map_cons, List.count_cons]
    by_cases htag : s.tag = .expression
    · obtain ⟨e, he⟩ := hs.value htag
      rw [he.expr?, if_pos (beq_iff_eq.mpr htag), ← ih]
      rfl
    · have hnone : s.expr? = none := by
        rcases hs with ⟨hs, -⟩ | ⟨f, hf⟩
        · exact expr?_of_fragment hs
        · rw [Symbol.expr?, hf.fragment_eq]
          cases f with
          | value => exact absurd hf.tag_eq htag
          | _ => rfl
      rw [hnone, if_neg (by simpa using htag), ← ih, Nat.add_zero]

end Symbol

namespace Rule

variable {ms : List Symbol} {ts : List Tag} {r : Rule}

theorem Body.of_tags {line : Nat} (h : Tag.Body ts) (hms : List.Forall₂ Symbol.Of ms ts) :
    ∃ b n, Body line ms b n := by
  cases h with
  | empty =>
    obtain - | ⟨hz, ⟨⟩⟩ := hms
    exact ⟨_, _, .empty (hz.is (by decide))⟩
  | program =>
    obtain - | ⟨hs, - | ⟨hz, ⟨⟩⟩⟩ := hms
    obtain ⟨p, hp⟩ := hs.program
    exact ⟨_, _, .program hp (hz.is (by decide))⟩

/-- The tags of a series, and of what stands after it. -/
theorem mem_of_series {t u : Tag} {us vs : List Tag} (h : us = [] ∨ Pattern.Series t us)
    (hu : u ∈ us ++ vs) : u ∈ .comma :: vs ∨ u = t := by
  have hseries : ∀ {us}, Pattern.Series t us → u ∈ us → u ∈ .comma :: vs ∨ u = t := by
    intro us h hu
    induction h with
    | one => exact .inr (List.mem_singleton.mp hu)
    | more _ ih =>
      rcases List.mem_cons.mp hu with rfl | hu
      · exact .inr rfl
      rcases List.mem_cons.mp hu with rfl | hu
      · exact .inl List.mem_cons_self
      · exact ih hu
  rcases List.mem_append.mp hu with hu | hu
  · rcases h with rfl | h
    · cases hu
    · exact hseries h hu
  · exact .inl (List.mem_cons_of_mem _ hu)

theorem items_of_tags {of : List Tag} (hms : List.Forall₂ Symbol.Of ms ts)
    (hts : ∀ t ∈ ts, t ∈ of ∨ t = .expression) (hof : ∀ t ∈ of, t ∉ Rule.results) :
    ∀ s ∈ ms, s.Item of := by
  intro s hs
  obtain ⟨t, ht, hst⟩ := exists_of_mem_forall₂ hms hs
  exact hst.1.item (hst.2 ▸ hts t ht) hof

/-! ### Rules with more than tokens and expressions -/

variable {a o : Symbol}

/-- The head of a function. -/
theorem functionHead_of_tags {w x : Symbol} (hw : w.Of .funcWord) (hx : x.Of .name)
    (h : ts = [] ∨ Pattern.Series .name ts)
    (hms : List.Forall₂ Symbol.Of ms (.leftParen :: (ts ++ [.rightParen, .leftBrace]))) :
    Rule.functionHead.Succeeds (w :: x :: ms) := by
  refine ⟨_, _, _, .functionHead (hw.is (by decide)) (hx.is (by decide)) ?_, rfl⟩
  intro s hs
  obtain ⟨t, ht, hst⟩ := exists_of_mem_forall₂ hms hs
  have htag : t ∈ [Tag.name, .comma, .leftParen, .rightParen, .leftBrace] := by
    rcases List.mem_cons.mp ht with rfl | ht
    · decide
    · have hmem := mem_of_series h ht
      simp only [List.mem_cons, List.not_mem_nil, or_false] at hmem ⊢
      rcases hmem with (h | h | h) | h <;> simp [h]
  exact hst.among htag (by decide)

/-- Two expressions with an operator between them. -/
theorem binary_of_tags {t : Tag} {p : Operator} {b : Symbol} (ht : t.operator? = some p)
    (ha : a.Of .expression) (ho : o.Of t) (hb : b.Of .expression) : p.rule.Succeeds [a, o, b] := by
  obtain ⟨e, ha⟩ := ha.value
  obtain ⟨e', hb⟩ := hb.value
  have hnone := ho.1.fragment_eq (by
    rw [ho.2]
    intro h
    cases t <;> first | cases ht; done | exact absurd h (by decide))
  refine ⟨_, _, _, .binary ha (ho.2 ▸ ht) rfl hnone hb, ?_⟩
  rw [Tag.result_of_operator? ht]
  rfl

/-- The head of a call or an instantiation takes any arguments. -/
theorem exists_applied? {f : Fragment} (hf : f.tag = .callHead ∨ f.tag = .newHead)
    (es : List Expr) : ∃ e, f.applied? es = some e := by
  rcases hf with h | h <;> cases f <;> cases h
  case inl.callHead line receiver name => cases receiver <;> exact ⟨_, rfl⟩
  case inr.newHead => exact ⟨_, rfl⟩

/-- The head of a call or an instantiation with its arguments. -/
theorem arguments_of_tags {t : Tag} (ht : t = .callHead ∨ t = .newHead) (ha : a.Of t)
    (h : ts = [] ∨ Pattern.Series .expression ts)
    (hms : List.Forall₂ Symbol.Of ms (ts ++ [.rightParen])) : Rule.arguments.Succeeds (a :: ms) := by
  obtain ⟨f, hf, htag⟩ := ha.1.bears (by rcases ht with rfl | rfl <;> rw [ha.2] <;> decide)
  rw [ha.2] at htag
  obtain ⟨e, he⟩ := exists_applied? (htag ▸ ht) (Matched.exprs ms)
  exact ⟨_, _, _, .arguments (ha.2 ▸ ht) hf.fragment_eq
    (items_of_tags hms (fun t ht => mem_of_series h ht) (by decide)) he, rfl⟩

/-- The head of an assignment and its value. -/
theorem assignment_of_tags {b : Symbol} (ha : a.Of .assignmentHead) (hb : b.Of .expression) :
    Rule.assignment.Succeeds [a, b] := by
  obtain ⟨e, hb⟩ := hb.value
  obtain ⟨f, hf, htag⟩ := ha.1.bears (by rw [ha.2]; decide)
  rw [ha.2] at htag
  have hassigned : ∃ s, f.assigned? e = some s := by
    cases f <;> cases htag
    case assignmentHead line declares receiver name =>
      cases declares <;> cases receiver <;> exact ⟨_, rfl⟩
  obtain ⟨s, hs⟩ := hassigned
  exact ⟨_, _, _, .assignment hf hb hs, rfl⟩

/-- A program that another branch cannot be attached to, or one that any branch can. -/
theorem chain_cases (p : Program) : (∀ line e b rest, p ≠ .single (.branch line e b rest)) ∨
    ∃ line e b rest, p = .single (.branch line e b rest) ∧
      (rest.attach .nothing = none ∨ ∀ new, ∃ rest', rest.attach new = some rest') := by
  by_cases h : ∃ line e b rest, p = .single (.branch line e b rest)
  · obtain ⟨line, e, b, rest, rfl⟩ := h
    refine .inr ⟨line, e, b, rest, rfl, ?_⟩
    cases hrest : rest.attach .nothing with
    | none => exact .inl rfl
    | some rest' => exact .inr fun new => Rest.attach_isSome new hrest
  · exact .inl fun line e b rest hp => h ⟨line, e, b, rest, hp⟩

/-- A program before an `else` takes any branch, or the branch is left out. -/
theorem attach_cases (hr : r = .elseIf ∨ r = .otherwise) (ha : a.Of .program) :
    r.Succeeds (a :: o :: ms) ∨
      ∃ line e b rest, a.Bears (.program (.single (.branch line e b rest))) ∧
        ∀ new, ∃ rest', rest.attach new = some rest' := by
  have hresult : r.result = .program := by rcases hr with rfl | rfl <;> rfl
  obtain ⟨p, ha⟩ := ha.program
  rcases chain_cases p with hp | ⟨line, e, b, rest, rfl, hrest | hrest⟩
  · exact .inl ⟨_, _, _, .stray hr ha hp, hresult.symm⟩
  · exact .inl ⟨_, _, _, .late hr ha hrest, hresult.symm⟩
  · exact .inr ⟨line, e, b, rest, ha, hrest⟩

/-- An `else if` and its block. -/
theorem elseIf_of_tags {c l : Symbol} (ha : a.Of .program) (ho : o.Of .elseIfWord)
    (hc : c.Of .expression) (hl : l.Of .leftBrace) (h : Tag.Body ts)
    (hms : List.Forall₂ Symbol.Of ms ts) : Rule.elseIf.Succeeds (a :: o :: c :: l :: ms) := by
  rcases attach_cases (.inl rfl) ha with hmakes | ⟨line, e₀, b₀, rest, ha, hrest⟩
  · exact hmakes
  obtain ⟨e, hc⟩ := hc.value
  obtain ⟨b, n, hb⟩ := Body.of_tags h hms
  obtain ⟨rest', hrest'⟩ := hrest (.elseIf o.line e b .nothing)
  exact ⟨_, _, _, .elseIf ha (ho.is (by decide)) hc (hl.is (by decide)) hb hrest', rfl⟩

/-- An `else` and its block. -/
theorem otherwise_of_tags {l : Symbol} (ha : a.Of .program) (ho : o.Of .elseWord)
    (hl : l.Of .leftBrace) (h : Tag.Body ts) (hms : List.Forall₂ Symbol.Of ms ts) :
    Rule.otherwise.Succeeds (a :: o :: l :: ms) := by
  rcases attach_cases (.inr rfl) ha with hmakes | ⟨line, e₀, b₀, rest, ha, hrest⟩
  · exact hmakes
  obtain ⟨b, n, hb⟩ := Body.of_tags h hms
  obtain ⟨rest', hrest'⟩ := hrest (.otherwise b)
  exact ⟨_, _, _, .otherwise ha (ho.is (by decide)) (hl.is (by decide)) hb hrest', rfl⟩

/-- The end of a declaration. -/
theorem close_of_tags {t : Tag} (hr : r = .functionEnd ∨ r = .classEnd)
    (ht : t = .functionHead ∨ t = .classHead) (ha : a.Of t) (h : Tag.Body ts)
    (hms : List.Forall₂ Symbol.Of ms ts) : r.Succeeds (a :: ms) := by
  have hresult : r.result = .program := by rcases hr with rfl | rfl <;> rfl
  obtain ⟨f, hf, htag⟩ := ha.1.bears (by rcases ht with rfl | rfl <;> rw [ha.2] <;> decide)
  rw [ha.2] at htag
  have hdeclared : ∃ line make, f.declared? = some (line, make) := by
    rcases ht with rfl | rfl <;> cases f <;> cases htag <;> exact ⟨_, _, rfl⟩
  obtain ⟨line, make, hmake⟩ := hdeclared
  cases h with
  | empty =>
    obtain - | ⟨hz, ⟨⟩⟩ := hms
    exact ⟨_, _, _, .closeEmpty hr hf hmake (hz.is (by decide)), hresult.symm⟩
  | program =>
    obtain - | ⟨hs, - | ⟨hz, ⟨⟩⟩⟩ := hms
    obtain ⟨p, hs⟩ := hs.program
    exact ⟨_, _, _, .close hr hf hmake hs (hz.is (by decide)), hresult.symm⟩

/-! ### Every match makes something -/

/-- A match of the shape of its rule makes something. -/
theorem makes_of_shape (h : r.Shape ts) (hr : r ≠ .map) (hms : List.Forall₂ Symbol.Of ms ts) :
    r.Succeeds ms := by
  cases h with
  | literal h =>
    obtain - | ⟨hl, ⟨⟩⟩ := hms
    obtain ⟨hnone, e, he⟩ := hl.1.literal (hl.2 ▸ h)
    exact ⟨_, _, _, .literal hnone he, rfl⟩
  | assignmentHead =>
    obtain - | ⟨hx, - | ⟨hs, ⟨⟩⟩⟩ := hms
    exact ⟨_, _, _, .assignmentHead (hx.is (by decide)) (hs.is (by decide)), rfl⟩
  | declaringHead =>
    obtain - | ⟨hv, - | ⟨hx, - | ⟨hs, ⟨⟩⟩⟩⟩ := hms
    exact ⟨_, _, _, .declaringHead (hv.is (by decide)) (hx.is (by decide)) (hs.is (by decide)), rfl⟩
  | declaration =>
    obtain - | ⟨hv, - | ⟨hx, ⟨⟩⟩⟩ := hms
    exact ⟨_, _, _, .declaration (hv.is (by decide)) (hx.is (by decide)), rfl⟩
  | functionHead h =>
    obtain - | ⟨hw, - | ⟨hx, hms⟩⟩ := hms
    exact functionHead_of_tags hw hx h hms
  | classHead =>
    obtain - | ⟨hw, - | ⟨hx, - | ⟨hb, ⟨⟩⟩⟩⟩ := hms
    exact ⟨_, _, _, .classHead (hw.is (by decide)) (hx.is (by decide)) (hb.is (by decide)), rfl⟩
  | extendingHead =>
    obtain - | ⟨hw, - | ⟨hx, - | ⟨hv, - | ⟨hy, - | ⟨hb, ⟨⟩⟩⟩⟩⟩⟩ := hms
    exact ⟨_, _, _, .extendingHead (hw.is (by decide)) (hx.is (by decide)) (hv.is (by decide))
      (hy.is (by decide)) (hb.is (by decide)), rfl⟩
  | newHead =>
    obtain - | ⟨hw, - | ⟨hx, - | ⟨hl, ⟨⟩⟩⟩⟩ := hms
    exact ⟨_, _, _, .newHead (hw.is (by decide)) (hx.is (by decide)) (hl.is (by decide)), rfl⟩
  | methodHead =>
    obtain - | ⟨ha, - | ⟨hd, - | ⟨hx, - | ⟨hl, ⟨⟩⟩⟩⟩⟩ := hms
    obtain ⟨e, ha⟩ := ha.value
    exact ⟨_, _, _, .methodHead ha (hd.is (by decide)) (hx.is (by decide)) (hl.is (by decide)), rfl⟩
  | fieldAssignmentHead =>
    obtain - | ⟨ha, - | ⟨hd, - | ⟨hx, - | ⟨hs, ⟨⟩⟩⟩⟩⟩ := hms
    obtain ⟨e, ha⟩ := ha.value
    exact ⟨_, _, _,
      .fieldAssignmentHead ha (hd.is (by decide)) (hx.is (by decide)) (hs.is (by decide)), rfl⟩
  | field =>
    obtain - | ⟨ha, - | ⟨hd, - | ⟨hx, ⟨⟩⟩⟩⟩ := hms
    obtain ⟨e, ha⟩ := ha.value
    exact ⟨_, _, _, .field ha (hd.is (by decide)) (hx.is (by decide)), rfl⟩
  | callHead =>
    obtain - | ⟨hx, - | ⟨hl, ⟨⟩⟩⟩ := hms
    exact ⟨_, _, _, .callHead (hx.is (by decide)) (hl.is (by decide)), rfl⟩
  | «variable» =>
    obtain - | ⟨hx, ⟨⟩⟩ := hms
    exact ⟨_, _, _, .variable (hx.is (by decide)), rfl⟩
  | list h =>
    obtain - | ⟨hl, hms⟩ := hms
    exact ⟨_, _, _, .list (hl.is (by decide))
      (items_of_tags hms (fun t ht => mem_of_series h ht) (by decide)), rfl⟩
  | map => exact absurd rfl hr
  | group =>
    obtain - | ⟨hl, - | ⟨ha, - | ⟨hr, ⟨⟩⟩⟩⟩ := hms
    obtain ⟨e, ha⟩ := ha.value
    exact ⟨_, _, _, .group (hl.is (by decide)) ha (hr.is (by decide)), rfl⟩
  | unary h =>
    obtain - | ⟨ho, - | ⟨ha, ⟨⟩⟩⟩ := hms
    obtain ⟨e, ha⟩ := ha.value
    exact ⟨_, _, _, .unary (ho.among h (by decide)) ha, rfl⟩
  | binary ht hr =>
    obtain - | ⟨ha, - | ⟨ho, - | ⟨hb, ⟨⟩⟩⟩⟩ := hms
    exact hr ▸ binary_of_tags ht ha ho hb
  | arguments ht h =>
    obtain - | ⟨ha, hms⟩ := hms
    exact arguments_of_tags ht ha h hms
  | jump ht =>
    obtain - | ⟨hw, ⟨⟩⟩ := hms
    exact ⟨_, _, _, .jump (hw.among (by simpa using ht) (by decide)), rfl⟩
  | print =>
    obtain - | ⟨hw, - | ⟨ha, ⟨⟩⟩⟩ := hms
    obtain ⟨e, ha⟩ := ha.value
    exact ⟨_, _, _, .print (hw.is (by decide)) ha, rfl⟩
  | returnsBare =>
    obtain - | ⟨hw, ⟨⟩⟩ := hms
    exact ⟨_, _, _, .returnsBare (hw.is (by decide)), rfl⟩
  | returns =>
    obtain - | ⟨hw, - | ⟨ha, ⟨⟩⟩⟩ := hms
    obtain ⟨e, ha⟩ := ha.value
    exact ⟨_, _, _, .returns (hw.is (by decide)) ha, rfl⟩
  | assignment =>
    obtain - | ⟨ha, - | ⟨hb, ⟨⟩⟩⟩ := hms
    exact assignment_of_tags ha hb
  | branch h =>
    obtain - | ⟨hw, - | ⟨ha, - | ⟨hl, hms⟩⟩⟩ := hms
    obtain ⟨e, ha⟩ := ha.value
    obtain ⟨b, n, hb⟩ := Body.of_tags h hms
    exact ⟨_, _, _, .branch (hw.is (by decide)) ha (hl.is (by decide)) hb, rfl⟩
  | elseIf h =>
    obtain - | ⟨ha, - | ⟨ho, - | ⟨hc, - | ⟨hl, hms⟩⟩⟩⟩ := hms
    exact elseIf_of_tags ha ho hc hl h hms
  | otherwise h =>
    obtain - | ⟨ha, - | ⟨ho, - | ⟨hl, hms⟩⟩⟩ := hms
    exact otherwise_of_tags ha ho hl h hms
  | loop h =>
    obtain - | ⟨hw, - | ⟨ha, - | ⟨hl, hms⟩⟩⟩ := hms
    obtain ⟨e, ha⟩ := ha.value
    obtain ⟨b, n, hb⟩ := Body.of_tags h hms
    exact ⟨_, _, _, .loop (hw.is (by decide)) ha (hl.is (by decide)) hb, rfl⟩
  | functionEnd h =>
    obtain - | ⟨ha, hms⟩ := hms
    exact close_of_tags (.inl rfl) (.inl rfl) ha h hms
  | classEnd h =>
    obtain - | ⟨ha, hms⟩ := hms
    exact close_of_tags (.inr rfl) (.inr rfl) ha h hms
  | trailing =>
    obtain - | ⟨ha, - | ⟨hs, ⟨⟩⟩⟩ := hms
    obtain ⟨p, ha⟩ := ha.program
    exact ⟨_, _, _, .trailing ha (hs.is (by decide)), rfl⟩
  | statement =>
    obtain - | ⟨ha, ⟨⟩⟩ := hms
    obtain ⟨e, ha⟩ := ha.value
    exact ⟨_, _, _, .statement ha, rfl⟩

/-- What a rule takes of sound symbols makes something of the kind that the rule promises. -/
theorem makes_of_rest? (h : r.pattern.rest? (ms.map (·.tag) ++ ts) = some ts)
    (hms : ∀ s ∈ ms, s.Sound) : r.Succeeds ms := by
  have hof : List.Forall₂ Symbol.Of ms (ms.map (·.tag)) := by
    rw [List.forall₂_map_right_iff, List.forall₂_same]
    exact fun s hs => ⟨hms s hs, rfl⟩
  by_cases hsequence : r = .sequence
  · subst hsequence
    obtain ⟨us, hus, htags⟩ := yields_sequence _ _ h
    obtain rfl := List.append_cancel_right htags
    refine ⟨_, _, _, .sequence fun s hs => ?_, rfl⟩
    exact (hms s hs).part (hus s.tag (List.mem_map_of_mem hs)) (by decide)
  by_cases hmap : r = .map
  · subst hmap
    obtain ⟨us, hleft, hrest⟩ := Option.bind_eq_some_iff.mp h
    obtain ⟨us', hus', rfl⟩ := yields_entries _ _ hrest
    have htags : ms.map (·.tag) = .leftBrace :: us' :=
      List.append_cancel_right ((Pattern.rest?_tag_iff.mp hleft).trans (List.cons_append ..).symm)
    rw [htags] at hof
    obtain - | @⟨l, _, ms, _, hl, hms'⟩ := hof
    obtain ⟨-, hms⟩ := List.forall_mem_cons.mp hms
    obtain rfl := (List.cons.inj htags).2
    refine ⟨_, _, _, .map (hl.is (by decide)) (items_of_tags hms' hus'.2 (by decide)) ?_, rfl⟩
    rw [Symbol.length_exprs hms]
    exact hus'.1
  · obtain ⟨us, hus, htags⟩ := shape_of_rest? hsequence h
    obtain rfl := List.append_cancel_right htags
    exact makes_of_shape hus hmap hof

end Rule

end StackScript
