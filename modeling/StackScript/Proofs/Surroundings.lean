import StackScript.Proofs.FrontTags

/-!
# StackScript.Proofs.Surroundings — what stands around a token in a production

For a token that is not always the first of a production, this says in which productions it can be
and what stands there before it and after it.
-/

namespace StackScript

open Leaf

/-! ### Tags of the parts -/

/-- The tags that the parts of a production can have. -/
def Rule.alphabet : Rule → List Tag
  | literal => [.number, .text, .boolean, .null, .thisWord, .superWord]
  | assignmentHead => [.varWord, .name, .equals]
  | declaration => [.varWord, .name]
  | functionHead => [.funcWord, .name, .leftParen, .comma, .rightParen, .leftBrace]
  | classHead => [.classWord, .name, .extendsWord, .leftBrace]
  | newHead => [.newWord, .name, .leftParen]
  | methodHead => [.expression, .dot, .name, .leftParen]
  | fieldAssignmentHead => [.expression, .dot, .name, .equals]
  | field => [.expression, .dot, .name]
  | callHead => [.name, .leftParen]
  | .variable => [.name]
  | list => [.leftBracket, .expression, .comma, .rightBracket]
  | group => [.leftParen, .expression, .rightParen]
  | unary => [.term, .negation, .tilde, .expression]
  | power => [.expression, .power]
  | factor => [.expression, .factor]
  | term => [.expression, .term]
  | comparison => [.expression, .comparison]
  | logic => [.expression, .logic]
  | arguments => [.callHead, .newHead, .expression, .comma, .rightParen]
  | jump => [.continueWord, .breakWord]
  | print => [.printWord, .expression]
  | returns => [.returnWord, .expression]
  | assignment => [.assignmentHead, .expression]
  | branch => [.ifWord, .expression, .leftBrace, .program, .rightBrace]
  | elseIf => [.program, .elseIfWord, .expression, .leftBrace, .rightBrace]
  | otherwise => [.program, .elseWord, .leftBrace, .rightBrace]
  | loop => [.whileWord, .expression, .leftBrace, .program, .rightBrace]
  | functionEnd => [.functionHead, .program, .rightBrace]
  | classEnd => [.classHead, .program, .rightBrace]
  | statement => [.expression]
  | map | sequence | trailing => []

theorem CommaList.tag_mem {α : Type} {R : Phrase → α → Prop} {t : Tag} {ps : List Phrase}
    {as : List α} (hR : ∀ p a, R p a → p.tag = t) (h : CommaList R ps as) {p : Phrase}
    (hp : p ∈ ps) : p.tag = t ∨ p.tag = .comma := by
  rcases h with ⟨rfl, -⟩ | h
  · cases hp
  induction h with
  | last h =>
    rw [List.mem_singleton] at hp
    exact .inl (hp ▸ hR _ _ h)
  | more h hc _ ih =>
    rcases List.mem_cons.mp hp with rfl | hp
    · exact .inl (hR _ _ h)
    rcases List.mem_cons.mp hp with rfl | hp
    · exact .inr hc
    · exact ih hp

theorem IsExpr.tag_eq (p : Phrase) (e : Expr) (h : IsExpr p e) : p.tag = .expression := by
  obtain ⟨st, k, rfl⟩ := h
  rfl

theorem IsName.tag_eq (p : Phrase) (s : String) (h : IsName p s) : p.tag = .name := by
  obtain ⟨x, hx, rfl, -⟩ := h
  exact hx

theorem Tag.alphabet_of_operator? {t : Tag} {p : Operator} (h : t.operator? = some p) :
    p.rule.alphabet = [.expression, t] := by
  cases t <;> cases h <;> rfl

theorem Heading.tag_mem {r : Rule} {head : List Phrase} {st : Start}
    {make : (Nat → Block) → Option Stmt} (h : Heading r head st make) {p : Phrase}
    (hp : p ∈ head) : p.tag ∈ r.alphabet := by
  cases h with
  | branch hw hl | loop hw hl =>
    simp only [List.mem_cons, List.not_mem_nil, or_false] at hp
    rcases hp with rfl | rfl | rfl <;> simp [Rule.alphabet, hw, hl]
  | elseIf ho hl =>
    simp only [List.mem_cons, List.not_mem_nil, or_false] at hp
    rcases hp with rfl | rfl | rfl | rfl <;> simp [Rule.alphabet, ho, hl]
  | otherwise ho hl =>
    simp only [List.mem_cons, List.not_mem_nil, or_false] at hp
    rcases hp with rfl | rfl | rfl <;> simp [Rule.alphabet, ho, hl]
  | functionEnd | classEnd =>
    rw [List.mem_singleton] at hp
    simp [Rule.alphabet, hp]

/-- The parts of a production have tags of its rule. -/
theorem Production.tag_mem {r : Rule} {qs : List Phrase} {q p : Phrase} (h : Production r qs q)
    (hp : p ∈ qs) : p.tag ∈ r.alphabet := by
  cases h with
  | literal h =>
    rw [List.mem_singleton] at hp
    rw [hp]
    exact literal?_tag h
  | functionHead hw hx hl hps hr hb =>
    simp only [List.mem_cons, List.mem_append, List.not_mem_nil, or_false] at hp
    rcases hp with rfl | rfl | rfl | hp | rfl | rfl
    · simp [Rule.alphabet, hw]
    · simp [Rule.alphabet, hx]
    · simp [Rule.alphabet, hl]
    · rcases hps.tag_mem IsName.tag_eq hp with h | h <;> simp [Rule.alphabet, h]
    · simp [Rule.alphabet, hr]
    · simp [Rule.alphabet, hb]
  | list hl hps hr =>
    simp only [List.mem_cons, List.mem_append, List.not_mem_nil, or_false] at hp
    rcases hp with rfl | hp | rfl
    · simp [Rule.alphabet, hl]
    · rcases hps.tag_mem IsExpr.tag_eq hp with h | h <;> simp [Rule.alphabet, h]
    · simp [Rule.alphabet, hr]
  | arguments ht _ hps hr =>
    simp only [List.mem_cons, List.mem_append, List.not_mem_nil, or_false] at hp
    rcases hp with rfl | hp | rfl
    · rcases ht with rfl | rfl <;> simp [Rule.alphabet]
    · rcases hps.tag_mem IsExpr.tag_eq hp with h | h <;> simp [Rule.alphabet, h]
    · simp [Rule.alphabet, hr]
  | unary ho =>
    simp only [List.mem_cons, List.not_mem_nil, or_false] at hp
    rcases hp with rfl | rfl
    · rcases ho with ⟨h, -⟩ | h | h <;> simp [Rule.alphabet, h]
    · simp [Rule.alphabet]
  | jump hw =>
    rw [List.mem_singleton] at hp
    rcases hw with h | h <;> simp [Rule.alphabet, hp, h]
  | @binary r _ o _ _ _ _ _ _ ho hr =>
    rw [← hr, Tag.alphabet_of_operator? ho]
    simp only [List.mem_cons, List.not_mem_nil, or_false] at hp
    rcases hp with rfl | rfl | rfl <;> simp
  | block hhead hcs hb =>
    rcases List.mem_append.mp hp with hp | hp
    · exact hhead.tag_mem hp
    rcases List.mem_append.mp hp with hp | hp
    · obtain ⟨c, -, rfl⟩ := List.mem_map.mp hp
      cases hhead <;> simp [Rule.alphabet, Chunk.phrase]
    · have htag : p.tag = .rightBrace := by rw [List.mem_singleton.mp hp]; exact hb
      rw [htag]
      cases hhead <;> simp [Rule.alphabet]
  | «variable» | returnsBare | statement =>
    rw [List.mem_singleton] at hp
    simp [Rule.alphabet, *]
  | assignmentHead | declaration | callHead | print | returns | assignment =>
    simp only [List.mem_cons, List.not_mem_nil, or_false] at hp
    rcases hp with rfl | rfl <;> simp [Rule.alphabet, *]
  | declaringHead | classHead | newHead | field | group =>
    simp only [List.mem_cons, List.not_mem_nil, or_false] at hp
    rcases hp with rfl | rfl | rfl <;> simp [Rule.alphabet, *]
  | methodHead | fieldAssignmentHead =>
    simp only [List.mem_cons, List.not_mem_nil, or_false] at hp
    rcases hp with rfl | rfl | rfl | rfl <;> simp [Rule.alphabet, *]
  | extendingHead =>
    simp only [List.mem_cons, List.not_mem_nil, or_false] at hp
    rcases hp with rfl | rfl | rfl | rfl | rfl <;> simp [Rule.alphabet, *]

/-- The tags of what is reduced. -/
def Tag.isWhole : Tag → Bool
  | expression | program | assignmentHead | callHead | newHead | functionHead | classHead => true
  | _ => false

theorem Part.isWhole {qs₁ qs₂ : List Phrase} {p q : Phrase} (h : Part qs₁ p qs₂ q) :
    p.tag.isWhole = true := by
  cases h with
  | head ht =>
    simp only [List.mem_cons, List.not_mem_nil, or_false] at ht
    rcases ht with rfl | rfl | rfl | rfl | rfl <;> rfl
  | _ => rfl

theorem CommaList.token_tag {α : Type} {R : Phrase → α → Prop} {ps : List Phrase} {as : List α}
    (hR : ∀ l a, R (.token l) a → l.tag.isWhole = false) (h : CommaList R ps as) {l : Leaf}
    (hl : .token l ∈ ps) : l.tag.isWhole = false := by
  rcases h with ⟨rfl, -⟩ | h
  · cases hl
  induction h with
  | last h =>
    rw [List.mem_singleton] at hl
    exact hR _ _ (hl ▸ h)
  | more h hc _ ih =>
    rcases List.mem_cons.mp hl with rfl | hl
    · exact hR _ _ h
    rcases List.mem_cons.mp hl with hl | hl
    · rw [Phrase.token.inj hl, hc]
      rfl
    · exact ih hl

theorem IsExpr.not_token (l : Leaf) (e : Expr) (h : IsExpr (.token l) e) :
    l.tag.isWhole = false := by
  obtain ⟨st, k, h⟩ := h
  cases h

theorem IsName.token_tag (l : Leaf) (s : String) (h : IsName (.token l) s) :
    l.tag.isWhole = false := by
  obtain ⟨x, hx, h, -⟩ := h
  rw [Phrase.token.inj h, hx]
  rfl

/-- The tokens of a production are lexical. -/
theorem Production.token_tag {r : Rule} {qs : List Phrase} {q : Phrase} (h : Production r qs q)
    {l : Leaf} (hl : .token l ∈ qs) : l.tag.isWhole = false := by
  cases h with
  | literal h =>
    simp only [List.mem_singleton, Phrase.token.injEq] at hl
    have hmem := literal?_tag h
    simp only [List.mem_cons, List.not_mem_nil, or_false] at hmem
    rcases hmem with h | h | h | h | h | h <;> rw [hl, h] <;> rfl
  | functionHead hw hx hl' hps hr hb =>
    simp only [List.mem_cons, List.mem_append, List.not_mem_nil, or_false,
      Phrase.token.injEq] at hl
    rcases hl with rfl | rfl | rfl | hl | rfl | rfl
    · simp [Tag.isWhole, hw]
    · simp [Tag.isWhole, hx]
    · simp [Tag.isWhole, hl']
    · exact hps.token_tag IsName.token_tag hl
    · simp [Tag.isWhole, hr]
    · simp [Tag.isWhole, hb]
  | list hl' hps hr =>
    simp only [List.mem_cons, List.mem_append, List.not_mem_nil, or_false,
      Phrase.token.injEq] at hl
    rcases hl with rfl | hl | rfl
    · simp [Tag.isWhole, hl']
    · exact hps.token_tag IsExpr.not_token hl
    · simp [Tag.isWhole, hr]
  | arguments _ _ hps hr =>
    simp only [List.mem_cons, List.mem_append, List.not_mem_nil, or_false, reduceCtorEq,
      Phrase.token.injEq, false_or] at hl
    rcases hl with hl | rfl
    · exact hps.token_tag IsExpr.not_token hl
    · simp [Tag.isWhole, hr]
  | unary ho =>
    simp only [List.mem_cons, List.not_mem_nil, or_false, reduceCtorEq, Phrase.token.injEq] at hl
    rcases ho with ⟨h, -⟩ | h | h <;> simp [Tag.isWhole, hl, h]
  | binary ho =>
    simp only [List.mem_cons, List.not_mem_nil, or_false, reduceCtorEq, Phrase.token.injEq,
      false_or] at hl
    have hmem := Tag.operator?_mem ho
    simp only [List.mem_cons, List.not_mem_nil, or_false] at hmem
    rcases hmem with h | h | h | h | h <;> simp [Tag.isWhole, hl, h]
  | jump hw =>
    simp only [List.mem_singleton, Phrase.token.injEq] at hl
    rcases hw with h | h <;> simp [Tag.isWhole, hl, h]
  | block hhead hcs hb =>
    simp only [List.mem_append, List.mem_map, List.mem_singleton, Phrase.token.injEq] at hl
    rcases hl with hl | ⟨c, -, hl⟩ | rfl
    · cases hhead with
      | branch h₁ h₂ | loop h₁ h₂ | elseIf h₁ h₂ | otherwise h₁ h₂ =>
        simp only [List.mem_cons, List.not_mem_nil, or_false, reduceCtorEq, Phrase.token.injEq,
          false_or] at hl
        rcases hl with rfl | rfl
        · simp [Tag.isWhole, h₁]
        · simp [Tag.isWhole, h₂]
      | functionEnd | classEnd => simp at hl
    · cases hl
    · simp [Tag.isWhole, hb]
  | assignment | statement => simp at hl
  | «variable» h₁ | returnsBare h₁ | print h₁ | returns h₁ =>
    simp only [List.mem_cons, List.not_mem_nil, or_false, reduceCtorEq, Phrase.token.injEq] at hl
    simp [Tag.isWhole, hl, h₁]
  | assignmentHead h₁ h₂ | declaration h₁ h₂ | callHead h₁ h₂ | group h₁ h₂ =>
    simp only [List.mem_cons, List.not_mem_nil, or_false, reduceCtorEq, Phrase.token.injEq,
      false_or] at hl
    rcases hl with rfl | rfl
    · simp [Tag.isWhole, h₁]
    · simp [Tag.isWhole, h₂]
  | declaringHead h₁ h₂ h₃ | classHead h₁ h₂ h₃ | newHead h₁ h₂ h₃ =>
    simp only [List.mem_cons, List.not_mem_nil, or_false, Phrase.token.injEq] at hl
    rcases hl with rfl | rfl | rfl
    · simp [Tag.isWhole, h₁]
    · simp [Tag.isWhole, h₂]
    · simp [Tag.isWhole, h₃]
  | field h₁ _ h₂ =>
    simp only [List.mem_cons, List.not_mem_nil, or_false, reduceCtorEq, Phrase.token.injEq,
      false_or] at hl
    rcases hl with rfl | rfl
    · simp [Tag.isWhole, h₁]
    · simp [Tag.isWhole, h₂]
  | methodHead h₁ _ h₂ h₃ | fieldAssignmentHead h₁ _ h₂ h₃ =>
    simp only [List.mem_cons, List.not_mem_nil, or_false, reduceCtorEq, Phrase.token.injEq,
      false_or] at hl
    rcases hl with rfl | rfl | rfl
    · simp [Tag.isWhole, h₁]
    · simp [Tag.isWhole, h₂]
    · simp [Tag.isWhole, h₃]
  | extendingHead h₁ h₂ h₃ h₄ h₅ =>
    simp only [List.mem_cons, List.not_mem_nil, or_false, Phrase.token.injEq] at hl
    rcases hl with rfl | rfl | rfl | rfl | rfl
    · simp [Tag.isWhole, h₁]
    · simp [Tag.isWhole, h₂]
    · simp [Tag.isWhole, h₃]
    · simp [Tag.isWhole, h₄]
    · simp [Tag.isWhole, h₅]

/-- A lexical symbol belongs to a production as a token. -/
theorem Reading.token {gone : List Rule} {cs : List Chunk} {pre v : List Leaf} {a : Leaf}
    (h : Reading gone cs (pre ++ a :: v)) (ha : a.tag.isWhole = false) :
    ∃ u post ys zs r qs₁ qs₂ q, Spot gone cs u q post ∧ Production r (qs₁ ++ .token a :: qs₂) q ∧
      r ∉ gone ∧ a.tag ∈ r.alphabet ∧ Forest gone qs₁ ys ∧ Forest gone qs₂ zs ∧
      Stands a (.token a) ∧ pre = u ++ ys ∧ v = zs ++ post := by
  have hprogram : a.tag ≠ .program := by
    intro h
    rw [h] at ha
    cases ha
  obtain ⟨u, post, ys, zs, r, qs₁, p, qs₂, q, hq, hr, hgone, h₁, h₂, hp, rfl, rfl⟩ :=
    locate_part h.forest hprogram
  have hmem := hr.tag_mem (p := p) (by simp)
  cases p with
  | token l =>
    obtain rfl : l = a := by cases hp; rfl
    exact ⟨u, post, ys, zs, r, qs₁, qs₂, q, hq, hr, hgone, hmem, h₁, h₂, hp, rfl, rfl⟩
  | whole t st k f =>
    have hwhole := (hr.part rfl rfl).isWhole
    rw [hp.tag_eq, ha] at hwhole
    cases hwhole

theorem Tag.rule_of_operator? {t : Tag} {p : Operator} (h : t.operator? = some p) :
    p.rule ∈ [Rule.logic, .comparison, .term, .factor, .power] := by
  cases t <;> cases h <;> decide

/-! ### Around a token -/

theorem Tag.not_expectsValue_of_endsOperand {t : Tag} (h : t.endsOperand = true) :
    t.expectsValue = false := by
  cases t <;> first | rfl | cases h

/-- A brace opens a body behind a condition or an `else`, where no value is expected. -/
theorem Heading.around_leftBrace {r : Rule} {head qs₁ qs₂ : List Phrase} {st : Start}
    {make : (Nat → Block) → Option Stmt} (h : Heading r head st make) {l : Leaf}
    (hqs : head = qs₁ ++ .token l :: qs₂) (hl : l.tag = .leftBrace) :
    ∃ ps p, qs₁ = ps ++ [p] ∧ ∀ t, p.tag.ends t = true → t.expectsValue = false := by
  cases h with
  | branch hw | loop hw =>
    simp [List.cons_eq_append_iff] at hqs
    rcases hqs with ⟨-, rfl, -⟩ | ⟨rfl, -, -⟩
    · rw [hw] at hl
      cases hl
    · exact ⟨[_], _, rfl, fun t => Tag.not_expectsValue_of_endsOperand⟩
  | elseIf ho =>
    simp [List.cons_eq_append_iff] at hqs
    rcases hqs with ⟨_, rfl, ⟨-, rfl, -⟩ | ⟨rfl, -, -⟩⟩
    · rw [ho] at hl
      cases hl
    · exact ⟨[_, _], _, rfl, fun t => Tag.not_expectsValue_of_endsOperand⟩
  | otherwise ho =>
    simp [List.cons_eq_append_iff] at hqs
    rcases hqs with ⟨_, rfl, ⟨-, rfl, -⟩ | ⟨rfl, -, -⟩⟩
    · rw [ho] at hl
      cases hl
    · refine ⟨[_], _, rfl, fun t ht => ?_⟩
      rw [Phrase.tag_token, ho] at ht
      rw [beq_iff_eq.mp ht]
      rfl
  | functionEnd | classEnd => simp [List.cons_eq_append_iff] at hqs

namespace Production

variable {r : Rule} {qs qs₁ qs₂ : List Phrase} {q : Phrase}

theorem around_equals {s : Leaf} (h : Production r qs q) (hqs : qs = qs₁ ++ .token s :: qs₂)
    (hs : s.tag = .equals) :
    (r = .assignmentHead ∧ qs₂ = [] ∧ ∃ x : Leaf, x.tag = .name ∧ (qs₁ = [.token x] ∨
      ∃ v : Leaf, v.tag = .varWord ∧ qs₁ = [.token v, .token x])) ∨
    ∃ ps d x, qs₁ = ps ++ [.token d, .token x] ∧ d.tag = .dot := by
  have hmem := h.tag_mem (p := .token s) (by simp [hqs])
  rw [Phrase.tag_token, hs] at hmem
  have hrule : r = .assignmentHead ∨ r = .fieldAssignmentHead := by
    cases r <;> simp [Rule.alphabet] at hmem ⊢
  rcases hrule with rfl | rfl
  · cases h with
    | assignmentHead hx =>
      simp [List.cons_eq_append_iff] at hqs
      rcases hqs with ⟨-, rfl, -⟩ | ⟨rfl, rfl, rfl⟩
      · rw [hx] at hs
        cases hs
      · exact .inl ⟨rfl, rfl, _, hx, .inl rfl⟩
    | declaringHead hv hx =>
      simp [List.cons_eq_append_iff] at hqs
      rcases hqs with ⟨-, rfl, -⟩ | ⟨_, rfl, ⟨-, rfl, -⟩ | ⟨rfl, rfl, rfl⟩⟩
      · rw [hv] at hs
        cases hs
      · rw [hx] at hs
        cases hs
      · exact .inl ⟨rfl, rfl, _, hx, .inr ⟨_, hv, rfl⟩⟩
    | binary ho hrule => exact absurd (hrule ▸ Tag.rule_of_operator? ho) (by decide)
    | block hhead => cases hhead
  · cases h with
    | fieldAssignmentHead hd hb hx =>
      simp [List.cons_eq_append_iff] at hqs
      rcases hqs with ⟨_, rfl, ⟨-, rfl, -⟩ | ⟨_, rfl, ⟨-, rfl, -⟩ | ⟨rfl, rfl, rfl⟩⟩⟩
      · rw [hd] at hs
        cases hs
      · rw [hx] at hs
        cases hs
      · exact .inr ⟨[_], _, _, rfl, hd⟩
    | binary ho hrule => exact absurd (hrule ▸ Tag.rule_of_operator? ho) (by decide)
    | block hhead => cases hhead

theorem around_dot {d : Leaf} (h : Production r qs q) (hqs : qs = qs₁ ++ .token d :: qs₂)
    (hd : d.tag = .dot) :
    ∃ st e x ps, qs₁ = [.expr st 7 e] ∧ qs₂ = .token x :: ps ∧
      ((r = .methodHead ∧ ∃ l : Leaf, ps = [.token l] ∧ l.tag = .leftParen) ∨
        (r = .fieldAssignmentHead ∧ ∃ s : Leaf, ps = [.token s] ∧ s.tag = .equals) ∨
          (r = .field ∧ ps = [] ∧ ∃ e', q = .expr st 7 e')) := by
  have hmem := h.tag_mem (p := .token d) (by simp [hqs])
  rw [Phrase.tag_token, hd] at hmem
  have hrule : r = .methodHead ∨ r = .fieldAssignmentHead ∨ r = .field := by
    cases r <;> simp [Rule.alphabet] at hmem ⊢
  rcases hrule with rfl | rfl | rfl
  · cases h with
    | methodHead _ _ hx hl =>
      simp [List.cons_eq_append_iff] at hqs
      rcases hqs with ⟨_, rfl, ⟨rfl, rfl, rfl⟩ | ⟨_, rfl, ⟨-, rfl, -⟩ | ⟨-, rfl, -⟩⟩⟩
      · exact ⟨_, _, _, _, rfl, rfl, .inl ⟨rfl, _, rfl, hl⟩⟩
      · rw [hx] at hd
        cases hd
      · rw [hl] at hd
        cases hd
    | binary ho hrule => exact absurd (hrule ▸ Tag.rule_of_operator? ho) (by decide)
    | block hhead => cases hhead
  · cases h with
    | fieldAssignmentHead _ _ hx hs =>
      simp [List.cons_eq_append_iff] at hqs
      rcases hqs with ⟨_, rfl, ⟨rfl, rfl, rfl⟩ | ⟨_, rfl, ⟨-, rfl, -⟩ | ⟨-, rfl, -⟩⟩⟩
      · exact ⟨_, _, _, _, rfl, rfl, .inr (.inl ⟨rfl, _, rfl, hs⟩)⟩
      · rw [hx] at hd
        cases hd
      · rw [hs] at hd
        cases hd
    | binary ho hrule => exact absurd (hrule ▸ Tag.rule_of_operator? ho) (by decide)
    | block hhead => cases hhead
  · cases h with
    | field _ _ hx =>
      simp [List.cons_eq_append_iff] at hqs
      rcases hqs with ⟨_, rfl, ⟨rfl, rfl, rfl⟩ | ⟨-, rfl, -⟩⟩
      · exact ⟨_, _, _, _, rfl, rfl, .inr (.inr ⟨rfl, rfl, _, rfl⟩)⟩
      · rw [hx] at hd
        cases hd
    | binary ho hrule => exact absurd (hrule ▸ Tag.rule_of_operator? ho) (by decide)
    | block hhead => cases hhead

theorem around_leftParen {l : Leaf} (h : Production r qs q) (hqs : qs = qs₁ ++ .token l :: qs₂)
    (hl : l.tag = .leftParen) :
    (∃ ps x, qs₁ = ps ++ [.token x] ∧ x.tag = .name ∧ (r = .functionHead ∨ r = .newHead ∨
      (∃ ps' d, ps = ps' ++ [.token d] ∧ d.tag = .dot) ∨ (r = .callHead ∧ ps = [] ∧ qs₂ = []))) ∨
    (r = .group ∧ qs₁ = [] ∧ ∃ st k e c, qs₂ = [.expr st k e, .token c] ∧ c.tag = .rightParen ∧
      q = .expr l.start 7 e) := by
  have hmem := h.tag_mem (p := .token l) (by simp [hqs])
  rw [Phrase.tag_token, hl] at hmem
  have hrule : r = .functionHead ∨ r = .newHead ∨ r = .methodHead ∨ r = .callHead ∨
      r = .group := by
    cases r <;> simp [Rule.alphabet] at hmem ⊢
  rcases hrule with rfl | rfl | rfl | rfl | rfl
  · cases h with
    | functionHead hw hx hl' hps hr hb =>
      rcases List.cons_eq_append_iff.mp hqs with ⟨rfl, h⟩ | ⟨us, rfl, hqs₂⟩
      · obtain ⟨h, -⟩ := List.cons.inj h
        rw [Phrase.token.inj h, hw] at hl
        cases hl
      rcases List.cons_eq_append_iff.mp hqs₂ with ⟨rfl, h⟩ | ⟨us, rfl, hqs₃⟩
      · obtain ⟨h, -⟩ := List.cons.inj h
        rw [Phrase.token.inj h, hx] at hl
        cases hl
      rcases List.cons_eq_append_iff.mp hqs₃ with ⟨rfl, h⟩ | ⟨us, rfl, hqs₄⟩
      · exact .inl ⟨[_], _, rfl, hx, .inl rfl⟩
      · have hmem : Phrase.token l ∈ us ++ Phrase.token l :: qs₂ := by simp
        rw [← hqs₄] at hmem
        simp only [List.mem_append, List.mem_cons, List.not_mem_nil, or_false] at hmem
        rcases hmem with hmem | h | h
        · rcases hps.tag_mem IsName.tag_eq hmem with h | h <;>
            · rw [Phrase.tag_token, hl] at h
              cases h
        · rw [Phrase.token.inj h, hr] at hl
          cases hl
        · rw [Phrase.token.inj h, hb] at hl
          cases hl
    | binary ho hrule => exact absurd (hrule ▸ Tag.rule_of_operator? ho) (by decide)
    | block hhead => cases hhead
  · cases h with
    | newHead hw hx =>
      simp [List.cons_eq_append_iff] at hqs
      rcases hqs with ⟨-, rfl, -⟩ | ⟨_, rfl, ⟨-, rfl, -⟩ | ⟨rfl, rfl, rfl⟩⟩
      · rw [hw] at hl
        cases hl
      · rw [hx] at hl
        cases hl
      · exact .inl ⟨[_], _, rfl, hx, .inr (.inl rfl)⟩
    | binary ho hrule => exact absurd (hrule ▸ Tag.rule_of_operator? ho) (by decide)
    | block hhead => cases hhead
  · cases h with
    | methodHead hd _ hx =>
      simp [List.cons_eq_append_iff] at hqs
      rcases hqs with ⟨_, rfl, ⟨-, rfl, -⟩ | ⟨_, rfl, ⟨-, rfl, -⟩ | ⟨rfl, rfl, rfl⟩⟩⟩
      · rw [hd] at hl
        cases hl
      · rw [hx] at hl
        cases hl
      · exact .inl ⟨[_, _], _, rfl, hx, .inr (.inr (.inl ⟨[_], _, rfl, hd⟩))⟩
    | binary ho hrule => exact absurd (hrule ▸ Tag.rule_of_operator? ho) (by decide)
    | block hhead => cases hhead
  · cases h with
    | callHead hx =>
      simp [List.cons_eq_append_iff] at hqs
      rcases hqs with ⟨-, rfl, -⟩ | ⟨rfl, rfl, rfl⟩
      · rw [hx] at hl
        cases hl
      · exact .inl ⟨[], _, rfl, hx, .inr (.inr (.inr ⟨rfl, rfl, rfl⟩))⟩
    | binary ho hrule => exact absurd (hrule ▸ Tag.rule_of_operator? ho) (by decide)
    | block hhead => cases hhead
  · cases h with
    | group _ hr =>
      simp [List.cons_eq_append_iff] at hqs
      rcases hqs with ⟨rfl, rfl, rfl⟩ | ⟨-, rfl, -⟩
      · exact .inr ⟨rfl, rfl, _, _, _, _, rfl, hr, rfl⟩
      · rw [hr] at hl
        cases hl
    | binary ho hrule => exact absurd (hrule ▸ Tag.rule_of_operator? ho) (by decide)
    | block hhead => cases hhead

theorem around_operator {o : Leaf} {p : Operator} (h : Production r qs q)
    (hqs : qs = qs₁ ++ .token o :: qs₂) (ho : o.tag.operator? = some p) :
    (r = p.rule ∧ o.broken = false ∧ ∃ st i e st' j e', qs₁ = [.expr st i e] ∧
      qs₂ = [.expr st' j e'] ∧ p.left ≤ i ∧ p.right ≤ j ∧ q.start = st) ∨
    (r = .unary ∧ o.IsPrefix ∧ qs₁ = [] ∧ ∃ st k e, qs₂ = [.expr st k e] ∧ 5 ≤ k) := by
  have hmem := h.tag_mem (p := .token o) (by simp [hqs])
  rw [Phrase.tag_token] at hmem
  have hrule : r = p.rule ∨ r = .unary := by
    generalize o.tag = t at ho hmem
    cases t <;> cases ho <;> cases r <;> simp [Rule.alphabet] at hmem ⊢
  rcases hrule with hrule | rfl
  · cases h with
    | binary ho' hr' hb hi hj =>
      simp [List.cons_eq_append_iff] at hqs
      obtain ⟨rfl, rfl, rfl⟩ := hqs
      obtain rfl : _ = p := Option.some.inj (ho'.symm.trans ho)
      exact .inl ⟨hrule, hb, _, _, _, _, _, _, rfl, rfl, hi, hj, rfl⟩
    | block hhead => cases hhead <;> exact absurd (hrule ▸ Tag.rule_of_operator? ho) (by decide)
    | _ => exact absurd (hrule ▸ Tag.rule_of_operator? ho) (by decide)
  · cases h with
    | unary ho' hk =>
      simp [List.cons_eq_append_iff] at hqs
      obtain ⟨rfl, rfl, rfl⟩ := hqs
      exact .inr ⟨rfl, ho', rfl, _, _, _, rfl, hk⟩
    | binary ho hrule => exact absurd (hrule ▸ Tag.rule_of_operator? ho) (by decide)
    | block hhead => cases hhead

theorem around_else {o : Leaf} (h : Production r qs q) (hqs : qs = qs₁ ++ .token o :: qs₂)
    (ho : o.tag = .elseIfWord ∨ o.tag = .elseWord) :
    (∃ st line c b rest, qs₁ = [.program st (.single (.branch line c b rest))]) ∧
      ∃ ds b, b.tag = Tag.rightBrace ∧
        ((r = .elseIf ∧ o.tag = .elseIfWord ∧ ∃ st k e l,
          qs₂ = .expr st k e :: .token l :: (ds.map Chunk.phrase ++ [.token b])) ∨
        (r = .otherwise ∧ o.tag = .elseWord ∧ ∃ l,
          qs₂ = .token l :: (List.map Chunk.phrase ds ++ [.token b]))) := by
  have hmem := h.tag_mem (p := .token o) (by simp [hqs])
  rw [Phrase.tag_token] at hmem
  have hrule : r = .elseIf ∧ o.tag = .elseIfWord ∨ r = .otherwise ∧ o.tag = .elseWord := by
    rcases ho with ho | ho <;> rw [ho] at hmem ⊢ <;>
      cases r <;> simp [Rule.alphabet] at hmem ⊢
  -- the keyword stands neither in the body nor at its end
  have hbody : ∀ {ds : List Chunk} {b : Leaf} {us : List Phrase}, b.tag = .rightBrace →
      ds.map Chunk.phrase ++ [.token b] ≠ us ++ .token o :: qs₂ := by
    intro ds b us hb h
    have hmem : Phrase.token o ∈ us ++ Phrase.token o :: qs₂ := by simp
    rw [← h, List.mem_append, List.mem_map, List.mem_singleton] at hmem
    rcases hmem with ⟨c, -, h⟩ | h
    · cases h
    · rw [Phrase.token.inj h, hb] at ho
      simp at ho
  rcases hrule with ⟨rfl, ho⟩ | ⟨rfl, ho⟩
  · cases h with
    | block hhead _ hb =>
      cases hhead with
      | elseIf ho' hl =>
        simp only [List.cons_append, List.nil_append] at hqs
        rcases List.cons_eq_append_iff.mp hqs with ⟨-, h⟩ | ⟨us, rfl, hqs₂⟩
        · cases h
        rcases List.cons_eq_append_iff.mp hqs₂ with ⟨rfl, h⟩ | ⟨us, rfl, hqs₃⟩
        · obtain ⟨-, rfl⟩ := List.cons.inj h
          exact ⟨⟨_, _, _, _, _, rfl⟩, _, _, hb, .inl ⟨rfl, ho, _, _, _, _, rfl⟩⟩
        rcases List.cons_eq_append_iff.mp hqs₃ with ⟨-, h⟩ | ⟨us, rfl, hqs₄⟩
        · cases h
        rcases List.cons_eq_append_iff.mp hqs₄ with ⟨-, h⟩ | ⟨us, rfl, hqs₅⟩
        · obtain ⟨h, -⟩ := List.cons.inj h
          rw [Phrase.token.inj h, hl] at ho
          cases ho
        · exact absurd hqs₅ (hbody hb)
    | binary ho hrule => exact absurd (hrule ▸ Tag.rule_of_operator? ho) (by decide)
  · cases h with
    | block hhead _ hb =>
      cases hhead with
      | otherwise ho' hl =>
        simp only [List.cons_append, List.nil_append] at hqs
        rcases List.cons_eq_append_iff.mp hqs with ⟨-, h⟩ | ⟨us, rfl, hqs₂⟩
        · cases h
        rcases List.cons_eq_append_iff.mp hqs₂ with ⟨rfl, h⟩ | ⟨us, rfl, hqs₃⟩
        · obtain ⟨-, rfl⟩ := List.cons.inj h
          exact ⟨⟨_, _, _, _, _, rfl⟩, _, _, hb, .inr ⟨rfl, ho, _, rfl⟩⟩
        rcases List.cons_eq_append_iff.mp hqs₃ with ⟨-, h⟩ | ⟨us, rfl, hqs₄⟩
        · obtain ⟨h, -⟩ := List.cons.inj h
          rw [Phrase.token.inj h, hl] at ho
          cases ho
        · exact absurd hqs₄ (hbody hb)
    | binary ho hrule => exact absurd (hrule ▸ Tag.rule_of_operator? ho) (by decide)

theorem around_name {x : Leaf} (h : Production r qs q) (hqs : qs = qs₁ ++ .token x :: qs₂)
    (hx : x.tag = .name) :
    r = .assignmentHead ∨ r = .functionHead ∨ r = .callHead ∨
      (∃ ps b, qs₁ = ps ++ [.token b] ∧ b.tag.namesMember = true) ∨
        (r = .variable ∧ qs₁ = [] ∧ qs₂ = []) := by
  have hmem := h.tag_mem (p := .token x) (by simp [hqs])
  rw [Phrase.tag_token, hx] at hmem
  cases h with
  | assignmentHead | declaringHead => exact .inl rfl
  | functionHead => exact .inr (.inl rfl)
  | callHead => exact .inr (.inr (.inl rfl))
  | «variable» =>
    simp [List.cons_eq_append_iff] at hqs
    exact .inr (.inr (.inr (.inr ⟨rfl, hqs.1, hqs.2.2⟩)))
  | declaration hv =>
    simp [List.cons_eq_append_iff] at hqs
    rcases hqs with ⟨-, rfl, -⟩ | ⟨rfl, -, -⟩
    · rw [hv] at hx
      cases hx
    · exact .inr (.inr (.inr (.inl ⟨[], _, rfl, by rw [hv]; rfl⟩)))
  | classHead hw _ hb =>
    simp [List.cons_eq_append_iff] at hqs
    rcases hqs with ⟨-, rfl, -⟩ | ⟨_, rfl, ⟨rfl, -, -⟩ | ⟨-, rfl, -⟩⟩
    · rw [hw] at hx
      cases hx
    · exact .inr (.inr (.inr (.inl ⟨[], _, rfl, by rw [hw]; rfl⟩)))
    · rw [hb] at hx
      cases hx
  | extendingHead hw _ hv _ hb =>
    simp [List.cons_eq_append_iff] at hqs
    rcases hqs with ⟨-, rfl, -⟩ | ⟨_, rfl, ⟨rfl, -, -⟩ | ⟨_, rfl, ⟨-, rfl, -⟩ |
      ⟨_, rfl, ⟨rfl, -, -⟩ | ⟨-, rfl, -⟩⟩⟩⟩
    · rw [hw] at hx
      cases hx
    · exact .inr (.inr (.inr (.inl ⟨[], _, rfl, by rw [hw]; rfl⟩)))
    · rw [hv] at hx
      cases hx
    · exact .inr (.inr (.inr (.inl ⟨[_, _], _, rfl, by rw [hv]; rfl⟩)))
    · rw [hb] at hx
      cases hx
  | newHead hw _ hl =>
    simp [List.cons_eq_append_iff] at hqs
    rcases hqs with ⟨-, rfl, -⟩ | ⟨_, rfl, ⟨rfl, -, -⟩ | ⟨-, rfl, -⟩⟩
    · rw [hw] at hx
      cases hx
    · exact .inr (.inr (.inr (.inl ⟨[], _, rfl, by rw [hw]; rfl⟩)))
    · rw [hl] at hx
      cases hx
  | methodHead hd _ _ hl | fieldAssignmentHead hd _ _ hl =>
    simp [List.cons_eq_append_iff] at hqs
    rcases hqs with ⟨_, rfl, ⟨-, rfl, -⟩ | ⟨_, rfl, ⟨rfl, -, -⟩ | ⟨-, rfl, -⟩⟩⟩
    · rw [hd] at hx
      cases hx
    · exact .inr (.inr (.inr (.inl ⟨[_], _, rfl, by rw [hd]; rfl⟩)))
    · rw [hl] at hx
      cases hx
  | field hd =>
    simp [List.cons_eq_append_iff] at hqs
    rcases hqs with ⟨_, rfl, ⟨-, rfl, -⟩ | ⟨rfl, -, -⟩⟩
    · rw [hd] at hx
      cases hx
    · exact .inr (.inr (.inr (.inl ⟨[_], _, rfl, by rw [hd]; rfl⟩)))
  | binary ho hr =>
    rw [← hr, Tag.alphabet_of_operator? ho] at hmem
    simp only [List.mem_cons, List.not_mem_nil, or_false, reduceCtorEq, false_or] at hmem
    rw [← hmem] at ho
    cases ho
  | block hhead => cases hhead <;> simp [Rule.alphabet] at hmem
  | _ => simp [Rule.alphabet] at hmem

theorem around_leftBrace {l : Leaf} (h : Production r qs q) (hqs : qs = qs₁ ++ .token l :: qs₂)
    (hl : l.tag = .leftBrace) :
    ∃ ps p, qs₁ = ps ++ [p] ∧ ∀ t, p.tag.ends t = true → t.expectsValue = false := by
  have hmem := h.tag_mem (p := .token l) (by simp [hqs])
  rw [Phrase.tag_token, hl] at hmem
  cases h with
  | @functionHead w x l' c b ps _ hw hx hl' hps hc hb =>
    -- only the last of the head is a brace
    have hqs' : (.token w :: .token x :: .token l' :: (ps ++ [.token c])) ++ [.token b] =
        qs₁ ++ .token l :: qs₂ := by
      rw [← hqs]
      simp
    rcases mem_split hqs' with ⟨us, rfl, h⟩ | ⟨us, h, -⟩
    · obtain rfl : us = [] := by
        cases us with
        | nil => rfl
        | cons p us => simp at h
      refine ⟨.token w :: .token x :: .token l' :: ps, .token c, by simp, fun t ht => ?_⟩
      rw [Phrase.tag_token, hc] at ht
      rw [beq_iff_eq.mp ht]
      rfl
    · have hl'' : Phrase.token l ∈ qs₁ ++ Phrase.token l :: us := by simp
      rw [← h] at hl''
      simp only [List.mem_cons, List.mem_append, List.not_mem_nil, or_false] at hl''
      rcases hl'' with h | h | h | h | h
      · rw [Phrase.token.inj h, hw] at hl
        cases hl
      · rw [Phrase.token.inj h, hx] at hl
        cases hl
      · rw [Phrase.token.inj h, hl'] at hl
        cases hl
      · rcases hps.tag_mem IsName.tag_eq h with h | h <;>
          · rw [Phrase.tag_token, hl] at h
            cases h
      · rw [Phrase.token.inj h, hc] at hl
        cases hl
  | classHead hw hx hb =>
    simp [List.cons_eq_append_iff] at hqs
    rcases hqs with ⟨-, rfl, -⟩ | ⟨_, rfl, ⟨-, rfl, -⟩ | ⟨rfl, -, -⟩⟩
    · rw [hw] at hl
      cases hl
    · rw [hx] at hl
      cases hl
    · refine ⟨[_], _, rfl, fun t ht => ?_⟩
      rw [Phrase.tag_token, hx] at ht
      rw [beq_iff_eq.mp ht]
      rfl
  | extendingHead hw hx hv hy hb =>
    simp [List.cons_eq_append_iff] at hqs
    rcases hqs with ⟨-, rfl, -⟩ | ⟨_, rfl, ⟨-, rfl, -⟩ | ⟨_, rfl, ⟨-, rfl, -⟩ |
      ⟨_, rfl, ⟨-, rfl, -⟩ | ⟨rfl, -, -⟩⟩⟩⟩
    · rw [hw] at hl
      cases hl
    · rw [hx] at hl
      cases hl
    · rw [hv] at hl
      cases hl
    · rw [hy] at hl
      cases hl
    · refine ⟨[_, _, _], _, rfl, fun t ht => ?_⟩
      rw [Phrase.tag_token, hy] at ht
      rw [beq_iff_eq.mp ht]
      rfl
  | binary ho hr =>
    rw [← hr, Tag.alphabet_of_operator? ho] at hmem
    simp only [List.mem_cons, List.not_mem_nil, or_false, reduceCtorEq, false_or] at hmem
    rw [← hmem] at ho
    cases ho
  | block hhead _ hb =>
    rcases mem_split hqs with ⟨us, rfl, h⟩ | ⟨us, h, -⟩
    · have hl' : Phrase.token l ∈ us ++ Phrase.token l :: qs₂ := by simp
      rw [← h, List.mem_append, List.mem_map, List.mem_singleton] at hl'
      rcases hl' with ⟨c, -, h⟩ | h
      · cases h
      · rw [Phrase.token.inj h, hb] at hl
        cases hl
    · exact hhead.around_leftBrace h hl
  | _ => simp [Rule.alphabet] at hmem

end Production

end StackScript
