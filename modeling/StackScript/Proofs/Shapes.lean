import StackScript.Proofs.Patterns
import StackScript.Proofs.Phrases

/-!
# StackScript.Proofs.Shapes — the runs of tags that a rule matches

`Rule.Shape` lists what the pattern of a rule takes: which tags in which order.  Where a pattern has
taken something it has this shape, and the pattern takes whatever has it.
-/

namespace StackScript

namespace Pattern

theorem rest?_tag_iff {t : Tag} {ts ts' : List Tag} :
    (tag t).rest? ts = some ts' ↔ ts = t :: ts' := by
  constructor
  · exact rest?_tag_eq_some
  · rintro rfl
    rw [rest?_tag_cons, if_pos rfl]

theorem rest?_one_iff {of ts ts' : List Tag} :
    (one of).rest? ts = some ts' ↔ ∃ t, t ∈ of ∧ ts = t :: ts' := by
  constructor
  · intro h
    cases ts with
    | nil => cases h
    | cons t ts =>
      rw [rest?_one_cons] at h
      split at h
      case isTrue ht => exact ⟨t, List.contains_iff_mem.mp ht, by rw [Option.some.inj h]⟩
      case isFalse => cases h
  · rintro ⟨t, ht, rfl⟩
    rw [rest?_one_cons, if_pos (List.contains_iff_mem.mpr ht)]

theorem rest?_tags_iff {us ts ts' : List Tag} :
    (tags us).rest? ts = some ts' ↔ ts = us ++ ts' := by
  induction us generalizing ts with
  | nil => exact ⟨Option.some.inj, congrArg some⟩
  | cons u us ih =>
    cases us with
    | nil => exact rest?_tag_iff
    | cons v us =>
      rw [tags, List.map_cons, List.map_cons, all_cons, rest?_andThen, Option.bind_eq_some_iff]
      simp only [rest?_tag_iff]
      constructor
      · rintro ⟨us', rfl, h⟩
        rw [ih.mp h]
        rfl
      · rintro rfl
        exact ⟨_, rfl, ih.mpr rfl⟩

/-- Tags in sequence, and other patterns behind them. -/
theorem rest?_all_tags (us : List Tag) {q : Pattern} {qs : List Pattern} {ts ts' : List Tag} :
    (all (us.map tag ++ q :: qs)).rest? ts = some ts' ↔
      ∃ vs, ts = us ++ vs ∧ (all (q :: qs)).rest? vs = some ts' := by
  induction us generalizing ts with
  | nil => exact ⟨fun h => ⟨ts, rfl, h⟩, fun ⟨_, rfl, h⟩ => h⟩
  | cons u us ih =>
    have hall : all ((u :: us).map tag ++ q :: qs) = andThen (tag u) (all (us.map tag ++ q :: qs)) := by
      cases us <;> rfl
    rw [hall, rest?_andThen, Option.bind_eq_some_iff]
    constructor
    · rintro ⟨us', hu, h⟩
      obtain rfl := rest?_tag_iff.mp hu
      obtain ⟨vs, rfl, hvs⟩ := ih.mp h
      exact ⟨vs, rfl, hvs⟩
    · rintro ⟨vs, rfl, h⟩
      exact ⟨us ++ vs, rest?_tag_iff.mpr (List.cons_append ..), ih.mpr ⟨vs, rfl, h⟩⟩

/-- A pattern, or nothing where it does not match. -/
theorem rest?_optional_iff {p : Pattern} {ts ts' : List Tag} :
    (optional p).rest? ts = some ts' ↔ p.rest? ts = some ts' ∨ p.rest? ts = none ∧ ts = ts' := by
  rw [rest?_optional, Option.some.injEq]
  cases p.rest? ts <;> simp

/-- A tag any number of times with commas between. -/
inductive Series (t : Tag) : List Tag → Prop
  | one : Series t [t]
  | more {us : List Tag} (h : Series t us) : Series t (t :: .comma :: us)

/-- What a list with commas takes is a series or nothing. -/
theorem series_of_commaRest (t : Tag) (ts : List Tag) :
    ∃ us, Series t (t :: us) ∧ ts = us ++ commaRest t ts := by
  fun_induction commaRest t ts with
  | case1 ts ih =>
    obtain ⟨us, hus, hts⟩ := ih
    refine ⟨.comma :: t :: us, .more hus, ?_⟩
    rw [List.cons_append, List.cons_append, ← hts]
  | case2 | case3 => exact ⟨[], .one, rfl⟩

theorem commaRest_of_series {t c : Tag} {us ts : List Tag} (h : Series t (t :: us))
    (hc : c ≠ .comma) : commaRest t (us ++ c :: ts) = c :: ts := by
  generalize hvs : t :: us = vs at h
  induction h generalizing us with
  | one =>
    obtain rfl := (List.cons.inj hvs).2
    rw [List.nil_append, commaRest]
    intro u ts h
    exact absurd (List.cons.inj h).1 hc
  | @more vs h ih =>
    obtain ⟨-, rfl⟩ := List.cons.inj hvs
    cases h with
    | one =>
      rw [List.cons_append, List.cons_append, commaRest, if_pos rfl]
      exact ih rfl
    | more h =>
      rw [List.cons_append, List.cons_append, commaRest, if_pos rfl]
      exact ih rfl

theorem rest?_commaList_iff {t c : Tag} {ts ts' : List Tag} (hc : c ≠ .comma) (ht : c ≠ t) :
    (commaList (tag t)).rest? ts = some (c :: ts') ↔
      ∃ us, (us = [] ∨ Series t us) ∧ ts = us ++ c :: ts' := by
  cases ts with
  | nil =>
    constructor
    · intro h
      cases h
    · rintro ⟨us, -, h⟩
      simp at h
  | cons u ts =>
    rw [rest?_commaList_cons, Option.some.injEq]
    constructor
    · intro h
      split at h
      case isTrue hu =>
        obtain ⟨us, hus, hts⟩ := series_of_commaRest t ts
        exact ⟨t :: us, .inr hus, by rw [hu, hts, h, List.cons_append]⟩
      case isFalse => exact ⟨[], .inl rfl, h⟩
    · rintro ⟨us, rfl | hus, h⟩
      · obtain ⟨rfl, rfl⟩ := List.cons.inj h
        rw [if_neg ht]
      · obtain ⟨vs, rfl⟩ : ∃ vs, us = t :: vs := by cases hus <;> exact ⟨_, rfl⟩
        rw [List.cons_append, List.cons.injEq] at h
        rw [if_pos h.1, h.2, commaRest_of_series hus hc]

/-! ### Properties of what a pattern takes -/

/-- What the pattern takes off a list has the property. -/
def Yields (p : Pattern) (P : List Tag → Prop) : Prop :=
  ∀ ts ts', p.rest? ts = some ts' → ∃ us, P us ∧ ts = us ++ ts'

section Yields

variable {p q : Pattern} {P : List Tag → Prop} (hnil : P [])
  (happend : ∀ us vs, P us → P vs → P (us ++ vs))

include happend in
theorem Yields.andThen (hp : p.Yields P) (hq : q.Yields P) : (andThen p q).Yields P := by
  intro ts ts' h
  obtain ⟨ts'', h₁, h₂⟩ := Option.bind_eq_some_iff.mp h
  obtain ⟨us, hus, rfl⟩ := hp ts ts'' h₁
  obtain ⟨vs, hvs, rfl⟩ := hq ts'' ts' h₂
  exact ⟨us ++ vs, happend us vs hus hvs, (List.append_assoc _ _ _).symm⟩

include hnil in
theorem Yields.optional (hp : p.Yields P) : (optional p).Yields P := by
  intro ts ts' h
  rw [rest?_optional, Option.some.injEq] at h
  cases hrest : p.rest? ts with
  | none =>
    rw [hrest, Option.getD_none] at h
    exact ⟨[], hnil, h⟩
  | some ts'' =>
    rw [hrest, Option.getD_some] at h
    exact hp ts ts' (h ▸ hrest)

include hnil happend in
theorem Yields.many (hp : p.Yields P) : (many p).Yields P := by
  have hrepeated : ∀ n ts, ∃ us, P us ∧ ts = us ++ repeated p.rest? n ts := by
    intro n
    induction n with
    | zero => exact fun ts => ⟨[], hnil, rfl⟩
    | succ n ih =>
      intro ts
      rw [repeated]
      split
      · exact ⟨[], hnil, rfl⟩
      · rename_i ts' hstep
        obtain ⟨us, hus, rfl⟩ := hp ts ts' hstep
        obtain ⟨vs, hvs, hts'⟩ := ih ts'
        exact ⟨us ++ vs, happend us vs hus hvs, by rw [List.append_assoc, ← hts']⟩
  intro ts ts' h
  rw [← Option.some.inj h]
  exact hrepeated _ ts

end Yields

theorem yields_tags {us : List Tag} {P : List Tag → Prop} (h : P us) : (tags us).Yields P :=
  fun _ _ hrest => ⟨us, h, rest?_tags_iff.mp hrest⟩

end Pattern

open Pattern

/-- What closes a block, with the program in it if there is one. -/
inductive Tag.Body : List Tag → Prop
  | empty : Body [.rightBrace]
  | program : Body [.program, .rightBrace]

/-- The tags that the pattern of a rule takes, `sequence` apart. -/
inductive Rule.Shape : Rule → List Tag → Prop
  | literal {t : Tag} (h : t ∈ [Tag.number, .text, .boolean, .null, .thisWord, .superWord]) :
    Shape .literal [t]
  | assignmentHead : Shape .assignmentHead [.name, .equals]
  | declaringHead : Shape .assignmentHead [.varWord, .name, .equals]
  | declaration : Shape .declaration [.varWord, .name]
  | functionHead {us : List Tag} (h : us = [] ∨ Series .name us) :
    Shape .functionHead (.funcWord :: .name :: .leftParen :: (us ++ [.rightParen, .leftBrace]))
  | classHead : Shape .classHead [.classWord, .name, .leftBrace]
  | extendingHead : Shape .classHead [.classWord, .name, .extendsWord, .name, .leftBrace]
  | newHead : Shape .newHead [.newWord, .name, .leftParen]
  | methodHead : Shape .methodHead [.expression, .dot, .name, .leftParen]
  | fieldAssignmentHead : Shape .fieldAssignmentHead [.expression, .dot, .name, .equals]
  | field : Shape .field [.expression, .dot, .name]
  | callHead : Shape .callHead [.name, .leftParen]
  | variable : Shape .variable [.name]
  | list {us : List Tag} (h : us = [] ∨ Series .expression us) :
    Shape .list (.leftBracket :: (us ++ [.rightBracket]))
  | map {us : List Tag} : Shape .map (.leftBrace :: us)
  | group : Shape .group [.leftParen, .expression, .rightParen]
  | unary {t : Tag} (h : t ∈ [Tag.term, .negation, .tilde]) : Shape .unary [t, .expression]
  | binary {t : Tag} {p : Operator} {r : Rule} (h : t.operator? = some p) (hr : p.rule = r) :
    Shape r [.expression, t, .expression]
  | arguments {t : Tag} {us : List Tag} (ht : t = .callHead ∨ t = .newHead)
    (h : us = [] ∨ Series .expression us) : Shape .arguments (t :: (us ++ [.rightParen]))
  | jump {t : Tag} (ht : t = .continueWord ∨ t = .breakWord) : Shape .jump [t]
  | print : Shape .print [.printWord, .expression]
  | returnsBare : Shape .returns [.returnWord]
  | returns : Shape .returns [.returnWord, .expression]
  | assignment : Shape .assignment [.assignmentHead, .expression]
  | branch {us : List Tag} (h : Tag.Body us) :
    Shape .branch ([.ifWord, .expression, .leftBrace] ++ us)
  | elseIf {us : List Tag} (h : Tag.Body us) :
    Shape .elseIf ([.program, .elseIfWord, .expression, .leftBrace] ++ us)
  | otherwise {us : List Tag} (h : Tag.Body us) :
    Shape .otherwise ([.program, .elseWord, .leftBrace] ++ us)
  | loop {us : List Tag} (h : Tag.Body us) :
    Shape .loop ([.whileWord, .expression, .leftBrace] ++ us)
  | functionEnd {us : List Tag} (h : Tag.Body us) : Shape .functionEnd ([.functionHead] ++ us)
  | classEnd {us : List Tag} (h : Tag.Body us) : Shape .classEnd ([.classHead] ++ us)
  | trailing : Shape .trailing [.program, .semicolon]
  | statement : Shape .statement [.expression]

namespace Rule

/-- The pattern of what closes a block. -/
theorem rest?_body_iff {ts ts' : List Tag} :
    (andThen (optional (tag .program)) (tag .rightBrace)).rest? ts = some ts' ↔
      ∃ us, Tag.Body us ∧ ts = us ++ ts' := by
  constructor
  · intro h
    obtain ⟨us, hprogram, h⟩ := Option.bind_eq_some_iff.mp h
    obtain rfl := rest?_tag_iff.mp h
    rcases rest?_optional_iff.mp hprogram with hprogram | ⟨-, rfl⟩
    · exact ⟨_, .program, rest?_tag_iff.mp hprogram⟩
    · exact ⟨_, .empty, rfl⟩
  · rintro ⟨us, hus, rfl⟩
    cases hus <;> rfl

/-- A pattern takes runs of the shape that its rule has. -/
theorem shape_of_rest? {r : Rule} {ts ts' : List Tag} (hr : r ≠ .sequence)
    (h : r.pattern.rest? ts = some ts') : ∃ us, r.Shape us ∧ ts = us ++ ts' := by
  cases r with
  | literal =>
    obtain ⟨t, ht, rfl⟩ := rest?_one_iff.mp h
    exact ⟨_, .literal ht, rfl⟩
  | declaration => exact ⟨_, .declaration, rest?_tags_iff.mp h⟩
  | newHead => exact ⟨_, .newHead, rest?_tags_iff.mp h⟩
  | methodHead => exact ⟨_, .methodHead, rest?_tags_iff.mp h⟩
  | fieldAssignmentHead => exact ⟨_, .fieldAssignmentHead, rest?_tags_iff.mp h⟩
  | field => exact ⟨_, .field, rest?_tags_iff.mp h⟩
  | callHead => exact ⟨_, .callHead, rest?_tags_iff.mp h⟩
  | «variable» => exact ⟨_, .variable, rest?_tag_iff.mp h⟩
  | group => exact ⟨_, .group, rest?_tags_iff.mp h⟩
  | power => exact ⟨_, .binary rfl rfl, rest?_tags_iff.mp h⟩
  | factor => exact ⟨_, .binary rfl rfl, rest?_tags_iff.mp h⟩
  | term => exact ⟨_, .binary rfl rfl, rest?_tags_iff.mp h⟩
  | comparison => exact ⟨_, .binary rfl rfl, rest?_tags_iff.mp h⟩
  | logic => exact ⟨_, .binary rfl rfl, rest?_tags_iff.mp h⟩
  | print => exact ⟨_, .print, rest?_tags_iff.mp h⟩
  | assignment => exact ⟨_, .assignment, rest?_tags_iff.mp h⟩
  | trailing => exact ⟨_, .trailing, rest?_tags_iff.mp h⟩
  | statement => exact ⟨_, .statement, rest?_tag_iff.mp h⟩
  | jump =>
    obtain ⟨t, ht, rfl⟩ := rest?_one_iff.mp h
    exact ⟨_, .jump (by simpa using ht), rfl⟩
  | unary =>
    obtain ⟨us, hus, h'⟩ := Option.bind_eq_some_iff.mp h
    obtain ⟨t, ht, rfl⟩ := rest?_one_iff.mp hus
    exact ⟨_, .unary ht, by rw [rest?_tag_iff.mp h']; rfl⟩
  | returns =>
    obtain ⟨us, rfl, hrest⟩ := (rest?_all_tags [.returnWord]).mp h
    rcases rest?_optional_iff.mp hrest with hvalue | ⟨-, rfl⟩
    · obtain rfl := rest?_tag_iff.mp hvalue
      exact ⟨_, .returns, rfl⟩
    · exact ⟨_, .returnsBare, rfl⟩
  | assignmentHead =>
    obtain ⟨us, hdeclares, hrest⟩ := Option.bind_eq_some_iff.mp h
    obtain rfl : us = [Tag.name, .equals] ++ ts' := rest?_tags_iff.mp hrest
    rcases rest?_optional_iff.mp hdeclares with hword | ⟨-, rfl⟩
    · exact ⟨_, .declaringHead, rest?_tag_iff.mp hword⟩
    · exact ⟨_, .assignmentHead, rfl⟩
  | functionHead =>
    obtain ⟨us₁, rfl, hrest⟩ := (rest?_all_tags [.funcWord, .name, .leftParen]).mp h
    obtain ⟨us₂, hcommas, hrest⟩ := Option.bind_eq_some_iff.mp hrest
    obtain rfl : us₂ = [Tag.rightParen, .leftBrace] ++ ts' := rest?_tags_iff.mp hrest
    obtain ⟨us, hus, rfl⟩ := (rest?_commaList_iff (by decide) (by decide)).mp hcommas
    exact ⟨_, .functionHead hus, by simp⟩
  | classHead =>
    obtain ⟨us₁, rfl, hrest⟩ := (rest?_all_tags [.classWord, .name]).mp h
    obtain ⟨us₂, hparent, hrest⟩ := Option.bind_eq_some_iff.mp hrest
    obtain rfl := rest?_tag_iff.mp hrest
    rcases rest?_optional_iff.mp hparent with hparent | ⟨-, rfl⟩
    · obtain rfl := rest?_tags_iff.mp hparent
      exact ⟨_, .extendingHead, rfl⟩
    · exact ⟨_, .classHead, rfl⟩
  | list =>
    obtain ⟨us₁, rfl, hrest⟩ := (rest?_all_tags [.leftBracket]).mp h
    obtain ⟨us₂, hcommas, hrest⟩ := Option.bind_eq_some_iff.mp hrest
    obtain rfl := rest?_tag_iff.mp hrest
    obtain ⟨us, hus, rfl⟩ := (rest?_commaList_iff (by decide) (by decide)).mp hcommas
    exact ⟨_, .list hus, by simp⟩
  | map =>
    obtain ⟨us₁, rfl, hrest⟩ := (rest?_all_tags [.leftBrace]).mp h
    obtain ⟨us, rfl⟩ := rest?_suffix hrest
    exact ⟨_, .map, rfl⟩
  | arguments =>
    obtain ⟨us₁, hhead, hrest⟩ := Option.bind_eq_some_iff.mp h
    obtain ⟨us₂, hcommas, hrest⟩ := Option.bind_eq_some_iff.mp hrest
    obtain ⟨t, ht, rfl⟩ := rest?_one_iff.mp hhead
    obtain rfl := rest?_tag_iff.mp hrest
    obtain ⟨us, hus, rfl⟩ := (rest?_commaList_iff (by decide) (by decide)).mp hcommas
    exact ⟨_, .arguments (by simpa using ht) hus, by simp⟩
  | branch =>
    obtain ⟨us₁, rfl, hrest⟩ := (rest?_all_tags [.ifWord, .expression, .leftBrace]).mp h
    obtain ⟨us, hus, rfl⟩ := rest?_body_iff.mp hrest
    exact ⟨_, .branch hus, rfl⟩
  | elseIf =>
    obtain ⟨us₁, rfl, hrest⟩ := (rest?_all_tags [.program, .elseIfWord, .expression, .leftBrace]).mp h
    obtain ⟨us, hus, rfl⟩ := rest?_body_iff.mp hrest
    exact ⟨_, .elseIf hus, rfl⟩
  | otherwise =>
    obtain ⟨us₁, rfl, hrest⟩ := (rest?_all_tags [.program, .elseWord, .leftBrace]).mp h
    obtain ⟨us, hus, rfl⟩ := rest?_body_iff.mp hrest
    exact ⟨_, .otherwise hus, rfl⟩
  | loop =>
    obtain ⟨us₁, rfl, hrest⟩ := (rest?_all_tags [.whileWord, .expression, .leftBrace]).mp h
    obtain ⟨us, hus, rfl⟩ := rest?_body_iff.mp hrest
    exact ⟨_, .loop hus, rfl⟩
  | functionEnd =>
    obtain ⟨us₁, rfl, hrest⟩ := (rest?_all_tags [.functionHead]).mp h
    obtain ⟨us, hus, rfl⟩ := rest?_body_iff.mp hrest
    exact ⟨_, .functionEnd hus, rfl⟩
  | classEnd =>
    obtain ⟨us₁, rfl, hrest⟩ := (rest?_all_tags [.classHead]).mp h
    obtain ⟨us, hus, rfl⟩ := rest?_body_iff.mp hrest
    exact ⟨_, .classEnd hus, rfl⟩
  | sequence => exact absurd rfl hr

/-- A pattern takes what has the shape of its rule.  A `return` takes an expression if it can. -/
theorem rest?_of_shape {r : Rule} {us ts : List Tag} (hr : r ≠ .map) (h : r.Shape us)
    (hbare : us = [.returnWord] → ts.head? ≠ some .expression) :
    r.pattern.rest? (us ++ ts) = some ts := by
  cases h with
  | literal h => exact rest?_one_iff.mpr ⟨_, h, rfl⟩
  | jump h => exact rest?_one_iff.mpr ⟨_, by simpa using h, rfl⟩
  | assignmentHead | declaringHead | declaration | classHead | extendingHead | newHead | methodHead
  | fieldAssignmentHead | field | callHead | «variable» | group | print | returns | assignment
  | trailing | statement => rfl
  | @functionHead us h =>
    have hcommas := (rest?_commaList_iff (c := .rightParen) (by decide) (by decide)).mpr
      ⟨us, h, (rfl : _ = us ++ .rightParen :: .leftBrace :: ts)⟩
    have hts : .funcWord :: .name :: .leftParen :: (us ++ [.rightParen, .leftBrace]) ++ ts =
        .funcWord :: .name :: .leftParen :: (us ++ .rightParen :: .leftBrace :: ts) := by simp
    rw [hts]
    exact Option.bind_eq_some_iff.mpr ⟨_, rfl, Option.bind_eq_some_iff.mpr ⟨_, rfl,
      Option.bind_eq_some_iff.mpr ⟨_, rfl, Option.bind_eq_some_iff.mpr ⟨_, hcommas, rfl⟩⟩⟩⟩
  | @list us h =>
    have hcommas := (rest?_commaList_iff (c := .rightBracket) (by decide) (by decide)).mpr
      ⟨us, h, (rfl : _ = us ++ .rightBracket :: ts)⟩
    have hts : .leftBracket :: (us ++ [.rightBracket]) ++ ts =
        .leftBracket :: (us ++ .rightBracket :: ts) := by simp
    rw [hts]
    exact Option.bind_eq_some_iff.mpr ⟨_, rfl, Option.bind_eq_some_iff.mpr ⟨_, hcommas, rfl⟩⟩
  | map => exact absurd rfl hr
  | unary h =>
    exact Option.bind_eq_some_iff.mpr ⟨_, rest?_one_iff.mpr ⟨_, h, rfl⟩, rest?_tag_iff.mpr rfl⟩
  | @binary t _ _ h hr =>
    cases t <;> cases h <;> subst hr <;> rfl
  | @arguments t us ht h =>
    have hcommas := (rest?_commaList_iff (c := .rightParen) (by decide) (by decide)).mpr
      ⟨us, h, (rfl : _ = us ++ .rightParen :: ts)⟩
    have hts : t :: (us ++ [.rightParen]) ++ ts = t :: (us ++ .rightParen :: ts) := by simp
    rw [hts]
    refine Option.bind_eq_some_iff.mpr ⟨_, rest?_one_iff.mpr ⟨t, ?_, rfl⟩,
      Option.bind_eq_some_iff.mpr ⟨_, hcommas, rfl⟩⟩
    simpa using ht
  | returnsBare =>
    cases ts with
    | nil => rfl
    | cons t ts =>
      have ht : t ≠ .expression := fun h => hbare rfl (congrArg some h)
      have hrest : (optional (tag .expression)).rest? (t :: ts) = some (t :: ts) := by
        rw [rest?_optional, rest?_tag_cons, if_neg ht, Option.getD_none]
      exact Option.bind_eq_some_iff.mpr ⟨_, rfl, hrest⟩
  | branch h | elseIf h | otherwise h | loop h | functionEnd h | classEnd h => cases h <;> rfl

end Rule

end StackScript
