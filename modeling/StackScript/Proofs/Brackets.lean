import Mathlib.Algebra.Ring.Int.Defs
import StackScript.Proofs.Made
import StackScript.Proofs.Replacing
import StackScript.Shell.Input

/-!
# StackScript.Proofs.Brackets — a complete program asks for no more lines

Two readers of the same tokens agree: the shell, which counts brackets and looks at the last token,
and the grammar.  Every reduction keeps the number of open brackets of each kind, where the head of
a call or of a declaration stands for the bracket that it opens (`Parsing.Reduction.depths`).  No
match ends in an operator, a comma, a point or the head of an assignment, but for the `=` of such a
head; so if the symbols once end in one of these, they always do.  A program is none of them and
opens nothing.
-/

namespace StackScript

open Parsing Relation Shell

/-! ### Brackets -/

/-- A kind of brackets. -/
inductive Bracket where
  | brace | paren | square
deriving DecidableEq, Repr

namespace Bracket

/-- What a tag adds to the number of open brackets of a kind.  A head that ends in an opening bracket
adds that one. -/
def depth : Bracket → Tag → Int
  | brace, .leftBrace | brace, .functionHead | brace, .classHead => 1
  | paren, .leftParen | paren, .callHead | paren, .newHead => 1
  | square, .leftBracket => 1
  | brace, .rightBrace | paren, .rightParen | square, .rightBracket => -1
  | _, _ => 0

/-- The number of open brackets of a kind behind these tags. -/
def depths (b : Bracket) (ts : List Tag) : Int := (ts.map b.depth).sum

variable (b : Bracket) (t : Tag) (ts us : List Tag)

@[simp] theorem depths_nil : b.depths [] = 0 := rfl

@[simp] theorem depths_cons : b.depths (t :: ts) = b.depth t + b.depths ts := List.sum_cons

@[simp] theorem depths_append : b.depths (ts ++ us) = b.depths ts + b.depths us := by
  rw [depths, List.map_append, List.sum_append]
  rfl

variable {b t ts us}

theorem depths_eq_zero (h : ∀ t ∈ ts, b.depth t = 0) : b.depths ts = 0 := by
  induction ts with
  | nil => rfl
  | cons t ts ih =>
    obtain ⟨ht, hts⟩ := List.forall_mem_cons.mp h
    rw [depths_cons, ht, ih hts, Int.add_zero]

/-- What adds nothing can be left out. -/
theorem depths_filter {keeps : Tag → Bool} (h : ∀ t ∈ ts, keeps t = false → b.depth t = 0) :
    b.depths (ts.filter keeps) = b.depths ts := by
  induction ts with
  | nil => rfl
  | cons t ts ih =>
    obtain ⟨ht, hts⟩ := List.forall_mem_cons.mp h
    rw [List.filter_cons, depths_cons, ← ih hts]
    cases hkeeps : keeps t with
    | true => rw [if_pos rfl, depths_cons]
    | false => rw [if_neg Bool.false_ne_true, ht hkeeps, Int.zero_add]

/-- Line breaks are no brackets. -/
theorem depths_filter_ink (b : Bracket) (ts : List Tag) :
    b.depths (ts.filter Tag.isInk) = b.depths ts := by
  refine depths_filter fun t _ ht => ?_
  obtain rfl : t = .newline := by simpa [Tag.isInk] using ht
  cases b <;> rfl

/-- The shell counts the brackets of all kinds in what the lexer gives. -/
theorem bracketDepth_eq (h : t ∉ Rule.results) :
    bracketDepth t = brace.depth t + paren.depth t + square.depth t := by
  cases t <;> first | rfl | exact absurd (by decide) h

end Bracket

/-- An input cannot end with this, or with what a symbol with this tag stands for. -/
def Tag.pending : Tag → Bool
  | assignmentHead | negation | tilde => true
  | t => asksForMore t

/-! ### What a rule takes -/

namespace Rule

open Pattern

variable {r : Rule} {b : Bracket} {t : Tag} {us ts : List Tag}

/-- A list with commas opens no brackets. -/
theorem depths_series (h : us = [] ∨ Series t us) (ht : b.depth t = 0) : b.depths us = 0 := by
  have hcomma : b.depth .comma = 0 := by cases b <;> rfl
  rcases h with rfl | h
  · rfl
  · induction h with
    | one => rw [Bracket.depths_cons, ht, Bracket.depths_nil, Int.add_zero]
    | more _ ih => rw [Bracket.depths_cons, Bracket.depths_cons, ht, hcomma, ih]; rfl

theorem depths_body (h : Tag.Body us) (b : Bracket) : b.depths us = b.depth .rightBrace := by
  cases h <;> cases b <;> rfl

/-- A shape opens the brackets that the result of its rule stands for. -/
theorem Shape.depths (h : r.Shape us) (hr : r ≠ .map) (b : Bracket) :
    b.depths us = b.depth r.result := by
  cases h with
  | literal h =>
    simp only [List.mem_cons, List.not_mem_nil, or_false] at h
    rcases h with rfl | rfl | rfl | rfl | rfl | rfl <;> cases b <;> rfl
  | unary h =>
    simp only [List.mem_cons, List.not_mem_nil, or_false] at h
    rcases h with rfl | rfl | rfl <;> cases b <;> rfl
  | @binary t _ _ h hr =>
    subst hr
    cases t <;> cases h <;> cases b <;> rfl
  | jump h => rcases h with rfl | rfl <;> cases b <;> rfl
  | functionHead h =>
    have hcommas := depths_series h (b := b) (by cases b <;> rfl)
    simp only [Bracket.depths_cons, Bracket.depths_append, hcommas]
    cases b <;> rfl
  | list h =>
    have hcommas := depths_series h (b := b) (by cases b <;> rfl)
    simp only [Bracket.depths_cons, Bracket.depths_append, hcommas]
    cases b <;> rfl
  | arguments ht h =>
    have hcommas := depths_series h (b := b) (by cases b <;> rfl)
    simp only [Bracket.depths_cons, Bracket.depths_append, hcommas]
    rcases ht with rfl | rfl <;> cases b <;> rfl
  | map => exact absurd rfl hr
  | branch h | elseIf h | otherwise h | loop h | functionEnd h | classEnd h =>
    simp only [Bracket.depths_append, depths_body h b]
    cases b <;> rfl
  | _ => cases b <;> rfl

/-- What the pattern of a map takes, from behind its opening brace up to the closing one. -/
theorem map_of_rest? (h : Rule.map.pattern.rest? (us ++ ts) = some ts) (b : Bracket) :
    ∃ vs, us = .leftBrace :: (vs ++ [.rightBrace]) ∧ b.depths vs = 0 := by
  obtain ⟨ts₁, hleft, h⟩ := Option.bind_eq_some_iff.mp h
  obtain ⟨ts₂, hentries, hright⟩ := Option.bind_eq_some_iff.mp h
  have happend : ∀ us vs, b.depths us = 0 → b.depths vs = 0 → b.depths (us ++ vs) = 0 := by
    intro us vs hus hvs
    rw [Bracket.depths_append, hus, hvs]
    rfl
  have hnil : b.depths [] = 0 := rfl
  have hentry : (tags [.expression, .colon, .expression]).Yields fun us => b.depths us = 0 :=
    yields_tags (by cases b <;> rfl)
  have hcomma : (tags [.comma]).Yields fun us => b.depths us = 0 :=
    yields_tags (by cases b <;> rfl)
  obtain ⟨vs, hvs, rfl⟩ := Yields.optional hnil (.andThen happend hentry
    (.many hnil happend (.andThen happend hcomma hentry))) ts₁ ts₂ hentries
  have happended : us ++ ts = .leftBrace :: (vs ++ [.rightBrace]) ++ ts := by
    rw [rest?_tag_iff.mp hleft, rest?_tag_iff.mp hright]
    simp
  exact ⟨vs, List.append_cancel_right happended, hvs⟩

/-- What a pattern takes opens the brackets that the result of its rule stands for. -/
theorem depths_of_rest? (h : r.pattern.rest? (us ++ ts) = some ts) (b : Bracket) :
    b.depths us = b.depth r.result := by
  by_cases hsequence : r = .sequence
  · subst hsequence
    obtain ⟨vs, hvs, htags⟩ := yields_sequence _ _ h
    obtain rfl := List.append_cancel_right htags
    have hzero : b.depths us = 0 := Bracket.depths_eq_zero fun t ht => by
      have := hvs t ht
      simp only [List.mem_cons, List.not_mem_nil, or_false] at this
      rcases this with (rfl | rfl) | rfl <;> cases b <;> rfl
    rw [hzero]
    cases b <;> rfl
  by_cases hmap : r = .map
  · subst hmap
    obtain ⟨vs, rfl, hvs⟩ := map_of_rest? h b
    simp only [Bracket.depths_cons, Bracket.depths_append, hvs]
    cases b <;> rfl
  · obtain ⟨vs, hvs, htags⟩ := shape_of_rest? hsequence h
    obtain rfl := List.append_cancel_right htags
    exact hvs.depths hmap b

/-- A shape that ends in what cannot end an input is the head of an assignment. -/
theorem Shape.pending (h : r.Shape us) (hr : r ≠ .map) (hlast : us.getLast? = some t)
    (ht : t.pending = true) : r.result.pending = true := by
  have hend : ∀ vs u, us = vs ++ [u] → u.pending = true := by
    rintro vs u rfl
    rw [List.getLast?_concat] at hlast
    rwa [Option.some.inj hlast]
  cases h with
  | literal h =>
    have hpending := hend [] _ rfl
    simp only [List.mem_cons, List.not_mem_nil, or_false] at h
    rcases h with rfl | rfl | rfl | rfl | rfl | rfl <;> cases hpending
  | assignmentHead | declaringHead | fieldAssignmentHead => rfl
  | @functionHead us =>
    cases hend (.funcWord :: .name :: .leftParen :: (us ++ [.rightParen])) .leftBrace (by simp)
  | @list us => cases hend (.leftBracket :: us) _ rfl
  | @arguments u us => cases hend (u :: us) _ rfl
  | map => exact absurd rfl hr
  | @unary u => cases hend [u] _ rfl
  | @binary u => cases hend [.expression, u] _ rfl
  | jump h =>
    have hpending := hend [] _ rfl
    rcases h with rfl | rfl <;> cases hpending
  | branch h | elseIf h | otherwise h | loop h | functionEnd h | classEnd h =>
    cases h <;> (obtain rfl := Option.some.inj hlast; cases ht)
  | _ => obtain rfl := Option.some.inj hlast; cases ht

/-- Where a pattern takes something at the end that cannot end an input, so is the result. -/
theorem pending_of_rest? (h : r.pattern.rest? (us ++ ts) = some ts)
    (hlast : us.getLast? = some t) (ht : t.pending = true) : r.result.pending = true := by
  by_cases hsequence : r = .sequence
  · subst hsequence
    obtain ⟨vs, hvs⟩ := programs_of_rest?_sequence h
    have happend : us ++ ts = .program :: vs ++ [.program] ++ ts := hvs.trans (by simp)
    rw [List.append_cancel_right happend, List.getLast?_concat] at hlast
    obtain rfl := Option.some.inj hlast
    cases ht
  by_cases hmap : r = .map
  · subst hmap
    obtain ⟨vs, hus, -⟩ := map_of_rest? h .brace
    rw [hus, ← List.cons_append, List.getLast?_concat] at hlast
    obtain rfl := Option.some.inj hlast
    cases ht
  · obtain ⟨vs, hvs, htags⟩ := shape_of_rest? hsequence h
    obtain rfl := List.append_cancel_right htags
    exact hvs.pending hmap hlast ht

end Rule

/-! ### Reductions -/

namespace Parsing

variable {p q : Parsing} {r : Rule}

/-- The symbols end in what cannot end an input. -/
def Pending (p : Parsing) : Prop := ∃ t, p.tags.getLast? = some t ∧ t.pending = true

/-- A reduction keeps the number of open brackets of each kind. -/
theorem Reduction.depths (e : Reduction r p q) (b : Bracket) :
    b.depths q.tags = b.depths p.tags := by
  obtain ⟨ts, hpattern⟩ := e.pattern_eq
  have hrun : b.depths (e.run.map (·.tag)) = b.depth r.result := by
    rw [← Rule.depths_of_rest? hpattern b, ← b.depths_filter_ink (e.run.map (·.tag)),
      ← b.depths_filter_ink ((p.stream.collect e.found.run).map (·.tag)), List.filter_map,
      List.filter_map]
    exact congrArg (fun ms : List Symbol => b.depths (ms.map (·.tag))) e.filter_collect.symm
  rw [e.tags_eq, tags, e.active_eq]
  simp only [List.map_append, Bracket.depths_append, Bracket.depths_cons, hrun]

/-- Symbols that end in what cannot end an input go on to do so. -/
theorem Reduction.pending (e : Reduction r p q) (h : p.Pending) : q.Pending := by
  obtain ⟨t, hlast, ht⟩ := h
  rw [Parsing.Pending, e.tags_eq]
  rw [tags, e.active_eq, List.map_append, List.map_append] at hlast
  cases hafter : e.after with
  | nil =>
    obtain ⟨ts, hpattern⟩ := e.pattern_eq
    have hrun : (e.run.map (·.tag)).getLast? = some t := by
      rw [hafter, List.map_nil, List.append_nil, List.getLast?_append_of_ne_nil _
        (by simpa using e.run_ne_nil)] at hlast
      exact hlast
    rw [List.getLast?_map, ← e.getLast?_collect, ← List.getLast?_map] at hrun
    exact ⟨r.result, List.getLast?_concat, Rule.pending_of_rest? hpattern hrun ht⟩
  | cons a after =>
    have hne : (a :: after).map (·.tag) ≠ [] := by simp
    rw [hafter, ← List.append_assoc, List.getLast?_append_of_ne_nil _ hne] at hlast
    refine ⟨t, ?_, ht⟩
    rw [List.append_cons, List.getLast?_append_of_ne_nil _ hne, hlast]

/-- Open brackets, and an end that cannot be one, outlast all reductions. -/
theorem open_of_steps (h : ReflTransGen Steps p q) :
    (∀ b : Bracket, b.depths q.tags = b.depths p.tags) ∧ (p.Pending → q.Pending) := by
  induction h with
  | refl => exact ⟨fun _ => rfl, id⟩
  | tail _ hstep ih =>
    obtain ⟨r, hr⟩ := hstep
    obtain ⟨e⟩ := reduction_of_reduceOnce hr
    exact ⟨fun b => (e.depths b).trans (ih.1 b), fun hpending => e.pending (ih.2 hpending)⟩

end Parsing

/-! ### A whole parse -/

/-- Where the grammar reports nothing, no bracket is open, and nothing asks for more. -/
theorem Grammar.closed_of_clean {g : Grammar} {tokens : List Token}
    (hclean : (g.parse tokens).record.diagnostics = []) :
    (∀ b : Bracket, b.depths (start tokens).tags = 0) ∧ ¬(start tokens).Pending := by
  rw [g.diagnostics_parse] at hclean
  obtain ⟨hdepths, hpending⟩ := open_of_steps (g.reduce_steps (.start tokens))
  have hend : (∀ b : Bracket, b.depths (g.reduce (.start tokens)).1.tags = 0) ∧
      ¬(g.reduce (.start tokens)).1.Pending := by
    rw [Parsing.Pending, tags]
    rcases eq_of_leftovers (List.append_eq_nil_iff.mp hclean).2 with hnil | ⟨s, hs, htag⟩
    · rw [hnil]
      exact ⟨fun _ => rfl, by rintro ⟨t, ht, -⟩; cases ht⟩
    · rw [hs, List.map_singleton, htag]
      exact ⟨fun b => by cases b <;> rfl, by rintro ⟨t, ht, hpending⟩; cases ht; cases hpending⟩
  exact ⟨fun b => (hdepths b).symm.trans (hend.1 b), fun h => hend.2 (hpending h)⟩

namespace Shell

/-- The symbols of a parse begin as the tokens that the shell takes for more than layout. -/
theorem tags_start (tokens : List Token) :
    (start tokens).tags = (tokens.filter fun t => !isLayout t.tag).map (·.tag) := by
  rw [Parsing.tags_start, List.filter_map]
  refine congrArg _ (List.filter_congr fun t _ => ?_)
  rw [Function.comp_apply]
  cases t.tag <;> rfl

/-- Layout opens no brackets. -/
theorem depths_tokens (tokens : List Token) (b : Bracket) :
    b.depths ((tokens.filter fun t => !isLayout t.tag).map (·.tag)) =
      b.depths (tokens.map (·.tag)) := by
  have hmap : (tokens.filter fun t => !isLayout t.tag).map (·.tag) =
      (tokens.map (·.tag)).filter fun t => !isLayout t := by
    rw [List.filter_map]
    rfl
  rw [hmap]
  refine Bracket.depths_filter fun t _ ht => ?_
  cases t <;> first | cases ht; done | (cases b <;> rfl)

/-- The shell counts the open brackets of all kinds together. -/
theorem sum_bracketDepth {tokens : List Token} (h : ∀ t ∈ tokens, t.Lexical) :
    (tokens.map fun t => bracketDepth t.tag).sum =
      Bracket.brace.depths (tokens.map (·.tag)) + Bracket.paren.depths (tokens.map (·.tag)) +
        Bracket.square.depths (tokens.map (·.tag)) := by
  induction tokens with
  | nil => rfl
  | cons t tokens ih =>
    obtain ⟨ht, htokens⟩ := List.forall_mem_cons.mp h
    simp only [List.map_cons, List.sum_cons, Bracket.depths_cons, ih htokens,
      Bracket.bracketDepth_eq ht.not_result]
    omega

/-- Of a source that lexes, the shell asks for more while brackets are open or the last token that is
no layout asks for it. -/
theorem needsMore_eq {source : String} {tokens : List Token}
    (h : Lexer.standard.tokenize source = .ok tokens) :
    needsMore source = (decide (0 < (tokens.map fun t => bracketDepth t.tag).sum) ||
      (tokens.filter fun t => !isLayout t.tag).getLast?.any fun t => asksForMore t.tag) := by
  rw [needsMore, Lexer.scanSource_of_tokenize h]
  dsimp only
  rw [List.sum_eq_foldr, List.foldr_map, ← List.head?_filter, List.filter_reverse,
    List.head?_reverse]

end Shell

/-- The shell never holds back a program that is complete.  Where a source lexes and the grammar
reports nothing, its brackets of each kind are closed, and its last token that is no layout is no
operator, no `=`, no comma and no point. -/
theorem complete_program_needs_no_more (g : Grammar) {source : String} {tokens : List Token}
    (h : Lexer.standard.tokenize source = .ok tokens)
    (hclean : (g.parse tokens).record.diagnostics = []) :
    (∀ b : Bracket, b.depths (tokens.map (·.tag)) = 0) ∧
      (tokens.map fun t => bracketDepth t.tag).sum = 0 ∧
      (∀ t, (tokens.filter fun t => !isLayout t.tag).getLast? = some t →
        asksForMore t.tag = false ∧ t.tag ≠ .negation ∧ t.tag ≠ .tilde) ∧
      needsMore source = false := by
  obtain ⟨hdepths, hpending⟩ := Grammar.closed_of_clean hclean
  rw [Shell.tags_start] at hdepths
  rw [Parsing.Pending, Shell.tags_start, List.getLast?_map] at hpending
  have hzero : ∀ b : Bracket, b.depths (tokens.map (·.tag)) = 0 := fun b =>
    (depths_tokens tokens b).symm.trans (hdepths b)
  have hsum : (tokens.map fun t => bracketDepth t.tag).sum = 0 := by
    rw [sum_bracketDepth (Lexer.lexical_of_tokenize h), hzero, hzero, hzero]
    rfl
  have hlast : ∀ t, (tokens.filter fun t => !isLayout t.tag).getLast? = some t →
      asksForMore t.tag = false ∧ t.tag ≠ .negation ∧ t.tag ≠ .tilde := by
    intro t ht
    have htag : t.tag.pending ≠ true := fun htag => hpending ⟨t.tag, by rw [ht]; rfl, htag⟩
    generalize t.tag = u at htag
    cases u <;> first | exact absurd rfl htag | exact ⟨rfl, nofun, nofun⟩
  refine ⟨hzero, hsum, hlast, ?_⟩
  rw [needsMore_eq h, hsum]
  cases hend : (tokens.filter fun t => !isLayout t.tag).getLast? with
  | none => rfl
  | some t =>
    rw [Option.any_some, (hlast t hend).1]
    rfl

/-- Brackets of all kinds, one in the other. -/
theorem complete_program_needs_no_more_nested : ∃ tokens,
    Lexer.standard.tokenize "x=\x7b1:[f(2)]\x7d" = .ok tokens ∧
    (Grammar.standard.parse tokens).record.diagnostics = [] ∧
    (∀ b : Bracket, b.depths (tokens.map (·.tag)) = 0) ∧ needsMore "x=\x7b1:[f(2)]\x7d" = false := by
  let tokens : List Token := [⟨.name, "x", 1, ⟨0, 1⟩⟩, ⟨.equals, "=", 1, ⟨1, 2⟩⟩,
    ⟨.leftBrace, "\x7b", 1, ⟨2, 3⟩⟩, ⟨.number, "1", 1, ⟨3, 4⟩⟩, ⟨.colon, ":", 1, ⟨4, 5⟩⟩,
    ⟨.leftBracket, "[", 1, ⟨5, 6⟩⟩, ⟨.name, "f", 1, ⟨6, 7⟩⟩, ⟨.leftParen, "(", 1, ⟨7, 8⟩⟩,
    ⟨.number, "2", 1, ⟨8, 9⟩⟩, ⟨.rightParen, ")", 1, ⟨9, 10⟩⟩, ⟨.rightBracket, "]", 1, ⟨10, 11⟩⟩,
    ⟨.rightBrace, "\x7d", 1, ⟨11, 12⟩⟩]
  have hscan : (Lexer.standard.scanSource "x=\x7b1:[f(2)]\x7d").tokens = tokens ∧
      (Lexer.standard.scanSource "x=\x7b1:[f(2)]\x7d").failure = none := by decide +kernel
  have hlexed : Lexer.standard.tokenize "x=\x7b1:[f(2)]\x7d" = .ok tokens :=
    Lexer.tokenize_of_scanSource hscan.1 hscan.2
  have hclean : (Grammar.standard.parse tokens).record.diagnostics = [] := by
    simp only [tokens]
    rw [Grammar.parse, start, Stream.prepare_eq_inked]
    decide +kernel
  obtain ⟨hdepths, -, -, hmore⟩ :=
    complete_program_needs_no_more Grammar.standard hlexed hclean
  exact ⟨tokens, hlexed, hclean, hdepths, hmore⟩

end StackScript
