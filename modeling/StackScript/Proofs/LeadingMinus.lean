import StackScript.Proofs.LineBreaks

/-!
# StackScript.Proofs.LeadingMinus — a minus that begins a line

A minus is binary only when it follows an operand on the same line: so the rule for prefix operators
has it, and the rules for what stands around a minus.  The rule for sums itself asks nothing of its
own operator.  It never sees a minus that begins a line and has its operand behind it, since the rule
for prefix operators takes both first, but for one case: where a `**` or a point follows the operand
the prefix operator waits.  A point stops the rule for sums too, and a power that is reduced in the
meantime does not.  So a minus that begins a line is a subtraction just of a power.
-/

namespace StackScript

open Leaf

/-! ### Minuses that wait -/

/-- A minus that begins a line. -/
structure Leaf.IsLeadingMinus (o : Leaf) : Prop where
  tag_eq : o.tag = .term
  text_eq : o.text = "-"
  broken : o.broken = true

/-- The symbol stands for a power. -/
def Symbol.HoldsPower (s : Symbol) : Prop :=
  ∃ line l r, s.fragment = some (.value (.binary line .pow l r none))

/-- Behind the operand of a minus that begins a line there is what a prefix operator waits for, or
the operand is a power. -/
structure Parsing.Waits (tokens : List Token) (p : Parsing) : Prop where
  sound : p.stream.Sound
  anchored : p.stream.Anchored tokens
  waits : ∀ {pre post : List Leaf} {o b : Leaf}, p.stream.leaves = pre ++ o :: b :: post →
    o.IsLeadingMinus → b.tag = .expression →
      b.symbol.HoldsPower ∨ firstTag post = some .dot ∨ firstTag post = some .power

theorem Leaf.IsLeadingMinus.isPrefixMinus {o : Leaf} (h : o.IsLeadingMinus) (pre : List Leaf) :
    isPrefixMinus pre o = true := by
  rw [Leaf.isPrefixMinus, h.tag_eq, h.text_eq, h.broken]
  cases lastTag pre <;> simp

/-- Behind such a minus nothing but a power can be reduced. -/
theorem Leaf.IsLeadingMinus.fitsBefore {o : Leaf} (h : o.IsLeadingMinus) (pre : List Leaf)
    (level : Nat) (right : Bool) : fitsBefore (pre ++ [o]) level right = decide (5 ≤ level) := by
  rw [fitsBefore_concat, isPrefixOperator, h.isPrefixMinus, Bool.true_or, Bool.true_or, if_pos rfl]

/-! ### What the rules for operators take -/

namespace Rule

variable {r : Rule} {pre run post : List Leaf}

/-- The rules for the operators from sums on. -/
def IsArithmetic (r : Rule) : Prop := r = power ∨ r = factor ∨ r = term

theorem IsArithmetic.ne_sequence (h : r.IsArithmetic) : r ≠ sequence := by
  rcases h with rfl | rfl | rfl <;> nofun

/-- Such a rule takes an operator between two expressions. -/
theorem Takes.operands (h : r.Takes pre run post) (hr : r.IsArithmetic) :
    ∃ a o b p, run = [a, o, b] ∧ a.tag = .expression ∧ o.tag.operator? = some p ∧ p.rule = r ∧
      b.tag = .expression := by
  obtain ⟨hplain, -, hrest⟩ | hfits := h.fits
  · obtain ⟨us, hus, htags⟩ := shape_of_rest? hplain hrest
    rw [List.map_append] at htags
    obtain rfl := List.append_cancel_right htags
    have hbinary : ∃ t p, run.map Leaf.tag = [.expression, t, .expression] ∧
        t.operator? = some p ∧ p.rule = r := by
      generalize run.map Leaf.tag = us at hus
      rcases hr with rfl | rfl | rfl <;> cases hus <;> exact ⟨_, _, rfl, ‹_›, ‹_›⟩
    obtain ⟨t, p, hrun, ht, hp⟩ := hbinary
    obtain ⟨a, run, rfl, ha, hrun⟩ := List.map_eq_cons_iff.mp hrun
    obtain ⟨o, run, rfl, ho, hrun⟩ := List.map_eq_cons_iff.mp hrun
    obtain ⟨b, run, rfl, hb, hrun⟩ := List.map_eq_cons_iff.mp hrun
    obtain rfl := List.map_eq_nil_iff.mp hrun
    exact ⟨a, o, b, p, rfl, ha, ho ▸ ht, hp, hb⟩
  · exact absurd rfl hr.ne_sequence

/-- Factors and sums are not reduced behind a minus that begins a line. -/
theorem Takes.not_leadingMinus {o : Leaf} (h : r.Takes (pre ++ [o]) run post)
    (hr : r = factor ∨ r = term) : ¬o.IsLeadingMinus := by
  intro ho
  have hadmits := h.admits
  rcases hr with rfl | rfl <;>
    · rw [Rule.admits, ho.fitsBefore] at hadmits
      cases hadmits

/-- The rule for powers makes powers. -/
theorem Makes.power {ms : List Symbol} {f : Fragment} {n : Nat} {ds : List Diagnostic}
    (h : Rule.power.Makes ms f n ds) :
    ∃ line e e', f = .value (.binary line .pow e e' none) := by
  generalize hr : Rule.power = r at h
  cases h with
  | @binary r p a o b e e' ha ho hp hnone hb =>
    subst hr
    rw [Leaf.binaryOp]
    dsimp only [Leaf.tag]
    generalize o.tag = t at ho
    cases t <;> cases ho <;> first | cases hp; done | exact ⟨_, _, _, rfl⟩
  | stray hr' | late hr' | closeEmpty hr' | close hr' =>
    rcases hr' with rfl | rfl <;> cases hr
  | _ => cases hr

/-- The rule for sums makes a subtraction of a minus. -/
theorem Makes.subtraction {a o b : Symbol} {f : Fragment} {n : Nat} {ds : List Diagnostic}
    (h : Rule.term.Makes [a, o, b] f n ds) (ho : o.text = "-") :
    ∃ e e', b.fragment = some (.value e') ∧ f = .value (.binary a.line .sub e e' none) := by
  generalize hr : Rule.term = r at h
  cases h with
  | @binary r p a o b e e' ha hop hp hnone hb =>
    subst hr
    refine ⟨e, e', hb.fragment_eq, ?_⟩
    have hbinary : Leaf.binaryOp ⟨o, false⟩ = .sub := by
      rw [Leaf.binaryOp]
      dsimp only [Leaf.tag, Leaf.text]
      rw [ho]
      generalize o.tag = t at hop
      cases t <;> cases hop <;> first | cases hp; done | rfl
    rw [hbinary]
  | stray hr' | late hr' => rcases hr' with rfl | rfl <;> cases hr
  | close hr' => rcases hr' with rfl | rfl <;> cases hr
  | _ => cases hr

end Rule

/-! ### Reductions -/

namespace Parsing

variable {tokens : List Token} {p q : Parsing} {r : Rule} {n : Nat}

/-- Where the rule for prefix operators has no match, every minus that begins a line waits. -/
theorem waits_of_unary (hsound : p.stream.Sound) (hanchored : p.stream.Anchored tokens)
    (h : p.reduceOnce .unary = none) : p.Waits tokens := by
  refine ⟨hsound, hanchored, fun {pre post o b} hs ho hb => .inr ?_⟩
  by_contra hnext
  rw [not_or] at hnext
  have hshape : Rule.Shape .unary [Tag.term, .expression] := .unary (by decide)
  have hrest : Rule.unary.pattern.rest? ([.term, .expression] ++ post.map Leaf.tag) =
      some (post.map Leaf.tag) := Rule.rest?_of_shape (by decide) hshape nofun
  rw [← ho.tag_eq, ← hb] at hrest
  have htakes : Rule.unary.Takes pre [o, b] post := by
    refine ⟨.plain (by decide) (List.cons_ne_nil _ _) hrest, ?_⟩
    rw [Rule.admits]
    simp [ho.isPrefixMinus, hnext.1, hnext.2]
  exact reduceOnce_ne_none (Stream.sees_plain hanchored.sorted (by decide)) hs htakes h

/-- What the rule for powers builds of a match is a power. -/
theorem holdsPower_built (hsound : p.stream.Sound) {pre run post : List Leaf} {line : Nat}
    {span : Span} (hs : p.stream.leaves = pre ++ (run ++ post))
    (htakes : Rule.power.Takes pre run post) :
    (Symbol.reduced Rule.power.result line span (p.built .power pre run).1).HoldsPower := by
  have hcollect : p.stream.collect (p.stream.matchOf .power pre run).run = run.map Leaf.symbol :=
    Stream.collect_between_nil hs
  obtain ⟨-, -, hrest⟩ | hfits := htakes.fits
  have hmem : ∀ a ∈ run.map Leaf.symbol, a.Sound := by
    intro a ha
    refine hsound.active a ?_
    rw [← Stream.map_symbol_leaves, hs, List.map_append, List.map_append]
    exact List.mem_append_right _ (List.mem_append_left _ ha)
  have htags : Rule.power.pattern.rest? ((run.map Leaf.symbol).map (·.tag) ++
      post.map Leaf.tag) = some (post.map Leaf.tag) := by
    rw [List.map_map]
    rwa [List.map_append] at hrest
  obtain ⟨f, n, ds, hmakes, -⟩ := Rule.makes_of_rest? htags hmem
  obtain ⟨dropped, hbuild⟩ := hmakes.gives p.record
  obtain ⟨line', e, e', rfl⟩ := hmakes.power
  refine ⟨line', e, e', ?_⟩
  rw [built, hcollect, hbuild]
  rfl

/-- Where two neighbours stand in a list with another element: behind it, around its place or before
it. -/
theorem pair_cases {α : Type} {pre post pre' post' : List α} {l o b : α} (hne : l ≠ o)
    (h : pre ++ l :: post = pre' ++ o :: b :: post') :
    (∃ mid, pre' = pre ++ l :: mid ∧ post = mid ++ o :: b :: post') ∨
      (pre = pre' ++ [o] ∧ l = b ∧ post = post') ∨
      ∃ mid, pre = pre' ++ o :: b :: mid ∧ post' = mid ++ l :: post := by
  rcases List.append_eq_append_iff.mp h with ⟨es, rfl, hes⟩ | ⟨es, rfl, hes⟩
  · cases es with
    | nil => exact absurd (List.cons.inj hes).1 hne
    | cons x es =>
      obtain ⟨hx, hpost⟩ := List.cons.inj hes
      exact .inl ⟨es, by rw [hx], hpost⟩
  · rcases es with - | ⟨x, - | ⟨y, es⟩⟩
    · exact absurd (List.cons.inj hes).1.symm hne
    · obtain ⟨hx, hes⟩ := List.cons.inj hes
      obtain ⟨hb, hpost⟩ := List.cons.inj hes
      exact .inr (.inl ⟨by rw [hx], hb.symm, hpost.symm⟩)
    · obtain ⟨hx, hes⟩ := List.cons.inj hes
      obtain ⟨hy, hpost⟩ := List.cons.inj hes
      exact .inr (.inr ⟨es, by rw [hx, hy], hpost⟩)

/-- The rules for operators keep the minuses waiting. -/
theorem Waits.reduceOnce (h : p.Waits tokens) (hr : r.IsArithmetic)
    (hq : p.reduceOnce r = some q) : q.Waits tokens := by
  obtain ⟨e⟩ := reduction_of_reduceOnce hq
  refine ⟨e.sound h.sound, h.anchored.reduceOnce hq, fun {pre' post' o b} hq' ho hb => ?_⟩
  obtain ⟨pre, a, run, post, span, hs, htakes, -, -, hleaves, -⟩ :=
    reduceOnce_eq_some (Stream.sees_plain h.anchored.sorted hr.ne_sequence) hq
  obtain ⟨a', o', b', op, hrun, ha, ho', hop, -⟩ := htakes.operands hr
  obtain ⟨rfl, rfl⟩ := List.cons.inj hrun
  have hresult : r.result = .expression := by rcases hr with rfl | rfl | rfl <;> rfl
  rw [hleaves] at hq'
  generalize hl : (⟨Symbol.reduced r.result a.line span (p.built r pre [a, o', b']).1, a.broken⟩ :
    Leaf) = l at hq'
  have hltag : l.tag = .expression := by
    rw [← hl, ← hresult]
    rfl
  have hne : l ≠ o := by
    rintro rfl
    cases hltag.symm.trans ho.tag_eq
  -- the new leaf stands before the minus, it is the operand, or it stands behind the operand
  rcases pair_cases hne hq' with ⟨mid, rfl, rfl⟩ | ⟨rfl, rfl, rfl⟩ | ⟨mid, rfl, rfl⟩
  · have hs' : p.stream.leaves = (pre ++ [a, o', b'] ++ mid) ++ o :: b :: post' := by
      rw [hs]
      simp
    exact h.waits hs' ho hb
  · rcases hr with rfl | hr
    · rw [← hl]
      exact .inl (holdsPower_built h.sound hs htakes)
    · exact absurd ho (htakes.not_leadingMinus hr)
  · have hfirst : firstTag (mid ++ l :: post) = firstTag (mid ++ [a, o', b'] ++ post) := by
      cases mid with
      | nil => exact congrArg some (hltag.trans ha.symm)
      | cons y mid => rfl
    rw [hfirst]
    have hs' : p.stream.leaves = pre' ++ o :: b :: (mid ++ [a, o', b'] ++ post) := by
      rw [hs]
      simp
    exact h.waits hs' ho hb

/-- Where the rule for sums takes a minus that begins a line, a power follows it. -/
theorem Waits.holdsPower (h : p.Waits tokens) {pre post : List Leaf} {a o b : Leaf}
    (hs : p.stream.leaves = pre ++ ([a, o, b] ++ post))
    (htakes : Rule.term.Takes pre [a, o, b] post) (ho : o.IsLeadingMinus)
    (hb : b.tag = .expression) : b.symbol.HoldsPower := by
  have hsplit : p.stream.leaves = (pre ++ [a]) ++ o :: b :: post := by rw [hs]; simp
  have hadmits := htakes.admits
  rw [Rule.admits, Bool.and_eq_true, fitsAfter] at hadmits
  rcases h.waits hsplit ho hb with hpower | hdot | hnext
  · exact hpower
  · rw [hdot] at hadmits
    cases hadmits.2
  · rw [hnext] at hadmits
    cases hadmits.2

theorem Waits.reduces (hr : r.IsArithmetic) (h : Reduces r n p q) (hp : p.Waits tokens) :
    q.Waits tokens := by
  induction h with
  | done => exact hp
  | step hstep _ ih => exact ih (hp.reduceOnce hr hstep)

theorem Waits.apply (hr : r.IsArithmetic) (hp : p.Waits tokens) : (p.apply r).1.Waits tokens :=
  hp.reduces hr (p.apply_reduces r).1

end Parsing

/-! ### A whole parse -/

open Parsing Relation

/-- In some pass of a parse, when the rules before it have been applied and the rule itself a number
of times, the rule is tried on these symbols. -/
def Grammar.Tries (g : Grammar) (start : Parsing) (r : Rule) (p : Parsing) : Prop :=
  ∃ k rules rules' n, k < g.maxPasses ∧ g.rules = rules ++ r :: rules' ∧
    Reduces r n ((g.after start k).1.applyAll rules).1 p

/-- The rule for sums matches a minus with a line break of the source between it and the symbol
before it. -/
structure Parsing.LeadingMinus (tokens : List Token) (p : Parsing) (a o b : Symbol) : Prop where
  found : ∃ f, p.stream.find .term = some f ∧ p.stream.collect f.run = [a, o, b]
  text_eq : o.text = "-"
  broken : ∃ t ∈ tokens, t.tag = .newline ∧ a.span.stop ≤ t.span.start ∧ t.span.stop ≤ o.span.start

namespace Grammar

/-- What comes before the rule for sums. -/
theorem rules_before_term {rules rules' : List Rule}
    (h : standard.rules = rules ++ .term :: rules') :
    ∃ early, rules = early ++ [.unary, .power, .factor] := by
  have hnodup : (rules ++ Rule.term :: rules').Nodup := by
    rw [← h]
    decide
  have hnot : ∀ r ∈ rules, decide (r ≠ .term) = true := fun r hr => decide_eq_true
    ((List.nodup_append.mp hnodup).2.2 r hr .term List.mem_cons_self)
  have hrules : standard.rules.takeWhile (fun r => decide (r ≠ .term)) = rules := by
    rw [h, List.takeWhile_append_of_pos hnot, List.takeWhile_cons_of_neg (by decide),
      List.append_nil]
  exact ⟨standard.rules.takeWhile fun r => decide (r ≠ .unary), by rw [← hrules]; rfl⟩

/-- When the rule for sums is tried, the minuses that begin a line wait. -/
theorem Tries.waits {tokens : List Token} {p : Parsing} (h : ∀ t ∈ tokens, t.Lexical)
    (hanchored : (Parsing.start tokens).stream.Anchored tokens)
    (hp : standard.Tries (.start tokens) .term p) : p.Waits tokens := by
  obtain ⟨k, rules, rules', n, -, hrules, hreduces⟩ := hp
  obtain ⟨early, rfl⟩ := rules_before_term hrules
  rw [applyAll_append] at hreduces
  have hsteps : ReflTransGen Steps (.start tokens)
      ((standard.after (.start tokens) k).1.applyAll early).1 :=
    (after_steps _ _ k).trans (applyAll_steps early _)
  generalize ((standard.after (.start tokens) k).1.applyAll early).1 = p₀ at hsteps hreduces
  obtain ⟨hunary, hnone⟩ := p₀.apply_reduces .unary
  have hsteps' := hsteps.trans (reduces_steps hunary)
  have hwaits : (p₀.apply .unary).1.Waits tokens :=
    waits_of_unary (sound_of_steps hsteps' (Stream.sound_prepare h)) (hanchored.steps hsteps') hnone
  exact ((hwaits.apply (.inl rfl)).apply (.inr (.inl rfl))).reduces (.inr (.inr rfl)) hreduces

/-- A minus that begins a line is binary only before a power.  Where the rule for sums takes such a
minus in the course of a parse, it makes a subtraction whose right operand is a power. -/
theorem leading_minus_subtracts_a_power {source : String} {tokens : List Token} {p q : Parsing}
    {a o b : Symbol} (h : Lexer.standard.tokenize source = .ok tokens)
    (hp : standard.Tries (.start tokens) .term p) (hminus : p.LeadingMinus tokens a o b)
    (hq : p.reduceOnce .term = some q) :
    ∃ s ∈ q.stream.active, ∃ e line l r,
      b.fragment = some (.value (.binary line .pow l r none)) ∧
      s.fragment = some (.value (.binary a.line .sub e (.binary line .pow l r none) none)) := by
  obtain ⟨hcovers, hapart⟩ := Lexer.spans_of_tokenize h
  have hwaits := hp.waits (Lexer.lexical_of_tokenize h) (Stream.anchored_prepare hcovers hapart)
  obtain ⟨⟨f, hfind, hcollect⟩, htext, hbroken⟩ := hminus
  obtain ⟨pre, run, post, hs, htakes, rfl, -⟩ :=
    (Stream.sees_plain hwaits.anchored.sorted (by decide)).find_eq_some hfind
  obtain ⟨la, lo, lb, op, rfl, hla, hlo, hop, hlb⟩ := htakes.operands (.inr (.inr rfl))
  obtain ⟨rfl, rfl, rfl⟩ : la.symbol = a ∧ lo.symbol = o ∧ lb.symbol = b := by
    simpa using (Stream.collect_between_nil hs).symm.trans hcollect
  have hleading : lo.IsLeadingMinus := by
    refine ⟨?_, htext, (hwaits.anchored.broken_iff_between hs).mpr hbroken⟩
    generalize lo.tag = u at hlo
    cases u <;> cases hlo <;> first | cases hop; done | rfl
  obtain ⟨line, l, r, hb⟩ := hwaits.holdsPower hs htakes hleading hlb
  obtain ⟨e⟩ := reduction_of_reduceOnce hq
  obtain ⟨f, n, ds, hmakes⟩ := e.makes hwaits.sound
  have hmatch : p.stream.collect e.found.run = [la.symbol, lo.symbol, lb.symbol] := by
    rw [← Option.some.inj (hfind.symm.trans e.find_eq)]
    exact hcollect
  obtain ⟨left, right, hright, rfl⟩ := (hmatch ▸ hmakes.makes).subtraction htext
  cases hb.symm.trans hright
  refine ⟨Symbol.reduced Rule.term.result e.line e.span (some (.value (.binary la.line .sub left
    (.binary line .pow l r none) none))), ?_, left, line, l, r, hb, rfl⟩
  rw [hmakes.active_eq]
  exact List.mem_append_right _ List.mem_cons_self

/-- In `-b ** c` on a line of its own the rule for prefix operators waits for the power, and the rule
for sums does not. -/
theorem tries_leading_minus : ∃ tokens p q a o b,
    Lexer.standard.tokenize "a\n-b ** c" = .ok tokens ∧ standard.Tries (.start tokens) .term p ∧
    p.LeadingMinus tokens a o b ∧ p.reduceOnce .term = some q ∧
    (standard.parse tokens).record.diagnostics = [] := by
  let tokens : List Token := [⟨.name, "a", 1, ⟨0, 1⟩⟩, ⟨.newline, "\n", 1, ⟨1, 2⟩⟩,
    ⟨.term, "-", 2, ⟨2, 3⟩⟩, ⟨.name, "b", 2, ⟨3, 4⟩⟩, ⟨.blank, " ", 2, ⟨4, 5⟩⟩,
    ⟨.power, "**", 2, ⟨5, 7⟩⟩, ⟨.blank, " ", 2, ⟨7, 8⟩⟩, ⟨.name, "c", 2, ⟨8, 9⟩⟩]
  have hscan : (Lexer.standard.scanSource "a\n-b ** c").tokens = tokens ∧
      (Lexer.standard.scanSource "a\n-b ** c").failure = none := by decide +kernel
  have hlexed : Lexer.standard.tokenize "a\n-b ** c" = .ok tokens :=
    Lexer.tokenize_of_scanSource hscan.1 hscan.2
  let rules := standard.rules.takeWhile fun r => decide (r ≠ .term)
  have hfind : (((Parsing.start tokens).applyAll rules).1.stream.find .term).map (·.run) =
      some [.active 0, .active 1, .active 2] := by
    rw [Parsing.start, Stream.prepare_eq_inked]
    decide +kernel
  have hactive : ((Parsing.start tokens).applyAll rules).1.stream.active.map (·.toToken) =
      [⟨.expression, "", 1, ⟨0, 1⟩⟩, ⟨.term, "-", 2, ⟨2, 3⟩⟩, ⟨.expression, "", 2, ⟨3, 9⟩⟩] := by
    rw [Parsing.start, Stream.prepare_eq_inked]
    decide +kernel
  have hstep : (((Parsing.start tokens).applyAll rules).1.reduceOnce .term).isSome := by
    rw [Parsing.start, Stream.prepare_eq_inked]
    decide +kernel
  have hclean : (standard.parse tokens).record.diagnostics = [] := by
    rw [parse, Parsing.start, Stream.prepare_eq_inked]
    decide +kernel
  have htries : standard.Tries (.start tokens) .term ((Parsing.start tokens).applyAll rules).1 :=
    ⟨0, rules, _, 0, by decide, rfl, .done _⟩
  generalize ((Parsing.start tokens).applyAll rules).1 = p at hfind hactive hstep htries
  obtain ⟨a, xs, ha, hatok, hactive⟩ := List.map_eq_cons_iff.mp hactive
  obtain ⟨o, ys, rfl, hotok, hactive⟩ := List.map_eq_cons_iff.mp hactive
  obtain ⟨b, zs, rfl, -, hactive⟩ := List.map_eq_cons_iff.mp hactive
  obtain rfl := List.map_eq_nil_iff.mp hactive
  obtain ⟨f, hf, hrun⟩ := Option.map_eq_some_iff.mp hfind
  obtain ⟨q, hq⟩ := Option.isSome_iff_exists.mp hstep
  refine ⟨tokens, p, q, a, o, b, hlexed, htries, ⟨⟨f, hf, ?_⟩, ?_, ?_⟩, hq, hclean⟩
  · rw [hrun, Stream.collect]
    simp [Stream.symbolAt?, ha]
  · rw [hotok]
  · refine ⟨⟨.newline, "\n", 1, ⟨1, 2⟩⟩, by decide, rfl, ?_, ?_⟩
    · rw [hatok]
    · rw [hotok]

/-- The minus of `-b ** c` on a line of its own is subtracted from what stands on the line before. -/
theorem leading_minus_subtracts_a_power_of_name : ∃ tokens p q a o b,
    Lexer.standard.tokenize "a\n-b ** c" = .ok tokens ∧ standard.Tries (.start tokens) .term p ∧
    p.LeadingMinus tokens a o b ∧ p.reduceOnce .term = some q ∧
    ∃ s ∈ q.stream.active, ∃ e line l r,
      b.fragment = some (.value (.binary line .pow l r none)) ∧
      s.fragment = some (.value (.binary a.line .sub e (.binary line .pow l r none) none)) := by
  obtain ⟨tokens, p, q, a, o, b, hlexed, htries, hminus, hq, -⟩ := tries_leading_minus
  exact ⟨tokens, p, q, a, o, b, hlexed, htries, hminus, hq,
    leading_minus_subtracts_a_power hlexed htries hminus hq⟩

/-- So it is not so that a minus that begins a line is never binary. -/
theorem leading_minus_is_binary : ¬∀ source tokens p q a o b,
    Lexer.standard.tokenize source = .ok tokens → standard.Tries (.start tokens) .term p →
    p.LeadingMinus tokens a o b → p.reduceOnce .term ≠ some q := by
  intro hnever
  obtain ⟨tokens, p, q, a, o, b, hlexed, htries, hminus, hq, -⟩ := tries_leading_minus
  exact hnever _ tokens p q a o b hlexed htries hminus hq

/-- Nor is it so that a line break keeps statements apart: a name and the minus of a power, a
statement each, are one statement on two lines. -/
theorem line_break_joins_statements : ∃ ts us joined : List Token,
    Lexer.standard.tokenize "a" = .ok ts ∧ Lexer.standard.tokenize "-b ** c" = .ok us ∧
    Lexer.standard.tokenize "a\n-b ** c" = .ok joined ∧
    (standard.parse ts).record.diagnostics = [] ∧ (standard.parse us).record.diagnostics = [] ∧
    (standard.parse ts).root.statements.length = 1 ∧
    (standard.parse us).root.statements.length = 1 ∧
    (standard.parse joined).root.statements.length = 1 := by
  have hparsed : ∀ source ∈ ["a", "-b ** c", "a\n-b ** c"],
      (Lexer.standard.scanSource source).failure = none ∧
      (standard.parse (Lexer.standard.scanSource source).tokens).record.diagnostics = [] ∧
      (standard.parse (Lexer.standard.scanSource source).tokens).root.statements.length = 1 := by
    simp only [parse, Parsing.start, Stream.prepare_eq_inked]
    decide +kernel
  obtain ⟨⟨hts, hcleanLeft, hleft⟩, ⟨hus, hcleanRight, hright⟩, hjoined, -, hall⟩ :=
    And.intro (hparsed "a" (by decide)) (And.intro (hparsed "-b ** c" (by decide))
      (hparsed "a\n-b ** c" (by decide)))
  exact ⟨_, _, _, Lexer.tokenize_of_scanSource rfl hts, Lexer.tokenize_of_scanSource rfl hus,
    Lexer.tokenize_of_scanSource rfl hjoined, hcleanLeft, hcleanRight, hleft, hright, hall⟩

end Grammar

end StackScript
