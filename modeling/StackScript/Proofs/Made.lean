import Mathlib.Logic.Relation
import StackScript.Proofs.Fixpoint
import StackScript.Proofs.Layout
import StackScript.Proofs.Making

/-!
# StackScript.Proofs.Made — every reduction of a lexed source makes something

What `Rule.Makes` says is what the rule builds, so a reduction of sound symbols puts a sound symbol
in the place of its match: however the rules are mixed, the symbols of a lexed source stay sound up
to the end of the parse.
-/

namespace StackScript

/-! ### What is made is what is built -/

/-- Building gives the fragment, counts `n` nodes and reports `ds`. -/
def Build.Gives (b : Build (Option Fragment)) (f : Fragment) (n : Nat) (ds : List Diagnostic) :
    Prop :=
  ∀ record : Record, ∃ dropped, b.run record =
    (some f, ⟨record.nodes + n, record.diagnostics ++ ds, dropped⟩)

namespace Build

variable {f : Fragment} {n : Nat}

theorem made_gives (f : Fragment) : (made f).Gives f 1 [] :=
  fun record => ⟨record.dropped, by rw [List.append_nil]; rfl⟩

theorem pure_gives (f : Fragment) : Gives (pure (some f)) f 0 [] :=
  fun record => ⟨record.dropped, by rw [List.append_nil]; rfl⟩

theorem count_gives (n : Nat) (f : Fragment) : Gives (do count n; return some f) f n [] :=
  fun record => ⟨record.dropped, by rw [List.append_nil]; rfl⟩

theorem count_made_gives (n : Nat) (f : Fragment) : Gives (do count n; made f) f (n + 1) [] :=
  fun record => ⟨record.dropped, by rw [List.append_nil]; rfl⟩

end Build

namespace Matched

variable (a : Symbol) (ms : Matched) (i : Nat)

@[simp] theorem line_cons : line (a :: ms) = a.line := rfl

@[simp] theorem tag?_zero : tag? (a :: ms) 0 = some a.tag := rfl

@[simp] theorem tag?_succ : tag? (a :: ms) (i + 1) = ms.tag? i := rfl

@[simp] theorem text_zero : text (a :: ms) 0 = a.text := rfl

@[simp] theorem text_succ : text (a :: ms) (i + 1) = ms.text i := rfl

@[simp] theorem expr?_zero : expr? (a :: ms) 0 = a.expr? := rfl

@[simp] theorem expr?_succ : expr? (a :: ms) (i + 1) = ms.expr? i := rfl

@[simp] theorem program?_zero : program? (a :: ms) 0 = a.program? := rfl

@[simp] theorem program?_succ : program? (a :: ms) (i + 1) = ms.program? i := rfl

@[simp] theorem fragment?_zero : fragment? (a :: ms) 0 = a.fragment := rfl

end Matched

/-- Only the arguments of a match are its expressions. -/
theorem Matched.exprs_cons_of_applied? {a : Symbol} {ms : Matched} {f : Fragment} {es : List Expr}
    {e : Expr} (ha : a.fragment = some f) (he : f.applied? es = some e) :
    Matched.exprs (a :: ms) = ms.exprs := by
  have hnone : a.expr? = none := by
    rw [Symbol.expr?, ha]
    cases f with
    | value => cases he
    | _ => rfl
  rw [exprs, List.filterMap_cons, hnone]
  rfl

/-- A token is made its literal. -/
theorem Leaf.build_literal {l : Leaf} {e : Expr} (h : l.literal? = some e) :
    Rule.literal.build [l.symbol] = Build.made (.value e) := by
  have htag : Matched.tag? [l.symbol] 0 = some l.tag := rfl
  have htext : Matched.text [l.symbol] 0 = l.text := rfl
  have hline : Matched.line [l.symbol] = l.line := rfl
  rw [Rule.build, buildLiteral, htag, htext, hline]
  unfold Leaf.literal? at h
  cases ht : l.tag <;> rw [ht] at h <;> try cases h; done
  all_goals dsimp only at h ⊢
  case number =>
    obtain ⟨d, hd, rfl⟩ := Option.map_eq_some_iff.mp h
    rw [hd]
  all_goals
    obtain rfl := Option.some.inj h
    rfl

namespace Rule

variable {r : Rule} {ms : List Symbol} {f : Fragment} {n : Nat} {ds : List Diagnostic}

/-- The operation of a prefix match. -/
theorem unaryOperator_eq (o a : Symbol) : unaryOperator [o, a] = Leaf.unaryOp ⟨o, false⟩ := by
  rw [unaryOperator, Leaf.unaryOp, Matched.tag?_zero]
  dsimp only [Leaf.tag]
  cases o.tag <;> rfl

/-- The operation of a binary match. -/
theorem binaryOperator_eq (a o b : Symbol) :
    binaryOperator [a, o, b] = Leaf.binaryOp ⟨o, false⟩ := by
  rw [binaryOperator, Leaf.binaryOp, Matched.tag?_succ, Matched.tag?_zero]
  dsimp only [Leaf.tag]
  cases o.tag <;> rfl

/-- The block of a body, at its place in a match. -/
theorem Body.build {all : Matched} {line i : Nat} {b : Block} (h : Body line ms b n)
    (hline : all.line = line) (hi : all.program? i = Matched.program? ms 0) :
    all.body i = (do Build.count n; return b) := by
  subst hline
  cases h with
  | empty hz => rw [Matched.body, hi, Matched.program?_zero, Symbol.program?_of_fragment hz.fragment_eq]
  | program hs => rw [Matched.body, hi, Matched.program?_zero, hs.program?]

/-- The rule of a binary operator. -/
theorem build_of_operator? {t : Tag} {p : Operator} (ht : t.operator? = some p) :
    p.rule.build ms = buildBinary ms := by
  cases t <;> cases ht <;> rfl

/-- The head of a call or an instantiation takes the arguments of the match. -/
theorem buildArguments_eq {e : Expr} (hf : Matched.fragment? ms 0 = some f)
    (he : f.applied? (Matched.exprs ms) = some e) : buildArguments ms = some (.value e) := by
  rw [buildArguments, hf]
  unfold Fragment.applied? at he
  split at he <;> first | cases he; done | (obtain rfl := Option.some.inj he; rfl)

/-- The head of an assignment takes the value of the match. -/
theorem buildAssignment_eq {e : Expr} {s : Stmt} (hf : Matched.fragment? ms 0 = some f)
    (he : Matched.expr? ms 1 = some e) (hs : f.assigned? e = some s) :
    buildAssignment ms = some (.program (.single s)) := by
  rw [buildAssignment, hf, he]
  cases f with
  | assignmentHead line declares receiver name =>
    cases declares <;> cases receiver <;> (obtain rfl := Option.some.inj hs; rfl)
  | _ => cases hs

section Branches

variable {line : Nat} {e : Expr} {b : Block} {rest : Rest} {isElseIf : Bool}
  {branch : Build (Option Rest)}

/-- A branch is attached where the chain before it ends. -/
theorem buildBranch_gives {new rest' : Rest}
    (hp : Matched.program? ms 0 = some (.single (.branch line e b rest)))
    (hbranch : branch = (do Build.count n; return some new)) (hrest : rest.attach new = some rest') :
    (buildBranch ms isElseIf branch).Gives (.program (.single (.branch line e b rest'))) n [] := by
  obtain ⟨other, hother⟩ := Rest.attach_isSome .nothing hrest
  intro record
  refine ⟨record.dropped, ?_⟩
  rw [buildBranch, hp, List.append_nil]
  dsimp only
  rw [hother, hbranch]
  exact congrArg (fun f => (f, _)) (congrArg _ hrest)

/-- After what is no chain a branch is reported. -/
theorem buildBranch_stray {p : Program} (hp : Matched.program? ms 0 = some p)
    (hf : Matched.fragment? ms 0 = some (.program p))
    (hstray : ∀ line e b rest, p ≠ .single (.branch line e b rest)) :
    (buildBranch ms isElseIf branch).Gives (.program p) 0 [.danglingElse (Matched.lineAt ms 1)] := by
  rw [buildBranch, hp]
  split
  case h_1 line e b rest heq => exact absurd (Option.some.inj heq) (hstray line e b rest)
  case h_2 =>
    rw [hf]
    exact fun record => ⟨_, rfl⟩

/-- After a chain that ends in an `else` a branch is reported. -/
theorem buildBranch_late (hp : Matched.program? ms 0 = some (.single (.branch line e b rest)))
    (hf : Matched.fragment? ms 0 = some (.program (.single (.branch line e b rest))))
    (hrest : rest.attach .nothing = none) :
    (buildBranch ms isElseIf branch).Gives (.program (.single (.branch line e b rest))) 0
      [if isElseIf then .elseIfAfterElse (Matched.lineAt ms 1)
        else .danglingElse (Matched.lineAt ms 1)] := by
  rw [buildBranch, hp]
  dsimp only
  rw [hrest, hf]
  exact fun record => ⟨_, rfl⟩

end Branches

/-- A declaration without a body. -/
theorem buildDeclaration_empty {line : Nat} {make : Block → Stmt}
    (hf : Matched.fragment? ms 0 = some f) (hmake : f.declared? = some (line, make))
    (htag : Matched.tag? ms 1 ≠ some .program) :
    (buildDeclaration ms).Gives (.program (.single (make (.mk line [])))) 0 [] := by
  rw [buildDeclaration, hf]
  cases f <;> cases hmake <;> simpa only [if_neg htag, pure_bind] using Build.pure_gives _

/-- A declaration and its body. -/
theorem buildDeclaration_gives {line : Nat} {make : Block → Stmt} {b : Block}
    (hf : Matched.fragment? ms 0 = some f) (hmake : f.declared? = some (line, make))
    (htag : Matched.tag? ms 1 = some .program)
    (hbody : Matched.body ms 1 = (do Build.count n; return b)) :
    (buildDeclaration ms).Gives (.program (.single (make b))) n [] := by
  rw [buildDeclaration, hf, hbody]
  cases f <;> cases hmake <;> simp only [if_pos htag] <;> exact Build.count_gives _ _

open Build in
/-- Building does what `Makes` says. -/
theorem Makes.gives (h : r.Makes ms f n ds) : (r.build ms).Gives f n ds := by
  cases h with
  | literal hl he =>
    rw [Leaf.build_literal he]
    exact made_gives _
  | assignmentHead hx hs => simpa [Rule.build, buildAssignmentHead, hx.tag_eq] using made_gives _
  | declaringHead hv hx hs => simpa [Rule.build, buildAssignmentHead, hv.tag_eq] using made_gives _
  | declaration hv hx => exact made_gives _
  | functionHead hw hx hms => exact count_gives _ _
  | classHead hw hx hb => simpa [Rule.build, hb.tag_eq] using count_gives 2 _
  | extendingHead hw hx hv hy hb => simpa [Rule.build, hv.tag_eq] using count_gives 2 _
  | newHead hw hx hl => exact made_gives _
  | methodHead ha hd hx hl =>
    simpa [Rule.build, buildCallHead, ha.tag_eq, Fragment.tag, ha.expr?] using made_gives _
  | fieldAssignmentHead ha hd hx hs =>
    simpa [Rule.build, buildAssignmentHead, ha.tag_eq, Fragment.tag, ha.expr?] using made_gives _
  | field ha hd hx => simpa [Rule.build, ha.expr?] using made_gives _
  | callHead hx hl => simpa [Rule.build, buildCallHead, hx.tag_eq] using made_gives _
  | «variable» hx => exact made_gives _
  | list hl hms | map hl hms =>
    rw [Rule.build, Matched.exprs, List.filterMap_cons, Symbol.expr?_of_fragment hl.fragment_eq]
    exact made_gives _
  | group hl ha hr => simpa [Rule.build, ha.expr?] using pure_gives _
  | unary ho ha => simpa [Rule.build, ha.expr?, unaryOperator_eq] using made_gives _
  | binary ha ho hr hnone hb =>
    rw [← hr, build_of_operator? ho]
    simpa [buildBinary, ha.expr?, hb.expr?, binaryOperator_eq] using made_gives _
  | @arguments a ms f e ht ha hms he =>
    have hfragment : Matched.fragment? (a :: ms) 0 = some f := ha
    have happlied := he
    rw [← Matched.exprs_cons_of_applied? ha he] at happlied
    rw [Rule.build, buildArguments_eq hfragment happlied]
    exact pure_gives _
  | jump hw => simpa [Rule.build] using made_gives _
  | print hw ha => simpa [Rule.build, ha.expr?] using made_gives _
  | returnsBare hw => exact made_gives _
  | returns hw ha => simpa [Rule.build, ha.expr?] using made_gives _
  | @assignment a b f e s ha hb hs =>
    have hfragment : Matched.fragment? [a, b] 0 = some f := ha.fragment_eq
    have hvalue : Matched.expr? [a, b] 1 = some e := hb.expr?
    rw [Rule.build, buildAssignment_eq hfragment hvalue hs]
    exact pure_gives _
  | @branch w a l ms e b n hw ha hl hms | @loop w a l ms e b n hw ha hl hms =>
    have hbody : Matched.body (w :: a :: l :: ms) 3 = _ := hms.build rfl rfl
    rw [Rule.build, Matched.expr?_succ, Matched.expr?_zero, ha.expr?]
    dsimp only
    rw [hbody]
    exact count_made_gives _ _
  | @elseIf a o c l ms line e₀ e b₀ b rest rest' n ha ho hc hl hms hrest =>
    have hbody : Matched.body (a :: o :: c :: l :: ms) 4 = _ := hms.build rfl rfl
    refine buildBranch_gives ha.program? ?_ hrest
    rw [Matched.expr?_succ, Matched.expr?_succ, Matched.expr?_zero, hc.expr?]
    dsimp only
    rw [hbody]
    rfl
  | @otherwise a o l ms line e₀ b₀ b rest rest' n ha ho hl hms hrest =>
    have hbody : Matched.body (a :: o :: l :: ms) 3 = _ := hms.build rfl rfl
    refine buildBranch_gives ha.program? ?_ hrest
    rw [hbody]
    rfl
  | stray hr ha hp =>
    rcases hr with rfl | rfl <;> exact buildBranch_stray ha.program? ha.fragment_eq hp
  | late hr ha hrest =>
    rcases hr with rfl | rfl <;> exact buildBranch_late ha.program? ha.fragment_eq hrest
  | @closeEmpty r a z f line make hr ha hf hz =>
    have htag : some z.tag ≠ some Tag.program := by
      rw [hz.tag_eq]
      decide
    rcases hr with rfl | rfl <;> exact buildDeclaration_empty ha.fragment_eq hf htag
  | @close r a s z f line make p hr ha hf hs hz =>
    have hbody : Matched.body [a, s, z] 1 = (do Build.count p.wrappers; return p.toBlock) := by
      rw [Matched.body, Matched.program?_succ, Matched.program?_zero, hs.program?]
    rcases hr with rfl | rfl <;>
      exact buildDeclaration_gives ha.fragment_eq hf (congrArg some hs.tag_eq) hbody
  | sequence hms => exact made_gives _
  | trailing ha hs => simpa [Rule.build, ha.fragment_eq] using pure_gives _
  | statement ha => simpa [Rule.build, ha.expr?] using pure_gives _

end Rule

/-! ### Reductions of sound symbols -/

namespace Stream

variable {s : Stream}

/-- The active symbols are sound, the detached ones are line breaks. -/
structure Sound (s : Stream) : Prop where
  active : ∀ a ∈ s.active, a.Sound
  detached : ∀ d ∈ s.detached, Detached.IsBreak d

theorem Detached.IsBreak.sound {d : StackScript.Detached} (h : IsBreak d) : d.symbol.Sound := by
  refine .inl ⟨h.2, ?_, fun hnumber => ?_⟩
  · rw [h.1]
    decide
  · rw [h.1] at hnumber
    cases hnumber

/-- The symbols of a match are sound. -/
theorem Sound.collect (h : s.Sound) {run : List Entry} : ∀ a ∈ s.collect run, a.Sound := by
  intro a ha
  obtain ⟨e, -, he⟩ := List.mem_filterMap.mp ha
  cases e with
  | active i => exact h.active a (List.mem_of_getElem? he)
  | detached j =>
    obtain ⟨d, hd, rfl⟩ := Option.map_eq_some_iff.mp he
    exact (h.detached d (List.mem_of_getElem? hd)).sound

end Stream

namespace Parsing

variable {p q : Parsing} {r : Rule}

/-- A reduction of sound symbols, with what it makes. -/
structure Makes (r : Rule) (p q : Parsing) (e : Reduction r p q) (f : Fragment) (n : Nat)
    (ds : List Diagnostic) : Prop where
  makes : r.Makes (p.stream.collect e.found.run) f n ds
  active_eq : q.stream.active =
    e.before ++ Symbol.reduced r.result e.line e.span (some f) :: e.after
  tag_eq : f.tag = r.result
  nodes_eq : q.record.nodes = p.record.nodes + n
  diagnostics_eq : q.record.diagnostics = p.record.diagnostics ++ ds

/-- Every reduction of sound symbols makes something. -/
theorem Reduction.makes (e : Reduction r p q) (h : p.stream.Sound) :
    ∃ f n ds, Makes r p q e f n ds := by
  obtain ⟨ts, hpattern⟩ := e.pattern_eq
  obtain ⟨f, n, ds, hmakes, htag⟩ := Rule.makes_of_rest? hpattern h.collect
  obtain ⟨dropped, hbuild⟩ := hmakes.gives p.record
  refine ⟨f, n, ds, hmakes, ?_, htag, ?_, ?_⟩
  · rw [e.result_active, hbuild]
  · rw [e.result_record, hbuild]
  · rw [e.result_record, hbuild]

/-- Symbols stay sound. -/
theorem Reduction.sound (e : Reduction r p q) (h : p.stream.Sound) : q.stream.Sound := by
  obtain ⟨f, n, ds, hmakes⟩ := e.makes h
  constructor
  · intro a ha
    have hactive := h.active
    rw [e.active_eq] at hactive
    rw [hmakes.active_eq] at ha
    rcases List.mem_append.mp ha with ha | ha
    · exact hactive a (List.mem_append_left _ ha)
    rcases List.mem_cons.mp ha with rfl | ha
    · exact .inr ⟨f, hmakes.tag_eq.symm, rfl⟩
    · exact hactive a (List.mem_append_right _ (List.mem_append_right _ ha))
  · intro d hd
    obtain ⟨d', hd', heq⟩ := e.result_detached d hd
    obtain ⟨htag, hfragment⟩ := h.detached d' hd'
    exact ⟨by rw [heq, htag], by rw [heq, hfragment]⟩

end Parsing

/-- At the start of a parse the active symbols are tokens. -/
theorem Stream.mem_active_prepare {tokens : List Token} {a : Symbol}
    (ha : a ∈ (Stream.prepare tokens).active) : ∃ t ∈ tokens, a = .ofToken t := by
  rw [prepare_eq_inked] at ha
  have ha := List.mem_of_mem_filter (List.mem_of_mem_filter (List.mem_of_mem_filter ha))
  obtain ⟨t, ht, rfl⟩ := List.mem_map.mp ha
  exact ⟨t, ht, rfl⟩

/-- The symbols of a parse begin as the tokens that are no layout. -/
theorem Parsing.tags_start (tokens : List Token) :
    (start tokens).tags =
      (tokens.map (·.tag)).filter fun t => t ∉ [Tag.newline, .comment, .blank] := by
  have hlayout : ∀ t : Tag, (decide (t ≠ .newline) && decide (t ≠ .comment) &&
      decide (t ≠ .blank)) = decide (t ∉ [Tag.newline, .comment, .blank]) := by
    intro t
    cases t <;> rfl
  rw [tags, start, Stream.prepare_eq_inked, Stream.inked]
  dsimp only
  rw [List.filter_filter, List.filter_filter, List.filter_map, List.filter_map, List.map_map]
  exact congrArg _ (List.filter_congr fun t _ => hlayout t.tag)

/-- The symbols of lexical tokens are sound. -/
theorem Stream.sound_prepare {tokens : List Token} (h : ∀ t ∈ tokens, t.Lexical) :
    (Stream.prepare tokens).Sound := by
  constructor
  · intro a ha
    obtain ⟨t, ht, rfl⟩ := mem_active_prepare ha
    exact .inl ⟨rfl, h t ht⟩
  · rw [prepare_eq_inked]
    exact (foldNeighbours_breaks isBreak_of_mem_breaks (breaks_sorted 0 (inked tokens))).1

/-! ### A whole parse -/

/-- One reduction, by any rule. -/
def Parsing.Steps (p q : Parsing) : Prop := ∃ r, p.reduceOnce r = some q

open Parsing Relation

namespace Grammar

variable {p : Parsing}

theorem reduces_steps {r : Rule} {n : Nat} {p q : Parsing} (h : Reduces r n p q) :
    ReflTransGen Steps p q := by
  induction h with
  | done => exact .refl
  | step h _ ih => exact .head ⟨_, h⟩ ih

theorem applyAll_steps (rules : List Rule) (p : Parsing) :
    ReflTransGen Steps p (p.applyAll rules).1 := by
  induction rules generalizing p with
  | nil => exact .refl
  | cons r rules ih => exact (reduces_steps (p.apply_reduces r).1).trans (ih _)

theorem after_steps (g : Grammar) (p : Parsing) (k : Nat) :
    ReflTransGen Steps p (g.after p k).1 := by
  induction k with
  | zero => exact .refl
  | succ k ih => exact ih.trans (applyAll_steps g.rules _)

/-- A parse is a sequence of reductions. -/
theorem reduce_steps (g : Grammar) (p : Parsing) : ReflTransGen Steps p (g.reduce p).1 := by
  rw [reduce]
  generalize g.maxPasses = limit
  induction limit generalizing p with
  | zero => exact .refl
  | succ limit ih =>
    rw [passes]
    dsimp only
    split
    · exact applyAll_steps g.rules p
    · exact (applyAll_steps g.rules p).trans (ih _)

end Grammar

/-- A parse reports what its reductions report, and what remains. -/
theorem Grammar.diagnostics_parse (g : Grammar) (tokens : List Token) :
    (g.parse tokens).record.diagnostics =
      (g.reduce (.start tokens)).1.record.diagnostics ++
        leftovers (g.reduce (.start tokens)).1.stream.active := by
  rw [parse]
  dsimp only
  split <;> rfl

/-- Where nothing is reported of what remains, it is a program or nothing. -/
theorem eq_of_leftovers {symbols : List Symbol} (h : leftovers symbols = []) :
    symbols = [] ∨ ∃ s, symbols = [s] ∧ s.tag = .program := by
  rw [leftovers] at h
  split at h
  case isTrue hdone =>
    obtain ⟨hlength, hprogram⟩ := (Bool.and_eq_true _ _).mp hdone
    cases symbols with
    | nil => exact .inl rfl
    | cons s rest =>
      obtain rfl : rest = [] := by simpa using hlength
      exact .inr ⟨s, rfl, by simpa using hprogram⟩
  case isFalse hopen =>
    dsimp only at h
    split at h
    case isTrue =>
      match symbols, hopen with
      | [s], hopen =>
        have htag : s.tag ≠ .program := by simpa using hopen
        simp [htag] at h
      | s :: s' :: rest, _ =>
        by_cases htag : s.tag = .program <;> simp [htag] at h
    case isFalse hstray =>
      rw [List.map_eq_nil_iff] at h
      rw [h] at hstray
      exact absurd rfl hstray

/-- Sound symbols stay so. -/
theorem Parsing.sound_of_steps {p q : Parsing} (h : ReflTransGen Steps p q) (hp : p.stream.Sound) :
    q.stream.Sound := by
  induction h with
  | refl => exact hp
  | tail _ hstep ih =>
    obtain ⟨r, hr⟩ := hstep
    obtain ⟨e⟩ := reduction_of_reduceOnce hr
    exact e.sound ih

end StackScript
