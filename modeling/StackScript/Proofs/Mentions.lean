import StackScript.Proofs.Made

/-!
# StackScript.Proofs.Mentions — the names and literals of a source

`Block.mentions` reads off a tree its names and literals in the order in which a source has them: a
receiver before the name, the name before arguments or value, a condition before the bodies.  A rule
that reports nothing makes a fragment with the mentions of its match, one after the other
(`Rule.Makes.mentions`); so the active symbols have the mentions of the tokens all the time.
-/

namespace StackScript

/-- A name or a literal. -/
inductive Mention where
  | name (s : String)
  | number (value : Decimal)
  | text (value : String)
  | boolean (value : Bool)
  | null
  | this
  | super
deriving DecidableEq, Repr, Inhabited

/-- The tags of names and literals. -/
def Tag.mentioned : List Tag := [name, number, text, boolean, null, thisWord, superWord]

/-- What a token of a name or a literal mentions. -/
def Token.mention? (t : Token) : Option Mention :=
  match t.tag with
  | .name => some (.name t.text)
  | .number => (Decimal.ofText? t.text).map .number
  | .text => some (.text (String.ofList (unquote t.text.toList)))
  | .boolean => some (.boolean (t.text = "true"))
  | .null => some .null
  | .thisWord => some .this
  | .superWord => some .super
  | _ => none

/-! ### The mentions of a tree -/

mutual

/-- The mentions in an expression; a receiver comes before the name, the name before arguments. -/
def Expr.mentions : Expr → List Mention
  | .number _ value => [.number value]
  | .text _ value => [.text value]
  | .boolean _ value => [.boolean value]
  | .null _ => [.null]
  | .this _ => [.this]
  | .super _ => [.super]
  | .list _ items => Expr.mentionsAll items
  | .map _ entries => Expr.mentionsPairs entries
  | .variable _ name _ => [.name name]
  | .field _ receiver name => receiver.mentions ++ [.name name]
  | .binary _ _ left right _ => left.mentions ++ right.mentions
  | .unary _ _ operand => operand.mentions
  | .call _ name args => .name name :: Expr.mentionsAll args
  | .method _ receiver name args => receiver.mentions ++ .name name :: Expr.mentionsAll args
  | .create _ className args => .name className :: Expr.mentionsAll args

/-- The mentions in expressions from first to last. -/
def Expr.mentionsAll : List Expr → List Mention
  | [] => []
  | e :: es => e.mentions ++ Expr.mentionsAll es

/-- The mentions in keys and values from first to last. -/
def Expr.mentionsPairs : List (Expr × Expr) → List Mention
  | [] => []
  | (k, v) :: es => k.mentions ++ (v.mentions ++ Expr.mentionsPairs es)

end

/-- The mentions in an expression that may be absent. -/
def Expr.mentionsOption : Option Expr → List Mention
  | none => []
  | some e => e.mentions

mutual

/-- The mentions in a statement; a condition comes before bodies, a name before parameters and
those before the body. -/
def Stmt.mentions : Stmt → List Mention
  | .value e => e.mentions
  | .declare _ name init _ => .name name :: Expr.mentionsOption init
  | .assign _ name value _ => .name name :: value.mentions
  | .setField _ receiver name value => receiver.mentions ++ .name name :: value.mentions
  | .print _ value => value.mentions
  | .branch _ condition body rest => condition.mentions ++ (body.mentions ++ rest.mentions)
  | .loop _ condition body => condition.mentions ++ body.mentions
  | .function _ name params body => .name name :: (params.map .name ++ body.mentions)
  | .classDecl _ name parent members =>
    .name name :: (parent.toList.map .name ++ members.mentions)
  | .returns _ value => Expr.mentionsOption value
  | .continues _ | .breaks _ => []
  | .free _ name _ => [.name name]

/-- The mentions in what follows the body of an `if`. -/
def Rest.mentions : Rest → List Mention
  | .nothing => []
  | .elseIf _ condition body rest => condition.mentions ++ (body.mentions ++ rest.mentions)
  | .otherwise body => body.mentions

/-- The mentions in a block. -/
def Block.mentions : Block → List Mention
  | .mk _ statements => Stmt.mentionsAll statements

/-- The mentions in statements from first to last. -/
def Stmt.mentionsAll : List Stmt → List Mention
  | [] => []
  | s :: ss => s.mentions ++ Stmt.mentionsAll ss

end

/-- The mentions in a program. -/
def Program.mentions : Program → List Mention
  | single s => s.mentions
  | several b => b.mentions

/-- The mentions in what a symbol stands for. -/
def Fragment.mentions : Fragment → List Mention
  | value e => e.mentions
  | program p => p.mentions
  | assignmentHead _ _ receiver name => Expr.mentionsOption receiver ++ [.name name]
  | callHead _ receiver name => Expr.mentionsOption receiver ++ [.name name]
  | newHead _ className => [.name className]
  | functionHead _ name params => .name name :: params.map .name
  | classHead _ name parent => .name name :: parent.toList.map .name

/-- The mention of a token, or the mentions of what the symbol stands for. -/
def Symbol.mentions (s : Symbol) : List Mention :=
  match s.fragment with
  | none => s.mention?.toList
  | some f => f.mentions

/-! ### Mentions of parts -/

@[simp] theorem Fragment.mentions_value (e : Expr) : (value e).mentions = e.mentions := by
  rw [mentions]

@[simp] theorem Fragment.mentions_program (p : Program) : (program p).mentions = p.mentions := by
  rw [mentions]

@[simp] theorem Program.mentions_single (s : Stmt) : (single s).mentions = s.mentions := by
  rw [mentions]

theorem Stmt.mentionsAll_append (ss ss' : List Stmt) :
    mentionsAll (ss ++ ss') = mentionsAll ss ++ mentionsAll ss' := by
  induction ss with
  | nil => rw [List.nil_append, mentionsAll, List.nil_append]
  | cons s ss ih => rw [List.cons_append, mentionsAll, mentionsAll, ih, List.append_assoc]

theorem Program.mentionsAll_statements (p : Program) :
    Stmt.mentionsAll p.statements = p.mentions := by
  cases p with
  | single s => rw [statements, Stmt.mentionsAll, Stmt.mentionsAll, List.append_nil, mentions]
  | several b =>
    obtain ⟨line, ss⟩ := b
    rw [statements, Block.statements, mentions, Block.mentions]

theorem Program.mentions_toBlock (p : Program) : p.toBlock.mentions = p.mentions := by
  cases p with
  | single s => rw [toBlock, Block.mentions, ← mentionsAll_statements, statements]
  | several b => rw [toBlock, mentions]

theorem Rest.mentions_attach {new : Rest} : ∀ {rest rest' : Rest}, rest.attach new = some rest' →
    rest'.mentions = rest.mentions ++ new.mentions
  | .nothing, rest', h => by
    obtain rfl := Option.some.inj h
    simp [mentions]
  | .elseIf line condition body rest, rest', h => by
    obtain ⟨tail, htail, rfl⟩ := Option.map_eq_some_iff.mp h
    rw [mentions, mentions, mentions_attach htail, List.append_assoc, List.append_assoc]
  | .otherwise _, _, h => by cases h

theorem Expr.mentionsPairs_pairsOf : ∀ {es : List Expr}, es.length % 2 = 0 →
    mentionsPairs (pairsOf es) = mentionsAll es
  | [], _ => by rw [pairsOf, mentionsPairs, mentionsAll]; simp
  | [_], h => by simp at h
  | k :: v :: es, h => by
    have hes : es.length % 2 = 0 := by
      rw [List.length_cons, List.length_cons] at h
      omega
    rw [pairsOf, mentionsPairs, mentionsAll, mentionsAll, mentionsPairs_pairsOf hes]

namespace Symbol

variable {s : Symbol} {ms : List Symbol} {of : List Tag} {f : Fragment}

theorem mentions_of_fragment (h : s.fragment = some f) : s.mentions = f.mentions := by
  rw [Symbol.mentions, h]

theorem Bears.mentions (h : s.Bears f) : s.mentions = f.mentions :=
  mentions_of_fragment h.fragment_eq

theorem mention?_of_tag {t : Token} (h : t.tag ∉ Tag.mentioned) : t.mention? = none := by
  rw [Token.mention?]
  split <;> rename_i ht <;> first | rfl | exact absurd (ht ▸ by decide) h

theorem Among.mentions (h : s.Among of) (hof : ∀ t ∈ of, t ∉ Tag.mentioned) : s.mentions = [] := by
  rw [Symbol.mentions, h.fragment_eq]
  dsimp only
  rw [mention?_of_tag (hof _ h.mem)]
  rfl

theorem Is.mentions {t : Tag} (h : s.Is t) (ht : t ∉ Tag.mentioned) : s.mentions = [] := by
  rw [Symbol.mentions, h.fragment_eq]
  dsimp only
  rw [mention?_of_tag (h.tag_eq ▸ ht)]
  rfl

theorem Is.mentions_name (h : s.Is .name) : s.mentions = [.name s.text] := by
  rw [Symbol.mentions, h.fragment_eq]
  dsimp only
  rw [Token.mention?, h.tag_eq]
  rfl

theorem mentions_items (h : ∀ s ∈ ms, s.Item of) (hof : ∀ t ∈ of, t ∉ Tag.mentioned) :
    ms.flatMap Symbol.mentions = Expr.mentionsAll (Matched.exprs ms) := by
  induction ms with
  | nil => rw [Matched.exprs, List.filterMap_nil, Expr.mentionsAll]; rfl
  | cons s ms ih =>
    obtain ⟨hs, hms⟩ := List.forall_mem_cons.mp h
    rw [List.flatMap_cons, ih hms]
    rcases hs with hs | ⟨e, he⟩
    · rw [hs.mentions hof, Matched.exprs, Matched.exprs, List.filterMap_cons,
        expr?_of_fragment hs.fragment_eq, List.nil_append]
    · have hexprs : Matched.exprs (s :: ms) = e :: Matched.exprs ms := by
        rw [Matched.exprs, List.filterMap_cons, he.expr?]
        rfl
      rw [he.mentions, hexprs, Expr.mentionsAll]
      rfl

theorem mentions_parts (h : ∀ s ∈ ms, s.Part of) (hof : ∀ t ∈ of, t ∉ Tag.mentioned) :
    ms.flatMap Symbol.mentions =
      Stmt.mentionsAll ((Matched.programs ms).flatMap Program.statements) := by
  induction ms with
  | nil => rw [Matched.programs, List.filterMap_nil, List.flatMap_nil, List.flatMap_nil, Stmt.mentionsAll]
  | cons s ms ih =>
    obtain ⟨hs, hms⟩ := List.forall_mem_cons.mp h
    rw [List.flatMap_cons, ih hms]
    rcases hs with hs | ⟨p, hp⟩
    · rw [hs.mentions hof, Matched.programs, Matched.programs, List.filterMap_cons,
        program?_of_fragment hs.fragment_eq, List.nil_append]
    · have hprograms : Matched.programs (s :: ms) = p :: Matched.programs ms := by
        rw [Matched.programs, List.filterMap_cons, hp.program?]
        rfl
      rw [hp.mentions, hprograms, List.flatMap_cons, Stmt.mentionsAll_append,
        p.mentionsAll_statements]
      rfl

/-- Names and marks mention the names. -/
theorem mentions_names (h : ∀ s ∈ ms, s.Among (.name :: of)) (hof : ∀ t ∈ of, t ∉ Tag.mentioned) :
    ms.flatMap Symbol.mentions = ((ms.filter (·.tag = .name)).map (·.text)).map .name := by
  induction ms with
  | nil => rfl
  | cons s ms ih =>
    obtain ⟨hs, hms⟩ := List.forall_mem_cons.mp h
    rw [List.flatMap_cons, ih hms, List.filter_cons]
    by_cases htag : s.tag = .name
    · rw [Is.mentions_name ⟨htag, hs.fragment_eq⟩, if_pos (by simpa using htag)]
      rfl
    · have hmem := (List.mem_cons.mp hs.mem).resolve_left htag
      rw [Among.mentions ⟨hmem, hs.fragment_eq⟩ hof, if_neg (by simpa using htag), List.nil_append]

end Symbol

namespace Rule

variable {r : Rule} {ms : List Symbol} {f : Fragment} {n : Nat}

theorem Body.mentions {line : Nat} {b : Block} (h : Body line ms b n) :
    ms.flatMap Symbol.mentions = b.mentions := by
  cases h with
  | empty hz =>
    rw [List.flatMap_cons, hz.mentions (by decide), Block.mentions, Stmt.mentionsAll]
    rfl
  | program hs hz =>
    rw [List.flatMap_cons, List.flatMap_cons, hs.mentions, hz.mentions (by decide),
      Program.mentions_toBlock, Fragment.mentions]
    exact List.append_nil _

theorem mentions_literal {l : Symbol} {e : Expr} (hl : l.fragment = none)
    (he : Leaf.literal? ⟨l, false⟩ = some e) : l.mentions = e.mentions := by
  rw [Symbol.mentions, hl]
  dsimp only
  unfold Leaf.literal? at he
  rw [Token.mention?]
  dsimp only [Leaf.tag, Leaf.text, Leaf.line] at he
  cases ht : l.tag <;> rw [ht] at he <;> try cases he; done
  case number =>
    obtain ⟨d, hd, rfl⟩ := Option.map_eq_some_iff.mp he
    dsimp only
    rw [hd, Expr.mentions]
    rfl
  all_goals
    obtain rfl := Option.some.inj he
    rw [Expr.mentions]
    rfl

theorem mentions_of_applied? {es : List Expr} {e : Expr} (h : f.applied? es = some e) :
    e.mentions = f.mentions ++ Expr.mentionsAll es := by
  unfold Fragment.applied? at h
  split at h <;> first | cases h; done | obtain rfl := Option.some.inj h
  · rw [Expr.mentions, Fragment.mentions, Expr.mentionsOption]
    rfl
  · rw [Expr.mentions, Fragment.mentions, Expr.mentionsOption, List.append_assoc]
    rfl
  · rw [Expr.mentions, Fragment.mentions]
    rfl

theorem mentions_of_assigned? {e : Expr} {s : Stmt} (h : f.assigned? e = some s) :
    s.mentions = f.mentions ++ e.mentions := by
  unfold Fragment.assigned? at h
  split at h <;> first | cases h; done | obtain rfl := Option.some.inj h
  · rw [Stmt.mentions, Fragment.mentions, Expr.mentionsOption, Expr.mentionsOption]
    rfl
  · rw [Stmt.mentions, Fragment.mentions, Expr.mentionsOption]
    rfl
  · rw [Stmt.mentions, Fragment.mentions, Expr.mentionsOption, List.append_assoc]
    rfl

theorem mentions_of_declared? {line : Nat} {make : Block → Stmt} {b : Block}
    (h : f.declared? = some (line, make)) : (make b).mentions = f.mentions ++ b.mentions := by
  cases f <;> cases h <;> rw [Stmt.mentions, Fragment.mentions] <;> rfl

/-- A rule that reports nothing makes a fragment with the mentions of its match. -/
theorem Makes.mentions (h : r.Makes ms f n []) :
    ms.flatMap Symbol.mentions = f.mentions := by
  cases h with
  | literal hl he =>
    rw [List.flatMap_singleton, mentions_literal hl he, Fragment.mentions_value]
  | assignmentHead hx hs =>
    simp [hx.mentions_name, hs.mentions (by decide), Fragment.mentions, Expr.mentionsOption]
  | declaringHead hv hx hs =>
    simp [hv.mentions (by decide), hx.mentions_name, hs.mentions (by decide), Fragment.mentions,
      Expr.mentionsOption]
  | declaration hv hx =>
    simp [hv.mentions (by decide), hx.mentions_name, Stmt.mentions, Expr.mentionsOption]
  | functionHead hw hx hms =>
    rw [List.flatMap_cons, List.flatMap_cons, hw.mentions (by decide), hx.mentions_name,
      Symbol.mentions_names hms (by decide), Fragment.mentions]
    rfl
  | classHead hw hx hb =>
    simp [hw.mentions (by decide), hx.mentions_name, hb.mentions (by decide), Fragment.mentions]
  | extendingHead hw hx hv hy hb =>
    simp [hw.mentions (by decide), hx.mentions_name, hv.mentions (by decide), hy.mentions_name,
      hb.mentions (by decide), Fragment.mentions]
  | newHead hw hx hl =>
    simp [hw.mentions (by decide), hx.mentions_name, hl.mentions (by decide), Fragment.mentions]
  | methodHead ha hd hx hl =>
    simp [ha.mentions, hd.mentions (by decide), hx.mentions_name, hl.mentions (by decide),
      Fragment.mentions, Expr.mentionsOption]
  | fieldAssignmentHead ha hd hx hs =>
    simp [ha.mentions, hd.mentions (by decide), hx.mentions_name, hs.mentions (by decide),
      Fragment.mentions, Expr.mentionsOption]
  | field ha hd hx =>
    simp [ha.mentions, hd.mentions (by decide), hx.mentions_name, Expr.mentions]
  | callHead hx hl =>
    simp [hx.mentions_name, hl.mentions (by decide), Fragment.mentions, Expr.mentionsOption]
  | «variable» hx => simp [hx.mentions_name, Expr.mentions]
  | list hl hms =>
    rw [List.flatMap_cons, hl.mentions (by decide), Symbol.mentions_items hms (by decide),
      Fragment.mentions_value, Expr.mentions]
    rfl
  | map hl hms heven =>
    rw [List.flatMap_cons, hl.mentions (by decide), Symbol.mentions_items hms (by decide),
      Fragment.mentions_value, Expr.mentions, Expr.mentionsPairs_pairsOf heven]
    rfl
  | group hl ha hr =>
    simp [hl.mentions (by decide), ha.mentions, hr.mentions (by decide)]
  | unary ho ha =>
    simp [ho.mentions (by decide), ha.mentions, Expr.mentions]
  | @binary r p a o b e e' ha ho hr hnone hb =>
    have htag : o.tag ∈ [Tag.logic, .comparison, .term, .factor, .power] := by
      generalize o.tag = t at ho
      cases t <;> cases ho <;> decide
    have hop : o.Among [Tag.logic, .comparison, .term, .factor, .power] := ⟨htag, hnone⟩
    simp [ha.mentions, hop.mentions (by decide), hb.mentions, Expr.mentions]
  | arguments ht ha hms he =>
    rw [List.flatMap_cons, Symbol.mentions_of_fragment ha, Symbol.mentions_items hms (by decide),
      Fragment.mentions_value, mentions_of_applied? he]
  | jump hw =>
    rw [List.flatMap_singleton, hw.mentions (by decide), Fragment.mentions_program,
      Program.mentions_single]
    split <;> rw [Stmt.mentions]
  | print hw ha =>
    simp [hw.mentions (by decide), ha.mentions, Stmt.mentions]
  | returnsBare hw =>
    simp [hw.mentions (by decide), Stmt.mentions, Expr.mentionsOption]
  | returns hw ha =>
    simp [hw.mentions (by decide), ha.mentions, Stmt.mentions, Expr.mentionsOption]
  | assignment ha hb hs =>
    simp [ha.mentions, hb.mentions, mentions_of_assigned? hs]
  | branch hw ha hl hms =>
    simp [hw.mentions (by decide), ha.mentions, hl.mentions (by decide), hms.mentions,
      Stmt.mentions, Rest.mentions]
  | elseIf ha ho hc hl hms hrest =>
    simp [ha.mentions, ho.mentions (by decide), hc.mentions, hl.mentions (by decide), hms.mentions,
      Stmt.mentions, Rest.mentions_attach hrest, Rest.mentions]
  | otherwise ha ho hl hms hrest =>
    simp [ha.mentions, ho.mentions (by decide), hl.mentions (by decide), hms.mentions,
      Stmt.mentions, Rest.mentions_attach hrest, Rest.mentions]
  | loop hw ha hl hms =>
    simp [hw.mentions (by decide), ha.mentions, hl.mentions (by decide), hms.mentions,
      Stmt.mentions]
  | closeEmpty hr ha hf hz =>
    simp [ha.mentions, hz.mentions (by decide), mentions_of_declared? hf, Block.mentions,
      Stmt.mentionsAll]
  | close hr ha hf hs hz =>
    simp [ha.mentions, hs.mentions, hz.mentions (by decide), mentions_of_declared? hf,
      Program.mentions_toBlock]
  | sequence hms =>
    rw [Symbol.mentions_parts hms (by decide), Fragment.mentions, Program.mentions, Block.mentions]
  | trailing ha hs => simp [ha.mentions, hs.mentions (by decide)]
  | statement ha => simp [ha.mentions, Stmt.mentions]

end Rule

/-! ### A whole parse -/

/-- The mentions of symbols, one after the other. -/
def Stream.mentions (s : Stream) : List Mention := s.active.flatMap Symbol.mentions

namespace Symbol

variable {ms : List Symbol}

/-- Symbols that mention nothing may be left out. -/
theorem mentions_filter {keeps : Symbol → Bool}
    (h : ∀ s ∈ ms, keeps s = false → s.mentions = []) :
    (ms.filter keeps).flatMap Symbol.mentions = ms.flatMap Symbol.mentions := by
  induction ms with
  | nil => rfl
  | cons s ms ih =>
    obtain ⟨hs, hms⟩ := List.forall_mem_cons.mp h
    rw [List.flatMap_cons, List.filter_cons, ← ih hms]
    cases hkeeps : keeps s with
    | false => rw [hs hkeeps, if_neg Bool.false_ne_true, List.nil_append]
    | true => rw [if_pos rfl, List.flatMap_cons]

theorem mentions_ink (h : ∀ s ∈ ms, s.Sound) :
    (ms.filter (·.tag.isInk)).flatMap Symbol.mentions = ms.flatMap Symbol.mentions := by
  refine mentions_filter fun s hs hink => ?_
  have htag : s.tag = .newline := by simpa [Tag.isInk] using hink
  exact Is.mentions ⟨htag, (h s hs).fragment_eq (htag ▸ by decide)⟩ (by decide)

end Symbol

open Relation

namespace Parsing

variable {p q : Parsing} {r : Rule}

/-- A reduction that leaves nothing reported keeps the mentions. -/
theorem Reduction.mentions (e : Reduction r p q) (h : p.stream.Sound)
    (hq : q.record.diagnostics = []) :
    p.record.diagnostics = [] ∧ p.stream.mentions = q.stream.mentions := by
  obtain ⟨f, n, ds, hmakes⟩ := e.makes h
  have hdiagnostics := hmakes.diagnostics_eq
  rw [hq] at hdiagnostics
  obtain ⟨hp, rfl⟩ := List.append_eq_nil_iff.mp hdiagnostics.symm
  refine ⟨hp, ?_⟩
  have hrun : ∀ s ∈ e.run, s.Sound := fun s hs => h.active s (by
    rw [e.active_eq]
    exact List.mem_append_right _ (List.mem_append_left _ hs))
  have hmentions : e.run.flatMap Symbol.mentions = f.mentions :=
    calc e.run.flatMap Symbol.mentions
      _ = (e.run.filter (·.tag.isInk)).flatMap Symbol.mentions := (Symbol.mentions_ink hrun).symm
      _ = ((p.stream.collect e.found.run).filter (·.tag.isInk)).flatMap Symbol.mentions := by
        rw [e.filter_collect]
      _ = (p.stream.collect e.found.run).flatMap Symbol.mentions := Symbol.mentions_ink h.collect
      _ = f.mentions := hmakes.makes.mentions
  have hresult : (Symbol.reduced r.result e.line e.span (some f)).mentions = f.mentions := rfl
  rw [Stream.mentions, Stream.mentions, e.active_eq, hmakes.active_eq, List.flatMap_append,
    List.flatMap_append, List.flatMap_append, List.flatMap_cons, hmentions, hresult]

/-- Reductions that leave nothing reported keep the mentions. -/
theorem mentions_of_steps (h : ReflTransGen Steps p q) (hp : p.stream.Sound)
    (hq : q.record.diagnostics = []) :
    p.record.diagnostics = [] ∧ p.stream.mentions = q.stream.mentions := by
  induction h with
  | refl => exact ⟨hq, rfl⟩
  | tail h hstep ih =>
    obtain ⟨r, hr⟩ := hstep
    obtain ⟨e⟩ := reduction_of_reduceOnce hr
    obtain ⟨hmiddle, hlast⟩ := e.mentions (sound_of_steps h hp) hq
    obtain ⟨hfirst, hmentions⟩ := ih hmiddle
    exact ⟨hfirst, hmentions.trans hlast⟩

end Parsing

/-- Layout mentions nothing. -/
theorem Stream.mentions_prepare (tokens : List Token) :
    (Stream.prepare tokens).mentions = tokens.filterMap Token.mention? := by
  have hactive : (Stream.prepare tokens).active = (((tokens.map Symbol.ofToken).filter
      (·.tag ≠ .blank)).filter (·.tag ≠ .comment)).filter (·.tag ≠ .newline) := by
    rw [prepare_eq_inked]
    rfl
  have htokens : ∀ s ∈ tokens.map Symbol.ofToken, s.fragment = none := by
    intro s hs
    obtain ⟨t, -, rfl⟩ := List.mem_map.mp hs
    rfl
  have hlayout : ∀ {t : Tag} {s : Symbol}, s.fragment = none → t ∉ Tag.mentioned →
      decide (s.tag ≠ t) = false → s.mentions = [] := by
    intro t s hs ht htag
    have htag : s.tag = t := by simpa using htag
    exact Symbol.Is.mentions ⟨htag, hs⟩ ht
  rw [mentions, hactive, Symbol.mentions_filter, Symbol.mentions_filter, Symbol.mentions_filter]
  · rw [List.flatMap_map, List.filterMap_eq_flatMap_toList]
    rfl
  · exact fun s hs => hlayout (htokens s hs) (by decide)
  · exact fun s hs => hlayout (htokens s (List.mem_of_mem_filter hs)) (by decide)
  · exact fun s hs => hlayout
      (htokens s (List.mem_of_mem_filter (List.mem_of_mem_filter hs))) (by decide)

/-- Each token of a name or a literal mentions something, and no other token does. -/
theorem Token.mentions_of_lexical {tokens : List Token} (h : ∀ t ∈ tokens, t.Lexical) :
    (tokens.filter (·.tag ∈ Tag.mentioned)).map Token.mention? =
      (tokens.filterMap Token.mention?).map some := by
  induction tokens with
  | nil => rfl
  | cons t tokens ih =>
    obtain ⟨ht, h⟩ := List.forall_mem_cons.mp h
    by_cases htag : t.tag ∈ Tag.mentioned
    · obtain ⟨m, hm⟩ : ∃ m, t.mention? = some m := by
        have hreadable := ht.readable
        simp only [Tag.mentioned, List.mem_cons, List.not_mem_nil, or_false] at htag
        rcases htag with htag | htag | htag | htag | htag | htag | htag <;>
          rw [Token.mention?, htag]
        case inr.inl =>
          obtain ⟨d, hd⟩ := Option.isSome_iff_exists.mp (hreadable htag)
          exact ⟨_, congrArg (Option.map _) hd⟩
        all_goals exact ⟨_, rfl⟩
      rw [List.filter_cons_of_pos (by simpa using htag), List.map_cons, List.filterMap_cons, hm,
        ih h]
      rfl
    · rw [List.filter_cons_of_neg (by simpa using htag), List.filterMap_cons,
        Symbol.mention?_of_tag htag, ih h]

/-- A parse that reports nothing has a tree with the names and literals of the tokens. -/
theorem Grammar.mentions_parse (g : Grammar) {tokens : List Token} (h : ∀ t ∈ tokens, t.Lexical)
    (hclean : (g.parse tokens).record.diagnostics = []) :
    tokens.filterMap Token.mention? = (g.parse tokens).root.mentions := by
  have hsound := Stream.sound_prepare h
  have hsteps := g.reduce_steps (Parsing.start tokens)
  rw [g.diagnostics_parse] at hclean
  rw [← Stream.mentions_prepare, parse]
  generalize (g.reduce (Parsing.start tokens)).1 = q at hsteps hclean ⊢
  dsimp only
  obtain ⟨hq, hleftovers⟩ := List.append_eq_nil_iff.mp hclean
  obtain ⟨-, hmentions⟩ := Parsing.mentions_of_steps hsteps hsound hq
  change (Parsing.start tokens).stream.mentions = _
  rw [hmentions, Stream.mentions]
  rcases eq_of_leftovers hleftovers with hnil | ⟨s, hs, htag⟩
  · rw [hnil]
    simp [Block.mentions, Stmt.mentionsAll]
  · obtain ⟨p, hp⟩ := ((Parsing.sound_of_steps hsteps hsound).active s
      (hs ▸ List.mem_singleton_self s)).program htag
    have hprograms : ([s].filter (·.tag = .program)).filterMap (·.program?) = [p] := by
      simp [htag, hp.program?]
    rw [hs, hprograms, List.flatMap_singleton, hp.mentions, Fragment.mentions_program]
    exact p.mentions_toBlock.symm

end StackScript
