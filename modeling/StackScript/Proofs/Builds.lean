import StackScript.Proofs.Made

/-!
# StackScript.Proofs.Builds — a rule makes what its production says

For symbols that stand for the parts of a production, the rule makes the fragment of the phrase and
reports nothing (`Production.makes`).
-/

namespace StackScript

namespace Stands

variable {l : Leaf}

theorem token_eq {x : Leaf} (h : Stands l (.token x)) : l = x ∧ x.symbol.fragment = none := by
  cases h with
  | token h => exact ⟨rfl, h⟩

theorem line_eq {t : Tag} {st : Start} {k : Nat} {f : Fragment} (h : Stands l (.whole t st k f)) :
    l.symbol.line = st.line := (congrArg Start.line h.start_eq).symm

theorem program?_eq {st : Start} {k : Nat} {p : Program}
    (h : Stands l (.whole .program st k (.program p))) :
    l.symbol.program? = some p := by
  rw [Symbol.program?, h.fragment_eq]
  rfl

/-- A token with this tag. -/
theorem is {x : Leaf} {t : Tag} (h : Stands l (.token x)) (ht : x.tag = t) : x.symbol.Is t :=
  ⟨ht, h.token_eq.2⟩

theorem bears {t : Tag} {st : Start} {k : Nat} {f : Fragment} (h : Stands l (.whole t st k f))
    (ht : t = f.tag) : l.symbol.Bears f := ⟨h.tag_eq.symm.trans ht, h.fragment_eq⟩

end Stands

/-! ### Matches -/

section Matches

variable {run : List Leaf} {ps : List Phrase}

/-- Symbols have the tags of the phrases that they stand for. -/
theorem Stands.map_tag (h : List.Forall₂ Stands run ps) :
    run.map Leaf.tag = ps.map Phrase.tag := by
  induction h with
  | nil => rfl
  | cons h _ ih => rw [List.map_cons, List.map_cons, h.tag_eq, ih]

/-- Expressions with commas between them, and what closes them. -/
theorem CommaList.items {es : List Expr} {t : Tag} {r : Leaf} (h : CommaList IsExpr ps es)
    (hr : r.tag = t) (hrun : List.Forall₂ Stands run (ps ++ [.token r])) :
    Matched.exprs (run.map Leaf.symbol) = es ∧ ∀ s ∈ run.map Leaf.symbol, s.Item [.comma, t] := by
  have hclose : r.symbol.tag ∈ [.comma, t] := List.mem_cons_of_mem _ (hr ▸ List.mem_cons_self)
  rcases h with ⟨rfl, rfl⟩ | h
  · obtain - | ⟨hr', ⟨⟩⟩ := hrun
    obtain ⟨rfl, hnone⟩ := hr'.token_eq
    exact ⟨by simp [Matched.exprs, Symbol.expr?_of_fragment hnone],
      List.forall_mem_singleton.mpr (.inl ⟨hclose, hnone⟩)⟩
  induction h generalizing run with
  | last h =>
    obtain ⟨st, k, rfl⟩ := h
    obtain - | ⟨he, - | ⟨hr', ⟨⟩⟩⟩ := hrun
    obtain ⟨rfl, hnone⟩ := hr'.token_eq
    have he := he.bears rfl
    exact ⟨by simp [Matched.exprs, he.expr?, Symbol.expr?_of_fragment hnone],
      List.forall_mem_cons.mpr ⟨.inr ⟨_, he⟩, List.forall_mem_singleton.mpr (.inl ⟨hclose, hnone⟩)⟩⟩
  | @more _ _ c _ _ h hc _ ih =>
    obtain ⟨st, k, rfl⟩ := h
    have hcomma : c.symbol.tag ∈ [.comma, t] := hc ▸ List.mem_cons_self
    obtain - | ⟨he, - | ⟨hc', hrun⟩⟩ := hrun
    obtain ⟨rfl, hnone⟩ := hc'.token_eq
    have he := he.bears rfl
    obtain ⟨hes, hitems⟩ := ih hrun
    refine ⟨?_, List.forall_mem_cons.mpr ⟨.inr ⟨_, he⟩,
      List.forall_mem_cons.mpr ⟨.inl ⟨hcomma, hnone⟩, hitems⟩⟩⟩
    rw [← hes]
    simp [Matched.exprs, he.expr?, Symbol.expr?_of_fragment hnone]

/-- Names with commas between them are tokens. -/
theorem CommaList.tokens {names : List String} (h : CommaList IsName ps names) :
    ∃ xs : List Leaf, ps = xs.map .token ∧ (∀ x ∈ xs, x.tag = .name ∨ x.tag = .comma) ∧
      (xs.filter (·.tag = .name)).map Leaf.text = names := by
  rcases h with ⟨rfl, rfl⟩ | h
  · exact ⟨[], rfl, by simp, rfl⟩
  induction h with
  | last h =>
    obtain ⟨x, hx, rfl, rfl⟩ := h
    exact ⟨[x], rfl, by simp [hx], by simp [hx]⟩
  | @more _ _ c _ _ h hc _ ih =>
    obtain ⟨x, hx, rfl, rfl⟩ := h
    obtain ⟨xs, rfl, htags, rfl⟩ := ih
    exact ⟨x :: c :: xs, rfl, by simpa [hx, hc] using htags, by simp [hx, hc]⟩

/-- What stands for tokens are these tokens. -/
theorem Stands.tokens {xs : List Leaf} (h : List.Forall₂ Stands run (xs.map .token)) :
    run = xs ∧ ∀ x ∈ xs, x.symbol.fragment = none := by
  induction xs generalizing run with
  | nil =>
    obtain ⟨⟩ := h
    exact ⟨rfl, by simp⟩
  | cons x xs ih =>
    obtain - | ⟨hx, h⟩ := h
    obtain ⟨rfl, hnone⟩ := hx.token_eq
    obtain ⟨rfl, hxs⟩ := ih h
    exact ⟨rfl, List.forall_mem_cons.mpr ⟨hnone, hxs⟩⟩

end Matches

/-! ### Blocks -/

section Blocks

variable {run : List Leaf} {cs : List Chunk} {b : Leaf}

/-- What stands in braces. -/
theorem Rule.Body.of_chunks (line : Nat)
    (hrun : List.Forall₂ Stands run (cs.map Chunk.phrase ++ [.token b])) (hcs : cs.length ≤ 1)
    (hb : b.tag = .rightBrace) : ∃ n, Rule.Body line (run.map Leaf.symbol) (blockOf line cs) n := by
  match cs, hcs with
  | [], _ =>
    obtain - | ⟨hz, ⟨⟩⟩ := hrun
    obtain ⟨rfl, -⟩ := hz.token_eq
    exact ⟨_, .empty (hz.is hb)⟩
  | [c], _ =>
    obtain - | ⟨hc, - | ⟨hz, ⟨⟩⟩⟩ := hrun
    obtain ⟨rfl, -⟩ := hz.token_eq
    exact ⟨_, .program (hc.bears rfl) (hz.is hb)⟩

/-- The end of a declaration. -/
theorem Rule.makes_close {r : Rule} {a : Symbol} {f : Fragment} {line : Nat} {make : Block → Stmt}
    (hr : r = .functionEnd ∨ r = .classEnd) (ha : a.Bears f) (hf : f.declared? = some (line, make))
    (hrun : List.Forall₂ Stands run (cs.map Chunk.phrase ++ [.token b])) (hcs : cs.length ≤ 1)
    (hb : b.tag = .rightBrace) :
    ∃ n, r.Makes (a :: run.map Leaf.symbol) (.program (.single (make (blockOf line cs)))) n [] := by
  match cs, hcs with
  | [], _ =>
    obtain - | ⟨hz, ⟨⟩⟩ := hrun
    obtain ⟨rfl, -⟩ := hz.token_eq
    exact ⟨_, .closeEmpty hr ha hf (hz.is hb)⟩
  | [c], _ =>
    obtain - | ⟨hc, - | ⟨hz, ⟨⟩⟩⟩ := hrun
    obtain ⟨rfl, -⟩ := hz.token_eq
    exact ⟨_, .close hr ha hf (hc.bears rfl) (hz.is hb)⟩

/-- Where the shape of a rule has a block, there is at most one chunk in it. -/
theorem Heading.one_chunk {r : Rule} {head : List Phrase} {st : Start}
    {make : (Nat → Block) → Option Stmt} (h : Heading r head st make)
    (hshape : r.Shape ((head ++ (cs.map Chunk.phrase ++ [Phrase.token b])).map Phrase.tag)) :
    cs.length ≤ 1 := by
  generalize hts : (head ++ (cs.map Chunk.phrase ++ [Phrase.token b])).map Phrase.tag = ts at hshape
  have hlength := congrArg List.length hts
  have hresult := h.result_eq
  cases hshape with
  | branch hbody | elseIf hbody | otherwise hbody | loop hbody | functionEnd hbody
  | classEnd hbody =>
    cases h
    cases hbody <;>
      simp only [List.length_map, List.length_append, List.length_cons, List.length_nil]
        at hlength <;> omega
  | binary ho hr =>
    rw [← hr, Tag.result_of_operator? ho] at hresult
    cases hresult
  | _ => cases h

/-- A block makes its statement. -/
theorem Heading.makes {r : Rule} {head : List Phrase} {st : Start}
    {make : (Nat → Block) → Option Stmt} (h : Heading r head st make)
    (hrun : List.Forall₂ Stands run (head ++ (cs.map Chunk.phrase ++ [Phrase.token b])))
    (hcs : cs.length ≤ 1) (hb : b.tag = .rightBrace) {s : Stmt}
    (hs : make (fun line => blockOf line cs) = some s) :
    ∃ n, r.Makes (run.map Leaf.symbol) (.program (.single s)) n [] := by
  cases h with
  | branch hw hl =>
    obtain - | ⟨hw', - | ⟨hc, - | ⟨hl', hrun⟩⟩⟩ := hrun
    obtain ⟨⟨rfl, -⟩, ⟨rfl, -⟩⟩ := And.intro hw'.token_eq hl'.token_eq
    obtain rfl := Option.some.inj hs
    obtain ⟨n, hbody⟩ := Rule.Body.of_chunks _ hrun hcs hb
    exact ⟨_, .branch (hw'.is hw) (hc.bears rfl) (hl'.is hl) hbody⟩
  | loop hw hl =>
    obtain - | ⟨hw', - | ⟨hc, - | ⟨hl', hrun⟩⟩⟩ := hrun
    obtain ⟨⟨rfl, -⟩, ⟨rfl, -⟩⟩ := And.intro hw'.token_eq hl'.token_eq
    obtain rfl := Option.some.inj hs
    obtain ⟨n, hbody⟩ := Rule.Body.of_chunks _ hrun hcs hb
    exact ⟨_, .loop (hw'.is hw) (hc.bears rfl) (hl'.is hl) hbody⟩
  | elseIf ho hl =>
    obtain - | ⟨ha, - | ⟨ho', - | ⟨hc, - | ⟨hl', hrun⟩⟩⟩⟩ := hrun
    obtain ⟨⟨rfl, -⟩, ⟨rfl, -⟩⟩ := And.intro ho'.token_eq hl'.token_eq
    rw [← ha.line_eq] at hs
    obtain ⟨rest', hrest, rfl⟩ := Option.map_eq_some_iff.mp hs
    obtain ⟨n, hbody⟩ := Rule.Body.of_chunks _ hrun hcs hb
    exact ⟨_, .elseIf (ha.bears rfl) (ho'.is ho) (hc.bears rfl) (hl'.is hl) hbody hrest⟩
  | otherwise ho hl =>
    obtain - | ⟨ha, - | ⟨ho', - | ⟨hl', hrun⟩⟩⟩ := hrun
    obtain ⟨⟨rfl, -⟩, ⟨rfl, -⟩⟩ := And.intro ho'.token_eq hl'.token_eq
    rw [← ha.line_eq] at hs
    obtain ⟨rest', hrest, rfl⟩ := Option.map_eq_some_iff.mp hs
    obtain ⟨n, hbody⟩ := Rule.Body.of_chunks _ hrun hcs hb
    exact ⟨_, .otherwise (ha.bears rfl) (ho'.is ho) (hl'.is hl) hbody hrest⟩
  | functionEnd =>
    obtain - | ⟨ha, hrun⟩ := hrun
    obtain rfl := Option.some.inj hs
    exact Rule.makes_close (.inl rfl) (ha.bears rfl) rfl hrun hcs hb
  | classEnd =>
    obtain - | ⟨ha, hrun⟩ := hrun
    obtain rfl := Option.some.inj hs
    exact Rule.makes_close (.inr rfl) (ha.bears rfl) rfl hrun hcs hb

end Blocks

/-! ### Productions -/

section Productions

variable {run : List Leaf} {ps : List Phrase}

/-- The head of a function. -/
theorem Rule.makes_functionHead {w x l r b : Leaf} {names : List String} (hw : w.symbol.Is .funcWord)
    (hx : x.symbol.Is .name) (hl : l.tag = .leftParen) (hps : CommaList IsName ps names)
    (hr : r.tag = .rightParen) (hb : b.tag = .leftBrace)
    (hrun : List.Forall₂ Stands run (.token l :: (ps ++ [.token r, .token b]))) :
    Rule.functionHead.Makes (w.symbol :: x.symbol :: run.map Leaf.symbol)
      (.functionHead w.line x.text names) 2 [] := by
  obtain ⟨xs, rfl, htags, rfl⟩ := hps.tokens
  have htokens : Phrase.token l :: (xs.map Phrase.token ++ [.token r, .token b]) =
      (l :: (xs ++ [r, b])).map Phrase.token := by simp
  rw [htokens] at hrun
  obtain ⟨rfl, hnone⟩ := Stands.tokens hrun
  have hamong : ∀ s ∈ (l :: (xs ++ [r, b])).map Leaf.symbol,
      s.Among [.name, .comma, .leftParen, .rightParen, .leftBrace] := by
    intro s hs
    obtain ⟨y, hy, rfl⟩ := List.mem_map.mp hs
    refine ⟨?_, hnone y hy⟩
    simp only [List.mem_cons, List.mem_append, List.not_mem_nil, or_false] at hy
    rw [← Leaf.tag]
    rcases hy with rfl | hy | rfl | rfl
    · simp [hl]
    · rcases htags y hy with h | h <;> simp [h]
    · simp [hr]
    · simp [hb]
  have hnames : (((l :: (xs ++ [r, b])).map Leaf.symbol).filter (·.tag = .name)).map (·.text) =
      (xs.filter (·.tag = .name)).map Leaf.text := by
    have hfilter : ∀ y : Leaf, (y.symbol.tag = .name) = (y.tag = .name) := fun _ => rfl
    simp [List.filter_map, Function.comp_def, hfilter, hl, hr, hb]
  exact hnames ▸ .functionHead hw hx hamong

/-- The match of a production makes what the production says. -/
theorem Production.makes {r : Rule} {qs : List Phrase} {q : Phrase} (h : Production r qs q)
    (hrun : List.Forall₂ Stands run qs) (hshape : r.Shape (run.map Leaf.tag)) :
    ∃ st k f n, q = .whole r.result st k f ∧ r.Makes (run.map Leaf.symbol) f n [] := by
  cases h with
  | literal h =>
    obtain - | ⟨hl, ⟨⟩⟩ := hrun
    obtain ⟨rfl, hnone⟩ := hl.token_eq
    exact ⟨_, _, _, _, rfl, .literal hnone h⟩
  | block hhead hcs hb hs =>
    rw [Stands.map_tag hrun] at hshape
    obtain ⟨n, hmakes⟩ := hhead.makes hrun (hhead.one_chunk hshape) hb hs
    exact ⟨_, _, _, _, by rw [hhead.result_eq], hmakes⟩
  | assignmentHead hx hs =>
    obtain - | ⟨⟨hx'⟩, - | ⟨⟨hs'⟩, ⟨⟩⟩⟩ := hrun
    exact ⟨_, _, _, _, rfl, .assignmentHead ⟨hx, hx'⟩ ⟨hs, hs'⟩⟩
  | declaringHead hv hx hs =>
    obtain - | ⟨⟨hv'⟩, - | ⟨⟨hx'⟩, - | ⟨⟨hs'⟩, ⟨⟩⟩⟩⟩ := hrun
    exact ⟨_, _, _, _, rfl, .declaringHead ⟨hv, hv'⟩ ⟨hx, hx'⟩ ⟨hs, hs'⟩⟩
  | declaration hv hx =>
    obtain - | ⟨⟨hv'⟩, - | ⟨⟨hx'⟩, ⟨⟩⟩⟩ := hrun
    exact ⟨_, _, _, _, rfl, .declaration ⟨hv, hv'⟩ ⟨hx, hx'⟩⟩
  | functionHead hw hx hl hps hr hb =>
    obtain - | ⟨⟨hw'⟩, - | ⟨⟨hx'⟩, hrun⟩⟩ := hrun
    exact ⟨_, _, _, _, rfl, Rule.makes_functionHead ⟨hw, hw'⟩ ⟨hx, hx'⟩ hl hps hr hb hrun⟩
  | classHead hw hx hb =>
    obtain - | ⟨⟨hw'⟩, - | ⟨⟨hx'⟩, - | ⟨⟨hb'⟩, ⟨⟩⟩⟩⟩ := hrun
    exact ⟨_, _, _, _, rfl, .classHead ⟨hw, hw'⟩ ⟨hx, hx'⟩ ⟨hb, hb'⟩⟩
  | extendingHead hw hx hv hy hb =>
    obtain - | ⟨⟨hw'⟩, - | ⟨⟨hx'⟩, - | ⟨⟨hv'⟩, - | ⟨⟨hy'⟩, - | ⟨⟨hb'⟩, ⟨⟩⟩⟩⟩⟩⟩ := hrun
    exact ⟨_, _, _, _, rfl,
      .extendingHead ⟨hw, hw'⟩ ⟨hx, hx'⟩ ⟨hv, hv'⟩ ⟨hy, hy'⟩ ⟨hb, hb'⟩⟩
  | newHead hw hx hl =>
    obtain - | ⟨⟨hw'⟩, - | ⟨⟨hx'⟩, - | ⟨⟨hl'⟩, ⟨⟩⟩⟩⟩ := hrun
    exact ⟨_, _, _, _, rfl, .newHead ⟨hw, hw'⟩ ⟨hx, hx'⟩ ⟨hl, hl'⟩⟩
  | methodHead hd _ hx hl =>
    obtain - | ⟨ha, - | ⟨⟨hd'⟩, - | ⟨⟨hx'⟩, - | ⟨⟨hl'⟩, ⟨⟩⟩⟩⟩⟩ := hrun
    rw [← ha.line_eq]
    exact ⟨_, _, _, _, rfl, .methodHead (ha.bears rfl) ⟨hd, hd'⟩ ⟨hx, hx'⟩ ⟨hl, hl'⟩⟩
  | fieldAssignmentHead hd _ hx hs =>
    obtain - | ⟨ha, - | ⟨⟨hd'⟩, - | ⟨⟨hx'⟩, - | ⟨⟨hs'⟩, ⟨⟩⟩⟩⟩⟩ := hrun
    rw [← ha.line_eq]
    exact ⟨_, _, _, _, rfl, .fieldAssignmentHead (ha.bears rfl) ⟨hd, hd'⟩ ⟨hx, hx'⟩ ⟨hs, hs'⟩⟩
  | field hd _ hx =>
    obtain - | ⟨ha, - | ⟨⟨hd'⟩, - | ⟨⟨hx'⟩, ⟨⟩⟩⟩⟩ := hrun
    rw [← ha.line_eq]
    exact ⟨_, _, _, _, rfl, .field (ha.bears rfl) ⟨hd, hd'⟩ ⟨hx, hx'⟩⟩
  | callHead hx hl =>
    obtain - | ⟨⟨hx'⟩, - | ⟨⟨hl'⟩, ⟨⟩⟩⟩ := hrun
    exact ⟨_, _, _, _, rfl, .callHead ⟨hx, hx'⟩ ⟨hl, hl'⟩⟩
  | «variable» hx =>
    obtain - | ⟨⟨hx'⟩, ⟨⟩⟩ := hrun
    exact ⟨_, _, _, _, rfl, .variable ⟨hx, hx'⟩⟩
  | list hl hps hr =>
    obtain - | ⟨⟨hl'⟩, hrun⟩ := hrun
    obtain ⟨rfl, hitems⟩ := hps.items hr hrun
    exact ⟨_, _, _, _, rfl, .list ⟨hl, hl'⟩ hitems⟩
  | group hl hr =>
    obtain - | ⟨⟨hl'⟩, - | ⟨ha, - | ⟨⟨hr'⟩, ⟨⟩⟩⟩⟩ := hrun
    exact ⟨_, _, _, _, rfl, .group ⟨hl, hl'⟩ (ha.bears rfl) ⟨hr, hr'⟩⟩
  | unary ho =>
    obtain - | ⟨⟨ho'⟩, - | ⟨ha, ⟨⟩⟩⟩ := hrun
    exact ⟨_, _, _, _, rfl, .unary ⟨ho.tag_mem, ho'⟩ (ha.bears rfl)⟩
  | binary ho hr =>
    obtain - | ⟨ha, - | ⟨⟨ho'⟩, - | ⟨hb, ⟨⟩⟩⟩⟩ := hrun
    have hresult : r.result = .expression := hr ▸ Tag.result_of_operator? ho
    rw [← ha.line_eq, hresult]
    exact ⟨_, _, _, _, rfl, .binary (ha.bears rfl) ho hr ho' (hb.bears rfl)⟩
  | arguments ht hf hps hr =>
    obtain - | ⟨ha, hrun⟩ := hrun
    obtain ⟨rfl, hitems⟩ := hps.items hr hrun
    have htag := ha.tag_eq
    rw [Phrase.tag_whole] at htag
    rw [htag] at ht
    exact ⟨_, _, _, _, rfl, .arguments ht ha.fragment_eq hitems hf⟩
  | jump hw =>
    obtain - | ⟨⟨hw'⟩, ⟨⟩⟩ := hrun
    exact ⟨_, _, _, _, rfl, .jump ⟨by simpa using hw, hw'⟩⟩
  | print hw =>
    obtain - | ⟨⟨hw'⟩, - | ⟨ha, ⟨⟩⟩⟩ := hrun
    exact ⟨_, _, _, _, rfl, .print ⟨hw, hw'⟩ (ha.bears rfl)⟩
  | returnsBare hw =>
    obtain - | ⟨⟨hw'⟩, ⟨⟩⟩ := hrun
    exact ⟨_, _, _, _, rfl, .returnsBare ⟨hw, hw'⟩⟩
  | returns hw =>
    obtain - | ⟨⟨hw'⟩, - | ⟨ha, ⟨⟩⟩⟩ := hrun
    exact ⟨_, _, _, _, rfl, .returns ⟨hw, hw'⟩ (ha.bears rfl)⟩
  | @assignment _ _ f _ _ _ hf =>
    obtain - | ⟨ha, - | ⟨hb, ⟨⟩⟩⟩ := hrun
    have htag : Tag.assignmentHead = f.tag := by
      cases f with
      | assignmentHead => rfl
      | _ => cases hf
    exact ⟨_, _, _, _, rfl, .assignment (ha.bears htag) (hb.bears rfl) hf⟩
  | statement =>
    obtain - | ⟨ha, ⟨⟩⟩ := hrun
    exact ⟨_, _, _, _, rfl, .statement (ha.bears rfl)⟩

end Productions

end StackScript
