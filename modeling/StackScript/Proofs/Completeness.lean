import StackScript.Proofs.Builds
import StackScript.Proofs.Matching
import StackScript.Proofs.Soundness

/-!
# StackScript.Proofs.Completeness — a production is a match of its rule

Where the symbols stand for the parts of a production, the pattern of the rule takes them, and the
rule accepts the match wherever the phrase can stand.  A block must not hold more than one program.
-/

namespace StackScript

open Leaf

/-! ### Shapes -/

/-- The tags of a list with commas. -/
theorem CommaList.series {α : Type} {R : Phrase → α → Prop} {t : Tag} {ps : List Phrase}
    {as : List α} (hR : ∀ p a, R p a → p.tag = t) (h : CommaList R ps as) :
    ps.map Phrase.tag = [] ∨ Pattern.Series t (ps.map Phrase.tag) := by
  rcases h with ⟨rfl, -⟩ | h
  · exact .inl rfl
  refine .inr ?_
  induction h with
  | last h =>
    rw [List.map_singleton, hR _ _ h]
    exact .one
  | more h hc _ ih =>
    rw [List.map_cons, List.map_cons, hR _ _ h, Phrase.tag_token, hc]
    exact .more ih

/-- The tags of a body with at most one chunk. -/
theorem Chunk.body_tags {cs : List Chunk} {b : Leaf} (hcs : cs.length ≤ 1)
    (hb : b.tag = .rightBrace) : Tag.Body ((cs.map Chunk.phrase ++ [Phrase.token b]).map Phrase.tag) := by
  match cs, hcs with
  | [], _ =>
    rw [List.map_nil, List.nil_append, List.map_singleton, Phrase.tag_token, hb]
    exact .empty
  | [c], _ =>
    rw [List.map_singleton, List.singleton_append, List.map_cons, List.map_singleton,
      Phrase.tag_token, hb]
    exact .program

/-- A block with at most one chunk has the shape of its rule. -/
theorem Heading.shape {r : Rule} {head : List Phrase} {st : Start}
    {make : (Nat → Block) → Option Stmt} (h : Heading r head st make) {us : List Tag}
    (hus : Tag.Body us) : r.Shape (head.map Phrase.tag ++ us) := by
  cases h with
  | branch hw hl =>
    rw [List.map_cons, List.map_cons, List.map_singleton, Phrase.tag_token, Phrase.tag_token, hw, hl]
    exact .branch hus
  | elseIf ho hl =>
    rw [List.map_cons, List.map_cons, List.map_cons, List.map_singleton, Phrase.tag_token,
      Phrase.tag_token, ho, hl]
    exact .elseIf hus
  | otherwise ho hl =>
    rw [List.map_cons, List.map_cons, List.map_singleton, Phrase.tag_token, Phrase.tag_token, ho, hl]
    exact .otherwise hus
  | loop hw hl =>
    rw [List.map_cons, List.map_cons, List.map_singleton, Phrase.tag_token, Phrase.tag_token, hw, hl]
    exact .loop hus
  | functionEnd => exact .functionEnd hus
  | classEnd => exact .classEnd hus

/-- If the phrases are a block, it has at most one chunk. -/
def Rule.OneChunk (r : Rule) (qs : List Phrase) : Prop :=
  ∀ head st make cs b, Heading r head st make → Chunks cs → b.tag = .rightBrace →
    qs = head ++ (List.map Chunk.phrase cs ++ [.token b]) → cs.length ≤ 1

/-- The phrases of a production have the shape of the rule. -/
theorem Production.shape {r : Rule} {qs : List Phrase} {q : Phrase} (h : Production r qs q)
    (hone : r.OneChunk qs) :
    r.Shape (qs.map Phrase.tag) := by
  cases h with
  | literal h => exact .literal (Leaf.literal?_tag h)
  | assignmentHead hx hs => simpa [hx, hs] using Rule.Shape.assignmentHead
  | declaringHead hv hx hs => simpa [hv, hx, hs] using Rule.Shape.declaringHead
  | declaration hv hx => simpa [hv, hx] using Rule.Shape.declaration
  | functionHead hw hx hl hps hr hb =>
    simpa [hw, hx, hl, hr, hb] using Rule.Shape.functionHead (hps.series IsName.tag_eq)
  | classHead hw hx hb => simpa [hw, hx, hb] using Rule.Shape.classHead
  | extendingHead hw hx hv hy hb => simpa [hw, hx, hv, hy, hb] using Rule.Shape.extendingHead
  | newHead hw hx hl => simpa [hw, hx, hl] using Rule.Shape.newHead
  | methodHead hd _ hx hl => simpa [hd, hx, hl] using Rule.Shape.methodHead
  | fieldAssignmentHead hd _ hx hs => simpa [hd, hx, hs] using Rule.Shape.fieldAssignmentHead
  | field hd _ hx => simpa [hd, hx] using Rule.Shape.field
  | callHead hx hl => simpa [hx, hl] using Rule.Shape.callHead
  | «variable» hx => simpa [hx] using Rule.Shape.variable
  | list hl hps hr => simpa [hl, hr] using Rule.Shape.list (hps.series IsExpr.tag_eq)
  | group hl hr => simpa [hl, hr] using Rule.Shape.group
  | unary ho => exact .unary ho.tag_mem
  | binary ho hr => exact .binary ho hr
  | arguments ht _ hps hr => simpa [hr] using Rule.Shape.arguments ht (hps.series IsExpr.tag_eq)
  | jump hw => exact .jump hw
  | print hw => simpa [hw] using Rule.Shape.print
  | returnsBare hw => simpa [hw] using Rule.Shape.returnsBare
  | returns hw => simpa [hw] using Rule.Shape.returns
  | assignment => exact .assignment
  | block hhead hcs hb _ =>
    rw [List.map_append]
    exact hhead.shape (Chunk.body_tags (hone _ _ _ _ _ hhead hcs hb rfl) hb)
  | statement => exact .statement

/-! ### What a rule asks of the leaves around a match -/

section Admits

variable {pre run post : List Leaf} {st : Start} {k : Nat} {e : Expr} {s : Program} {q : Phrase}

/-- The name of a member or a declaration is not what stands before a phrase. -/
theorem Before.not_dot (h : Before pre q) : lastTag pre ≠ some .dot := by
  intro hdot
  cases h.name _ hdot

/-- No statement goes on with an operator or a point. -/
theorem After.not_continues (h : After (.program st s) post) : Leaf.continues post = false := by
  cases post with
  | nil => rfl
  | cons l post =>
    rcases After.cons.mp h with hl | ⟨-, hl | hl | ⟨hl, -⟩⟩
    · simp [Leaf.continues, hl, Tag.level?]
    · simp [Leaf.continues, hl, Tag.level?]
    · simp [Leaf.continues, hl, Tag.level?]
    · simp [Leaf.continues, hl]

/-- No statement is a part of a larger expression. -/
theorem After.not_holdsExpression (h : After (.program st s) post) :
    (firstTag post).any Tag.holdsExpression = false := by
  cases post with
  | nil => rfl
  | cons l post =>
    rw [firstTag_cons, Option.any_some]
    rcases After.cons.mp h with hl | ⟨-, hl | hl | ⟨-, hl, -⟩⟩
    · rw [hl]
      rfl
    · rw [hl]
      rfl
    · rw [hl]
      rfl
    · generalize l.tag = t at hl
      cases t <;> first | rfl | cases hl

/-- Nothing before an operation takes its left operand. -/
theorem Before.fitsBefore {t : Tag} {p : Operator} (ho : t.operator? = some p)
    (h : Before pre (.expr st p.level e)) :
    Leaf.fitsBefore pre (min p.level 5) (decide (p.level = 6)) = true := by
  have htight : Tight pre p.level := h.tight (.inl rfl)
  cases hp : pre.getLast? with
  | none =>
    obtain rfl := List.getLast?_eq_none_iff.mp hp
    rfl
  | some o =>
    obtain ⟨zs, rfl⟩ := List.getLast?_eq_some_iff.mp hp
    have hzs := htight zs o rfl
    rw [fitsBefore_concat]
    split at hzs
    case isTrue hunary =>
      rw [if_pos hunary, decide_eq_true_eq]
      omega
    case isFalse hunary =>
      rw [if_neg hunary]
      generalize o.tag = u at hzs
      cases u <;> first | rfl | skip
      all_goals
        have hright := hzs _ rfl
        cases t <;> cases ho <;> first | rfl | exact absurd hright (by decide)

/-- Nothing after an operation takes its right operand. -/
theorem After.fitsAfter {t : Tag} {p : Operator} (ho : t.operator? = some p)
    (h : After (.expr st p.level e) post) :
    Leaf.fitsAfter post (min p.level 5) (decide (p.level = 6)) = true := by
  cases post with
  | nil => rfl
  | cons l post =>
    obtain ⟨-, -, hdot, hops⟩ := After.cons.mp h
    rw [fitsAfter_cons]
    generalize l.tag = u at hdot hops
    have hdot' : u ≠ .dot := fun hu => absurd (hdot hu) (Nat.not_le.mpr (Operator.level_lt ho))
    cases u <;> first | rfl | exact absurd rfl hdot' | skip
    all_goals
      have hleft := hops _ rfl
      cases t <;> cases ho <;> first | rfl | exact absurd hleft (by decide)

/-- Where a line can not begin with the leaf, an operand can not end before it. -/
theorem Before.not_endsOperand {l : Leaf} (h : Before pre q) (hstart : q.start = l.start)
    (hapart : l.broken = false) {t : Tag} (ht : lastTag pre = some t) : t.endsOperand = false := by
  rcases h.apart with hbroken | hends
  · rw [hstart] at hbroken
    cases hbroken.symm.trans hapart
  · exact hends t ht

/-- A rule accepts its productions where they can stand. -/
theorem Production.admits {r : Rule} {qs : List Phrase} (h : Production r qs q)
    (hrun : List.Forall₂ Stands run qs) (hbefore : Before pre q) (hafter : After q post)
    (hapart : Apart run)
    (hopens : r = .statement → (lastTag pre).all Tag.opensStatement = true) :
    r.admits pre run post = true := by
  cases h with
  | assignmentHead | declaringHead | callHead =>
    have := hbefore.not_dot
    simpa [Rule.admits] using this
  | «variable» hx =>
    rw [Rule.admits, Bool.not_eq_true', Option.any_eq_false]
    exact fun t ht => by simpa using hbefore.name t ht
  | field =>
    cases post with
    | nil => rfl
    | cons l post =>
      obtain ⟨hparen, hequals, -, -⟩ := After.cons.mp hafter
      simp [Rule.admits, hparen, hequals]
  | group hl =>
    obtain ⟨⟩ | @⟨l, _, _, _, ha, -⟩ := hrun
    obtain ⟨rfl, -⟩ := ha.token_eq
    have hbroken : l.broken = false := by
      by_contra hb
      exact (hapart l List.mem_cons_self (by simpa using hb)).1 hl
    rw [Rule.admits, bne_iff_ne]
    intro hname
    cases hbefore.not_endsOperand rfl hbroken hname
  | unary ho =>
    obtain ⟨⟩ | @⟨o, _, _, _, ha, -⟩ := hrun
    obtain ⟨rfl, -⟩ := ha.token_eq
    have hminus : o.tag ≠ .term ∨ isPrefixMinus pre o = true := by
      rcases ho with ⟨hterm, htext⟩ | h | h
      · refine .inr ?_
        rw [isPrefixMinus, decide_eq_true hterm, decide_eq_true htext]
        cases hlast : lastTag pre with
        | none => rfl
        | some t =>
          rcases hbefore.apart with hbroken | hends
          · have hbroken : o.broken = true := hbroken
            simp [hbroken]
          · simp [hends t hlast]
      · exact .inl (by simp [h])
      · exact .inl (by simp [h])
    have hnext : firstTag post ≠ some .dot ∧ firstTag post ≠ some .power := by
      cases post with
      | nil => exact ⟨by simp, by simp⟩
      | cons l post =>
        obtain ⟨-, -, hdot, hops⟩ := After.cons.mp hafter
        refine ⟨fun h => ?_, fun h => ?_⟩
        · exact absurd (hdot (Option.some.inj h)) (by decide)
        · have hpower := hops ⟨.power, 6, 7, 5⟩ (by rw [Option.some.inj h]; rfl)
          exact absurd hpower (by decide)
    rw [Rule.admits, firstTag_cons, List.head?_cons, Option.any_some]
    rcases hminus with h | h <;> simp [h, hnext]
  | binary ho hr =>
    rw [← hr, Reading.admits_binary ho, hbefore.fitsBefore ho, hafter.fitsAfter ho]
    rfl
  | print | assignment =>
    rw [Rule.admits, hafter.not_continues]
    rfl
  | returnsBare =>
    obtain ⟨⟩ | ⟨-, ⟨⟩⟩ := hrun
    unfold Rule.admits
    dsimp only
    rw [if_neg (by simp)]
    cases post with
    | nil => rfl
    | cons l post =>
      rcases After.cons.mp hafter with hl | ⟨hbare, -⟩
      · simp [hl, Tag.startsExpression]
      · cases hbare
  | returns =>
    obtain ⟨⟩ | ⟨-, ⟨⟩ | ⟨-, ⟨⟩⟩⟩ := hrun
    unfold Rule.admits
    dsimp only
    rw [if_pos (by simp), hafter.not_continues]
    rfl
  | statement =>
    unfold Rule.admits
    dsimp only
    rw [hopens rfl, hafter.not_continues, hafter.not_holdsExpression]
    rfl
  | block hhead =>
    cases hhead <;> rfl
  | _ => rfl

/-- There are no productions for these rules. -/
theorem Production.rule_ne {r : Rule} {qs : List Phrase} (h : Production r qs q) :
    r ≠ .map ∧ r ≠ .sequence := by
  cases h with
  | @binary _ _ o _ _ _ _ _ _ ho hr =>
    subst hr
    generalize o.tag = t at ho
    cases t <;> cases ho <;> exact ⟨by decide, by decide⟩
  | block hhead => cases hhead <;> exact ⟨by decide, by decide⟩
  | _ => exact ⟨by decide, by decide⟩

/-- Behind a bare `return` there is no expression. -/
theorem Production.not_expression {r : Rule} {qs : List Phrase} (h : Production r qs q)
    (hbare : qs.map Phrase.tag = [.returnWord]) (hafter : After q post) :
    (post.map Leaf.tag).head? ≠ some .expression := by
  have hr : r = .returns := by
    have hshape := h.shape (by
      rintro head st make cs b - - - rfl
      have hlength := congrArg List.length hbare
      simp at hlength
      omega)
    rw [hbare] at hshape
    generalize hts : [Tag.returnWord] = ts at hshape
    cases hshape with
    | returnsBare | returns => rfl
    | literal h | jump h =>
      obtain rfl := (List.cons.inj hts).1
      simp at h
    | _ => simp at hts
  subst hr
  cases h with
  | returnsBare =>
    cases post with
    | nil => simp
    | cons l post =>
      rcases After.cons.mp hafter with hl | ⟨hends, -⟩
      · simp [hl]
      · cases hends
  | returns => simp at hbare
  | @binary _ p o _ _ _ _ _ _ ho hr =>
    simp at hbare
  | block hhead => cases hhead

/-- A production whose parts are reduced is a match that its rule accepts. -/
theorem Production.takes {r : Rule} {qs : List Phrase} (h : Production r qs q)
    (hrun : List.Forall₂ Stands run qs) (hbefore : Before pre q) (hafter : After q post)
    (hapart : Apart run)
    (hopens : r = .statement → (lastTag pre).all Tag.opensStatement = true)
    (hone : r.OneChunk qs) : r.Takes pre run post := by
  refine ⟨.plain h.rule_ne.2 ?_ ?_, h.admits hrun hbefore hafter hapart hopens⟩
  · obtain ⟨p, ps, rfl, -⟩ := h.first
    rintro rfl
    cases hrun
  · rw [List.map_append, Stands.map_tag hrun]
    exact Rule.rest?_of_shape h.rule_ne.1 (h.shape hone) fun hbare => h.not_expression hbare hafter

end Admits

end StackScript
