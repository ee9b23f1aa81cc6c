import StackScript.Proofs.Edges

/-!
# StackScript.Proofs.Contexts — where a phrase can stand

What stands before a phrase and what stands after it, as far as rules look at it, does not depend on
how much is reduced already.  `Before` and `After` say so; both go from a phrase to its parts.
-/

namespace StackScript

open Leaf

/-! ### Parts of phrases -/

/-- An operand can stand right behind this, inside of brackets or before a block. -/
def Tag.opensOperand : Tag → Bool
  | leftBracket | leftParen | comma | callHead | newHead | ifWord | whileWord | elseIfWord => true
  | _ => false

/-- How a whole phrase is a part of a larger one, with the phrases before it and after it. -/
inductive Part : List Phrase → Phrase → List Phrase → Phrase → Prop
  /-- before a point and a name -/
  | receiver {st : Start} {e : Expr} {d : Leaf} {qs : List Phrase} {q : Phrase}
    (hd : d.tag = .dot) (hb : d.broken = false) (hq : q.start = st) :
    Part [] (.expr st 7 e) (.token d :: qs) q
  /-- between brackets, commas or the like -/
  | enclosed {st : Start} {k : Nat} {e : Expr} {p : Phrase} {c : Leaf} (ps : List Phrase)
    {qs : List Phrase}
    {q : Phrase}
    (hp : p.tag.opensOperand = true) (hc : c.tag.holdsExpression = true) :
    Part (ps ++ [p]) (.expr st k e) (.token c :: qs) q
  /-- behind a prefix operator -/
  | operand {o : Leaf} {st : Start} {k : Nat} {e e' : Expr} (ho : o.IsPrefix) (hk : 5 ≤ k) :
    Part [.token o] (.expr st k e) [] (.expr o.start 5 e')
  /-- before a binary operator -/
  | left {st : Start} {i : Nat} {e e' : Expr} {o : Leaf} {p : Operator} {qs : List Phrase}
    (ho : o.tag.operator? = some p) (hb : o.broken = false) (hi : p.left ≤ i) :
    Part [] (.expr st i e) (.token o :: qs) (.expr st p.level e')
  /-- behind a binary operator -/
  | right {st st' : Start} {i j : Nat} {e e' e'' : Expr} {o : Leaf} {p : Operator}
    (ho : o.tag.operator? = some p) (hb : o.broken = false) (hj : p.right ≤ j) :
    Part [.expr st i e, .token o] (.expr st' j e') [] (.expr st p.level e'')
  /-- the head of a construct -/
  | head {t : Tag} {st : Start} {k : Nat} {f : Fragment} {qs : List Phrase} {q : Phrase}
    (ht : t ∈ [Tag.callHead, .newHead, .assignmentHead, .functionHead, .classHead])
    (hq : q.start = st) :
    Part [] (.whole t st k f) qs q
  /-- at the end of a statement -/
  | value {p : Phrase} {st : Start} {k : Nat} {e : Expr} {st' : Start} {s : Program}
    (hp : p.tag ∈ [Tag.printWord, .returnWord, .assignmentHead]) :
    Part [p] (.expr st k e) [] (.program st' s)
  /-- a statement by itself -/
  | statement {st : Start} {k : Nat} {e : Expr} {s : Program} :
    Part [] (.expr st k e) [] (.program st s)
  /-- before an `else` -/
  | chain {st : Start} {line : Nat} {c : Expr} {b : Block} {rest : Rest} {o : Leaf}
    {qs : List Phrase} {s : Program} (ho : o.tag = .elseIfWord ∨ o.tag = .elseWord) :
    Part [] (.program st (.single (.branch line c b rest))) (.token o :: qs) (.program st s)
  /-- in a block -/
  | chunk {r : Rule} {head : List Phrase} {st : Start} {make : (Nat → Block) → Option Stmt}
    {cs₁ cs₂ : List Chunk} {c : Chunk} {b : Leaf} {q : Phrase} (hhead : Heading r head st make)
    (hcs : Chunks (cs₁ ++ c :: cs₂)) (hb : b.tag = .rightBrace) :
    Part (head ++ cs₁.map Chunk.phrase) c.phrase (cs₂.map Chunk.phrase ++ [.token b]) q

/-- An expression of a list with commas stands behind a comma if not at the front, and before one if
not at the end. -/
theorem Commas.around {ps qs₁ qs₂ : List Phrase} {es : List Expr} {p : Phrase}
    (h : Commas IsExpr ps es) (hps : ps = qs₁ ++ p :: qs₂) (hp : p.fragment?.isSome) :
    (∃ st k e, p = .expr st k e) ∧ (qs₁ = [] ∨ ∃ qs c, qs₁ = qs ++ [.token c] ∧ c.tag = .comma) ∧
      (qs₂ = [] ∨ ∃ c qs, qs₂ = .token c :: qs ∧ c.tag = .comma) := by
  induction h generalizing qs₁ with
  | last h =>
    obtain ⟨st, k, rfl⟩ := h
    rw [List.cons_eq_append_iff] at hps
    rcases hps with ⟨rfl, h⟩ | ⟨qs, rfl, h⟩
    · obtain ⟨rfl, rfl⟩ := List.cons.inj h
      exact ⟨⟨_, _, _, rfl⟩, .inl rfl, .inl rfl⟩
    · simp at h
  | @more p' a c ps' as h hc _ ih =>
    obtain ⟨st, k, rfl⟩ := h
    rw [List.cons_eq_append_iff] at hps
    rcases hps with ⟨rfl, h⟩ | ⟨qs, rfl, h⟩
    · obtain ⟨rfl, rfl⟩ := List.cons.inj h
      exact ⟨⟨_, _, _, rfl⟩, .inl rfl, .inr ⟨c, ps', rfl, hc⟩⟩
    · rw [List.cons_eq_append_iff] at h
      rcases h with ⟨rfl, h⟩ | ⟨qs, rfl, h⟩
      · obtain ⟨rfl, rfl⟩ := List.cons.inj h
        cases hp
      · obtain ⟨hexpr, hbefore, hafter⟩ := ih h
        refine ⟨hexpr, .inr ?_, hafter⟩
        rcases hbefore with rfl | ⟨qs', c', rfl, hc'⟩
        · exact ⟨[_], c, rfl, hc⟩
        · exact ⟨_ :: _ :: qs', c', rfl, hc'⟩

/-- The same for the list with what stands before it and after it. -/
theorem CommaList.part {ps qs₁ qs₂ : List Phrase} {es : List Expr} {p o q : Phrase} {c : Leaf}
    (h : CommaList IsExpr ps es) (hps : ps = qs₁ ++ p :: qs₂) (hp : p.fragment?.isSome)
    (ho : o.tag.opensOperand = true) (hc : c.tag.holdsExpression = true) :
    Part (o :: qs₁) p (qs₂ ++ [.token c]) q := by
  rcases h with ⟨rfl, -⟩ | h
  · simp at hps
  obtain ⟨⟨st, k, e, rfl⟩, hbefore, hafter⟩ := h.around hps hp
  obtain ⟨qs, o', hqs, ho'⟩ : ∃ qs o', o :: qs₁ = qs ++ [o'] ∧
      o'.tag.opensOperand = true := by
    rcases hbefore with rfl | ⟨qs, c', rfl, hc'⟩
    · exact ⟨[], o, rfl, ho⟩
    · exact ⟨o :: qs, .token c', rfl, by rw [Phrase.tag_token, hc']; rfl⟩
  obtain ⟨c', qs', hqs', hc'⟩ : ∃ c' qs', qs₂ ++ [Phrase.token c] = .token c' :: qs' ∧
      c'.tag.holdsExpression = true := by
    rcases hafter with rfl | ⟨c', qs', rfl, hc'⟩
    · exact ⟨c, [], rfl, hc⟩
    · exact ⟨c', qs' ++ [.token c], rfl, by rw [hc']; rfl⟩
  rw [hqs, hqs']
  exact .enclosed _ ho' hc'

/-- A list of names has no whole phrases. -/
theorem CommaList.not_whole {ps : List Phrase} {names : List String} {p : Phrase}
    (h : CommaList IsName ps names) (hp : p ∈ ps) : p.fragment? = none := by
  rcases h with ⟨rfl, -⟩ | h
  · cases hp
  induction h with
  | last h =>
    obtain ⟨x, -, rfl, -⟩ := h
    rw [List.mem_singleton] at hp
    rw [hp]
    rfl
  | more h _ _ ih =>
    obtain ⟨x, -, rfl, -⟩ := h
    rcases List.mem_cons.mp hp with rfl | hp
    · rfl
    · rcases List.mem_cons.mp hp with rfl | hp
      · rfl
      · exact ih hp

/-- A chunk among the chunks of a block. -/
theorem Chunk.of_map_phrase {cs : List Chunk} {qs₁ qs₂ : List Phrase} {p : Phrase} {b : Leaf}
    (h : cs.map Chunk.phrase ++ [.token b] = qs₁ ++ p :: qs₂) (hp : p.fragment?.isSome) :
    ∃ cs₁ c cs₂, cs = cs₁ ++ c :: cs₂ ∧ qs₁ = cs₁.map Chunk.phrase ∧ p = c.phrase ∧
      qs₂ = cs₂.map Chunk.phrase ++ [.token b] := by
  induction cs generalizing qs₁ with
  | nil =>
    rw [List.map_nil, List.nil_append, List.cons_eq_append_iff] at h
    rcases h with ⟨rfl, h⟩ | ⟨qs, rfl, h⟩
    · obtain ⟨rfl, rfl⟩ := List.cons.inj h
      cases hp
    · simp at h
  | cons c cs ih =>
    rw [List.map_cons, List.cons_append, List.cons_eq_append_iff] at h
    rcases h with ⟨rfl, h⟩ | ⟨qs, rfl, h⟩
    · obtain ⟨rfl, rfl⟩ := List.cons.inj h
      exact ⟨[], c, cs, rfl, rfl, rfl, rfl⟩
    · obtain ⟨cs₁, c', cs₂, rfl, rfl, rfl, rfl⟩ := ih h
      exact ⟨c :: cs₁, c', cs₂, rfl, rfl, rfl, rfl⟩

/-- The whole phrases that a production is made of. -/
theorem Production.part {r : Rule} {qs qs₁ qs₂ : List Phrase} {p q : Phrase}
    (h : Production r qs q) (hqs : qs = qs₁ ++ p :: qs₂) (hp : p.fragment?.isSome) :
    Part qs₁ p qs₂ q := by
  obtain ⟨t, st, k, f, rfl⟩ : ∃ t st k f, p = .whole t st k f := by
    cases p with
    | token l => cases hp
    | whole t st k f => exact ⟨t, st, k, f, rfl⟩
  cases h with
  | literal | assignmentHead | declaringHead | declaration | classHead | extendingHead | newHead
  | callHead | «variable» | jump | returnsBare =>
    simp [List.cons_eq_append_iff] at hqs
  | functionHead hw hx hl hps hr hb =>
    have hmem : Phrase.whole t st k f ∈ qs₁ ++ Phrase.whole t st k f :: qs₂ := by simp
    rw [← hqs] at hmem
    simp only [List.mem_cons, List.mem_append, reduceCtorEq, false_or, List.not_mem_nil,
      or_false] at hmem
    cases hps.not_whole hmem
  | methodHead hd hb | fieldAssignmentHead hd hb | field hd hb =>
    simp [List.cons_eq_append_iff] at hqs
    obtain ⟨rfl, ⟨rfl, rfl, rfl, rfl⟩, rfl⟩ := hqs
    exact .receiver hd hb rfl
  | unary ho hk =>
    simp [List.cons_eq_append_iff] at hqs
    obtain ⟨rfl, ⟨rfl, rfl, rfl, rfl⟩, rfl⟩ := hqs
    exact .operand ho hk
  | @binary _ o _ _ _ _ _ _ _ ho hr hb hi hj =>
    simp [List.cons_eq_append_iff] at hqs
    rcases hqs with ⟨rfl, ⟨rfl, rfl, rfl, rfl⟩, rfl⟩ | ⟨rfl, ⟨rfl, rfl, rfl, rfl⟩, rfl⟩
    · exact .left ho hb hi
    · exact .right ho hb hj
  | @list l r ps es hl hps hr =>
    simp [List.cons_eq_append_iff, List.append_eq_append_iff] at hqs
    obtain ⟨qs₁, rfl, qs₂, h, rfl⟩ := hqs
    exact hps.part h rfl (by rw [Phrase.tag_token, hl]; rfl) (by rw [hr]; rfl)
  | group hl hr =>
    simp [List.cons_eq_append_iff] at hqs
    obtain ⟨rfl, ⟨rfl, rfl, rfl, rfl⟩, rfl⟩ := hqs
    exact .enclosed [] (by rw [Phrase.tag_token, hl]; rfl) (by rw [hr]; rfl)
  | arguments ht hf hps hr =>
    rw [List.cons_eq_append_iff] at hqs
    rcases hqs with ⟨rfl, h⟩ | ⟨qs₁, rfl, hqs⟩
    · simp only [List.cons.injEq, Phrase.whole.injEq] at h
      obtain ⟨⟨rfl, rfl, rfl, rfl⟩, rfl⟩ := h
      refine .head ?_ rfl
      rcases ht with rfl | rfl <;> decide
    · simp [List.cons_eq_append_iff, List.append_eq_append_iff] at hqs
      obtain ⟨qs₂, h, rfl⟩ := hqs
      refine hps.part h rfl ?_ (by rw [hr]; rfl)
      rcases ht with rfl | rfl <;> rfl
  | print hw | returns hw =>
    simp [List.cons_eq_append_iff] at hqs
    obtain ⟨rfl, ⟨rfl, rfl, rfl, rfl⟩, rfl⟩ := hqs
    exact .value (by rw [Phrase.tag_token, hw]; decide)
  | assignment hf =>
    simp [List.cons_eq_append_iff] at hqs
    rcases hqs with ⟨rfl, ⟨rfl, rfl, rfl, rfl⟩, rfl⟩ | ⟨rfl, ⟨rfl, rfl, rfl, rfl⟩, rfl⟩
    · exact .head (by simp) rfl
    · exact .value (by simp)
  | statement =>
    simp [List.cons_eq_append_iff] at hqs
    obtain ⟨rfl, ⟨rfl, rfl, rfl, rfl⟩, rfl⟩ := hqs
    exact .statement
  | @block _ head st' _ cs b s hhead hcs hb hs =>
    rw [List.append_eq_append_iff] at hqs
    have hbody : ∀ qs, qs₁ = head ++ qs →
        cs.map Chunk.phrase ++ [.token b] = qs ++ Phrase.whole t st k f :: qs₂ →
        Part qs₁ (.whole t st k f) qs₂ (.program st' (.single s)) := by
      rintro qs rfl h
      obtain ⟨cs₁, c, cs₂, rfl, rfl, hc, rfl⟩ := Chunk.of_map_phrase h hp
      rw [hc]
      exact .chunk hhead hcs hb
    rcases hqs with ⟨qs, h, hqs⟩ | ⟨qs, h, hqs⟩
    · exact hbody _ h hqs
    cases qs with
    | nil => exact hbody [] (by rw [h, List.append_nil, List.append_nil]) hqs.symm
    | cons p' qs =>
      obtain ⟨rfl, rfl⟩ := List.cons.inj hqs
      cases hhead with
      | branch hw hl | loop hw hl =>
        simp [List.cons_eq_append_iff] at h
        obtain ⟨rfl, ⟨rfl, rfl, rfl, rfl⟩, rfl⟩ := h
        exact .enclosed [] (by rw [Phrase.tag_token, hw]; rfl) (by rw [hl]; rfl)
      | elseIf ho hl =>
        simp [List.cons_eq_append_iff] at h
        rcases h with ⟨rfl, ⟨rfl, rfl, rfl, rfl⟩, rfl⟩ | ⟨rfl, ⟨rfl, rfl, rfl, rfl⟩, rfl⟩
        · exact .chain (.inl ho)
        · exact .enclosed [_] (by rw [Phrase.tag_token, ho]; rfl) (by rw [hl]; rfl)
      | otherwise ho hl =>
        simp [List.cons_eq_append_iff] at h
        obtain ⟨rfl, ⟨rfl, rfl, rfl, rfl⟩, rfl⟩ := h
        exact .chain (.inr ho)
      | functionEnd | classEnd =>
        simp [List.cons_eq_append_iff] at h
        obtain ⟨rfl, ⟨rfl, rfl, rfl, rfl⟩, rfl⟩ := h
        exact .head (by decide) rfl

/-! ### What stands before a phrase -/

/-- The level of a phrase. -/
def Phrase.level : Phrase → Nat
  | token _ => 7
  | whole _ _ k _ => k

/-- If these leaves end with an operator, it takes an operand of this level. -/
def Leaf.Tight (pre : List Leaf) (k : Nat) : Prop :=
  ∀ zs o, pre = zs ++ [o] →
    if isPrefixOperator zs o then 5 ≤ k
    else ∀ p, o.tag.operator? = some p → p.right ≤ k

/-- The leaves can stand before the phrase. -/
structure Before (pre : List Leaf) (p : Phrase) : Prop where
  name : ∀ t, lastTag pre = some t → t.namesMember = false
  apart : p.start.broken = true ∨ ∀ t, lastTag pre = some t → t.endsOperand = false
  tight : p.tag = .expression ∨ p.tag = .program → Tight pre p.level

/-- The tag has no bearing on what stands behind it. -/
def Tag.isNeutral (t : Tag) : Bool :=
  !t.namesMember && !t.endsOperand && t.operator?.isNone && t != .negation && t != .tilde

theorem Tag.neutral_of_opensOperand {w t : Tag} (hw : w.opensOperand = true)
    (ht : w.ends t = true) : t.isNeutral = true := by
  cases w <;> simp [opensOperand] at hw <;> simp [ends] at ht <;>
    first | (subst ht; rfl) | (rcases ht with rfl | rfl <;> rfl)

theorem Tag.not_namesMember_of_endsProgram {t : Tag} (h : t.endsProgram = true) :
    t.namesMember = false := by
  cases t <;> first | rfl | cases h

theorem Tag.no_operator_of_endsProgram {t : Tag} (h : t.endsProgram = true) :
    t.operator? = none ∧ t ≠ .negation ∧ t ≠ .tilde := by
  cases t <;> first | cases h; done | exact ⟨rfl, by simp, by simp⟩

/-- What stands before the body of a block ends with a brace or a head. -/
theorem Heading.last {r : Rule} {head : List Phrase} {st : Start}
    {make : (Nat → Block) → Option Stmt} (h : Heading r head st make) :
    ∃ hs p, head = hs ++ [p] ∧ ∀ t, p.tag.ends t = true →
      t = .leftBrace ∨ t = .functionHead ∨ t = .classHead := by
  cases h with
  | branch _ hl | loop _ hl | otherwise _ hl =>
    refine ⟨[_, _], _, rfl, fun t ht => .inl ?_⟩
    rw [Phrase.tag_token, hl] at ht
    exact beq_iff_eq.mp ht
  | elseIf _ hl =>
    refine ⟨[_, _, _], _, rfl, fun t ht => .inl ?_⟩
    rw [Phrase.tag_token, hl] at ht
    exact beq_iff_eq.mp ht
  | functionEnd =>
    refine ⟨[], _, rfl, fun t ht => ?_⟩
    simp only [Phrase.tag_whole, Tag.ends, Bool.or_eq_true, beq_iff_eq] at ht
    rcases ht with h | h
    · exact .inr (.inl h)
    · exact .inl h
  | classEnd =>
    refine ⟨[], _, rfl, fun t ht => ?_⟩
    simp only [Phrase.tag_whole, Tag.ends, Bool.or_eq_true, beq_iff_eq] at ht
    rcases ht with h | h
    · exact .inr (.inr h)
    · exact .inl h

/-- A binary operator behind an operand is no prefix operator. -/
theorem Leaf.not_isPrefixOperator {zs : List Leaf} {l o : Leaf} {p : Operator}
    (ho : o.tag.operator? = some p) (hl : l.tag.endsOperand = true) (hb : o.broken = false) :
    isPrefixOperator (zs ++ [l]) o = false := by
  have hmem := Tag.operator?_mem ho
  have hneg : o.tag ≠ .negation := by
    intro h
    rw [h] at hmem
    simp at hmem
  have htilde : o.tag ≠ .tilde := by
    intro h
    rw [h] at hmem
    simp at hmem
  simp [isPrefixOperator, Leaf.isPrefixMinus, hl, hb, hneg, htilde]

namespace Leaf.Tight

variable {pre ys : List Leaf} {j k : Nat}

theorem mono (h : Tight pre j) (hjk : j ≤ k) : Tight pre k := by
  intro zs o hpre
  have ho := h zs o hpre
  by_cases hunary : isPrefixOperator zs o = true
  · rw [if_pos hunary] at ho ⊢
    exact Nat.le_trans ho hjk
  · rw [if_neg hunary] at ho ⊢
    exact fun p hp => Nat.le_trans (ho p hp) hjk

theorem of_seven : Tight pre 7 := by
  intro zs o _
  split
  · decide
  · intro p hp
    generalize o.tag = t at hp
    cases t <;> cases hp <;> decide

theorem nil : Tight [] k := by
  intro zs o h
  simp at h

theorem concat {o : Leaf} (hunary : isPrefixOperator pre o = true → 5 ≤ k)
    (hop : isPrefixOperator pre o = false → ∀ p, o.tag.operator? = some p → p.right ≤ k) :
    Tight (pre ++ [o]) k := by
  intro zs o' h
  obtain ⟨rfl, ho⟩ := List.append_inj' h rfl
  obtain rfl := List.head_eq_of_cons_eq ho
  split
  case isTrue h => exact hunary h
  case isFalse h => exact hop (Bool.not_eq_true _ ▸ h)

theorem of_lastTag {t : Tag} (h : lastTag ys = some t) (ht : t.operator? = none)
    (hneg : t ≠ .negation) (htilde : t ≠ .tilde) : Tight (pre ++ ys) k := by
  intro zs o hpre
  have ho : o.tag = t := by
    have hlast := congrArg lastTag hpre
    rw [lastTag_append, h, Option.some_or, lastTag_concat] at hlast
    exact (Option.some.inj hlast).symm
  have hterm : t ≠ .term := by
    rintro rfl
    cases ht
  rw [if_neg (by simp [isPrefixOperator, Leaf.isPrefixMinus, ho, hneg, htilde, hterm])]
  intro p hp
  rw [ho, ht] at hp
  cases hp

end Leaf.Tight

namespace Before

variable {gone : List Rule} {pre ys : List Leaf} {qs₁ qs₂ : List Phrase} {p q : Phrase}

theorem of_neutral {t : Tag} (h : lastTag ys = some t) (ht : t.isNeutral = true) :
    Before (pre ++ ys) p := by
  simp only [Tag.isNeutral, Bool.and_eq_true, Bool.not_eq_true', bne_iff_ne, ne_eq,
    Option.isNone_iff_eq_none] at ht
  obtain ⟨⟨⟨⟨hname, hend⟩, hop⟩, hneg⟩, htilde⟩ := ht
  have hlast : lastTag (pre ++ ys) = some t := by rw [lastTag_append, h, Option.some_or]
  refine ⟨?_, .inr ?_, fun _ => .of_lastTag h hop hneg htilde⟩
  · rw [hlast]
    rintro _ ⟨⟩
    exact hname
  · rw [hlast]
    rintro _ ⟨⟩
    exact hend

/-- Before a chunk there may be other chunks. -/
theorem of_chunks {cs₁ cs₂ : List Chunk} {c : Chunk} (hcs : Chunks (cs₁ ++ c :: cs₂))
    (h : Forest gone (cs₁.map Chunk.phrase) ys) (hne : cs₁ ≠ []) : Before (pre ++ ys) c.phrase := by
  rcases List.eq_nil_or_concat cs₁ with rfl | ⟨cs, c', rfl⟩
  · exact absurd rfl hne
  rw [List.concat_eq_append] at hcs h
  rw [List.map_append] at h
  obtain ⟨us, vs, rfl, -, hvs⟩ := h.split
  obtain ⟨vs, l, rfl, hl⟩ := Derives.last hvs
  have hbroken : c.1.broken = true := by
    rw [List.append_assoc] at hcs
    have hpair := (List.isChain_append.mp hcs).2.1
    exact (List.isChain_cons_cons.mp hpair).1.1
  have hlast : lastTag (pre ++ (us ++ (vs ++ [l]))) = some l.tag := by
    rw [← List.append_assoc, ← List.append_assoc, lastTag_concat]
  refine ⟨?_, .inl hbroken, fun _ => ?_⟩
  · rw [hlast]
    rintro _ ⟨⟩
    exact Tag.not_namesMember_of_endsProgram hl
  · obtain ⟨hop, hneg, htilde⟩ := Tag.no_operator_of_endsProgram hl
    exact .of_lastTag (by rw [← List.append_assoc, lastTag_concat]) hop hneg htilde

/-- What stands before a phrase stands before its parts, with the parts in front of them. -/
theorem part (hq : Before pre q) (h : Part qs₁ p qs₂ q) (hqs : Forest gone qs₁ ys) :
    Before (pre ++ ys) p := by
  cases h with
  | receiver hd hb hst =>
    obtain rfl := Each.nil_iff.mp (Forest.each_iff.mp hqs)
    rw [List.append_nil]
    exact ⟨hq.name, hst ▸ hq.apart, fun _ => .of_seven⟩
  | enclosed _ hp hc =>
    obtain ⟨us, vs, rfl, -, hvs⟩ := hqs.split
    obtain ⟨vs, l, rfl, hl⟩ := Derives.last hvs
    exact of_neutral (by rw [← List.append_assoc, lastTag_concat])
      (Tag.neutral_of_opensOperand hp hl)
  | operand ho hk =>
    obtain ⟨rfl, -⟩ := Derives.token hqs
    refine ⟨?_, .inr ?_, fun _ => .concat (fun _ => hk) fun _ p hp => ?_⟩
    · rw [lastTag_concat]
      rintro _ ⟨⟩
      rcases ho with ⟨h, -⟩ | h | h <;> rw [h] <;> rfl
    · rw [lastTag_concat]
      rintro _ ⟨⟩
      exact ho.not_endsOperand
    · refine Nat.le_trans ?_ hk
      rcases ho with ⟨h, -⟩ | h | h <;> rw [h] at hp <;> cases hp
      decide
  | left ho hb hi =>
    obtain rfl := Each.nil_iff.mp (Forest.each_iff.mp hqs)
    rw [List.append_nil]
    exact ⟨hq.name, hq.apart, fun _ => (hq.tight (.inl rfl)).mono
      (Nat.le_trans (Operator.level_le_left ho) hi)⟩
  | @right _ _ _ _ _ _ _ o p ho hb hj =>
    obtain ⟨us, vs, rfl, hus, hvs⟩ := hqs.uncons
    obtain ⟨rfl, -⟩ := Derives.token hvs
    obtain ⟨us, l, rfl, hl⟩ := Derives.last hus
    have hnot : isPrefixOperator (pre ++ (us ++ [l])) o = false := by
      rw [← List.append_assoc]
      exact not_isPrefixOperator ho hl hb
    rw [← List.append_assoc]
    refine ⟨?_, .inr ?_, fun _ => .concat (fun h => ?_) fun _ p' hp => ?_⟩
    · rw [lastTag_concat]
      rintro _ ⟨⟩
      exact Tag.not_namesMember_of_operator? ho
    · rw [lastTag_concat]
      rintro _ ⟨⟩
      exact Tag.not_endsOperand_of_operator? ho
    · rw [hnot] at h
      cases h
    · rw [ho] at hp
      cases hp
      exact hj
  | head ht hst =>
    obtain rfl := Each.nil_iff.mp (Forest.each_iff.mp hqs)
    rw [List.append_nil]
    refine ⟨hq.name, hst ▸ hq.apart, fun h => ?_⟩
    rcases h with rfl | rfl <;> simp at ht
  | value hp =>
    obtain ⟨vs, l, rfl, hl⟩ := Derives.last hqs
    refine of_neutral (lastTag_concat _ _) ?_
    simp only [List.mem_cons, List.not_mem_nil, or_false] at hp
    rcases hp with hp | hp | hp <;> rw [hp] at hl <;>
      simp only [Tag.ends, beq_iff_eq, Bool.or_eq_true] at hl
    · rw [hl]; rfl
    · rw [hl]; rfl
    · rcases hl with hl | hl <;> rw [hl] <;> rfl
  | statement =>
    obtain rfl := Each.nil_iff.mp (Forest.each_iff.mp hqs)
    rw [List.append_nil]
    exact ⟨hq.name, hq.apart, fun _ => (hq.tight (.inr rfl)).mono (Nat.zero_le _)⟩
  | chain ho =>
    obtain rfl := Each.nil_iff.mp (Forest.each_iff.mp hqs)
    rw [List.append_nil]
    exact ⟨hq.name, hq.apart, hq.tight⟩
  | @chunk _ head _ _ cs₁ cs₂ c b _ hhead hcs hb =>
    cases cs₁ with
    | nil =>
      obtain ⟨hs, p₀, rfl, hends⟩ := hhead.last
      rw [List.map_nil, List.append_nil] at hqs
      obtain ⟨us, vs, rfl, -, hvs⟩ := hqs.split
      obtain ⟨vs, l, rfl, hl⟩ := Derives.last hvs
      refine of_neutral (by rw [← List.append_assoc, lastTag_concat]) ?_
      rcases hends _ hl with h | h | h <;> rw [h] <;> rfl
    | cons c' cs =>
      obtain ⟨us, vs, rfl, -, hvs⟩ := hqs.split
      rw [← List.append_assoc]
      exact of_chunks hcs hvs (by simp)

end Before

/-! ### What stands after a phrase -/

/-- The leaf can stand right after the phrase. -/
def Leaf.Follows (l : Leaf) : Phrase → Prop
  | .whole .expression _ k _ => l.tag ≠ .leftParen ∧ l.tag ≠ .equals ∧ (l.tag = .dot → 7 ≤ k) ∧
      ∀ p, l.tag.operator? = some p → p.left ≤ k
  | .whole .program _ _ (.program s) => l.tag = .rightBrace ∨ s.endsBare = false ∧
      (l.tag = .elseWord ∨ l.tag = .elseIfWord ∨
        l.broken = true ∧ l.tag.startsProgram = true ∧ l.tag ≠ .leftParen ∧ l.tag ≠ .term)
  | _ => True

/-- The leaves can stand after the phrase. -/
def After (p : Phrase) (post : List Leaf) : Prop := ∀ l, post.head? = some l → l.Follows p

/-- No line begins with a parenthesis or a sign. -/
def Leaf.Apart (xs : List Leaf) : Prop :=
  ∀ l ∈ xs, l.broken = true → l.tag ≠ .leftParen ∧ l.tag ≠ .term

theorem Leaf.follows_of_holdsExpression {l : Leaf} {st : Start} {k : Nat} {e : Expr}
    (h : l.tag.holdsExpression = true) : l.Follows (.expr st k e) := by
  unfold Leaf.Follows
  dsimp only [Phrase.expr]
  generalize l.tag = t at h
  cases t <;> first | cases h; done | simp [Tag.operator?]

theorem Leaf.follows_of_operator? {o : Leaf} {p : Operator} {st : Start} {k : Nat} {e : Expr}
    (ho : o.tag.operator? = some p) (hk : p.left ≤ k) : o.Follows (.expr st k e) := by
  unfold Leaf.Follows
  dsimp only [Phrase.expr]
  generalize o.tag = t at ho
  cases t <;> cases ho <;> simpa [Tag.operator?] using hk

/-- Where an operator follows the right operand of another, it takes the operation with it. -/
theorem Operator.left_le_right {t t' : Tag} {p p' : Operator} (h : t.operator? = some p)
    (h' : t'.operator? = some p') (hle : p.left ≤ p'.level) : p.left ≤ p'.right := by
  cases t <;> cases h <;> cases t' <;> cases h' <;> first | decide | exact absurd hle (by decide)

namespace After

variable {gone : List Rule} {post ys : List Leaf} {qs₁ qs₂ : List Phrase} {p q : Phrase}

theorem nil : After p [] := by
  intro l h
  cases h

theorem cons {l : Leaf} : After p (l :: post) ↔ l.Follows p := by
  constructor
  · exact fun h => h l rfl
  · rintro h _ ⟨⟩
    exact h

/-- After a larger operand as after a smaller one. -/
theorem raise {st st' : Start} {j k : Nat} {e e' : Expr} (h : After (.expr st j e) post)
    (hj : j < 7) (hop : ∀ t p, Tag.operator? t = some p → p.left ≤ j → p.left ≤ k) :
    After (.expr st' k e') post := by
  intro l hl
  obtain ⟨hparen, hequals, hdot, hops⟩ := h l hl
  exact ⟨hparen, hequals, fun h => absurd (hdot h) (by omega), fun p hp => hop _ p hp (hops p hp)⟩

/-- After the expression at the end of a statement as after the statement. -/
theorem of_program {st st' : Start} {k : Nat} {e : Expr} {s : Program}
    (h : After (.program st s) post) : After (.expr st' k e) post := by
  intro l hl
  rcases h l hl with h | ⟨-, h | h | ⟨-, h, hparen, hterm⟩⟩
  · simp [Leaf.Follows, h, Tag.operator?]
  · simp [Leaf.Follows, h, Tag.operator?]
  · simp [Leaf.Follows, h, Tag.operator?]
  · refine ⟨hparen, ?_, ?_, ?_⟩
    · intro h'
      rw [h'] at h
      cases h
    · intro h'
      rw [h'] at h
      cases h
    · intro p hp
      have hmem := Tag.operator?_mem hp
      generalize l.tag = t at *
      cases t <;> first | cases hp; done | cases h; done | exact absurd rfl hterm

/-- After a chunk there may be other chunks. -/
theorem of_chunks {cs₁ cs₂ : List Chunk} {c : Chunk} (hcs : Chunks (cs₁ ++ c :: cs₂))
    (h : Forest gone (cs₂.map Chunk.phrase) ys) (hys : Leaf.Apart ys) (hne : cs₂ ≠ []) :
    After c.phrase (ys ++ post) := by
  cases cs₂ with
  | nil => exact absurd rfl hne
  | cons c' cs₂ =>
    obtain ⟨us, vs, rfl, hus, -⟩ := h.uncons
    obtain ⟨l, us, rfl, hl, hstarts⟩ := hus.head
    refine cons.mpr ?_
    have hpair := (List.isChain_append.mp hcs).2.1
    obtain ⟨hbroken, hbare⟩ := (List.isChain_cons_cons.mp hpair).1
    have hline : l.broken = true := by
      rw [← hbroken]
      exact congrArg Start.broken hl
    exact .inr ⟨hbare, .inr (.inr ⟨hline, hstarts, hys l (by simp) hline⟩)⟩

/-- What stands after a phrase stands after its parts, with the parts behind them. -/
theorem part (hq : After q post) (h : Part qs₁ p qs₂ q) (hqs : Forest gone qs₂ ys)
    (hys : Leaf.Apart ys) : After p (ys ++ post) := by
  cases h with
  | receiver hd hb hst =>
    obtain ⟨us, vs, rfl, hus, -⟩ := hqs.uncons
    obtain ⟨rfl, -⟩ := Derives.token hus
    refine cons.mpr ?_
    simp [Leaf.Follows, hd, Tag.operator?]
  | enclosed _ hp hc =>
    obtain ⟨us, vs, rfl, hus, -⟩ := hqs.uncons
    obtain ⟨rfl, -⟩ := Derives.token hus
    exact cons.mpr (Leaf.follows_of_holdsExpression hc)
  | operand ho hk =>
    obtain rfl := Each.nil_iff.mp (Forest.each_iff.mp hqs)
    exact hq.raise (by decide) fun _ _ _ h => Nat.le_trans h hk
  | left ho hb hi =>
    obtain ⟨us, vs, rfl, hus, -⟩ := hqs.uncons
    obtain ⟨rfl, -⟩ := Derives.token hus
    exact cons.mpr (Leaf.follows_of_operator? ho hi)
  | right ho hb hj =>
    obtain rfl := Each.nil_iff.mp (Forest.each_iff.mp hqs)
    refine hq.raise (Operator.level_lt ho) fun t p' hp' h => Nat.le_trans ?_ hj
    exact Operator.left_le_right hp' ho h
  | head ht hst =>
    simp only [List.mem_cons, List.not_mem_nil, or_false] at ht
    rcases ht with rfl | rfl | rfl | rfl | rfl <;> exact fun _ _ => trivial
  | value hp | statement =>
    obtain rfl := Each.nil_iff.mp (Forest.each_iff.mp hqs)
    exact hq.of_program
  | chain ho =>
    obtain ⟨us, vs, rfl, hus, -⟩ := hqs.uncons
    obtain ⟨rfl, -⟩ := Derives.token hus
    exact cons.mpr (.inr ⟨rfl, ho.symm.imp_right .inl⟩)
  | @chunk _ head _ _ cs₁ cs₂ c b _ hhead hcs hb =>
    cases cs₂ with
    | nil =>
      obtain ⟨us, vs, rfl, hus, -⟩ := hqs.uncons
      obtain ⟨rfl, -⟩ := Derives.token hus
      exact cons.mpr (.inl hb)
    | cons c' cs₂ =>
      obtain ⟨us, vs, rfl, hus, -⟩ := hqs.split
      rw [List.append_assoc]
      exact of_chunks hcs hus (fun l hl => hys l (List.mem_append_left _ hl)) (by simp)

end After

end StackScript
