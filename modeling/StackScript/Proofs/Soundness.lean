import StackScript.Proofs.Surroundings

/-!
# StackScript.Proofs.Soundness — what a rule matches is what it stands for

A match that a rule accepts is a production of the derivation, with every part of it reduced.  The
proof for a rule starts from a symbol of the match that few productions have.  The symbols before it
and after it are then those of the match, since otherwise the rule would refuse the match.

Some rules are right only once others have nothing left to do (`Rule.needs`): in `x = 1` the name
alone has the shape of a variable until the head of the assignment is reduced.
-/

namespace StackScript

open Leaf

/-- The rules that must have nothing left to do before a match of the rule is sure to be right. -/
def Rule.needs : Rule → List Rule
  | declaration => [assignmentHead]
  | callHead => [functionHead, newHead]
  | .variable => [assignmentHead, functionHead, callHead]
  | _ => []

/-- A match of a rule, `sequence` apart, that the rule accepts. -/
structure Rule.Matches (r : Rule) (pre run post : List Leaf) : Prop where
  shape : r.Shape (run.map Leaf.tag)
  admits : r.admits pre run post = true

theorem Operator.left_of_le {t : Tag} {p : Operator} (h : t.operator? = some p)
    (hlevel : 5 ≤ p.level) : p.left = 7 := by
  cases t <;> cases h <;> first | rfl | exact absurd hlevel (by decide)

theorem Operator.right_gt {t : Tag} {p : Operator} (h : t.operator? = some p) :
    p.right = p.level + 1 ∧ p.level < 5 ∨ p.right = 5 ∧ p.level = 6 := by
  cases t <;> cases h <;> simp

/-- Where nothing goes on, nothing takes the operand before it. -/
theorem Leaf.not_takes_of_continues {post : List Leaf} (h : Leaf.continues post = false) {n : Nat}
    (o : Leaf) (w : List Leaf) (hw : post = o :: w) : ¬ o.Takes n := by
  rintro ⟨hb, ho⟩
  rw [hw, Leaf.continues, hb] at h
  rcases ho with ho | ⟨m, hm, -⟩
  · simp [ho] at h
  · simp [hm] at h

namespace Reading

variable {gone : List Rule} {cs : List Chunk} {pre run post : List Leaf}

/-! ### Rules that the first symbol tells -/

/-- A run whose first tag leads productions of one rule is at the front of one of them. -/
theorem lead_one {r : Rule} {t : Tag} {ts : List Tag} (h : Reading gone cs (pre ++ (run ++ post)))
    (hrun : run.map Leaf.tag = t :: ts) (ht : t.leads = [r]) :
    ∃ a us p qs q zs w, run = a :: us ∧ us.map Leaf.tag = ts ∧ Production r (p :: qs) q ∧
      Stands a p ∧ Forest gone qs zs ∧ Spot gone cs pre q w ∧ zs ++ w = us ++ post := by
  obtain ⟨a, us, rfl, rfl, hus⟩ := List.map_eq_cons_iff.mp hrun
  obtain ⟨r', p, qs, q, zs, w, hrule, -, hr, hp, hzs, hq, hw⟩ := h.lead (by rw [ht]; simp)
  rw [ht, List.mem_singleton] at hrule
  subst hrule
  exact ⟨a, us, p, qs, q, zs, w, rfl, hus, hr, hp, hzs, hq, hw.symm⟩

theorem literal {t : Tag} (h : Reading gone cs (pre ++ (run ++ post)))
    (ht : t ∈ [Tag.number, .text, .boolean, .null, .thisWord, .superWord])
    (hrun : run.map Leaf.tag = [t]) : Redex gone cs .literal pre run post := by
  have hleads : t.leads = [.literal] := by
    simp only [List.mem_cons, List.not_mem_nil, or_false] at ht
    rcases ht with rfl | rfl | rfl | rfl | rfl | rfl <;> rfl
  obtain ⟨a, us, p, qs, q, zs, w, rfl, hus, hr, hp, hzs, hq, hw⟩ := h.lead_one hrun hleads
  obtain rfl := List.map_eq_nil_iff.mp hus
  obtain rfl : qs = [] := by
    generalize hps : p :: qs = ps at hr
    cases hr with
    | literal => exact (List.cons.inj hps).2
    | binary ho hrule => exact absurd (hrule ▸ Tag.rule_of_operator? ho) (by decide)
    | block hhead => cases hhead
  obtain rfl := take_nil hzs
  obtain rfl : w = post := hw
  exact ⟨[p], q, hr, .cons hp .nil, hq⟩

theorem functionHead {vs : List Tag} (h : Reading gone cs (pre ++ (run ++ post)))
    (hvs : vs = [] ∨ Pattern.Series .name vs)
    (hrun : run.map Leaf.tag =
      .funcWord :: .name :: .leftParen :: (vs ++ [.rightParen, .leftBrace])) :
    Redex gone cs .functionHead pre run post := by
  obtain ⟨a, us, p, qs, q, zs, w, rfl, hus, hr, hp, hzs, hq, hw⟩ := h.lead_one hrun rfl
  obtain ⟨x, us, rfl, -, hus⟩ := List.map_eq_cons_iff.mp hus
  obtain ⟨l, us, rfl, -, hus⟩ := List.map_eq_cons_iff.mp hus
  obtain ⟨ns, us, rfl, hns, hus⟩ := List.map_eq_append_iff.mp hus
  obtain ⟨c, us, rfl, hc, hus⟩ := List.map_eq_cons_iff.mp hus
  obtain ⟨b, us, rfl, hb, hus⟩ := List.map_eq_cons_iff.mp hus
  obtain rfl := List.map_eq_nil_iff.mp hus
  obtain ⟨x', l', ps, names, c', b', rfl, hps, hc'⟩ : ∃ x' l' ps names c' b',
      qs = .token x' :: .token l' :: (ps ++ [.token c', .token b']) ∧ CommaList IsName ps names ∧
        c'.tag = .rightParen := by
    generalize hfront : p :: qs = ps at hr
    cases hr with
    | functionHead hw hx hl hps hr hb =>
      exact ⟨_, _, _, _, _, _, (List.cons.inj hfront).2, hps, hr⟩
    | binary ho hrule => exact absurd (hrule ▸ Tag.rule_of_operator? ho) (by decide)
    | block hhead => cases hhead
  obtain ⟨hx, zs, rfl, hzs, hw⟩ := take_token hzs hw
  obtain ⟨hl, zs, rfl, hzs, hw⟩ := take_token hzs hw
  have hnames : (ns ++ [c]).map Leaf.tag = vs ++ [.rightParen] := by
    rw [List.map_append, hns, List.map_singleton, hc]
  obtain ⟨hall, zs, hzs, hw⟩ := take_names hc' hvs hps hzs hnames (w := b :: post)
    (by rw [hw]; simp)
  obtain ⟨hb, zs, rfl, hzs, hw⟩ := take_token hzs hw
  obtain rfl := take_nil hzs
  obtain rfl : w = post := hw
  refine ⟨_, q, hr, .cons hp (.cons hx (.cons hl ?_)), hq⟩
  have hend := List.rel_append hall (.cons hb .nil)
  simpa using hend

theorem classHead {ts : List Tag} (h : Reading gone cs (pre ++ (run ++ post)))
    (hts : ts = [.leftBrace] ∨ ts = [.extendsWord, .name, .leftBrace])
    (hrun : run.map Leaf.tag = .classWord :: .name :: ts) :
    Redex gone cs .classHead pre run post := by
  obtain ⟨a, us, p, qs, q, zs, w, rfl, hus, hr, hp, hzs, hq, hw⟩ := h.lead_one hrun rfl
  obtain ⟨x, us, rfl, -, hus⟩ := List.map_eq_cons_iff.mp hus
  obtain ⟨x', ps, rfl, hps⟩ : ∃ x' ps, qs = .token x' :: ps ∧
      ((∃ b : Leaf, ps = [.token b] ∧ b.tag = .leftBrace) ∨
        ∃ v y b : Leaf, ps = [.token v, .token y, .token b] ∧ v.tag = .extendsWord) := by
    generalize hfront : p :: qs = ps at hr
    cases hr with
    | classHead _ _ hb => exact ⟨_, _, (List.cons.inj hfront).2, .inl ⟨_, rfl, hb⟩⟩
    | extendingHead _ _ hv => exact ⟨_, _, (List.cons.inj hfront).2, .inr ⟨_, _, _, rfl, hv⟩⟩
    | binary ho hrule => exact absurd (hrule ▸ Tag.rule_of_operator? ho) (by decide)
    | block hhead => cases hhead
  obtain ⟨hx, zs, rfl, hzs, hw⟩ := take_token hzs hw
  rcases hts with rfl | rfl
  · obtain ⟨b, us, rfl, hb, hus⟩ := List.map_eq_cons_iff.mp hus
    obtain rfl := List.map_eq_nil_iff.mp hus
    rcases hps with ⟨b', rfl, -⟩ | ⟨v, y, b', rfl, hv⟩
    · obtain ⟨hb, zs, rfl, hzs, hw⟩ := take_token hzs hw
      obtain rfl := take_nil hzs
      obtain rfl : w = post := hw
      exact ⟨_, q, hr, .cons hp (.cons hx (.cons hb .nil)), hq⟩
    · have htag := (take_token hzs hw).1.tag_eq
      rw [Phrase.tag_token, hv, hb] at htag
      cases htag
  · obtain ⟨v, us, rfl, hv, hus⟩ := List.map_eq_cons_iff.mp hus
    obtain ⟨y, us, rfl, -, hus⟩ := List.map_eq_cons_iff.mp hus
    obtain ⟨b, us, rfl, -, hus⟩ := List.map_eq_cons_iff.mp hus
    obtain rfl := List.map_eq_nil_iff.mp hus
    rcases hps with ⟨b', rfl, hb'⟩ | ⟨v', y', b', rfl, -⟩
    · have htag := (take_token hzs hw).1.tag_eq
      rw [Phrase.tag_token, hb', hv] at htag
      cases htag
    · obtain ⟨hv, zs, rfl, hzs, hw⟩ := take_token hzs hw
      obtain ⟨hy, zs, rfl, hzs, hw⟩ := take_token hzs hw
      obtain ⟨hb, zs, rfl, hzs, hw⟩ := take_token hzs hw
      obtain rfl := take_nil hzs
      obtain rfl : w = post := hw
      exact ⟨_, q, hr, .cons hp (.cons hx (.cons hv (.cons hy (.cons hb .nil)))), hq⟩

theorem newHead (h : Reading gone cs (pre ++ (run ++ post)))
    (hrun : run.map Leaf.tag = [.newWord, .name, .leftParen]) :
    Redex gone cs .newHead pre run post := by
  obtain ⟨a, us, p, qs, q, zs, w, rfl, hus, hr, hp, hzs, hq, hw⟩ := h.lead_one hrun rfl
  obtain ⟨x, us, rfl, -, hus⟩ := List.map_eq_cons_iff.mp hus
  obtain ⟨l, us, rfl, -, hus⟩ := List.map_eq_cons_iff.mp hus
  obtain rfl := List.map_eq_nil_iff.mp hus
  obtain ⟨x', l', rfl⟩ : ∃ x' l', qs = [.token x', .token l'] := by
    generalize hfront : p :: qs = ps at hr
    cases hr with
    | newHead => exact ⟨_, _, (List.cons.inj hfront).2⟩
    | binary ho hrule => exact absurd (hrule ▸ Tag.rule_of_operator? ho) (by decide)
    | block hhead => cases hhead
  obtain ⟨hx, zs, rfl, hzs, hw⟩ := take_token hzs hw
  obtain ⟨hl, zs, rfl, hzs, hw⟩ := take_token hzs hw
  obtain rfl := take_nil hzs
  obtain rfl : w = post := hw
  exact ⟨_, q, hr, .cons hp (.cons hx (.cons hl .nil)), hq⟩

theorem list {vs : List Tag} (h : Reading gone cs (pre ++ (run ++ post)))
    (hvs : vs = [] ∨ Pattern.Series .expression vs)
    (hrun : run.map Leaf.tag = .leftBracket :: (vs ++ [.rightBracket])) :
    Redex gone cs .list pre run post := by
  obtain ⟨a, us, p, qs, q, zs, w, rfl, hus, hr, hp, hzs, hq, hw⟩ := h.lead_one hrun rfl
  obtain ⟨ps, es, c, rfl, hps, hc⟩ : ∃ ps es c, qs = ps ++ [.token c] ∧ CommaList IsExpr ps es ∧
      c.tag = .rightBracket := by
    generalize hfront : p :: qs = ps at hr
    cases hr with
    | list _ hps hc => exact ⟨_, _, _, (List.cons.inj hfront).2, hps, hc⟩
    | binary ho hrule => exact absurd (hrule ▸ Tag.rule_of_operator? ho) (by decide)
    | block hhead => cases hhead
  obtain ⟨hall, zs, hzs, hw⟩ := take_exprs (.inr rfl) hc hvs hps hzs hus hw
  obtain rfl := take_nil hzs
  obtain rfl : w = post := hw
  exact ⟨_, q, hr, .cons hp hall, hq⟩

theorem arguments {t : Tag} {vs : List Tag} (h : Reading gone cs (pre ++ (run ++ post)))
    (ht : t = .callHead ∨ t = .newHead) (hvs : vs = [] ∨ Pattern.Series .expression vs)
    (hrun : run.map Leaf.tag = t :: (vs ++ [.rightParen])) :
    Redex gone cs .arguments pre run post := by
  have hleads : t.leads = [.arguments] := by rcases ht with rfl | rfl <;> rfl
  obtain ⟨a, us, p, qs, q, zs, w, rfl, hus, hr, hp, hzs, hq, hw⟩ := h.lead_one hrun hleads
  obtain ⟨ps, es, c, rfl, hps, hc⟩ : ∃ ps es c, qs = ps ++ [.token c] ∧ CommaList IsExpr ps es ∧
      c.tag = .rightParen := by
    generalize hfront : p :: qs = ps at hr
    cases hr with
    | arguments _ _ hps hc => exact ⟨_, _, _, (List.cons.inj hfront).2, hps, hc⟩
    | binary ho hrule => exact absurd (hrule ▸ Tag.rule_of_operator? ho) (by decide)
    | block hhead => cases hhead
  obtain ⟨hall, zs, hzs, hw⟩ := take_exprs (.inl rfl) hc hvs hps hzs hus hw
  obtain rfl := take_nil hzs
  obtain rfl : w = post := hw
  exact ⟨_, q, hr, .cons hp hall, hq⟩

theorem jump {t : Tag} (h : Reading gone cs (pre ++ (run ++ post)))
    (ht : t = .continueWord ∨ t = .breakWord) (hrun : run.map Leaf.tag = [t]) :
    Redex gone cs .jump pre run post := by
  have hleads : t.leads = [.jump] := by rcases ht with rfl | rfl <;> rfl
  obtain ⟨a, us, p, qs, q, zs, w, rfl, hus, hr, hp, hzs, hq, hw⟩ := h.lead_one hrun hleads
  obtain rfl := List.map_eq_nil_iff.mp hus
  obtain rfl : qs = [] := by
    generalize hfront : p :: qs = ps at hr
    cases hr with
    | jump => exact (List.cons.inj hfront).2
    | binary ho hrule => exact absurd (hrule ▸ Tag.rule_of_operator? ho) (by decide)
    | block hhead => cases hhead
  obtain rfl := take_nil hzs
  obtain rfl : w = post := hw
  exact ⟨[p], q, hr, .cons hp .nil, hq⟩

theorem print (h : Reading gone cs (pre ++ (run ++ post)))
    (hrun : run.map Leaf.tag = [.printWord, .expression])
    (hadmits : Rule.print.admits pre run post = true) : Redex gone cs .print pre run post := by
  obtain ⟨a, us, p, qs, q, zs, w, rfl, hus, hr, hp, hzs, hq, hw⟩ := h.lead_one hrun rfl
  obtain ⟨b, us, rfl, hb, hus⟩ := List.map_eq_cons_iff.mp hus
  obtain rfl := List.map_eq_nil_iff.mp hus
  obtain ⟨st, k, e, rfl⟩ : ∃ st k e, qs = [.expr st k e] := by
    generalize hfront : p :: qs = ps at hr
    cases hr with
    | print => exact ⟨_, _, _, (List.cons.inj hfront).2⟩
    | binary ho hrule => exact absurd (hrule ▸ Tag.rule_of_operator? ho) (by decide)
    | block hhead => cases hhead
  obtain ⟨hb, zs, rfl, hzs, hw⟩ := take_expr hzs hw hb (not_takes_of_continues (by simpa
    [Rule.admits] using hadmits))
  obtain rfl := take_nil hzs
  obtain rfl : w = post := hw
  exact ⟨_, q, hr, .cons hp (.cons hb .nil), hq⟩

theorem assignment (h : Reading gone cs (pre ++ (run ++ post)))
    (hrun : run.map Leaf.tag = [.assignmentHead, .expression])
    (hadmits : Rule.assignment.admits pre run post = true) :
    Redex gone cs .assignment pre run post := by
  obtain ⟨a, us, p, qs, q, zs, w, rfl, hus, hr, hp, hzs, hq, hw⟩ := h.lead_one hrun rfl
  obtain ⟨b, us, rfl, hb, hus⟩ := List.map_eq_cons_iff.mp hus
  obtain rfl := List.map_eq_nil_iff.mp hus
  obtain ⟨st, k, e, rfl⟩ : ∃ st k e, qs = [.expr st k e] := by
    generalize hfront : p :: qs = ps at hr
    cases hr with
    | assignment => exact ⟨_, _, _, (List.cons.inj hfront).2⟩
    | binary ho hrule => exact absurd (hrule ▸ Tag.rule_of_operator? ho) (by decide)
    | block hhead => cases hhead
  obtain ⟨hb, zs, rfl, hzs, hw⟩ := take_expr hzs hw hb (not_takes_of_continues (by simpa
    [Rule.admits] using hadmits))
  obtain rfl := take_nil hzs
  obtain rfl : w = post := hw
  exact ⟨_, q, hr, .cons hp (.cons hb .nil), hq⟩

theorem returns {ts : List Tag} (h : Reading gone cs (pre ++ (run ++ post)))
    (hts : ts = [] ∨ ts = [.expression]) (hrun : run.map Leaf.tag = .returnWord :: ts)
    (hadmits : Rule.returns.admits pre run post = true) : Redex gone cs .returns pre run post := by
  obtain ⟨a, us, p, qs, q, zs, w, rfl, hus, hr, hp, hzs, hq, hw⟩ := h.lead_one hrun rfl
  have hparts : (qs = [] ∧ ∃ st line, q = .program st (.single (.returns line none))) ∨
      ∃ st k e, qs = [.expr st k e] ∧ st.broken = false := by
    generalize hfront : p :: qs = ps at hr
    cases hr with
    | returnsBare => exact .inl ⟨(List.cons.inj hfront).2, _, _, rfl⟩
    | returns _ hst => exact .inr ⟨_, _, _, (List.cons.inj hfront).2, hst⟩
    | binary ho hrule => exact absurd (hrule ▸ Tag.rule_of_operator? ho) (by decide)
    | block hhead => cases hhead
  rcases hts with rfl | rfl
  · obtain rfl := List.map_eq_nil_iff.mp hus
    rcases hparts with ⟨rfl, -⟩ | ⟨st, k, e, rfl, hst⟩
    · obtain rfl := take_nil hzs
      obtain rfl : w = post := hw
      exact ⟨[p], q, hr, .cons hp .nil, hq⟩
    · -- the value begins on the same line, so a `return` alone is refused
      obtain ⟨l, zs, rfl, hl, hstarts⟩ := Derives.head hzs
      rw [List.nil_append, List.cons_append] at hw
      subst hw
      have hline : l.broken = false := by
        rw [← hst]
        exact congrArg Start.broken hl
      have hstarts : l.tag.startsExpression = true := hstarts
      simp [Rule.admits, hline, hstarts] at hadmits
  · obtain ⟨b, us, rfl, hb, hus⟩ := List.map_eq_cons_iff.mp hus
    obtain rfl := List.map_eq_nil_iff.mp hus
    rcases hparts with ⟨rfl, st, line, rfl⟩ | ⟨st, k, e, rfl, hst⟩
    · -- nothing but a brace follows a `return` alone
      obtain rfl := take_nil hzs
      obtain rfl : w = b :: post := hw
      have hafter := hq.after h.chunks rfl fun l hl => h.apart l (by
        rw [List.cons_append, List.cons_append]
        exact List.mem_append_right _ (List.mem_cons_of_mem _ hl))
      rcases After.cons.mp hafter with htag | ⟨hbare, -⟩
      · rw [hb] at htag
        cases htag
      · cases hbare
    · obtain ⟨hb, zs, rfl, hzs, hw⟩ := take_expr hzs hw hb (not_takes_of_continues (by simpa
        [Rule.admits] using hadmits))
      obtain rfl := take_nil hzs
      obtain rfl : w = post := hw
      exact ⟨_, q, hr, .cons hp (.cons hb .nil), hq⟩

/-- A condition and a body behind one keyword. -/
theorem condition {r : Rule} {t : Tag} {ts : List Tag} (h : Reading gone cs (pre ++ (run ++ post)))
    (ht : t.leads = [r])
    (hparts : ∀ {p qs q}, Production r (p :: qs) q →
      ∃ (st : Start) (k : Nat) (e : Expr) (l : Leaf) (ds : List Chunk) (b : Leaf),
        qs = .expr st k e :: .token l :: (ds.map Chunk.phrase ++ [.token b]) ∧
          b.tag = .rightBrace)
    (hts : Tag.Body ts) (hrun : run.map Leaf.tag = [t, .expression, .leftBrace] ++ ts) :
    Redex gone cs r pre run post := by
  obtain ⟨a, us, p, qs, q, zs, w, rfl, hus, hr, hp, hzs, hq, hw⟩ := h.lead_one hrun ht
  obtain ⟨c, us, rfl, hc, hus⟩ := List.map_eq_cons_iff.mp hus
  obtain ⟨l, us, rfl, hl, hus⟩ := List.map_eq_cons_iff.mp hus
  obtain ⟨st, k, e, l', ds, b, rfl, hb⟩ := hparts hr
  obtain ⟨hc, zs, rfl, hzs, hw⟩ := take_expr hzs hw hc (by
    rintro o w' ⟨⟩
    rintro ⟨-, ho | ⟨n, hn, -⟩⟩
    · rw [hl] at ho
      cases ho
    · rw [hl] at hn
      cases hn)
  obtain ⟨hl, zs, rfl, hzs, hw⟩ := take_token hzs hw
  obtain ⟨hall, rfl⟩ := take_body hzs hb (hus ▸ hts) hw
  exact ⟨_, q, hr, .cons hp (.cons hc (.cons hl hall)), hq⟩

theorem branch {ts : List Tag} (h : Reading gone cs (pre ++ (run ++ post))) (hts : Tag.Body ts)
    (hrun : run.map Leaf.tag = [.ifWord, .expression, .leftBrace] ++ ts) :
    Redex gone cs .branch pre run post := by
  refine h.condition rfl ?_ hts hrun
  intro p qs q hr
  generalize hfront : p :: qs = ps at hr
  cases hr with
  | binary ho hrule => exact absurd (hrule ▸ Tag.rule_of_operator? ho) (by decide)
  | block hhead _ hb =>
    cases hhead
    exact ⟨_, _, _, _, _, _, (List.cons.inj hfront).2, hb⟩

theorem loop {ts : List Tag} (h : Reading gone cs (pre ++ (run ++ post))) (hts : Tag.Body ts)
    (hrun : run.map Leaf.tag = [.whileWord, .expression, .leftBrace] ++ ts) :
    Redex gone cs .loop pre run post := by
  refine h.condition rfl ?_ hts hrun
  intro p qs q hr
  generalize hfront : p :: qs = ps at hr
  cases hr with
  | binary ho hrule => exact absurd (hrule ▸ Tag.rule_of_operator? ho) (by decide)
  | block hhead _ hb =>
    cases hhead
    exact ⟨_, _, _, _, _, _, (List.cons.inj hfront).2, hb⟩

/-- A body behind the head of a declaration. -/
theorem declared {r : Rule} {t : Tag} {ts : List Tag} (h : Reading gone cs (pre ++ (run ++ post)))
    (ht : t.leads = [r])
    (hparts : ∀ {p qs q}, Production r (p :: qs) q → ∃ (ds : List Chunk) (b : Leaf),
      qs = ds.map Chunk.phrase ++ [.token b] ∧ b.tag = .rightBrace)
    (hts : Tag.Body ts) (hrun : run.map Leaf.tag = [t] ++ ts) : Redex gone cs r pre run post := by
  obtain ⟨a, us, p, qs, q, zs, w, rfl, hus, hr, hp, hzs, hq, hw⟩ := h.lead_one hrun ht
  obtain ⟨ds, b, rfl, hb⟩ := hparts hr
  obtain ⟨hall, rfl⟩ := take_body hzs hb (hus ▸ hts) hw
  exact ⟨_, q, hr, .cons hp hall, hq⟩

theorem functionEnd {ts : List Tag} (h : Reading gone cs (pre ++ (run ++ post)))
    (hts : Tag.Body ts) (hrun : run.map Leaf.tag = [.functionHead] ++ ts) :
    Redex gone cs .functionEnd pre run post := by
  refine h.declared rfl ?_ hts hrun
  intro p qs q hr
  generalize hfront : p :: qs = ps at hr
  cases hr with
  | binary ho hrule => exact absurd (hrule ▸ Tag.rule_of_operator? ho) (by decide)
  | block hhead _ hb =>
    cases hhead
    exact ⟨_, _, (List.cons.inj hfront).2, hb⟩

theorem classEnd {ts : List Tag} (h : Reading gone cs (pre ++ (run ++ post)))
    (hts : Tag.Body ts) (hrun : run.map Leaf.tag = [.classHead] ++ ts) :
    Redex gone cs .classEnd pre run post := by
  refine h.declared rfl ?_ hts hrun
  intro p qs q hr
  generalize hfront : p :: qs = ps at hr
  cases hr with
  | binary ho hrule => exact absurd (hrule ▸ Tag.rule_of_operator? ho) (by decide)
  | block hhead _ hb =>
    cases hhead
    exact ⟨_, _, (List.cons.inj hfront).2, hb⟩

theorem declaration (h : Reading gone cs (pre ++ (run ++ post)))
    (hneeds : Rule.assignmentHead ∈ gone) (hrun : run.map Leaf.tag = [.varWord, .name]) :
    Redex gone cs .declaration pre run post := by
  obtain ⟨a, us, rfl, ha, hus⟩ := List.map_eq_cons_iff.mp hrun
  obtain ⟨x, us, rfl, -, hus⟩ := List.map_eq_cons_iff.mp hus
  obtain rfl := List.map_eq_nil_iff.mp hus
  obtain ⟨r, p, qs, q, zs, w, hrule, hgone, hr, hp, hzs, hq, hw⟩ := h.lead (by rw [ha]; simp
    [Tag.leads])
  rw [ha] at hrule
  simp only [Tag.leads, List.mem_cons, List.not_mem_nil, or_false] at hrule
  rcases hrule with rfl | rfl
  · exact absurd hneeds hgone
  obtain ⟨x', rfl⟩ : ∃ x', qs = [.token x'] := by
    generalize hfront : p :: qs = ps at hr
    cases hr with
    | declaration => exact ⟨_, (List.cons.inj hfront).2⟩
    | binary ho hrule => exact absurd (hrule ▸ Tag.rule_of_operator? ho) (by decide)
    | block hhead => cases hhead
  obtain ⟨hx, zs, rfl, hzs, hw⟩ := take_token hzs hw.symm
  obtain rfl := take_nil hzs
  obtain rfl : w = post := hw
  exact ⟨_, q, hr, .cons hp (.cons hx .nil), hq⟩

/-- A chain of branches and the branch that is attached to it. -/
theorem chain {t : Tag} {r : Rule} {ts us : List Tag} (h : Reading gone cs (pre ++ (run ++ post)))
    (ht : t = .elseIfWord ∧ r = .elseIf ∧ us = [.expression, .leftBrace] ∨
      t = .elseWord ∧ r = .otherwise ∧ us = [.leftBrace])
    (hts : Tag.Body ts) (hrun : run.map Leaf.tag = [.program, t] ++ (us ++ ts)) :
    Redex gone cs r pre run post := by
  obtain ⟨a, us₁, rfl, ha, hus₁⟩ := List.map_eq_cons_iff.mp hrun
  obtain ⟨o, us₂, rfl, ho, hus₂⟩ := List.map_eq_cons_iff.mp hus₁
  have h' : Reading gone cs ((pre ++ [a]) ++ o :: (us₂ ++ post)) := by simpa using h
  have hword : o.tag = .elseIfWord ∨ o.tag = .elseWord := by
    rcases ht with ⟨rfl, -⟩ | ⟨rfl, -⟩
    · exact .inl ho
    · exact .inr ho
  obtain ⟨u, w, ys, zs, r', qs₁, qs₂, q, hq, hr, -, -, h₁, h₂, hp, hu, hw⟩ := h'.token (by
    rcases hword with h | h <;> rw [h] <;> rfl)
  obtain ⟨⟨st, line, c, b, rest, rfl⟩, ds, b', hb', hparts⟩ := hr.around_else rfl hword
  obtain ⟨ys, a', rfl, -⟩ := Derives.last h₁
  rw [← List.append_assoc] at hu
  obtain ⟨rfl, haa⟩ := List.append_inj' hu rfl
  obtain rfl := List.head_eq_of_cons_eq haa
  obtain ⟨rfl, hstands⟩ := Derives.closing_program h₁ rfl rfl ha
  rw [List.append_nil]
  rcases hparts with ⟨rfl, ho', st', k, e, l, rfl⟩ | ⟨rfl, ho', l, rfl⟩
  · obtain ⟨-, rfl, rfl⟩ := ht.resolve_right fun h => by
      rw [ho', h.1] at ho
      cases ho
    obtain ⟨d, us₃, rfl, hd, hus₃⟩ := List.map_eq_cons_iff.mp hus₂
    obtain ⟨l', us₄, rfl, hl', hus₄⟩ := List.map_eq_cons_iff.mp hus₃
    obtain ⟨hd, zs, rfl, hzs, hw⟩ := take_expr h₂ hw.symm hd (by
      rintro o w' ⟨⟩
      rintro ⟨-, ho | ⟨n, hn, -⟩⟩
      · rw [hl'] at ho
        cases ho
      · rw [hl'] at hn
        cases hn)
    obtain ⟨hl, zs, rfl, hzs, hw⟩ := take_token hzs hw
    obtain ⟨hall, rfl⟩ := take_body hzs hb' (hus₄ ▸ hts) hw
    exact ⟨_, q, hr, .cons hstands (.cons hp (.cons hd (.cons hl hall))), hq⟩
  · obtain ⟨-, rfl, rfl⟩ := ht.resolve_left fun h => by
      rw [ho', h.1] at ho
      cases ho
    obtain ⟨l', us₄, rfl, hl', hus₄⟩ := List.map_eq_cons_iff.mp hus₂
    obtain ⟨hl, zs, rfl, hzs, hw⟩ := take_token h₂ hw.symm
    obtain ⟨hall, rfl⟩ := take_body hzs hb' (hus₄ ▸ hts) hw
    exact ⟨_, q, hr, .cons hstands (.cons hp (.cons hl hall)), hq⟩

theorem elseIf {ts : List Tag} (h : Reading gone cs (pre ++ (run ++ post))) (hts : Tag.Body ts)
    (hrun : run.map Leaf.tag = [.program, .elseIfWord, .expression, .leftBrace] ++ ts) :
    Redex gone cs .elseIf pre run post :=
  h.chain (.inl ⟨rfl, rfl, rfl⟩) hts hrun

theorem otherwise {ts : List Tag} (h : Reading gone cs (pre ++ (run ++ post)))
    (hts : Tag.Body ts) (hrun : run.map Leaf.tag = [.program, .elseWord, .leftBrace] ++ ts) :
    Redex gone cs .otherwise pre run post :=
  h.chain (.inr ⟨rfl, rfl, rfl⟩) hts hrun

/-! ### Assignments and calls -/

theorem declaringHead (h : Reading gone cs (pre ++ (run ++ post)))
    (hrun : run.map Leaf.tag = [.varWord, .name, .equals]) :
    Redex gone cs .assignmentHead pre run post := by
  obtain ⟨a, us, rfl, ha, hus⟩ := List.map_eq_cons_iff.mp hrun
  obtain ⟨x, us, rfl, -, hus⟩ := List.map_eq_cons_iff.mp hus
  obtain ⟨s, us, rfl, hs, hus⟩ := List.map_eq_cons_iff.mp hus
  obtain rfl := List.map_eq_nil_iff.mp hus
  obtain ⟨r, p, qs, q, zs, w, hrule, hgone, hr, hp, hzs, hq, hw⟩ := h.lead (by rw [ha]; simp
    [Tag.leads])
  rw [ha] at hrule
  simp only [Tag.leads, List.mem_cons, List.not_mem_nil, or_false] at hrule
  have htag := hp.tag_eq
  rw [ha] at htag
  rcases hrule with rfl | rfl
  · obtain ⟨x', s', rfl⟩ : ∃ x' s', qs = [.token x', .token s'] := by
      generalize hfront : p :: qs = ps at hr
      cases hr with
      | assignmentHead hx =>
        rw [(List.cons.inj hfront).1, Phrase.tag_token, hx] at htag
        cases htag
      | declaringHead => exact ⟨_, _, (List.cons.inj hfront).2⟩
      | binary ho hrule => exact absurd (hrule ▸ Tag.rule_of_operator? ho) (by decide)
      | block hhead => cases hhead
    obtain ⟨hx, zs, rfl, hzs, hw⟩ := take_token hzs hw.symm
    obtain ⟨hs, zs, rfl, hzs, hw⟩ := take_token hzs hw
    obtain rfl := take_nil hzs
    obtain rfl : w = post := hw
    exact ⟨_, q, hr, .cons hp (.cons hx (.cons hs .nil)), hq⟩
  · -- no declaration without a value has a `=` after it
    obtain ⟨x', rfl, hprogram⟩ : ∃ x', qs = [.token x'] ∧ ∃ st s, q = .program st s := by
      generalize hfront : p :: qs = ps at hr
      cases hr with
      | declaration => exact ⟨_, (List.cons.inj hfront).2, _, _, rfl⟩
      | binary ho hrule => exact absurd (hrule ▸ Tag.rule_of_operator? ho) (by decide)
      | block hhead => cases hhead
    obtain ⟨st, s', rfl⟩ := hprogram
    obtain ⟨hx, zs, rfl, hzs, hw⟩ := take_token hzs hw.symm
    obtain rfl := take_nil hzs
    obtain rfl : w = s :: post := hw
    have hafter := hq.after h.chunks rfl fun l hl => h.apart l (by simp_all)
    rcases After.cons.mp hafter with h | ⟨-, h | h | ⟨-, h, -⟩⟩ <;>
      · rw [hs] at h
        cases h

theorem assignmentHead (h : Reading gone cs (pre ++ (run ++ post)))
    (hrun : run.map Leaf.tag = [.name, .equals])
    (hadmits : Rule.assignmentHead.admits pre run post = true)
    (hleft : ∀ u v, pre = u ++ [v] → ¬ Rule.assignmentHead.Matches u (v :: run) post) :
    Redex gone cs .assignmentHead pre run post := by
  obtain ⟨x, us, rfl, hx, hus⟩ := List.map_eq_cons_iff.mp hrun
  obtain ⟨s, us, rfl, hs, hus⟩ := List.map_eq_cons_iff.mp hus
  obtain rfl := List.map_eq_nil_iff.mp hus
  have h' : Reading gone cs ((pre ++ [x]) ++ s :: post) := by simpa using h
  obtain ⟨u, w, ys, zs, r, qs₁, qs₂, q, hq, hr, -, -, h₁, h₂, hp, hu, rfl⟩ :=
    h'.token (by rw [hs]; rfl)
  rcases hr.around_equals rfl hs with ⟨rfl, rfl, x', hx', rfl | ⟨v, hv, rfl⟩⟩ |
    ⟨ps, d, x', rfl, hd⟩
  · obtain ⟨rfl, hx''⟩ := Derives.token h₁
    obtain rfl := take_nil h₂
    obtain ⟨rfl, hxx⟩ := List.append_inj' hu rfl
    obtain rfl := List.head_eq_of_cons_eq hxx
    exact ⟨_, q, hr, .cons (.token hx'') (.cons hp .nil), hq⟩
  · -- the match would begin one symbol earlier
    obtain ⟨vs, xs, rfl, hv', hxs⟩ := h₁.uncons
    obtain ⟨rfl, -⟩ := hv'.token
    obtain ⟨rfl, -⟩ := Derives.token hxs
    rw [← List.append_assoc] at hu
    obtain ⟨rfl, hxx⟩ := List.append_inj' hu rfl
    obtain rfl := List.head_eq_of_cons_eq hxx
    refine absurd ⟨?_, ?_⟩ (hleft u v rfl)
    · simp only [List.map_cons, List.map_nil, hv, hx, hs]
      exact .declaringHead
    · obtain ⟨st, k, f, rfl⟩ := hr.whole
      have hname := (hq.before h.chunks rfl).name
      cases hlast : lastTag u with
      | none => simp [Rule.admits, hlast]
      | some t =>
        have ht := hname t hlast
        have hdot : t ≠ .dot := by
          rintro rfl
          cases ht
        simp [Rule.admits, hlast, hdot]
  · obtain ⟨vs, ws, rfl, -, hws⟩ := h₁.split
    obtain ⟨ds, xs, rfl, hd', hxs⟩ := hws.uncons
    obtain ⟨rfl, -⟩ := hd'.token
    obtain ⟨rfl, -⟩ := Derives.token hxs
    have hu' : pre ++ [x] = (u ++ vs ++ [d]) ++ [x'] := by simpa using hu
    obtain ⟨rfl, -⟩ := List.append_inj' hu' rfl
    have hdot : (lastTag (u ++ vs ++ [d]) != some .dot) = true := hadmits
    rw [lastTag_concat, hd] at hdot
    simp at hdot

theorem callHead (h : Reading gone cs (pre ++ (run ++ post)))
    (hneeds : Rule.functionHead ∈ gone ∧ Rule.newHead ∈ gone)
    (hrun : run.map Leaf.tag = [.name, .leftParen])
    (hadmits : Rule.callHead.admits pre run post = true) : Redex gone cs .callHead pre run post := by
  obtain ⟨x, us, rfl, hx, hus⟩ := List.map_eq_cons_iff.mp hrun
  obtain ⟨l, us, rfl, hl, hus⟩ := List.map_eq_cons_iff.mp hus
  obtain rfl := List.map_eq_nil_iff.mp hus
  have h' : Reading gone cs ((pre ++ [x]) ++ l :: post) := by simpa using h
  obtain ⟨u, w, ys, zs, r, qs₁, qs₂, q, hq, hr, hgone, -, h₁, h₂, hp, hu, rfl⟩ :=
    h'.token (by rw [hl]; rfl)
  rcases hr.around_leftParen rfl hl with
    ⟨ps, x', rfl, -, rfl | rfl | ⟨ps', d, rfl, hd⟩ | ⟨rfl, rfl, rfl⟩⟩ | ⟨rfl, rfl, st, k, e, c, rfl, -, rfl⟩
  · exact absurd hneeds.1 hgone
  · exact absurd hneeds.2 hgone
  · obtain ⟨vs, xs, rfl, hvs, hxs⟩ := h₁.split
    obtain ⟨us, ds, rfl, -, hds⟩ := hvs.split
    obtain ⟨rfl, -⟩ := Derives.token hxs
    obtain ⟨rfl, -⟩ := Derives.token hds
    rw [← List.append_assoc, ← List.append_assoc] at hu
    obtain ⟨rfl, -⟩ := List.append_inj' hu rfl
    have hdot : (lastTag (u ++ us ++ [d]) != some .dot) = true := hadmits
    rw [lastTag_concat, hd] at hdot
    simp at hdot
  · obtain ⟨rfl, hx'⟩ := Derives.token h₁
    obtain rfl := take_nil h₂
    obtain ⟨rfl, hxx⟩ := List.append_inj' hu rfl
    obtain rfl := List.head_eq_of_cons_eq hxx
    exact ⟨_, q, hr, .cons (.token hx') (.cons hp .nil), hq⟩
  · -- no parenthesis around an expression stands behind a name
    obtain rfl := take_nil h₁
    rw [List.append_nil] at hu
    subst hu
    rcases (hq.before h.chunks rfl).apart with hline | hend
    · exact absurd hl (h.apart l (by simp) hline).1
    · have := hend x.tag (lastTag_concat _ _)
      rw [hx] at this
      cases this

theorem group (h : Reading gone cs (pre ++ (run ++ post)))
    (hrun : run.map Leaf.tag = [.leftParen, .expression, .rightParen])
    (hadmits : Rule.group.admits pre run post = true) : Redex gone cs .group pre run post := by
  obtain ⟨l, us, rfl, hl, hus⟩ := List.map_eq_cons_iff.mp hrun
  obtain ⟨a, us, rfl, ha, hus⟩ := List.map_eq_cons_iff.mp hus
  obtain ⟨c, us, rfl, hc, hus⟩ := List.map_eq_cons_iff.mp hus
  obtain rfl := List.map_eq_nil_iff.mp hus
  obtain ⟨u, w, ys, zs, r, qs₁, qs₂, q, hq, hr, -, -, h₁, h₂, hp, rfl, hw⟩ :=
    h.token (by rw [hl]; rfl)
  rcases hr.around_leftParen rfl hl with
    ⟨ps, x, rfl, hx, -⟩ | ⟨rfl, rfl, st, k, e, c', rfl, hc', -⟩
  · obtain ⟨vs, xs, rfl, -, hxs⟩ := h₁.split
    obtain ⟨rfl, -⟩ := Derives.token hxs
    rw [← List.append_assoc] at hadmits
    have hname : (lastTag (u ++ vs ++ [x]) != some .name) = true := hadmits
    rw [lastTag_concat, hx] at hname
    simp at hname
  · obtain rfl := take_nil h₁
    obtain ⟨ha, zs, rfl, hzs, hw⟩ := take_expr h₂ hw.symm ha (by
      rintro o w' ⟨⟩
      rintro ⟨-, ho | ⟨n, hn, -⟩⟩
      · rw [hc] at ho
        cases ho
      · rw [hc] at hn
        cases hn)
    obtain ⟨hc, zs, rfl, hzs, hw⟩ := take_token hzs hw
    obtain rfl := take_nil hzs
    obtain rfl : w = post := hw
    rw [List.append_nil]
    exact ⟨_, q, hr, .cons hp (.cons ha (.cons hc .nil)), hq⟩

theorem «variable» (h : Reading gone cs (pre ++ (run ++ post)))
    (hneeds : Rule.assignmentHead ∈ gone ∧ Rule.functionHead ∈ gone ∧ Rule.callHead ∈ gone)
    (hrun : run.map Leaf.tag = [.name]) (hadmits : Rule.variable.admits pre run post = true) :
    Redex gone cs .variable pre run post := by
  obtain ⟨x, us, rfl, hx, hus⟩ := List.map_eq_cons_iff.mp hrun
  obtain rfl := List.map_eq_nil_iff.mp hus
  obtain ⟨u, w, ys, zs, r, qs₁, qs₂, q, hq, hr, hgone, -, h₁, h₂, hp, rfl, hw⟩ :=
    h.token (by rw [hx]; rfl)
  rcases hr.around_name rfl hx with rfl | rfl | rfl | ⟨ps, b, rfl, hb⟩ | ⟨rfl, rfl, rfl⟩
  · exact absurd hneeds.1 hgone
  · exact absurd hneeds.2.1 hgone
  · exact absurd hneeds.2.2 hgone
  · obtain ⟨vs, xs, rfl, -, hxs⟩ := h₁.split
    obtain ⟨rfl, -⟩ := Derives.token hxs
    rw [← List.append_assoc] at hadmits
    have hmember : (!(lastTag (u ++ vs ++ [b])).any Tag.namesMember) = true := hadmits
    rw [lastTag_concat, Option.any_some, hb] at hmember
    cases hmember
  · obtain rfl := take_nil h₁
    obtain rfl := take_nil h₂
    obtain rfl : post = w := hw
    rw [List.append_nil]
    exact ⟨_, q, hr, .cons hp .nil, hq⟩

/-! ### Members -/

/-- A match that begins with a receiver, a point and a name. -/
theorem member {ts : List Tag} (h : Reading gone cs (pre ++ (run ++ post)))
    (hrun : run.map Leaf.tag = .expression :: .dot :: .name :: ts) :
    ∃ us r qs ps q zs w vs, run = vs ++ us ∧ us.map Leaf.tag = ts ∧ Production r (ps ++ qs) q ∧
      List.Forall₂ Stands vs ps ∧ Forest gone qs zs ∧ Spot gone cs pre q w ∧ zs ++ w = us ++ post ∧
      ((r = .methodHead ∧ ∃ l : Leaf, qs = [.token l] ∧ l.tag = .leftParen) ∨
        (r = .fieldAssignmentHead ∧ ∃ s : Leaf, qs = [.token s] ∧ s.tag = .equals) ∨
          (r = .field ∧ qs = [] ∧ ∃ st e, q = .expr st 7 e)) := by
  obtain ⟨a, us, rfl, ha, hus⟩ := List.map_eq_cons_iff.mp hrun
  obtain ⟨d, us, rfl, hd, hus⟩ := List.map_eq_cons_iff.mp hus
  obtain ⟨x, us, rfl, -, hus⟩ := List.map_eq_cons_iff.mp hus
  have h' : Reading gone cs ((pre ++ [a]) ++ d :: (x :: us ++ post)) := by simpa using h
  obtain ⟨u, w, ys, zs, r, qs₁, qs₂, q, hq, hr, -, -, h₁, h₂, hp, hu, hw⟩ :=
    h'.token (by rw [hd]; rfl)
  obtain ⟨st, e, x', ps, rfl, rfl, hps⟩ := hr.around_dot rfl hd
  obtain ⟨hx, zs, rfl, hzs, hw⟩ := take_token h₂ hw.symm
  obtain ⟨ys, a', rfl, -⟩ := Derives.last h₁
  rw [← List.append_assoc] at hu
  obtain ⟨rfl, haa⟩ := List.append_inj' hu rfl
  obtain rfl := List.head_eq_of_cons_eq haa
  rcases Derives.closing h₁ rfl ha with ⟨rfl, ha⟩ | ⟨_, _, -, hlt, -⟩
  · rw [List.append_nil]
    refine ⟨us, r, ps, [.expr st 7 e, .token d, .token x'], q, zs, w, [a, d, x], rfl, hus, hr,
      .cons ha (.cons hp (.cons hx .nil)), hzs, hq, hw, ?_⟩
    rcases hps with h | h | ⟨hrule, hnil, e', hq⟩
    · exact .inl h
    · exact .inr (.inl h)
    · exact .inr (.inr ⟨hrule, hnil, st, e', hq⟩)
  · exact absurd hlt (by decide)

/-- What follows a field is no parenthesis and no `=`. -/
theorem after_field {q : Phrase} {w : List Leaf} {b : Leaf} {st : Start} {e : Expr}
    (h : Reading gone cs (pre ++ (run ++ post))) (hq : Spot gone cs pre q (b :: w))
    (hw : b :: w <:+ run ++ post) (hfield : q = .expr st 7 e) :
    b.tag ≠ .leftParen ∧ b.tag ≠ .equals := by
  subst hfield
  have hafter := hq.after h.chunks rfl fun l hl =>
    h.apart l (List.mem_append_right _ (hw.subset hl))
  obtain ⟨hparen, hequals, -⟩ := After.cons.mp hafter
  exact ⟨hparen, hequals⟩

theorem methodHead (h : Reading gone cs (pre ++ (run ++ post)))
    (hrun : run.map Leaf.tag = [.expression, .dot, .name, .leftParen]) :
    Redex gone cs .methodHead pre run post := by
  obtain ⟨us, r, qs, ps, q, zs, w, vs, rfl, hus, hr, hvs, hzs, hq, hw, hparts⟩ := h.member hrun
  obtain ⟨l, us, rfl, hl, hus⟩ := List.map_eq_cons_iff.mp hus
  obtain rfl := List.map_eq_nil_iff.mp hus
  rcases hparts with ⟨rfl, l', rfl, -⟩ | ⟨-, s, rfl, hs⟩ | ⟨-, rfl, st, e, hfield⟩
  · obtain ⟨hl, zs, rfl, hzs, hw⟩ := take_token hzs hw
    obtain rfl := take_nil hzs
    obtain rfl : w = post := hw
    exact ⟨_, q, hr, List.rel_append hvs (.cons hl .nil), hq⟩
  · have htag := (take_token hzs hw).1.tag_eq
    rw [Phrase.tag_token, hs, hl] at htag
    cases htag
  · obtain rfl := take_nil hzs
    obtain rfl : w = l :: post := hw
    exact absurd hl (h.after_field hq ⟨vs, by simp⟩ hfield).1

theorem fieldAssignmentHead (h : Reading gone cs (pre ++ (run ++ post)))
    (hrun : run.map Leaf.tag = [.expression, .dot, .name, .equals]) :
    Redex gone cs .fieldAssignmentHead pre run post := by
  obtain ⟨us, r, qs, ps, q, zs, w, vs, rfl, hus, hr, hvs, hzs, hq, hw, hparts⟩ := h.member hrun
  obtain ⟨s, us, rfl, hs, hus⟩ := List.map_eq_cons_iff.mp hus
  obtain rfl := List.map_eq_nil_iff.mp hus
  rcases hparts with ⟨-, l, rfl, hl⟩ | ⟨rfl, s', rfl, -⟩ | ⟨-, rfl, st, e, hfield⟩
  · have htag := (take_token hzs hw).1.tag_eq
    rw [Phrase.tag_token, hl, hs] at htag
    cases htag
  · obtain ⟨hs, zs, rfl, hzs, hw⟩ := take_token hzs hw
    obtain rfl := take_nil hzs
    obtain rfl : w = post := hw
    exact ⟨_, q, hr, List.rel_append hvs (.cons hs .nil), hq⟩
  · obtain rfl := take_nil hzs
    obtain rfl : w = s :: post := hw
    exact absurd hs (h.after_field hq ⟨vs, by simp⟩ hfield).2

theorem field (h : Reading gone cs (pre ++ (run ++ post)))
    (hrun : run.map Leaf.tag = [.expression, .dot, .name])
    (hadmits : Rule.field.admits pre run post = true) : Redex gone cs .field pre run post := by
  obtain ⟨us, r, qs, ps, q, zs, w, vs, rfl, hus, hr, hvs, hzs, hq, hw, hparts⟩ := h.member hrun
  obtain rfl := List.map_eq_nil_iff.mp hus
  have hnext : (firstTag post != some .leftParen && firstTag post != some .equals) = true := hadmits
  rcases hparts with ⟨-, l, rfl, hl⟩ | ⟨-, s, rfl, hs⟩ | ⟨rfl, rfl, -⟩
  · obtain ⟨l', zs, rfl, -, htag⟩ := Derives.head hzs
    obtain rfl : post = l' :: (zs ++ w) := hw.symm
    rw [Phrase.tag_token, hl] at htag
    rw [firstTag_cons, beq_iff_eq.mp htag] at hnext
    simp at hnext
  · obtain ⟨s', zs, rfl, -, htag⟩ := Derives.head hzs
    obtain rfl : post = s' :: (zs ++ w) := hw.symm
    rw [Phrase.tag_token, hs] at htag
    rw [firstTag_cons, beq_iff_eq.mp htag] at hnext
    simp at hnext
  · obtain rfl := take_nil hzs
    obtain rfl : w = post := hw
    rw [List.append_nil] at hr ⊢
    exact ⟨_, q, hr, hvs, hq⟩

/-! ### Operators -/

/-- What a rule for a binary operator asks of the neighbours. -/
theorem admits_binary {t : Tag} {p : Operator} (ho : t.operator? = some p) :
    p.rule.admits pre run post =
      (fitsBefore pre (min p.level 5) (decide (p.level = 6)) &&
        fitsAfter post (min p.level 5) (decide (p.level = 6))) := by
  cases t <;> cases ho <;> rfl

/-- A left operand that the rule takes for reduced is reduced. -/
theorem left_reduced {t : Tag} {p : Operator} {u ys : List Leaf} {a : Leaf} {st : Start} {i : Nat}
    {e : Expr} (hys : Derives gone (.expr st i e) ys) (hu : pre ++ [a] = u ++ ys)
    (ha : a.tag = .expression) (hbefore : Before u (.expr st i e)) (hapart : Apart ys)
    (ho : t.operator? = some p) (hi : p.left ≤ i)
    (hfits : fitsBefore pre (min p.level 5) (decide (p.level = 6)) = true) :
    u = pre ∧ ys = [a] ∧ Stands a (.expr st i e) := by
  obtain ⟨us, a', rfl, -⟩ := Derives.last hys
  rw [← List.append_assoc] at hu
  obtain ⟨rfl, haa⟩ := List.append_inj' hu rfl
  obtain rfl := List.head_eq_of_cons_eq haa
  rcases hys.closing rfl ha with ⟨rfl, ha⟩ | ⟨zs, o, rfl, hlt, hnext⟩
  · exact ⟨(List.append_nil u).symm, rfl, ha⟩
  exfalso
  rw [← List.append_assoc, fitsBefore_concat] at hfits
  have hlevel : p.level < 5 := by
    by_contra hge
    have := Operator.left_of_le ho (by omega)
    omega
  by_cases hunary : isPrefixOperator (u ++ zs) o = true
  · rw [if_pos hunary, decide_eq_true_eq] at hfits
    omega
  rw [if_neg hunary] at hfits
  rcases hnext with ⟨hop, hzs⟩ | ⟨m, hm, hle⟩
  · -- a prefix operator is seen as one, whether it begins the operand or not
    refine hunary ?_
    have hlast : ∀ t, lastTag (u ++ zs) = some t → t.endsOperand = false ∨ o.broken = true := by
      intro t ht
      rcases hzs with rfl | ⟨t', hzs, ht'⟩
      · rw [List.append_nil] at ht
        rcases hbefore.apart with hline | hend
        · obtain ⟨l, vs, hl, hst, -⟩ := hys.head
          obtain ⟨rfl, -⟩ := List.cons.inj (show o :: ([] ++ [a]) = l :: vs from hl)
          exact .inr ((congrArg Start.broken hst).trans hline)
        · exact .inl (hend t ht)
      · rw [lastTag_append, hzs, Option.some_or] at ht
        exact .inl (Option.some.inj ht ▸ ht')
    rcases hop with ⟨hterm, htext⟩ | hneg | htilde
    · have hminus : Leaf.isPrefixMinus (u ++ zs) o = true := by
        rw [Leaf.isPrefixMinus, hterm, htext]
        cases hlastTag : lastTag (u ++ zs) with
        | none => rfl
        | some t =>
          rcases hlast t hlastTag with h | h <;> simp [h]
      simp [isPrefixOperator, hminus]
    · simp [isPrefixOperator, hneg]
    · simp [isPrefixOperator, htilde]
  · have hfloor := Operator.floor_left ho
    simp only [hm, Option.all_some, Bool.or_eq_true, decide_eq_true_eq, Bool.and_eq_true,
      beq_iff_eq] at hfits
    omega

/-- A right operand that the rule takes for reduced is reduced. -/
theorem not_takes_of_fitsAfter {t : Tag} {p : Operator} {j : Nat} (ho : t.operator? = some p)
    (hj : p.right ≤ j)
    (hfits : fitsAfter post (min p.level 5) (decide (p.level = 6)) = true) (o : Leaf)
    (w : List Leaf) (hw : post = o :: w) : ¬ o.Takes (min j 5) := by
  rintro ⟨-, hop⟩
  rw [hw, fitsAfter_cons] at hfits
  have hright := Operator.right_gt ho
  rcases hop with hdot | ⟨m, hm, hle⟩
  · simp [hdot] at hfits
  · simp only [hm, Option.all_some, Bool.or_eq_true, decide_eq_true_eq, Bool.and_eq_true,
      beq_iff_eq, Bool.not_eq_true', decide_eq_false_iff_not, bne_iff_ne] at hfits
    omega

theorem binary {t : Tag} {p : Operator} (h : Reading gone cs (pre ++ (run ++ post)))
    (ho : t.operator? = some p) (hrun : run.map Leaf.tag = [.expression, t, .expression])
    (hadmits : p.rule.admits pre run post = true) : Redex gone cs p.rule pre run post := by
  obtain ⟨a, us₁, rfl, ha, hus₁⟩ := List.map_eq_cons_iff.mp hrun
  obtain ⟨o, us₂, rfl, rfl, hus₂⟩ := List.map_eq_cons_iff.mp hus₁
  obtain ⟨b, us₃, rfl, hb, hus₃⟩ := List.map_eq_cons_iff.mp hus₂
  obtain rfl := List.map_eq_nil_iff.mp hus₃
  rw [admits_binary ho, Bool.and_eq_true] at hadmits
  obtain ⟨hfits, hfits'⟩ := hadmits
  have h' : Reading gone cs ((pre ++ [a]) ++ o :: (b :: post)) := by simpa using h
  have hlexical : o.tag.isWhole = false := by
    generalize o.tag = t at ho
    cases t <;> first | cases ho; done | rfl
  obtain ⟨u, w, ys, zs, r, qs₁, qs₂, q, hq, hr, hgone, -, h₁, h₂, hp, hu, hw⟩ := h'.token hlexical
  rcases hr.around_operator rfl ho with
    ⟨rfl, hline, st, i, e, st', j, e', rfl, rfl, hi, hj, hst⟩ | ⟨rfl, hop, rfl, st, k, e, rfl, hk⟩
  · have hr' : Production _ ([] ++ .expr st i e :: [.token o, .expr st' j e']) _ := hr
    have hspot : Spot gone cs (u ++ []) (.expr st i e) (([o] ++ zs) ++ w) :=
      .part hq hr' hgone .nil (.cons (.of_stands hp) h₂)
    rw [List.append_nil] at hspot
    have hapart : Apart ys := fun l hl => h'.apart l (by
      rw [hu]
      exact List.mem_append_left _ (List.mem_append_right _ hl))
    obtain ⟨rfl, rfl, ha⟩ := left_reduced h₁ hu ha (hspot.before h.chunks rfl) hapart ho hi hfits
    obtain ⟨hb, zs, rfl, hzs, hw⟩ := take_expr h₂ hw.symm hb (not_takes_of_fitsAfter ho hj hfits')
    obtain rfl := take_nil hzs
    obtain rfl : w = post := hw
    exact ⟨_, q, hr, .cons ha (.cons hp (.cons hb .nil)), hq⟩
  · -- a prefix operator stands behind no operand
    obtain rfl := take_nil h₁
    rw [List.append_nil] at hu
    subst hu
    obtain ⟨st', k', f, rfl⟩ := hr.whole
    obtain ⟨p', ps, hps, hst, -⟩ := hr.first
    obtain ⟨rfl, -⟩ := List.cons.inj hps
    rcases (hq.before h.chunks rfl).apart with hline | hend
    · have hterm := (h'.apart o (by simp) ((congrArg Start.broken hst).trans hline)).2
      rcases hop with ⟨h, -⟩ | h | h
      · exact absurd h hterm
      · rw [h] at ho
        cases ho
      · rw [h] at ho
        cases ho
    · have := hend a.tag (lastTag_concat _ _)
      rw [ha] at this
      cases this

theorem unary {t : Tag} (h : Reading gone cs (pre ++ (run ++ post)))
    (ht : t ∈ [Tag.term, .negation, .tilde]) (hrun : run.map Leaf.tag = [t, .expression])
    (hadmits : Rule.unary.admits pre run post = true) : Redex gone cs .unary pre run post := by
  obtain ⟨o, us₁, rfl, rfl, hus₁⟩ := List.map_eq_cons_iff.mp hrun
  obtain ⟨a, us₂, rfl, ha, hus₂⟩ := List.map_eq_cons_iff.mp hus₁
  obtain rfl := List.map_eq_nil_iff.mp hus₂
  have hnext : ((o.tag != .term || Leaf.isPrefixMinus pre o) && firstTag post != some .dot &&
      firstTag post != some .power) = true := by
    simpa [Rule.admits] using hadmits
  simp only [Bool.and_eq_true, Bool.or_eq_true, bne_iff_ne, ne_eq] at hnext
  obtain ⟨⟨hminus, hdot⟩, hpower⟩ := hnext
  obtain ⟨q, w, zs, st, k, e, hr, hk, hp, hzs, hq, hw⟩ : ∃ q w zs st k e,
      Production .unary [.token o, .expr st k e] q ∧ 5 ≤ k ∧ Stands o (.token o) ∧
        Forest gone [.expr st k e] zs ∧ Spot gone cs pre q w ∧ zs ++ w = a :: post := by
    by_cases hterm : o.tag = .term
    · obtain ⟨u, w, ys, zs, r, qs₁, qs₂, q, hq, hr, -, -, h₁, h₂, hp, rfl, hw⟩ :=
        h.token (a := o) (v := a :: post) (by rw [hterm]; rfl)
      rcases hr.around_operator (p := ⟨.term, 3, 3, 4⟩) rfl (by rw [hterm]; rfl) with
        ⟨-, hline, st, i, e, st', j, e', rfl, -⟩ | ⟨rfl, hop, rfl, st, k, e, rfl, hk⟩
      · -- behind an operand the sign is no prefix operator
        obtain ⟨ys, l, rfl, hl⟩ := Derives.last h₁
        have hl : l.tag.endsOperand = true := hl
        have hminus := hminus.resolve_left (fun h => h hterm)
        rw [← List.append_assoc, Leaf.isPrefixMinus, lastTag_concat] at hminus
        simp [hl, hline] at hminus
      · obtain rfl := take_nil h₁
        rw [List.append_nil]
        exact ⟨q, w, zs, st, k, e, hr, hk, hp, h₂, hq, hw.symm⟩
    · have hleads : o.tag.leads = [.unary] := by
        simp only [List.mem_cons, List.not_mem_nil, or_false] at ht
        rcases ht with h | h | h
        · exact absurd h hterm
        · rw [h]; rfl
        · rw [h]; rfl
      obtain ⟨o', us, p, qs, q, zs, w, hrun', hus, hr, hp, hzs, hq, hw⟩ := h.lead_one hrun hleads
      obtain ⟨rfl, rfl⟩ := List.cons.inj hrun'
      generalize hfront : p :: qs = ps at hr
      have hprod := hr
      cases hr with
      | @unary x st k e ho hk =>
        obtain ⟨rfl, rfl⟩ := List.cons.inj hfront
        obtain rfl : x = o := by cases hp; rfl
        exact ⟨_, w, zs, st, k, e, hprod, hk, hp, hzs, hq, hw⟩
      | binary ho hrule => exact absurd (hrule ▸ Tag.rule_of_operator? ho) (by decide)
      | block hhead => cases hhead
  obtain ⟨ha, zs, rfl, hzs, hw⟩ := take_expr hzs hw ha (by
    rintro b w' rfl
    rintro ⟨-, hb | ⟨n, hn, hle⟩⟩
    · exact hdot (congrArg some hb)
    · refine hpower (congrArg some ?_)
      generalize b.tag = t at hn
      cases t <;> simp [Tag.level?] at hn <;> first | rfl | omega)
  obtain rfl := take_nil hzs
  obtain rfl : w = post := hw
  exact ⟨_, q, hr, .cons hp (.cons ha .nil), hq⟩

/-! ### Statements -/

/-- No brace opens a map. -/
theorem not_map {ts : List Tag} (h : Reading gone cs (pre ++ (run ++ post)))
    (hrun : run.map Leaf.tag = .leftBrace :: ts) : Rule.map.admits pre run post = false := by
  obtain ⟨l, us, rfl, hl, -⟩ := List.map_eq_cons_iff.mp hrun
  obtain ⟨u, w, ys, zs, r, qs₁, qs₂, q, hq, hr, -, -, h₁, h₂, hp, rfl, hw⟩ :=
    h.token (a := l) (v := us ++ post) (by rw [hl]; rfl)
  obtain ⟨ps, p, rfl, hends⟩ := hr.around_leftBrace rfl hl
  obtain ⟨vs, xs, rfl, -, hxs⟩ := h₁.split
  obtain ⟨xs, b, rfl, hb⟩ := Derives.last hxs
  have hlast : lastTag (u ++ (vs ++ (xs ++ [b]))) = some b.tag := by
    rw [← List.append_assoc, ← List.append_assoc, lastTag_concat]
  unfold Rule.admits
  dsimp only
  rw [hlast, Option.any_some]
  exact hends _ hb

/-- There are no semicolons. -/
theorem not_trailing (h : Reading gone cs (pre ++ (run ++ post)))
    (hrun : run.map Leaf.tag = [.program, .semicolon]) : False := by
  obtain ⟨a, us₁, rfl, ha, hus₁⟩ := List.map_eq_cons_iff.mp hrun
  obtain ⟨s, us₂, rfl, hs, hus₂⟩ := List.map_eq_cons_iff.mp hus₁
  have h' : Reading gone cs ((pre ++ [a]) ++ s :: (us₂ ++ post)) := by simpa using h
  obtain ⟨u, w, ys, zs, r, qs₁, qs₂, q, hq, hr, -, hmem, -⟩ := h'.token (by rw [hs]; rfl)
  rw [hs] at hmem
  cases r <;> simp [Rule.alphabet] at hmem

theorem statement (h : Reading gone cs (pre ++ (run ++ post)))
    (hrun : run.map Leaf.tag = [.expression])
    (hadmits : Rule.statement.admits pre run post = true) :
    Redex gone cs .statement pre run post := by
  obtain ⟨a, us, rfl, ha, hus⟩ := List.map_eq_cons_iff.mp hrun
  obtain rfl := List.map_eq_nil_iff.mp hus
  have hadmits' : ((lastTag pre).all Tag.opensStatement && !(firstTag post).any Tag.holdsExpression
      && !Leaf.continues post) = true := hadmits
  simp only [Bool.and_eq_true, Bool.not_eq_true'] at hadmits'
  obtain ⟨⟨hopens, hholds⟩, hcontinues⟩ := hadmits'
  obtain ⟨u, w, ys, zs, r, qs₁, p, qs₂, q, hq, hr, -, h₁, h₂, hp, rfl, hw⟩ :=
    locate_part h.forest (l := a) (v := post) (by rw [ha]; decide)
  have hwhole : p.fragment?.isSome := by
    cases p with
    | token l =>
      have htag := hr.token_tag (l := l) (by simp)
      rw [← Phrase.tag_token l, hp.tag_eq, ha] at htag
      cases htag
    | whole => rfl
  have hpart := hr.part rfl hwhole
  have htag := hp.tag_eq.trans ha
  have hbehind : ∀ (ps : List Phrase) {p' : Phrase}, qs₁ = ps ++ [p'] →
      (∀ t, p'.tag.ends t = true → t.opensStatement = false) → False := by
    rintro ps p' rfl hends
    obtain ⟨vs, xs, rfl, -, hxs⟩ := h₁.split
    obtain ⟨xs, b, rfl, hb⟩ := Derives.last hxs
    rw [← List.append_assoc, ← List.append_assoc, lastTag_concat, Option.all_some,
      hends _ hb] at hopens
    cases hopens
  have hahead : ∀ {d : Leaf} {ps : List Phrase}, qs₂ = .token d :: ps →
      d.tag.holdsExpression = true ∨ d.Takes 0 → False := by
    rintro d ps rfl hd
    obtain ⟨vs, ws, rfl, hvs, -⟩ := h₂.uncons
    obtain ⟨rfl, -⟩ := hvs.token
    subst hw
    rcases hd with hd | hd
    · rw [List.append_assoc, List.singleton_append, firstTag_cons, Option.any_some, hd] at hholds
      cases hholds
    · exact not_takes_of_continues hcontinues d (ws ++ w) (by simp) hd
  cases hpart with
  | receiver hd hb hst => exact (hahead rfl (.inr ⟨hb, .inl hd⟩)).elim
  | enclosed _ hp' hc => exact (hahead rfl (.inl hc)).elim
  | operand ho hk =>
    refine (hbehind [] rfl fun t ht => ?_).elim
    rcases ho with ⟨h, -⟩ | h | h <;>
      · rw [Phrase.tag_token, h] at ht
        rw [beq_iff_eq.mp ht]
        rfl
  | left ho hb hi =>
    exact (hahead rfl (.inr ⟨hb, .inr ⟨_, Tag.level?_of_operator? ho, Nat.zero_le _⟩⟩)).elim
  | right ho hb hj =>
    refine (hbehind [_] rfl fun t ht => ?_).elim
    have hmem := Tag.operator?_mem ho
    simp only [List.mem_cons, List.not_mem_nil, or_false] at hmem
    rcases hmem with h | h | h | h | h <;>
      · rw [Phrase.tag_token, h] at ht
        rw [beq_iff_eq.mp ht]
        rfl
  | head ht hst =>
    simp only [Phrase.tag_whole] at htag
    subst htag
    simp at ht
  | value hp' =>
    refine (hbehind [] rfl fun t ht => ?_).elim
    simp only [List.mem_cons, List.not_mem_nil, or_false] at hp'
    rcases hp' with h | h | h <;>
      · rw [h] at ht
        simp only [Tag.ends, beq_iff_eq, Bool.or_eq_true] at ht
        rcases ht with rfl | rfl <;> rfl
  | statement =>
    obtain rfl := take_nil h₁
    obtain rfl := take_nil h₂
    obtain rfl : post = w := hw
    rw [List.append_nil]
    obtain rfl : r = .statement := by
      generalize hps : [] ++ [Phrase.whole _ _ _ _] = ps at hr
      cases hr with
      | statement => rfl
      | block =>
        rw [← List.append_assoc] at hps
        cases (List.append_inj' hps rfl).2
      | _ => simp at hps
    exact ⟨_, _, hr, .cons hp .nil, hq⟩
  | chain | chunk => cases htag

/-- A match that a rule accepts has the parts of a production of the rule. -/
theorem redex {r : Rule} (h : Reading gone cs (pre ++ (run ++ post))) (hneeds : r.needs ⊆ gone)
    (hm : r.Matches pre run post)
    (hleft : ∀ u v, pre = u ++ [v] → ¬ r.Matches u (v :: run) post) :
    Redex gone cs r pre run post := by
  obtain ⟨hshape, hadmits⟩ := hm
  generalize hrun : run.map Leaf.tag = ts at hshape
  cases hshape with
  | literal ht => exact h.literal ht hrun
  | assignmentHead => exact h.assignmentHead hrun hadmits hleft
  | declaringHead => exact h.declaringHead hrun
  | declaration => exact h.declaration (hneeds (by decide)) hrun
  | functionHead hvs => exact h.functionHead hvs hrun
  | classHead => exact h.classHead (.inl rfl) hrun
  | extendingHead => exact h.classHead (.inr rfl) hrun
  | newHead => exact h.newHead hrun
  | methodHead => exact h.methodHead hrun
  | fieldAssignmentHead => exact h.fieldAssignmentHead hrun
  | field => exact h.field hrun hadmits
  | callHead => exact h.callHead ⟨hneeds (by decide), hneeds (by decide)⟩ hrun hadmits
  | «variable» =>
    exact h.variable ⟨hneeds (by decide), hneeds (by decide), hneeds (by decide)⟩ hrun hadmits
  | list hvs => exact h.list hvs hrun
  | map =>
    rw [h.not_map hrun] at hadmits
    cases hadmits
  | group => exact h.group hrun hadmits
  | unary ht => exact h.unary ht hrun hadmits
  | binary ho hr =>
    subst hr
    exact h.binary ho hrun hadmits
  | arguments ht hvs => exact h.arguments ht hvs hrun
  | jump ht => exact h.jump ht hrun
  | print => exact h.print hrun hadmits
  | returnsBare => exact h.returns (.inl rfl) hrun hadmits
  | returns => exact h.returns (.inr rfl) hrun hadmits
  | assignment => exact h.assignment hrun hadmits
  | branch hts => exact h.branch hts hrun
  | elseIf hts => exact h.elseIf hts hrun
  | otherwise hts => exact h.otherwise hts hrun
  | loop hts => exact h.loop hts hrun
  | functionEnd hts => exact h.functionEnd hts hrun
  | classEnd hts => exact h.classEnd hts hrun
  | trailing => exact (h.not_trailing hrun).elim
  | statement => exact h.statement hrun hadmits

end Reading

end StackScript
