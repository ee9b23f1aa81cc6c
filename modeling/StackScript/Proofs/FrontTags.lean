import StackScript.Proofs.PhrasePositions

/-!
# StackScript.Proofs.FrontTags — the tag at the front of a match tells its production

The tag of a symbol often tells that it is the first of a production, and of which rule.  From there
the symbols of a match are read along with the parts of the production: a part that the match takes
for reduced is reduced, since otherwise it would be another symbol that comes next.
-/

namespace StackScript

open Leaf

/-- The symbols can be reduced to the chunks. -/
structure Reading (gone : List Rule) (cs : List Chunk) (xs : List Leaf) : Prop where
  forest : Forest gone (cs.map Chunk.phrase) xs
  chunks : Chunks cs
  apart : Apart xs

/-- The run has all the parts of a production, and what it gives has a spot between the others. -/
def Redex (gone : List Rule) (cs : List Chunk) (r : Rule) (pre run post : List Leaf) : Prop :=
  ∃ qs q, Production r qs q ∧ List.Forall₂ Stands run qs ∧ Spot gone cs pre q post

/-! ### Tags at the front of a production -/

/-- The rules whose productions have the tag at the front, if none has it elsewhere. -/
def Tag.leads : Tag → List Rule
  | number | text | boolean | null | thisWord | superWord => [.literal]
  | varWord => [.assignmentHead, .declaration]
  | funcWord => [.functionHead]
  | classWord => [.classHead]
  | newWord => [.newHead]
  | leftBracket => [.list]
  | negation | tilde => [.unary]
  | callHead | newHead => [.arguments]
  | continueWord | breakWord => [.jump]
  | printWord => [.print]
  | returnWord => [.returns]
  | assignmentHead => [.assignment]
  | ifWord => [.branch]
  | whileWord => [.loop]
  | functionHead => [.functionEnd]
  | classHead => [.classEnd]
  | _ => []

theorem Commas.leads {α : Type} {R : Phrase → α → Prop} {ps : List Phrase} {as : List α}
    (hR : ∀ p a, R p a → p.tag.leads = []) (h : Commas R ps as) {p : Phrase} (hp : p ∈ ps) :
    p.tag.leads = [] := by
  induction h with
  | last h =>
    rw [List.mem_singleton] at hp
    rw [hp]
    exact hR _ _ h
  | more h hc _ ih =>
    rcases List.mem_cons.mp hp with rfl | hp
    · exact hR _ _ h
    rcases List.mem_cons.mp hp with rfl | hp
    · rw [Phrase.tag_token, hc]
      rfl
    · exact ih hp

theorem CommaList.leads {α : Type} {R : Phrase → α → Prop} {ps : List Phrase} {as : List α}
    (hR : ∀ p a, R p a → p.tag.leads = []) (h : CommaList R ps as) {p : Phrase} (hp : p ∈ ps) :
    p.tag.leads = [] := by
  rcases h with ⟨rfl, -⟩ | h
  · cases hp
  · exact h.leads hR hp

theorem IsExpr.leads (p : Phrase) (e : Expr) (h : IsExpr p e) : p.tag.leads = [] := by
  obtain ⟨st, k, rfl⟩ := h
  rfl

theorem IsName.leads (p : Phrase) (s : String) (h : IsName p s) : p.tag.leads = [] := by
  obtain ⟨x, hx, rfl, -⟩ := h
  rw [Phrase.tag_token, hx]
  rfl

theorem Tag.leads_of_operator? {t : Tag} {p : Operator} (h : t.operator? = some p) :
    t.leads = [] := by
  cases t <;> first | cases h; done | rfl

/-- The front of a heading tells the rule, and behind it there are no such tags. -/
theorem Heading.leads {r : Rule} {head : List Phrase} {st : Start}
    {make : (Nat → Block) → Option Stmt} (h : Heading r head st make) :
    ∃ p ps, head = p :: ps ∧ (p.tag.leads ≠ [] → r ∈ p.tag.leads) ∧
      ∀ p' ∈ ps, p'.tag.leads = [] := by
  cases h with
  | branch hw hl | loop hw hl =>
    refine ⟨_, _, rfl, fun _ => by simp [Tag.leads, hw], fun p' hp => ?_⟩
    simp only [List.mem_cons, List.not_mem_nil, or_false] at hp
    rcases hp with rfl | rfl <;> simp [Tag.leads, hl]
  | elseIf ho hl =>
    refine ⟨_, _, rfl, fun h => absurd rfl h, fun p' hp => ?_⟩
    simp only [List.mem_cons, List.not_mem_nil, or_false] at hp
    rcases hp with rfl | rfl | rfl <;> simp [Tag.leads, ho, hl]
  | otherwise ho hl =>
    refine ⟨_, _, rfl, fun h => absurd rfl h, fun p' hp => ?_⟩
    simp only [List.mem_cons, List.not_mem_nil, or_false] at hp
    rcases hp with rfl | rfl <;> simp [Tag.leads, ho, hl]
  | functionEnd | classEnd =>
    exact ⟨_, _, rfl, fun _ => by simp [Tag.leads], fun p' hp => absurd hp List.not_mem_nil⟩

/-- Behind the front of a production there are no such tags. -/
theorem Production.leads_tail {r : Rule} {p : Phrase} {qs : List Phrase} {q : Phrase}
    (h : Production r (p :: qs) q) {p' : Phrase} (hp : p' ∈ qs) : p'.tag.leads = [] := by
  generalize hqs : p :: qs = ps at h
  cases h with
  | literal | «variable» | jump | returnsBare | statement =>
    obtain ⟨-, rfl⟩ := List.cons.inj hqs
    cases hp
  | assignmentHead | declaration | callHead | unary | print | returns | assignment =>
    obtain ⟨-, rfl⟩ := List.cons.inj hqs
    rw [List.mem_singleton] at hp
    simp [Tag.leads, *]
  | declaringHead | classHead | newHead | field | group =>
    obtain ⟨-, rfl⟩ := List.cons.inj hqs
    simp only [List.mem_cons, List.not_mem_nil, or_false] at hp
    rcases hp with rfl | rfl <;> simp [Tag.leads, *]
  | methodHead | fieldAssignmentHead =>
    obtain ⟨-, rfl⟩ := List.cons.inj hqs
    simp only [List.mem_cons, List.not_mem_nil, or_false] at hp
    rcases hp with rfl | rfl | rfl <;> simp [Tag.leads, *]
  | extendingHead =>
    obtain ⟨-, rfl⟩ := List.cons.inj hqs
    simp only [List.mem_cons, List.not_mem_nil, or_false] at hp
    rcases hp with rfl | rfl | rfl | rfl <;> simp [Tag.leads, *]
  | functionHead _ _ _ hps =>
    obtain ⟨-, rfl⟩ := List.cons.inj hqs
    simp only [List.mem_cons, List.mem_append, List.not_mem_nil, or_false] at hp
    rcases hp with rfl | rfl | hp | rfl | rfl
    · simp [Tag.leads, *]
    · simp [Tag.leads, *]
    · exact hps.leads IsName.leads hp
    · simp [Tag.leads, *]
    · simp [Tag.leads, *]
  | list _ hps | arguments _ _ hps =>
    obtain ⟨-, rfl⟩ := List.cons.inj hqs
    rcases List.mem_append.mp hp with hp | hp
    · exact hps.leads IsExpr.leads hp
    · rw [List.mem_singleton] at hp
      simp [Tag.leads, *]
  | binary ho =>
    obtain ⟨-, rfl⟩ := List.cons.inj hqs
    simp only [List.mem_cons, List.not_mem_nil, or_false] at hp
    rcases hp with rfl | rfl
    · exact Tag.leads_of_operator? ho
    · rfl
  | block hhead hcs hb =>
    obtain ⟨h, hs, rfl, -, hleads⟩ := hhead.leads
    obtain ⟨-, rfl⟩ := List.cons.inj hqs
    rcases List.mem_append.mp hp with hp | hp
    · exact hleads p' hp
    rcases List.mem_append.mp hp with hp | hp
    · obtain ⟨c, -, rfl⟩ := List.mem_map.mp hp
      rfl
    · rw [List.mem_singleton] at hp
      simp [Tag.leads, *]

/-- The tag at the front of a production tells the rule. -/
theorem Production.leads_head {r : Rule} {p : Phrase} {qs : List Phrase} {q : Phrase}
    (h : Production r (p :: qs) q) (hp : p.tag.leads ≠ []) : r ∈ p.tag.leads := by
  generalize hqs : p :: qs = ps at h
  cases h with
  | literal h =>
    obtain ⟨rfl, -⟩ := List.cons.inj hqs
    have hmem := literal?_tag h
    simp only [List.mem_cons, List.not_mem_nil, or_false] at hmem
    rcases hmem with h | h | h | h | h | h <;> simp [Tag.leads, h]
  | unary ho =>
    obtain ⟨rfl, -⟩ := List.cons.inj hqs
    rcases ho with ⟨h, -⟩ | h | h
    · exact absurd (by rw [Phrase.tag_token, h]; rfl) hp
    · simp [Tag.leads, h]
    · simp [Tag.leads, h]
  | jump hw =>
    obtain ⟨rfl, -⟩ := List.cons.inj hqs
    rcases hw with h | h <;> simp [Tag.leads, h]
  | arguments ht =>
    obtain ⟨rfl, -⟩ := List.cons.inj hqs
    rcases ht with rfl | rfl <;> simp [Tag.leads]
  | methodHead | fieldAssignmentHead | field | binary | statement =>
    obtain ⟨rfl, -⟩ := List.cons.inj hqs
    exact absurd rfl hp
  | assignmentHead h | callHead h | «variable» h | group h =>
    obtain ⟨rfl, -⟩ := List.cons.inj hqs
    exact absurd (by rw [Phrase.tag_token, h]; rfl) hp
  | assignment =>
    obtain ⟨rfl, -⟩ := List.cons.inj hqs
    simp [Tag.leads]
  | block hhead hcs hb =>
    obtain ⟨h, hs, rfl, hrule, -⟩ := hhead.leads
    obtain ⟨rfl, -⟩ := List.cons.inj hqs
    exact hrule hp
  | declaringHead h | declaration h | functionHead h | classHead h | extendingHead h | newHead h
  | list h | print h | returnsBare h | returns h =>
    obtain ⟨rfl, -⟩ := List.cons.inj hqs
    simp [Tag.leads, h]

/-- A symbol whose tag leads a production is the first of one. -/
theorem Reading.lead {gone : List Rule} {cs : List Chunk} {pre v : List Leaf} {a : Leaf}
    (h : Reading gone cs (pre ++ a :: v)) (ha : a.tag.leads ≠ []) :
    ∃ r p qs q zs post, r ∈ a.tag.leads ∧ r ∉ gone ∧ Production r (p :: qs) q ∧ Stands a p ∧
      Forest gone qs zs ∧ Spot gone cs pre q post ∧ v = zs ++ post := by
  have hprogram : a.tag ≠ .program := fun h => ha (by rw [h]; rfl)
  obtain ⟨pre, post, ys, zs, r, qs₁, p, qs₂, q, hq, hr, hgone, h₁, h₂, hp, rfl, rfl⟩ :=
    locate_part h.forest hprogram
  cases qs₁ with
  | nil =>
    obtain rfl := Each.nil_iff.mp (Forest.each_iff.mp h₁)
    rw [← hp.tag_eq] at ha ⊢
    rw [List.append_nil]
    exact ⟨r, p, qs₂, q, zs, post, hr.leads_head ha, hgone, hr, hp, h₂, hq, rfl⟩
  | cons p' qs₁ =>
    refine absurd ?_ ha
    rw [← hp.tag_eq]
    exact hr.leads_tail (by simp)

/-! ### Reading on -/

/-- What derives the phrases begins with a symbol that stands for the first of them. -/
def Front (gone : List Rule) (p : Phrase) (ps : List Phrase) (ys post : List Leaf) (a : Leaf)
    (w : List Leaf) : Prop :=
  Stands a p ∧ ∃ zs, ys = a :: zs ∧ Forest gone ps zs ∧ zs ++ post = w

section Take

variable {gone : List Rule} {ps : List Phrase} {ys post w : List Leaf} {a : Leaf}

theorem take_token {x : Leaf} (h : Forest gone (.token x :: ps) ys) (hw : ys ++ post = a :: w) :
    Front gone (.token x) ps ys post a w := by
  obtain ⟨us, vs, rfl, hus, hvs⟩ := h.uncons
  obtain ⟨rfl, hx⟩ := hus.token
  obtain ⟨rfl, rfl⟩ := List.cons.inj hw
  exact ⟨.token hx, vs, rfl, hvs, rfl⟩

theorem take_expr {st : Start} {k : Nat} {e : Expr} (h : Forest gone (.expr st k e :: ps) ys)
    (hw : ys ++ post = a :: w) (ha : a.tag = .expression)
    (hnext : ∀ o w', w = o :: w' → ¬ o.Takes (min k 5)) :
    Front gone (.expr st k e) ps ys post a w := by
  obtain ⟨us, vs, rfl, hus, hvs⟩ := h.uncons
  obtain ⟨l, us, rfl, -, -⟩ := hus.head
  obtain ⟨rfl, rfl⟩ := List.cons.inj hw
  rcases hus.opening (.inl rfl) rfl ha with ⟨rfl, hl⟩ | ⟨o, zs, rfl, ho⟩
  · exact ⟨hl, vs, rfl, hvs, rfl⟩
  · exact absurd ho (hnext o _ rfl)

theorem take_program {st : Start} {s : Program} (h : Forest gone (.program st s :: ps) ys)
    (hw : ys ++ post = a :: w) (ha : a.tag = .program)
    (hnext : ∀ o w', w = o :: w' → o.tag ≠ .elseWord ∧ o.tag ≠ .elseIfWord) :
    Front gone (.program st s) ps ys post a w := by
  obtain ⟨us, vs, rfl, hus, hvs⟩ := h.uncons
  obtain ⟨l, us, rfl, -, -⟩ := hus.head
  obtain ⟨rfl, rfl⟩ := List.cons.inj hw
  rcases hus.opening_program rfl rfl ha with ⟨rfl, hl⟩ | ⟨o, zs, rfl, ho⟩
  · exact ⟨hl, vs, rfl, hvs, rfl⟩
  · obtain ⟨h₁, h₂⟩ := hnext o _ rfl
    exact absurd ho (not_or.mpr ⟨h₁, h₂⟩)

theorem take_nil (h : Forest gone [] ys) : ys = [] := Each.nil_iff.mp (Forest.each_iff.mp h)

/-- The next symbol begins the next phrase. -/
theorem take_starts {p : Phrase} (h : Forest gone (p :: ps) ys) (hw : ys ++ post = a :: w) :
    p.tag.starts a.tag = true := by
  obtain ⟨us, vs, rfl, hus, hvs⟩ := h.uncons
  obtain ⟨l, us, rfl, -, hstarts⟩ := hus.head
  obtain ⟨rfl, rfl⟩ := List.cons.inj hw
  exact hstarts

/-- Reads the body of a block and the brace that closes it. -/
theorem take_body {cs : List Chunk} {b : Leaf} {us : List Leaf}
    (h : Forest gone (cs.map Chunk.phrase ++ [.token b]) ys) (hb : b.tag = .rightBrace)
    (hus : Tag.Body (us.map Leaf.tag)) (hw : ys ++ post = us ++ w) :
    List.Forall₂ Stands us (cs.map Chunk.phrase ++ [.token b]) ∧ post = w := by
  -- the closing brace begins no chunk
  have hbrace : ∀ {cs : List Chunk} {ys : List Leaf} {b' : Leaf},
      Forest gone (cs.map Chunk.phrase ++ [.token b]) ys → ys ++ post = b' :: w →
      b'.tag = .rightBrace →
      List.Forall₂ Stands [b'] (cs.map Chunk.phrase ++ [.token b]) ∧ post = w := by
    intro cs ys b' h hw hb'
    cases cs with
    | nil =>
      obtain ⟨hstands, zs, rfl, hzs, hpost⟩ := take_token h hw
      obtain rfl := take_nil hzs
      exact ⟨.cons hstands .nil, hpost⟩
    | cons c cs =>
      have hstarts := take_starts h hw
      rw [hb'] at hstarts
      cases hstarts
  generalize hts : us.map Leaf.tag = ts at hus
  cases hus with
  | empty =>
    obtain ⟨b', us', rfl, hb', hus'⟩ := List.map_eq_cons_iff.mp hts
    obtain rfl := List.map_eq_nil_iff.mp hus'
    exact hbrace h hw hb'
  | program =>
    obtain ⟨a, us', rfl, ha, hus'⟩ := List.map_eq_cons_iff.mp hts
    obtain ⟨b', us', rfl, hb', hus'⟩ := List.map_eq_cons_iff.mp hus'
    obtain rfl := List.map_eq_nil_iff.mp hus'
    cases cs with
    | nil =>
      have hstarts := take_starts h hw
      rw [Phrase.tag_token, hb, ha] at hstarts
      cases hstarts
    | cons c cs =>
      obtain ⟨hstands, zs, rfl, hzs, hrest⟩ := take_program h hw ha (by
        rintro o w' ⟨⟩
        rw [hb']
        exact ⟨by decide, by decide⟩)
      obtain ⟨hall, hpost⟩ := hbrace hzs hrest hb'
      exact ⟨.cons hstands hall, hpost⟩

section Commas

variable {α : Type} {R : Phrase → α → Prop} {u t : Tag} {c : Leaf} {qs : List Phrase}

/-- Reads a list with commas that is not empty, and what closes it. -/
theorem take_series (ht : t ≠ .comma)
    (htake : ∀ {p x ps ys a w}, R p x → Forest gone (p :: ps) ys → ys ++ post = a :: w →
      a.tag = u → (∀ o w', w = o :: w' → o.tag = .comma ∨ o.tag = t) → Front gone p ps ys post a w)
    (hc : c.tag = t) {vs : List Tag} (hvs : Pattern.Series u vs) {as : List α} {us : List Leaf}
    (hps : Commas R ps as) (h : Forest gone (ps ++ .token c :: qs) ys)
    (hus : us.map Leaf.tag = vs ++ [t]) (hw : ys ++ post = us ++ w) :
    List.Forall₂ Stands us (ps ++ [.token c]) ∧ ∃ zs, Forest gone qs zs ∧ zs ++ post = w := by
  induction hvs generalizing ps as ys us with
  | one =>
    obtain ⟨a, us, rfl, ha, hus⟩ := List.map_eq_cons_iff.mp hus
    obtain ⟨b, us, rfl, hb, hus⟩ := List.map_eq_cons_iff.mp hus
    obtain rfl := List.map_eq_nil_iff.mp hus
    have hnext : ∀ o w', b :: w = o :: w' → o.tag = .comma ∨ o.tag = t := by
      rintro o w' ⟨⟩
      exact .inr hb
    cases hps with
    | last hp =>
      obtain ⟨hstands, zs, rfl, hzs, hrest⟩ := htake hp h hw ha hnext
      obtain ⟨hclose, zs, rfl, hzs, hrest⟩ := take_token hzs hrest
      exact ⟨.cons hstands (.cons hclose .nil), zs, hzs, hrest⟩
    | more hp hcomma hps =>
      obtain ⟨hstands, zs, rfl, hzs, hrest⟩ := htake hp h hw ha hnext
      obtain ⟨hclose, -⟩ := take_token hzs hrest
      have htag := hclose.tag_eq
      rw [Phrase.tag_token, hcomma, hb] at htag
      exact absurd htag.symm ht
  | @more vs hvs ih =>
    obtain ⟨a, us, rfl, ha, hus⟩ := List.map_eq_cons_iff.mp hus
    obtain ⟨b, us, rfl, hb, hus⟩ := List.map_eq_cons_iff.mp hus
    have hnext : ∀ o w', b :: (us ++ w) = o :: w' → o.tag = .comma ∨ o.tag = t := by
      rintro o w' ⟨⟩
      exact .inl hb
    cases hps with
    | last hp =>
      obtain ⟨hstands, zs, rfl, hzs, hrest⟩ := htake hp h hw ha hnext
      obtain ⟨hclose, -⟩ := take_token hzs hrest
      have htag := hclose.tag_eq
      rw [Phrase.tag_token, hc, hb] at htag
      exact absurd htag ht
    | more hp hcomma hps =>
      obtain ⟨hstands, zs, rfl, hzs, hrest⟩ := htake hp h hw ha hnext
      obtain ⟨hclose, zs, rfl, hzs, hrest⟩ := take_token hzs hrest
      obtain ⟨hall, hpost⟩ := ih hps hzs hus hrest
      exact ⟨.cons hstands (.cons hclose hall), hpost⟩

/-- Reads a list with commas and what closes it. -/
theorem take_commas (hut : u ≠ t) (ht : t ≠ .comma)
    (htake : ∀ {p x ps ys a w}, R p x → Forest gone (p :: ps) ys → ys ++ post = a :: w →
      a.tag = u → (∀ o w', w = o :: w' → o.tag = .comma ∨ o.tag = t) → Front gone p ps ys post a w)
    (hstart : ∀ p x, R p x → p.tag.starts t = false)
    (hc : c.tag = t) {vs : List Tag} (hvs : vs = [] ∨ Pattern.Series u vs) {as : List α}
    {us : List Leaf} (hps : CommaList R ps as) (h : Forest gone (ps ++ .token c :: qs) ys)
    (hus : us.map Leaf.tag = vs ++ [t]) (hw : ys ++ post = us ++ w) :
    List.Forall₂ Stands us (ps ++ [.token c]) ∧ ∃ zs, Forest gone qs zs ∧ zs ++ post = w := by
  rcases hps with ⟨rfl, -⟩ | hps
  · obtain ⟨a, us, rfl⟩ : ∃ a us', us = a :: us' := by
      cases us with
      | nil => cases vs <;> cases hus
      | cons a us => exact ⟨a, us, rfl⟩
    obtain ⟨hclose, zs, rfl, hzs, hrest⟩ := take_token h hw
    have htag := hclose.tag_eq
    rw [Phrase.tag_token, hc] at htag
    rcases hvs with rfl | hvs
    · obtain ⟨-, hus⟩ := List.cons.inj hus
      obtain rfl := List.map_eq_nil_iff.mp hus
      exact ⟨.cons hclose .nil, zs, hzs, hrest⟩
    · have hfirst : a.tag = u := by cases hvs <;> exact (List.cons.inj hus).1
      exact absurd (hfirst ▸ htag).symm hut
  · rcases hvs with rfl | hvs
    · obtain ⟨a, us, rfl, ha, hus⟩ := List.map_eq_cons_iff.mp hus
      obtain ⟨p, x, ps, rfl, hp⟩ : ∃ p x ps', ps = p :: ps' ∧ R p x := by
        cases hps with
        | last hp => exact ⟨_, _, _, rfl, hp⟩
        | more hp => exact ⟨_, _, _, rfl, hp⟩
      have hstarts := take_starts h hw
      rw [ha, hstart p x hp] at hstarts
      cases hstarts
    · exact take_series ht htake hc hvs hps h hus hw

/-- Reads expressions with commas. -/
theorem take_exprs (ht : t = .rightParen ∨ t = .rightBracket) (hc : c.tag = t) {vs : List Tag}
    (hvs : vs = [] ∨ Pattern.Series .expression vs) {es : List Expr} {us : List Leaf}
    (hps : CommaList IsExpr ps es) (h : Forest gone (ps ++ .token c :: qs) ys)
    (hus : us.map Leaf.tag = vs ++ [t]) (hw : ys ++ post = us ++ w) :
    List.Forall₂ Stands us (ps ++ [.token c]) ∧ ∃ zs, Forest gone qs zs ∧ zs ++ post = w := by
  refine take_commas ?_ ?_ ?_ ?_ hc hvs hps h hus hw
  · rcases ht with rfl | rfl <;> decide
  · rcases ht with rfl | rfl <;> decide
  · rintro p e ps ys a w ⟨st, k, rfl⟩ h hw ha hnext
    refine take_expr h hw ha fun o w' hw' ho => ?_
    obtain ⟨-, hdot | ⟨n, hn, -⟩⟩ := ho
    · rcases hnext o w' hw' with h | h
      · rw [h] at hdot
        cases hdot
      · rw [h] at hdot
        rcases ht with rfl | rfl <;> cases hdot
    · rcases hnext o w' hw' with h | h
      · rw [h] at hn
        cases hn
      · rw [h] at hn
        rcases ht with rfl | rfl <;> cases hn
  · rintro p e ⟨st, k, rfl⟩
    rcases ht with rfl | rfl <;> rfl

/-- Reads names with commas. -/
theorem take_names (hc : c.tag = .rightParen) {vs : List Tag}
    (hvs : vs = [] ∨ Pattern.Series .name vs) {names : List String} {us : List Leaf}
    (hps : CommaList IsName ps names) (h : Forest gone (ps ++ .token c :: qs) ys)
    (hus : us.map Leaf.tag = vs ++ [.rightParen]) (hw : ys ++ post = us ++ w) :
    List.Forall₂ Stands us (ps ++ [.token c]) ∧ ∃ zs, Forest gone qs zs ∧ zs ++ post = w := by
  refine take_commas (by decide) (by decide) ?_ ?_ hc hvs hps h hus hw
  · rintro p s ps ys a w ⟨x, hx, rfl, -⟩ h hw - -
    exact take_token h hw
  · rintro p s ⟨x, hx, rfl, -⟩
    rw [Phrase.tag_token, hx]
    rfl

end Commas

end Take

end StackScript
