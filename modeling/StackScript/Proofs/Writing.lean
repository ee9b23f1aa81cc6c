import StackScript.Proofs.Rows

/-!
# StackScript.Proofs.Writing — expressions in a row

What the tokens of a row are written for: for each form of an expression, how its tokens are made of
those of its parts, and which level it has.
-/

namespace StackScript

open Leaf Phrase

/-- The tokens, in one row, derive an expression of this level that begins on this line. -/
structure Written (line level : Nat) (e : Expr) (ts : List Token) : Prop where
  nonempty : ts ≠ []
  derives : ∀ broken, Derives [] (.expr ⟨line, broken⟩ level e) (ofRow broken ts)

/-- The tokens derive these expressions with commas between them. -/
def WrittenItems (es : List Expr) (ts : List Token) : Prop :=
  ∃ ps, Commas IsExpr ps es ∧ Forest [] ps (ofRow false ts)

/-- The tokens derive these expressions with commas between them, or there are none of both. -/
def WrittenList (es : List Expr) (ts : List Token) : Prop :=
  es = [] ∧ ts = [] ∨ WrittenItems es ts

theorem Forest.one_token (t : Token) (broken : Bool) :
    Forest [] [.token (ofToken t broken)] [ofToken t broken] := .leaf (.token rfl) .nil

theorem Forest.cons_token {t : Token} {broken : Bool} {ps : List Phrase} {xs : List Leaf}
    (h : Forest [] ps xs) :
    Forest [] (.token (ofToken t broken) :: ps) (ofToken t broken :: xs) := .leaf (.token rfl) h

namespace WrittenItems

variable {line k : Nat} {e : Expr} {es : List Expr} {c : Token} {ts us : List Token}

theorem last (h : Written line k e ts) : WrittenItems [e] ts :=
  ⟨[.expr ⟨line, false⟩ k e], .last ⟨_, _, rfl⟩, h.derives false⟩

theorem more (h : Written line k e ts) (hc : c.tag = .comma) (hs : WrittenItems es us) :
    WrittenItems (e :: es) (ts ++ c :: us) := by
  obtain ⟨ps, hps, hforest⟩ := hs
  refine ⟨.expr ⟨line, false⟩ k e :: .token (ofToken c false) :: ps,
    .more ⟨_, _, rfl⟩ hc hps, ?_⟩
  rw [ofRow_append h.nonempty, ofRow_cons]
  exact (h.derives false).append hforest.cons_token

end WrittenItems

/-- A list in closing brackets. -/
theorem WrittenList.closed {es : List Expr} {ts : List Token} (h : WrittenList es ts) (r : Token) :
    ∃ ps, CommaList IsExpr ps es ∧
      Forest [] (ps ++ [.token (ofToken r false)]) (ofRow false (ts ++ [r])) := by
  rcases h with ⟨rfl, rfl⟩ | ⟨ps, hps, hforest⟩
  · exact ⟨[], .inl ⟨rfl, rfl⟩, .one_token r false⟩
  · refine ⟨ps, .inr hps, ?_⟩
    rw [ofRow_false_append]
    exact hforest.append (.one_token r false)

namespace Written

variable {line i j k : Nat} {a b e : Expr} {es : List Expr} {t l r x d o : Token}
  {ts us vs : List Token}

/-- A token alone. -/
theorem single (h : ∀ broken, Production .literal [.token (ofToken t broken)]
    (.expr ⟨t.line, broken⟩ 7 e) ∨ Production .variable [.token (ofToken t broken)]
    (.expr ⟨t.line, broken⟩ 7 e)) : Written t.line 7 e [t] := by
  refine ⟨List.cons_ne_nil _ _, fun broken => ?_⟩
  rcases h broken with h | h
  · exact .of_production h List.not_mem_nil (.one_token t broken)
  · exact .of_production h List.not_mem_nil (.one_token t broken)

theorem literal (h : (ofToken t false).literal? = some e) : Written t.line 7 e [t] :=
  single fun _ => .inl (.literal h)

theorem «variable» (h : t.tag = .name) : Written t.line 7 (.variable t.line t.text none) [t] :=
  single fun _ => .inr (.variable h)

theorem group (hl : l.tag = .leftParen) (h : Written line k e ts) (hr : r.tag = .rightParen) :
    Written l.line 7 e (l :: (ts ++ [r])) := by
  refine ⟨List.cons_ne_nil _ _, fun broken => ?_⟩
  have hforest : Forest [] [.token (ofToken l broken), .expr ⟨line, false⟩ k e,
      .token (ofToken r false)] (ofRow broken (l :: (ts ++ [r]))) := by
    rw [ofRow_cons, ofRow_append h.nonempty]
    exact .cons_token ((h.derives false).append (.one_token r false))
  exact .of_production (.group (l := ofToken l broken) hl hr) List.not_mem_nil hforest

theorem list (hl : l.tag = .leftBracket) (h : WrittenList es ts) (hr : r.tag = .rightBracket) :
    Written l.line 7 (.list l.line es) (l :: (ts ++ [r])) := by
  refine ⟨List.cons_ne_nil _ _, fun broken => ?_⟩
  obtain ⟨ps, hps, hforest⟩ := h.closed r
  refine .of_production (.list (l := ofToken l broken) hl hps (r := ofToken r false) hr)
    List.not_mem_nil ?_
  rw [ofRow_cons]
  exact .cons_token hforest

/-- Arguments after the head that they are for. -/
theorem arguments {t : Tag} {st : Start} {f : Fragment} {hs : List Leaf}
    (ht : t = .callHead ∨ t = .newHead) (hf : f.applied? es = some e)
    (hhead : Derives [] (.whole t st 0 f) hs) (h : WrittenList es ts) (hr : r.tag = .rightParen) :
    Derives [] (.expr st 7 e) (hs ++ ofRow false (ts ++ [r])) := by
  obtain ⟨ps, hps, hforest⟩ := h.closed r
  exact .of_production (.arguments ht hf hps (r := ofToken r false) hr) List.not_mem_nil
    (.cons hhead hforest)

theorem call (hx : x.tag = .name) (hl : l.tag = .leftParen) (h : WrittenList es ts)
    (hr : r.tag = .rightParen) :
    Written x.line 7 (.call x.line x.text es) (x :: l :: (ts ++ [r])) := by
  refine ⟨List.cons_ne_nil _ _, fun broken => ?_⟩
  have hhead : Derives [] (.whole .callHead ⟨x.line, broken⟩ 0 (.callHead x.line none x.text))
      [ofToken x broken, ofToken l false] :=
    .of_production (.callHead (x := ofToken x broken) (l := ofToken l false) hx hl)
      List.not_mem_nil
      (.cons_token (.one_token l false))
  rw [ofRow_cons, ofRow_cons]
  exact arguments (.inl rfl) rfl hhead h hr

theorem create (ht : t.tag = .newWord) (hx : x.tag = .name) (hl : l.tag = .leftParen)
    (h : WrittenList es ts) (hr : r.tag = .rightParen) :
    Written t.line 7 (.create t.line x.text es) (t :: x :: l :: (ts ++ [r])) := by
  refine ⟨List.cons_ne_nil _ _, fun broken => ?_⟩
  have hhead : Derives [] (.whole .newHead ⟨t.line, broken⟩ 0 (.newHead t.line x.text))
      [ofToken t broken, ofToken x false, ofToken l false] :=
    .of_production (.newHead (w := ofToken t broken) (x := ofToken x false) (l := ofToken l false)
      ht hx hl) List.not_mem_nil (.cons_token (.cons_token (.one_token l false)))
  rw [ofRow_cons, ofRow_cons, ofRow_cons]
  exact arguments (.inr rfl) rfl hhead h hr

/-- A point and a name after a receiver. -/
theorem member (h : Written line 7 e us) (broken : Bool) {ps : List Phrase}
    (hforest : Forest [] ps (ofRow false ts)) :
    Forest [] (.expr ⟨line, broken⟩ 7 e :: .token (ofToken d false) :: .token (ofToken x false) :: ps)
      (ofRow broken (us ++ d :: x :: ts)) := by
  rw [ofRow_append h.nonempty, ofRow_cons, ofRow_cons]
  exact (h.derives broken).append (.cons_token (.cons_token hforest))

theorem field (h : Written line 7 e us) (hd : d.tag = .dot) (hx : x.tag = .name) :
    Written line 7 (.field line e x.text) (us ++ [d, x]) := by
  refine ⟨by simp, fun broken => ?_⟩
  exact .of_production (.field (d := ofToken d false) (x := ofToken x false) hd rfl hx)
    List.not_mem_nil (h.member broken .nil)

theorem method (h : Written line 7 e us) (hd : d.tag = .dot) (hx : x.tag = .name)
    (hl : l.tag = .leftParen) (hes : WrittenList es ts) (hr : r.tag = .rightParen) :
    Written line 7 (.method line e x.text es) (us ++ d :: x :: l :: (ts ++ [r])) := by
  refine ⟨by simp, fun broken => ?_⟩
  have hhead : Derives [] (.whole .callHead ⟨line, broken⟩ 0 (.callHead line (some e) x.text))
      (ofRow broken (us ++ [d, x, l])) :=
    .of_production (.methodHead (d := ofToken d false) (x := ofToken x false)
      (l := ofToken l false) hd rfl hx hl) List.not_mem_nil (h.member broken (.one_token l false))
  have hsplit : us ++ d :: x :: l :: (ts ++ [r]) = (us ++ [d, x, l]) ++ (ts ++ [r]) := by simp
  rw [hsplit, ofRow_append (by simp)]
  exact arguments (.inl rfl) rfl hhead hes hr

theorem unary (ho : (ofToken o false).IsPrefix) (h : Written line k e ts) (hk : 5 ≤ k) :
    Written o.line 5 (.unary o.line (ofToken o false).unaryOp e) (o :: ts) := by
  refine ⟨List.cons_ne_nil _ _, fun broken => ?_⟩
  have hforest : Forest [] [.token (ofToken o broken), .expr ⟨line, false⟩ k e]
      (ofRow broken (o :: ts)) := by
    rw [ofRow_cons]
    exact .cons_token (h.derives false)
  exact .of_production (.unary (o := ofToken o broken) ho hk) List.not_mem_nil hforest

theorem binary {p : Operator} (ho : o.tag.operator? = some p) (ha : Written i j a us)
    (hj : p.left ≤ j) (hb : Written line k b vs) (hk : p.right ≤ k) :
    Written i p.level (.binary i (ofToken o false).binaryOp a b none) (us ++ o :: vs) := by
  refine ⟨by simp, fun broken => ?_⟩
  have hforest : Forest [] [.expr ⟨i, broken⟩ j a, .token (ofToken o false),
      .expr ⟨line, false⟩ k b] (ofRow broken (us ++ o :: vs)) := by
    rw [ofRow_append ha.nonempty, ofRow_cons]
    exact (ha.derives broken).append (.cons_token (hb.derives false))
  exact .of_production (.binary (o := ofToken o false) ho rfl rfl hj hk) List.not_mem_nil hforest

end Written

end StackScript
