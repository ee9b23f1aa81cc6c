import StackScript.Proofs.Reread

/-!
# StackScript.Proofs.Rebuilding — what the rows of statements derive

Whatever rows of tokens have the words of a statement, they derive this statement, with the lines
where they stand (`Stmt.rebuilds`).  The rows of a block derive one chunk for each of its statements
(`Stmt.rebuildsAll`).  After the closing brace of an `if`, each branch is derived from all that
stands before it, so the chain grows at its end (`Rest.rebuilds`).
-/

namespace StackScript

open Leaf Phrase

/-! ### Leaves of rows -/

/-- The leaves of rows.  `broken` says whether a line break stands before the first. -/
def Leaf.ofLines (broken : Bool) : List (List Token) → List Leaf
  | [] => []
  | row :: rows => ofRow broken row ++ ofRows rows

@[simp] theorem Leaf.ofLines_cons (broken : Bool) (row : List Token) (rows : List (List Token)) :
    ofLines broken (row :: rows) = ofRow broken row ++ ofRows rows := rfl

theorem Leaf.ofLines_single (broken : Bool) (row : List Token) :
    ofLines broken [row] = ofRow broken row := List.append_nil _

theorem Leaf.ofLines_true (rows : List (List Token)) : ofLines true rows = ofRows rows := by
  cases rows <;> rfl

theorem Leaf.ofLines_append {broken : Bool} {rows rows' : List (List Token)} (h : rows ≠ []) :
    ofLines broken (rows ++ rows') = ofLines broken rows ++ ofRows rows' := by
  obtain ⟨row, rows, rfl⟩ := List.exists_cons_of_ne_nil h
  rw [List.cons_append, ofLines_cons, ofLines_cons, ofRows_append, List.append_assoc]

/-! ### Blocks -/

theorem unlined_blockOf (line : Nat) (cs : List Chunk) :
    (blockOf line cs).unlined =
      .mk 0 (Stmt.unlinedAll (cs.flatMap fun c => c.2.statements)) := by
  match cs with
  | [] => rfl
  | [(_, .single s)] => rfl
  | [(_, .several (.mk _ ss))] =>
    rw [List.flatMap_singleton]
    rfl
  | c :: d :: cs => rfl

/-- The leaves derive the statement, lines apart. -/
def Derived (s : Stmt) (broken : Bool) (xs : List Leaf) : Prop :=
  ∃ line s', Derives [] (.program ⟨line, broken⟩ (.single s')) xs ∧ s'.unlined = s.unlined

/-- The leaves derive these chunks, one for each of the statements, lines apart. -/
structure DerivedAll (ss : List Stmt) (broken : Bool) (xs : List Leaf) (cs : List Chunk) :
    Prop where
  forest : Forest [] (cs.map Chunk.phrase) xs
  chunks : Chunks cs
  length_eq : cs.length = ss.length
  broken_eq : ∀ c ∈ cs.head?, c.1.broken = broken
  statements : Stmt.unlinedAll (cs.flatMap fun c => c.2.statements) = Stmt.unlinedAll ss

/-- Rows with the words of the statement derive the statement. -/
def Stmt.Rebuilds (s : Stmt) : Prop := ∀ (broken : Bool) (rows : List (List Token)),
  SpellsRows rows s.rows → Derived s broken (ofLines broken rows)

/-- Rows with the words of the block derive its statements. -/
def Block.Rebuilds (b : Block) : Prop := ∀ rows : List (List Token), SpellsRows rows b.rows →
  ∃ cs, DerivedAll b.statements true (ofRows rows) cs

/-- A block with its heading and its closing brace derives what the heading makes of the block. -/
theorem Block.Rebuilds.closed {r : Rule} {head : List Phrase} {st : Start}
    {make : (Nat → Block) → Option Stmt} {hs : List Leaf} {rows : List (List Token)}
    {body : Block} {b : Token} {Q : Stmt → Prop} (hbody : body.Rebuilds)
    (hrows : SpellsRows rows body.rows) (hb : b.tag = .rightBrace) (hhead : Heading r head st make)
    (hforest : Forest [] head hs)
    (hmake : ∀ block : Nat → Block, (∀ line, (block line).unlined = body.unlined) →
      ∃ s, make block = some s ∧ Q s) :
    ∃ s, Derives [] (.program st (.single s)) (hs ++ (ofRows rows ++ [ofToken b true])) ∧ Q s := by
  obtain ⟨cs, hcs⟩ := hbody rows hrows
  have hblock : ∀ line, (blockOf line cs).unlined = body.unlined := by
    intro line
    obtain ⟨l, ss⟩ := body
    rw [unlined_blockOf, hcs.statements]
    rfl
  obtain ⟨s, hs, hQ⟩ := hmake _ hblock
  refine ⟨s, .of_production (.block hhead hcs.chunks (b := ofToken b true) hb hs)
    List.not_mem_nil ?_, hQ⟩
  exact hforest.append (hcs.forest.append (.one_token b true))

/-! ### Chains of branches -/

namespace Rest

/-- Nothing can be attached, and changes nothing: the chain has no `else` yet. -/
def IsOpen (r : Rest) : Prop := r.attach .nothing = some r

theorem isOpen_nothing : IsOpen .nothing := rfl

theorem IsOpen.of_elseIf {line : Nat} {c : Expr} {b : Block} {r : Rest}
    (h : (elseIf line c b r).IsOpen) : r.IsOpen := by
  obtain ⟨r', hr', heq⟩ := Option.map_eq_some_iff.mp h
  obtain rfl : r' = r := by injection heq
  exact hr'

/-- A branch at the end of an open chain leaves it open, and what is attached then is attached to
the branch. -/
theorem IsOpen.attach_elseIf (line : Nat) (c : Expr) (b : Block) : {r : Rest} → r.IsOpen →
    ∃ r', r.attach (.elseIf line c b .nothing) = some r' ∧ r'.IsOpen ∧
      ∀ next, r'.attach next = r.attach (.elseIf line c b next)
  | .nothing, _ => ⟨_, rfl, rfl, fun _ => rfl⟩
  | .elseIf line' c' b' r, h => by
    obtain ⟨r', hr', hopen, hnext⟩ := attach_elseIf line c b (of_elseIf h)
    refine ⟨.elseIf line' c' b' r', ?_, ?_, fun next => ?_⟩
    · rw [Rest.attach, hr', Option.map_some]
    · rw [IsOpen, Rest.attach, hopen, Option.map_some]
    · rw [Rest.attach, Rest.attach, hnext]
  | .otherwise _, h => nomatch h

theorem IsOpen.attach_otherwise (b : Block) : {r : Rest} → r.IsOpen →
    ∃ r', r.attach (.otherwise b) = some r'
  | .nothing, _ => ⟨_, rfl⟩
  | .elseIf line' c' b' r, h => by
    obtain ⟨r', hr'⟩ := attach_otherwise b (of_elseIf h)
    exact ⟨.elseIf line' c' b' r', by rw [Rest.attach, hr', Option.map_some]⟩
  | .otherwise _, h => nomatch h

end Rest

/-! ### Parts of statements -/

/-- A word, an expression and the brace that opens a body. -/
theorem Written.heading {line k : Nat} {e : Expr} {w l : Token} {ts : List Token}
    (h : Written line k e ts) (broken : Bool) :
    Forest [] [.token (ofToken w broken), .expr ⟨line, false⟩ k e, .token (ofToken l false)]
      (ofRow broken (w :: (ts ++ [l]))) := by
  rw [ofRow_cons, ofRow_false_append]
  exact .cons_token ((h.derives false).append (.one_token l false))

/-- The head of an assignment and the value. -/
theorem Written.assigned {line k : Nat} {e : Expr} {ts us : List Token} {st : Start} {f : Fragment}
    {s : Stmt} (h : Written line k e ts) {broken : Bool} (hus : us ≠ [])
    (hhead : Derives [] (.whole .assignmentHead st 0 f) (ofRow broken us))
    (hf : f.assigned? e = some s) :
    Derives [] (.program st (.single s)) (ofRow broken (us ++ ts)) := by
  rw [ofRow_append hus]
  exact .of_production (.assignment hf) List.not_mem_nil (hhead.append (h.derives false))

/-- The names of parameters with commas between them. -/
theorem Spells.params {params : List String} {ts : List Token}
    (h : Spells ts (Word.separated (params.map fun p => [.name p]))) :
    ∃ ps, CommaList IsName ps params ∧ Forest [] ps (ofRow false ts) := by
  suffices hnames : ∀ {x params ts},
      Spells ts (Word.separated ((x :: params).map fun p => [.name p])) →
      ∃ ps, Commas IsName ps (x :: params) ∧ Forest [] ps (ofRow false ts) by
    cases params with
    | nil =>
      rw [h.nil]
      exact ⟨[], .inl ⟨rfl, rfl⟩, .nil⟩
    | cons x params =>
      obtain ⟨ps, hps, hforest⟩ := hnames h
      exact ⟨ps, .inr hps, hforest⟩
  intro x params ts h
  induction params generalizing x ts with
  | nil =>
    obtain ⟨t, rfl, ht⟩ := h.single
    exact ⟨_, .last ⟨ofToken t false, Token.tag_of_word ht, rfl, (Token.text_of_word ht).symm⟩,
      .one_token t false⟩
  | cons y params ih =>
    obtain ⟨us, _, rfl, hus, hrest⟩ := h.append
    obtain ⟨t, rfl, ht⟩ := hus.single
    obtain ⟨c, vs, rfl, hc, hvs⟩ := hrest.cons
    obtain ⟨ps, hps, hforest⟩ := ih hvs
    refine ⟨_, .more ⟨ofToken t false, Token.tag_of_word ht, rfl, (Token.text_of_word ht).symm⟩
      (c := ofToken c false) (Token.tag_of_word hc) hps, ?_⟩
    rw [List.singleton_append, ofRow_cons, ofRow_cons]
    exact .cons_token (.cons_token hforest)

/-- The statement has a row. -/
theorem Stmt.rows_ne_nil {s : Stmt} (h : s.writable = true) : s.rows ≠ [] := by
  cases s with
  | declare _ _ init => cases init <;> exact List.cons_ne_nil _ _
  | classDecl _ _ parent => cases parent <;> exact List.cons_ne_nil _ _
  | returns _ value => cases value <;> exact List.cons_ne_nil _ _
  | free => exact absurd h Bool.false_ne_true
  | _ => exact List.cons_ne_nil _ _

theorem Stmt.isBareReturn_unlined (s : Stmt) : s.unlined.isBareReturn = s.isBareReturn := by
  cases s with
  | returns _ value => cases value <;> rfl
  | _ => rfl

theorem Program.endsBare_single (s : Stmt) : (single s).endsBare = s.isBareReturn := by
  cases s with
  | returns _ value => cases value <;> rfl
  | _ => rfl

/-- A statement before others on rows of their own.  Only the last of all can be a bare `return`. -/
theorem Derived.cons {s : Stmt} {ss : List Stmt} {broken : Bool} {xs ys : List Leaf}
    {cs : List Chunk} (hs : Derived s broken xs) (hss : DerivedAll ss true ys cs)
    (hbare : (!s.isBareReturn || ss.isEmpty) = true) :
    ∃ cs, DerivedAll (s :: ss) broken (xs ++ ys) cs := by
  obtain ⟨line, s', hderives, hsame⟩ := hs
  refine ⟨(⟨line, broken⟩, .single s') :: cs, hderives.append hss.forest, ?_,
    congrArg (· + 1) hss.length_eq, ?_, ?_⟩
  · refine List.isChain_cons.mpr ⟨fun c hc => ⟨hss.broken_eq c hc, ?_⟩, hss.chunks⟩
    have hne : ss ≠ [] := by
      rintro rfl
      rw [List.eq_nil_of_length_eq_zero hss.length_eq] at hc
      cases hc
    rw [Program.endsBare_single, ← Stmt.isBareReturn_unlined, hsame, Stmt.isBareReturn_unlined]
    simpa [hne] using hbare
  · rintro _ ⟨⟩
    rfl
  · rw [List.flatMap_cons, Program.statements, List.singleton_append, Stmt.unlinedAll, hsame,
      hss.statements]
    rfl

/-! ### Statements on a row -/

namespace Stmt.Rebuilds

variable {line : Nat} {x y : String} {c e receiver : Expr} {params : List String}
  {body members : Block} {rest : Rest}

/-- A statement of one row. -/
theorem of_row {s : Stmt} {row : List Word} (hrow : s.rows = [row])
    (h : ∀ {broken ts}, Spells ts row → Derived s broken (ofRow broken ts)) : s.Rebuilds := by
  intro broken rows hrows
  rw [hrow] at hrows
  obtain ⟨ts, rfl, hts⟩ := hrows.single
  rw [ofLines_single]
  exact h hts

theorem value (h : e.writable = true) : (Stmt.value e).Rebuilds := by
  refine of_row rfl fun {broken _} hts => ?_
  obtain ⟨line, e', hwritten, hsame⟩ := e.rereads h hts
  exact ⟨line, .value e', .of_production .statement List.not_mem_nil (hwritten.derives broken), by
    rw [Stmt.unlined_value, Stmt.unlined_value, hsame]⟩

theorem declare : (Stmt.declare line x none none).Rebuilds := by
  refine of_row rfl fun {broken _} hts => ?_
  obtain ⟨v, _, rfl, hv, hts⟩ := hts.cons
  obtain ⟨t, rfl, ht⟩ := hts.single
  refine ⟨v.line, .declare v.line t.text none none, ?_, ?_⟩
  · rw [ofRow_cons, ofRow_cons]
    exact .of_production (.declaration (v := ofToken v broken) (x := ofToken t false)
      (Token.tag_of_word hv) (Token.tag_of_word ht)) List.not_mem_nil
      (.cons_token (.one_token t false))
  · rw [Token.text_of_word ht]
    rfl

theorem declare_value (h : e.writable = true) : (Stmt.declare line x (some e) none).Rebuilds := by
  refine of_row rfl fun {broken _} hts => ?_
  obtain ⟨v, _, rfl, hv, hts⟩ := hts.cons
  obtain ⟨t, _, rfl, ht, hts⟩ := hts.cons
  obtain ⟨o, ts, rfl, ho, hts⟩ := hts.cons
  obtain ⟨_, e', hwritten, hsame⟩ := e.rereads h hts
  have hhead : Derives [] (.whole .assignmentHead ⟨v.line, broken⟩ 0
      (.assignmentHead v.line true none t.text)) (ofRow broken [v, t, o]) :=
    .of_production (.declaringHead (v := ofToken v broken) (x := ofToken t false)
      (s := ofToken o false) (Token.tag_of_word hv) (Token.tag_of_word ht)
      (Token.tag_of_word ho)) List.not_mem_nil (.cons_token (.cons_token (.one_token o false)))
  refine ⟨v.line, .declare v.line t.text (some e') none,
    hwritten.assigned (List.cons_ne_nil _ _) hhead rfl, ?_⟩
  rw [Token.text_of_word ht, Stmt.unlined, Stmt.unlined, Option.map_some, hsame]
  rfl

theorem assign (h : e.writable = true) : (Stmt.assign line x e none).Rebuilds := by
  refine of_row rfl fun {broken _} hts => ?_
  obtain ⟨t, _, rfl, ht, hts⟩ := hts.cons
  obtain ⟨o, ts, rfl, ho, hts⟩ := hts.cons
  obtain ⟨_, e', hwritten, hsame⟩ := e.rereads h hts
  have hhead : Derives [] (.whole .assignmentHead ⟨t.line, broken⟩ 0
      (.assignmentHead t.line false none t.text)) (ofRow broken [t, o]) :=
    .of_production (.assignmentHead (x := ofToken t broken) (s := ofToken o false)
      (Token.tag_of_word ht) (Token.tag_of_word ho)) List.not_mem_nil
      (.cons_token (.one_token o false))
  refine ⟨t.line, .assign t.line t.text e' none,
    hwritten.assigned (List.cons_ne_nil _ _) hhead rfl, ?_⟩
  rw [Token.text_of_word ht, Stmt.unlined, Stmt.unlined, hsame]
  rfl

theorem setField (hreceiver : receiver.writable = true) (h : e.writable = true) :
    (Stmt.setField line receiver x e).Rebuilds := by
  refine of_row rfl fun {broken _} hts => ?_
  obtain ⟨us, _, rfl, hus, hts⟩ := hts.append
  obtain ⟨d, _, rfl, hd, hts⟩ := hts.cons
  obtain ⟨t, _, rfl, ht, hts⟩ := hts.cons
  obtain ⟨o, ts, rfl, ho, hts⟩ := hts.cons
  obtain ⟨line, r, hwritten, hreads⟩ :=
    Rereads.receiver (fun _ => receiver.rereads hreceiver) receiver.level_le hus
  obtain ⟨_, e', hwritten', hsame⟩ := e.rereads h hts
  have hhead : Derives [] (.whole .assignmentHead ⟨line, broken⟩ 0
      (.assignmentHead line false (some r) t.text)) (ofRow broken (us ++ [d, t, o])) :=
    .of_production (.fieldAssignmentHead (d := ofToken d false) (x := ofToken t false)
      (s := ofToken o false) (Token.tag_of_word hd) rfl (Token.tag_of_word ht)
      (Token.tag_of_word ho)) List.not_mem_nil (hwritten.member broken (.one_token o false))
  have hsplit : us ++ d :: t :: o :: ts = (us ++ [d, t, o]) ++ ts := by simp
  refine ⟨line, .setField line r t.text e', ?_, ?_⟩
  · rw [hsplit]
    exact hwritten'.assigned (by simp) hhead rfl
  · rw [Token.text_of_word ht, Stmt.unlined, Stmt.unlined, hreads, hsame]
    rfl

theorem print (h : e.writable = true) : (Stmt.print line e).Rebuilds := by
  refine of_row rfl fun {broken _} hts => ?_
  obtain ⟨w, ts, rfl, hw, hts⟩ := hts.cons
  obtain ⟨_, e', hwritten, hsame⟩ := e.rereads h hts
  refine ⟨w.line, .print w.line e', ?_, by rw [Stmt.unlined, Stmt.unlined, hsame]⟩
  rw [ofRow_cons]
  exact .of_production (.print (w := ofToken w broken) (Token.tag_of_word hw)) List.not_mem_nil
    (.cons_token (hwritten.derives false))

theorem returns : (Stmt.returns line none).Rebuilds := by
  refine of_row rfl fun {broken _} hts => ?_
  obtain ⟨w, rfl, hw⟩ := hts.single
  exact ⟨w.line, .returns w.line none, .of_production (.returnsBare (w := ofToken w broken)
    (Token.tag_of_word hw)) List.not_mem_nil (.one_token w broken), rfl⟩

theorem returns_value (h : e.writable = true) : (Stmt.returns line (some e)).Rebuilds := by
  refine of_row rfl fun {broken _} hts => ?_
  obtain ⟨w, ts, rfl, hw, hts⟩ := hts.cons
  obtain ⟨_, e', hwritten, hsame⟩ := e.rereads h hts
  refine ⟨w.line, .returns w.line (some e'), ?_, ?_⟩
  · rw [ofRow_cons]
    exact .of_production (.returns (w := ofToken w broken) (Token.tag_of_word hw) rfl)
      List.not_mem_nil (.cons_token (hwritten.derives false))
  · rw [Stmt.unlined, Stmt.unlined, Option.map_some, Option.map_some, hsame]

/-- `continue` and `break` are one word each. -/
theorem jump {s : Stmt} {t : Tag} (hrow : s.rows = [[.of t]])
    (ht : t = .continueWord ∨ t = .breakWord)
    (hs : ∀ line, (if t = .breakWord then Stmt.breaks line else .continues line).unlined =
      s.unlined) : s.Rebuilds := by
  refine of_row hrow fun {broken _} hts => ?_
  obtain ⟨w, rfl, hw⟩ := hts.single
  have htag : (ofToken w broken).tag = t := Token.tag_of_word hw
  have hjump := Production.jump (w := ofToken w broken) (by rwa [htag])
  rw [htag] at hjump
  exact ⟨w.line, _, .of_production hjump List.not_mem_nil (.one_token w broken), hs w.line⟩

/-! ### Statements with a body -/

theorem loop (hc : c.writable = true) (hbody : body.Rebuilds) :
    (Stmt.loop line c body).Rebuilds := by
  intro broken rows hrows
  obtain ⟨_, _, rfl, hrow, hrest⟩ := hrows.cons
  obtain ⟨w, _, rfl, hw, hrow⟩ := hrow.cons
  obtain ⟨ts, l, rfl, hts, hl⟩ := hrow.concat
  obtain ⟨inner, b, rfl, hinner, hb⟩ := hrest.body
  obtain ⟨_, c', hwritten, hsame⟩ := c.rereads hc hts
  obtain ⟨s, hderives, hs⟩ := hbody.closed
    (Q := fun s => s.unlined = .loop 0 c.unlined body.unlined) hinner hb
    (.loop (w := ofToken w broken) (l := ofToken l false) (Token.tag_of_word hw)
      (Token.tag_of_word hl)) (hwritten.heading broken)
    fun _ hblock => ⟨_, rfl, by rw [Stmt.unlined, hsame, hblock]⟩
  refine ⟨w.line, s, ?_, hs⟩
  simpa using hderives

theorem function (hbody : body.Rebuilds) : (Stmt.function line x params body).Rebuilds := by
  intro broken rows hrows
  obtain ⟨_, _, rfl, hrow, hrest⟩ := hrows.cons
  obtain ⟨w, _, rfl, hw, hrow⟩ := hrow.cons
  obtain ⟨t, _, rfl, ht, hrow⟩ := hrow.cons
  obtain ⟨l, _, rfl, hl, hrow⟩ := hrow.cons
  obtain ⟨ts, _, rfl, hts, hrow⟩ := hrow.append
  obtain ⟨r, _, rfl, hr, hrow⟩ := hrow.cons
  obtain ⟨o, rfl, ho⟩ := hrow.single
  obtain ⟨inner, b, rfl, hinner, hb⟩ := hrest.body
  obtain ⟨ps, hps, hforest⟩ := hts.params
  have hhead : Derives [] (.whole .functionHead ⟨w.line, broken⟩ 0
      (.functionHead w.line t.text params)) (ofRow broken (w :: t :: l :: (ts ++ [r, o]))) := by
    refine .of_production (.functionHead (w := ofToken w broken) (x := ofToken t false)
      (l := ofToken l false) (Token.tag_of_word hw) (Token.tag_of_word ht)
      (Token.tag_of_word hl) hps (r := ofToken r false) (Token.tag_of_word hr)
      (b := ofToken o false) (Token.tag_of_word ho)) List.not_mem_nil ?_
    rw [ofRow_cons, ofRow_cons, ofRow_cons, ofRow_false_append]
    exact .cons_token (.cons_token (.cons_token
      (hforest.append (.cons_token (.one_token o false)))))
  obtain ⟨s, hderives, hs⟩ := hbody.closed
    (Q := fun s => s.unlined = .function 0 x params body.unlined) hinner hb .functionEnd hhead
    fun _ hblock => ⟨_, rfl, by rw [Stmt.unlined, hblock, Token.text_of_word ht]; rfl⟩
  refine ⟨w.line, s, ?_, hs⟩
  simpa using hderives

theorem classDecl (hbody : members.Rebuilds) : (Stmt.classDecl line x none members).Rebuilds := by
  intro broken rows hrows
  obtain ⟨_, _, rfl, hrow, hrest⟩ := hrows.cons
  obtain ⟨w, _, rfl, hw, hrow⟩ := hrow.cons
  obtain ⟨t, _, rfl, ht, hrow⟩ := hrow.cons
  obtain ⟨o, rfl, ho⟩ := hrow.single
  obtain ⟨inner, b, rfl, hinner, hb⟩ := hrest.body
  have hhead : Derives [] (.whole .classHead ⟨w.line, broken⟩ 0
      (.classHead w.line t.text none)) (ofRow broken [w, t, o]) :=
    .of_production (.classHead (w := ofToken w broken) (x := ofToken t false)
      (b := ofToken o false) (Token.tag_of_word hw) (Token.tag_of_word ht)
      (Token.tag_of_word ho)) List.not_mem_nil (.cons_token (.cons_token (.one_token o false)))
  obtain ⟨s, hderives, hs⟩ := hbody.closed
    (Q := fun s => s.unlined = .classDecl 0 x none members.unlined) hinner hb .classEnd hhead
    fun _ hblock => ⟨_, rfl, by rw [Stmt.unlined, hblock, Token.text_of_word ht]; rfl⟩
  refine ⟨w.line, s, ?_, hs⟩
  simpa using hderives

theorem classDecl_extends (hbody : members.Rebuilds) :
    (Stmt.classDecl line x (some y) members).Rebuilds := by
  intro broken rows hrows
  obtain ⟨_, _, rfl, hrow, hrest⟩ := hrows.cons
  obtain ⟨w, _, rfl, hw, hrow⟩ := hrow.cons
  obtain ⟨t, _, rfl, ht, hrow⟩ := hrow.cons
  obtain ⟨v, _, rfl, hv, hrow⟩ := hrow.cons
  obtain ⟨u, _, rfl, hu, hrow⟩ := hrow.cons
  obtain ⟨o, rfl, ho⟩ := hrow.single
  obtain ⟨inner, b, rfl, hinner, hb⟩ := hrest.body
  have hhead : Derives [] (.whole .classHead ⟨w.line, broken⟩ 0
      (.classHead w.line t.text (some u.text))) (ofRow broken [w, t, v, u, o]) :=
    .of_production (.extendingHead (w := ofToken w broken) (x := ofToken t false)
      (v := ofToken v false) (y := ofToken u false) (b := ofToken o false)
      (Token.tag_of_word hw) (Token.tag_of_word ht) (Token.tag_of_word hv)
      (Token.tag_of_word hu) (Token.tag_of_word ho)) List.not_mem_nil
      (.cons_token (.cons_token (.cons_token (.cons_token (.one_token o false)))))
  obtain ⟨s, hderives, hs⟩ := hbody.closed
    (Q := fun s => s.unlined = .classDecl 0 x (some y) members.unlined) hinner hb .classEnd hhead
    fun _ hblock => ⟨_, rfl, by
      rw [Stmt.unlined, hblock, Token.text_of_word ht, Token.text_of_word hu]
      rfl⟩
  refine ⟨w.line, s, ?_, hs⟩
  simpa using hderives

end Stmt.Rebuilds

/-! ### Branches -/

/-- Rows with the words of what follows the body of an `if` begin with the closing brace of the
body; and a branch that ends with this brace goes on with them. -/
def Rest.Rebuilds (rest : Rest) : Prop := ∀ rows : List (List Token), SpellsRows rows rest.rows →
  ∃ b row rows', rows = (b :: row) :: rows' ∧ b.tag = .rightBrace ∧
    ∀ {st line c body r xs}, Derives [] (.program st (.single (.branch line c body r))) xs →
      r.IsOpen → ∃ rest' r', r.attach rest' = some r' ∧
        Derives [] (.program st (.single (.branch line c body r')))
          (xs ++ (ofRow false row ++ ofRows rows')) ∧ rest'.unlined = rest.unlined

namespace Rest.Rebuilds

variable {line : Nat} {c : Expr} {body : Block} {next : Rest}

theorem nothing : Rest.nothing.Rebuilds := by
  intro rows hrows
  obtain ⟨_, rfl, hrow⟩ := hrows.single
  obtain ⟨b, rfl, hb⟩ := hrow.single
  refine ⟨b, [], [], rfl, Token.tag_of_word hb, fun {_ _ _ _ r _} hbranch hopen => ?_⟩
  refine ⟨.nothing, r, hopen, ?_, rfl⟩
  simpa using hbranch

theorem elseIf (hc : c.writable = true) (hbody : body.Rebuilds) (hnext : next.Rebuilds) :
    (Rest.elseIf line c body next).Rebuilds := by
  intro rows hrows
  obtain ⟨_, _, rfl, hrow, hrest⟩ := hrows.cons
  obtain ⟨b, _, rfl, hb, hrow⟩ := hrow.cons
  obtain ⟨o, _, rfl, ho, hrow⟩ := hrow.cons
  obtain ⟨ts, l, rfl, hts, hl⟩ := hrow.concat
  obtain ⟨inner, _, rfl, hinner, hafter⟩ := hrest.append
  obtain ⟨b', row, after, rfl, hb', hgoes⟩ := hnext _ hafter
  obtain ⟨_, c', hwritten, hsame⟩ := c.rereads hc hts
  refine ⟨b, o :: (ts ++ [l]), _, rfl, Token.tag_of_word hb,
    fun {st line₀ c₀ body₀ r xs} hbranch hopen => ?_⟩
  obtain ⟨s, hderives, body', r', rfl, hsame', hopen', hattach⟩ := hbody.closed
    (Q := fun s => ∃ body' r', s = .branch line₀ c₀ body₀ r' ∧ body'.unlined = body.unlined ∧
      r'.IsOpen ∧ ∀ next', r'.attach next' = r.attach (.elseIf o.line c' body' next')) hinner hb'
    (.elseIf (o := ofToken o false) (l := ofToken l false) (Token.tag_of_word ho)
      (Token.tag_of_word hl)) (hbranch.append (hwritten.heading false))
    fun block hblock => by
      obtain ⟨r', hr', hopen', hattach⟩ := hopen.attach_elseIf o.line c' (block st.line)
      exact ⟨.branch line₀ c₀ body₀ r', Option.map_eq_some_iff.mpr ⟨r', hr', rfl⟩, _, r', rfl,
        hblock _, hopen', hattach⟩
  obtain ⟨next', r'', hr'', hchain, hrest'⟩ := hgoes hderives hopen'
  refine ⟨.elseIf o.line c' body' next', r'', (hattach next').symm.trans hr'', ?_, ?_⟩
  · simpa using hchain
  · rw [Rest.unlined, Rest.unlined, hsame, hsame', hrest']

theorem otherwise (hbody : body.Rebuilds) : (Rest.otherwise body).Rebuilds := by
  intro rows hrows
  obtain ⟨_, _, rfl, hrow, hrest⟩ := hrows.cons
  obtain ⟨b, _, rfl, hb, hrow⟩ := hrow.cons
  obtain ⟨o, _, rfl, ho, hrow⟩ := hrow.cons
  obtain ⟨l, rfl, hl⟩ := hrow.single
  obtain ⟨inner, b', rfl, hinner, hb'⟩ := hrest.body
  refine ⟨b, [o, l], _, rfl, Token.tag_of_word hb,
    fun {st line₀ c₀ body₀ r xs} hbranch hopen => ?_⟩
  obtain ⟨s, hderives, body', r', rfl, hsame, hattach⟩ := hbody.closed
    (Q := fun s => ∃ body' r', s = .branch line₀ c₀ body₀ r' ∧ body'.unlined = body.unlined ∧
      r.attach (.otherwise body') = some r') hinner hb'
    (.otherwise (o := ofToken o false) (l := ofToken l false) (Token.tag_of_word ho)
      (Token.tag_of_word hl)) (hbranch.append (.cons_token (.one_token l false)))
    fun block hblock => by
      obtain ⟨r', hr'⟩ := hopen.attach_otherwise (block st.line)
      exact ⟨.branch line₀ c₀ body₀ r', Option.map_eq_some_iff.mpr ⟨r', hr', rfl⟩, _, r', rfl,
        hblock _, hr'⟩
  refine ⟨.otherwise body', r', hattach, ?_, by rw [Rest.unlined, Rest.unlined, hsame]⟩
  simpa using hderives

end Rest.Rebuilds

theorem Stmt.Rebuilds.branch {line : Nat} {c : Expr} {body : Block} {rest : Rest}
    (hc : c.writable = true) (hbody : body.Rebuilds) (hrest : rest.Rebuilds) :
    (Stmt.branch line c body rest).Rebuilds := by
  intro broken rows hrows
  obtain ⟨_, _, rfl, hrow, htail⟩ := hrows.cons
  obtain ⟨w, _, rfl, hw, hrow⟩ := hrow.cons
  obtain ⟨ts, l, rfl, hts, hl⟩ := hrow.concat
  obtain ⟨inner, _, rfl, hinner, hafter⟩ := htail.append
  obtain ⟨b, row, after, rfl, hb, hgoes⟩ := hrest _ hafter
  obtain ⟨_, c', hwritten, hsame⟩ := c.rereads hc hts
  obtain ⟨s, hderives, body', rfl, hsame'⟩ := hbody.closed
    (Q := fun s => ∃ body', s = .branch w.line c' body' .nothing ∧ body'.unlined = body.unlined)
    hinner hb
    (.branch (w := ofToken w broken) (l := ofToken l false) (Token.tag_of_word hw)
      (Token.tag_of_word hl)) (hwritten.heading broken)
    fun _ hblock => ⟨_, rfl, _, rfl, hblock _⟩
  obtain ⟨rest', _, ⟨⟩, hchain, hrest'⟩ := hgoes hderives Rest.isOpen_nothing
  refine ⟨w.line, .branch w.line c' body' rest', ?_, ?_⟩
  · simpa using hchain
  · rw [Stmt.unlined, Stmt.unlined, hsame, hsame', hrest']

/-! ### All statements -/

mutual

/-- Rows with the words of a statement derive the statement. -/
theorem Stmt.rebuilds : (s : Stmt) → s.writable = true → s.Rebuilds
  | .value _, h => .value h
  | .declare _ x none binding, h => by
    rw [Stmt.writable, Bool.and_eq_true, Option.isNone_iff_eq_none] at h
    rw [h.2]
    exact .declare
  | .declare _ x (some e) binding, h => by
    rw [Stmt.writable, Bool.and_eq_true, Bool.and_eq_true, Option.isNone_iff_eq_none] at h
    rw [h.2]
    exact .declare_value h.1.2
  | .assign _ x e binding, h => by
    rw [Stmt.writable, Bool.and_eq_true, Bool.and_eq_true, Option.isNone_iff_eq_none] at h
    rw [h.2]
    exact .assign h.1.2
  | .setField _ receiver x e, h => by
    rw [Stmt.writable, Bool.and_eq_true, Bool.and_eq_true] at h
    exact .setField h.1.1 h.2
  | .print _ _, h => .print h
  | .branch _ c body rest, h => by
    rw [Stmt.writable, Bool.and_eq_true, Bool.and_eq_true] at h
    exact .branch h.1.1 (body.rebuilds h.1.2) (rest.rebuilds h.2)
  | .loop _ c body, h => by
    rw [Stmt.writable, Bool.and_eq_true] at h
    exact .loop h.1 (body.rebuilds h.2)
  | .function _ x params body, h => by
    rw [Stmt.writable, Bool.and_eq_true] at h
    exact .function (body.rebuilds h.2)
  | .classDecl _ x none members, h => by
    rw [Stmt.writable, Bool.and_eq_true] at h
    exact .classDecl (members.rebuilds h.2)
  | .classDecl _ x (some y) members, h => by
    rw [Stmt.writable, Bool.and_eq_true] at h
    exact .classDecl_extends (members.rebuilds h.2)
  | .returns _ none, _ => .returns
  | .returns _ (some _), h => .returns_value h
  | .continues _, _ => .jump rfl (.inl rfl) fun _ => rfl
  | .breaks _, _ => .jump rfl (.inr rfl) fun _ => rfl
  | .free .., h => absurd h Bool.false_ne_true

/-- A branch goes on with the words of what follows its body. -/
theorem Rest.rebuilds : (rest : Rest) → rest.writable = true → rest.Rebuilds
  | .nothing, _ => .nothing
  | .elseIf _ c body next, h => by
    rw [Rest.writable, Bool.and_eq_true, Bool.and_eq_true] at h
    exact .elseIf h.1.1 (body.rebuilds h.1.2) (next.rebuilds h.2)
  | .otherwise body, h => .otherwise (body.rebuilds h)

/-- Rows with the words of a block derive its statements. -/
theorem Block.rebuilds : (b : Block) → b.writable = true → b.Rebuilds
  | .mk _ statements, h => by
    intro rows hrows
    obtain ⟨cs, hcs⟩ := Stmt.rebuildsAll statements h true rows hrows
    rw [ofLines_true] at hcs
    exact ⟨cs, hcs⟩

/-- Rows with the words of statements derive a chunk for each. -/
theorem Stmt.rebuildsAll : (ss : List Stmt) → Stmt.writableAll ss = true → (broken : Bool) →
    (rows : List (List Token)) → SpellsRows rows (Stmt.rowsAll ss) →
    ∃ cs, DerivedAll ss broken (ofLines broken rows) cs
  | [], _, _, _, hrows => by
    rw [hrows.nil]
    exact ⟨[], .nil, .nil, rfl, (fun _ hc => nomatch hc), rfl⟩
  | s :: ss, h, broken, _, hrows => by
    rw [Stmt.writableAll, Bool.and_eq_true, Bool.and_eq_true] at h
    obtain ⟨rows, rest, rfl, hrows, hrest⟩ := hrows.append
    have hne : rows ≠ [] := by
      rintro rfl
      exact Stmt.rows_ne_nil h.1.1 hrows.symm
    obtain ⟨cs, hcs⟩ := Stmt.rebuildsAll ss h.2 true rest hrest
    rw [ofLines_true] at hcs
    rw [ofLines_append hne]
    exact (s.rebuilds h.1.1 broken rows hrows).cons hcs h.1.2

end

end StackScript
