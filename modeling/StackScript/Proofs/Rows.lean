import StackScript.Proofs.Layout
import StackScript.Proofs.Passes

/-!
# StackScript.Proofs.Rows — tokens row by row

A row is what stands on one line, without white space and comments.  The leaves of a source are
those of its rows, and each row but the first begins with a leaf that has a line break before it.
From a reading of these leaves the whole parse is known.
-/

namespace StackScript

open Leaf

/-! ### Rows of tokens -/

namespace Token

/-- The rest of the row that the tokens begin in, and the rows after it. -/
def split : List Token → List Token × List (List Token)
  | [] => ([], [])
  | t :: ts =>
    let (row, rows) := split ts
    if t.tag = .newline then ([], row :: rows)
    else if t.tag = .blank ∨ t.tag = .comment then (row, rows)
    else (t :: row, rows)

/-- The rows of tokens that have something in them. -/
def rows (ts : List Token) : List (List Token) :=
  ((split ts).1 :: (split ts).2).filter (· ≠ [])

end Token

namespace Leaf

/-- The leaf of a token. -/
def ofToken (t : Token) (broken : Bool) : Leaf := ⟨.ofToken t, broken⟩

@[simp] theorem tag_ofToken (t : Token) (broken : Bool) : (ofToken t broken).tag = t.tag := rfl

@[simp] theorem text_ofToken (t : Token) (broken : Bool) : (ofToken t broken).text = t.text := rfl

@[simp] theorem line_ofToken (t : Token) (broken : Bool) : (ofToken t broken).line = t.line := rfl

@[simp] theorem broken_ofToken (t : Token) (broken : Bool) :
    (ofToken t broken).broken = broken := rfl

@[simp] theorem start_ofToken (t : Token) (broken : Bool) :
    (ofToken t broken).start = ⟨t.line, broken⟩ := rfl

/-- The leaves of a row.  `broken` says whether a line break stands before it. -/
def ofRow (broken : Bool) : List Token → List Leaf
  | [] => []
  | t :: ts => ofToken t broken :: ts.map (ofToken · false)

/-- The leaves of rows that each have a line break before them. -/
def ofRows (rows : List (List Token)) : List Leaf := rows.flatMap (ofRow true)

@[simp] theorem ofRow_nil (broken : Bool) : ofRow broken [] = [] := rfl

@[simp] theorem ofRow_cons (broken : Bool) (t : Token) (ts : List Token) :
    ofRow broken (t :: ts) = ofToken t broken :: ofRow false ts := by
  cases ts <;> rfl

theorem ofRow_false_append (ts us : List Token) :
    ofRow false (ts ++ us) = ofRow false ts ++ ofRow false us := by
  induction ts with
  | nil => rfl
  | cons t ts ih => rw [List.cons_append, ofRow_cons, ofRow_cons, ih, List.cons_append]

theorem ofRow_append {ts : List Token} (hts : ts ≠ []) (broken : Bool) (us : List Token) :
    ofRow broken (ts ++ us) = ofRow broken ts ++ ofRow false us := by
  obtain ⟨t, ts, rfl⟩ := List.exists_cons_of_ne_nil hts
  rw [List.cons_append, ofRow_cons, ofRow_cons, ofRow_false_append, List.cons_append]

theorem apart_ofRow (ts : List Token) : Apart (ofRow false ts) := by
  induction ts with
  | nil => simp [Apart, ofRow]
  | cons t ts ih =>
    rw [ofRow_cons]
    intro l hl
    rcases List.mem_cons.mp hl with rfl | hl
    · intro h
      cases h
    · exact ih l hl

@[simp] theorem ofRows_nil : ofRows [] = [] := rfl

@[simp] theorem ofRows_cons (row : List Token) (rows : List (List Token)) :
    ofRows (row :: rows) = ofRow true row ++ ofRows rows := rfl

@[simp] theorem ofRows_append (rows rows' : List (List Token)) :
    ofRows (rows ++ rows') = ofRows rows ++ ofRows rows' := List.flatMap_append

theorem ofRows_filter (rows : List (List Token)) :
    ofRows (rows.filter (· ≠ [])) = ofRows rows := by
  induction rows with
  | nil => rfl
  | cons row rows ih =>
    cases row with
    | nil => rw [List.filter_cons_of_neg (by simp), ih]; rfl
    | cons t ts => rw [List.filter_cons_of_pos (by simp), ofRows_cons, ih, ofRows_cons]

/-- The leaves of tokens are those of the row that they begin in and of the rows after it. -/
theorem ofSymbols_split (broken : Bool) (ts : List Token) :
    ofSymbols broken (ts.map Symbol.ofToken) =
      ofRow broken (Token.split ts).1 ++ ofRows (Token.split ts).2 := by
  induction ts generalizing broken with
  | nil => rfl
  | cons t ts ih =>
    have htag : (Symbol.ofToken t).tag = t.tag := rfl
    rw [List.map_cons, ofSymbols, Token.split, htag]
    dsimp only
    by_cases hnewline : t.tag = .newline
    · rw [if_pos hnewline, if_pos hnewline, ih]
      rfl
    by_cases hlayout : t.tag = .blank ∨ t.tag = .comment
    · rw [if_neg hnewline, if_neg hnewline, if_pos hlayout, if_pos hlayout, ih]
    · rw [if_neg hnewline, if_neg hnewline, if_neg hlayout, if_neg hlayout, ih, ofRow_cons]
      rfl

/-- The leaves of a source are those of its rows. -/
theorem ofTokens_rows {ts : List Token} {row : List Token} {rows : List (List Token)}
    (h : Token.rows ts = row :: rows) :
    ∃ broken, ofTokens ts = ofRow broken row ++ ofRows rows := by
  rw [ofTokens, ofSymbols_split]
  rw [Token.rows] at h
  generalize (Token.split ts).1 = first at h ⊢
  cases first with
  | nil =>
    rw [List.filter_cons_of_neg (by simp)] at h
    refine ⟨true, ?_⟩
    rw [← ofRows_cons, ← h, ofRows_filter]
    rfl
  | cons t first =>
    rw [List.filter_cons_of_pos (by simp)] at h
    obtain ⟨rfl, hrows⟩ := List.cons.inj h
    refine ⟨false, ?_⟩
    rw [← hrows, ofRows_filter]

theorem ofTokens_of_rows_eq_nil {ts : List Token} (h : Token.rows ts = []) : ofTokens ts = [] := by
  rw [ofTokens, ofSymbols_split]
  rw [Token.rows] at h
  generalize (Token.split ts).1 = first at h ⊢
  cases first with
  | nil =>
    rw [List.filter_cons_of_neg (by simp)] at h
    rw [← ofRows_filter, h]
    rfl
  | cons t first =>
    rw [List.filter_cons_of_pos (by simp)] at h
    cases h

end Leaf

/-! ### A parse from a reading -/

namespace Reading

variable {gone : List Rule} {cs : List Chunk} {xs : List Leaf}

/-- There are no semicolons. -/
theorem ne_semicolon (h : Reading gone cs xs) {l : Leaf} (hl : l ∈ xs) : l.tag ≠ .semicolon := by
  intro htag
  obtain ⟨pre, post, rfl⟩ := List.append_of_mem hl
  obtain ⟨u, w, ys, zs, r, qs₁, qs₂, q, hq, hr, -, hmem, -⟩ := h.token (by rw [htag]; rfl)
  rw [htag] at hmem
  cases r <;> simp [Rule.alphabet] at hmem

/-- Where the leaves of the tokens can be reduced to the chunks, the parse gives their block. -/
theorem parse {tokens : List Token} (h : Reading [] cs (Leaf.ofTokens tokens))
    (hlimit : (Grammar.standard.reduce (Parsing.start tokens)).2 < Grammar.standard.maxPasses) :
    (Grammar.standard.parse tokens).root = blockOf 1 cs ∧
      (Grammar.standard.parse tokens).record.diagnostics = [] := by
  have htidy : (Parsing.start tokens).stream.Tidy :=
    Stream.tidy_prepare fun l hl => h.ne_semicolon hl
  have hleaves : (Parsing.start tokens).stream.leaves = Leaf.ofTokens tokens :=
    Stream.leaves_prepare tokens
  exact Parsing.Reads.parse ⟨htidy, by rw [hleaves]; exact h, rfl⟩ hlimit

end Reading

end StackScript
