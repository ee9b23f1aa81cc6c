import StackScript.Proofs.Climbing
import StackScript.Proofs.Layout

/-!
# StackScript.Proofs.Precedence — an expression on a line of its own

The rules reduce an expression bit by bit, with a look at the neighbours of each match.  Where a
source is one expression, what comes out in the end is what precedence climbing reads.
-/

namespace StackScript

open Leaf

namespace Token

/-- White space or a comment. -/
def isLayout (t : Token) : Bool := t.tag = .blank || t.tag = .comment

/-- The tokens without white space and comments. -/
def solid (ts : List Token) : List Token := ts.filter fun t => !t.isLayout

theorem mem_of_mem_solid {t : Token} {ts : List Token} (h : t ∈ solid ts) : t ∈ ts :=
  List.mem_of_mem_filter h

end Token

/-- The leaves of tokens without line breaks are one row. -/
theorem Leaf.ofTokens_of_line {ts : List Token} (h : ∀ t ∈ ts, t.tag ≠ .newline) :
    ofTokens ts = ofRow false (Token.solid ts) := by
  rw [ofTokens]
  induction ts with
  | nil => rfl
  | cons t ts ih =>
    obtain ⟨ht, hts⟩ := List.forall_mem_cons.mp h
    have htag : (Symbol.ofToken t).tag = t.tag := rfl
    rw [List.map_cons, ofSymbols, htag, if_neg ht, ih hts]
    by_cases hlayout : t.tag = .blank ∨ t.tag = .comment
    · rw [if_pos hlayout, Token.solid, Token.solid, List.filter_cons_of_neg]
      rcases hlayout with h | h <;> simp [Token.isLayout, h]
    · rw [if_neg hlayout, Token.solid, Token.solid, List.filter_cons_of_pos, ofRow_cons]
      · rfl
      · simpa [Token.isLayout] using hlayout

/-- A row that derives an expression is read as the statement of this expression. -/
theorem Written.reading {line k : Nat} {e : Expr} {ts : List Token} (h : Written line k e ts) :
    Reading [] [(⟨line, false⟩, .single (.value e))] (ofRow false ts) := by
  refine ⟨?_, List.isChain_singleton _, apart_ofRow ts⟩
  exact Derives.of_production .statement List.not_mem_nil (h.derives false)

namespace Grammar

/-- A source that is one expression on one line is parsed as precedence climbing reads it: the tree
is that of the table of operators, and nothing is reported, as long as the passes end before the
limit. -/
theorem parse_climbs {source : String} {tokens : List Token}
    (hlexed : Lexer.standard.tokenize source = .ok tokens)
    (hline : ∀ t ∈ tokens, t.tag ≠ .newline) (hrow : Token.Expression (Token.solid tokens))
    (hlimit : (standard.reduce (Parsing.start tokens)).2 < standard.maxPasses) :
    ∃ e, Climbing.parse (Token.solid tokens) = some e ∧
      (standard.parse tokens).root = .mk e.line [.value e] ∧
      (standard.parse tokens).record.diagnostics = [] := by
  obtain ⟨line, k, e, hparse, hwritten⟩ := hrow.climbs fun t ht =>
    Lexer.lexical_of_tokenize hlexed t (Token.mem_of_mem_solid ht)
  have hreading := hwritten.reading
  rw [← ofTokens_of_line hline] at hreading
  exact ⟨e, hparse, hreading.parse hlimit⟩

/-- A minus before a power is a minus of the power, and subtractions associate to the left. -/
theorem parse_climbs_minus : ∃ tokens, Lexer.standard.tokenize "a - -b ** 2 - c" = .ok tokens ∧
    (standard.parse tokens).root = .mk 1 [.value (.binary 1 .sub (.binary 1 .sub
      (.variable 1 "a" none) (.unary 1 .negative (.binary 1 .pow (.variable 1 "b" none)
        (.number 1 ⟨2, 0⟩) none)) none) (.variable 1 "c" none) none)] ∧
    (standard.parse tokens).record.diagnostics = [] := by
  let tokens : List Token := [⟨.name, "a", 1, ⟨0, 1⟩⟩, ⟨.blank, " ", 1, ⟨1, 2⟩⟩,
    ⟨.term, "-", 1, ⟨2, 3⟩⟩, ⟨.blank, " ", 1, ⟨3, 4⟩⟩, ⟨.term, "-", 1, ⟨4, 5⟩⟩,
    ⟨.name, "b", 1, ⟨5, 6⟩⟩, ⟨.blank, " ", 1, ⟨6, 7⟩⟩, ⟨.power, "**", 1, ⟨7, 9⟩⟩,
    ⟨.blank, " ", 1, ⟨9, 10⟩⟩, ⟨.number, "2", 1, ⟨10, 11⟩⟩, ⟨.blank, " ", 1, ⟨11, 12⟩⟩,
    ⟨.term, "-", 1, ⟨12, 13⟩⟩, ⟨.blank, " ", 1, ⟨13, 14⟩⟩, ⟨.name, "c", 1, ⟨14, 15⟩⟩]
  have hscan : (Lexer.standard.scanSource "a - -b ** 2 - c").tokens = tokens ∧
      (Lexer.standard.scanSource "a - -b ** 2 - c").failure = none := by decide +kernel
  have hlexed : Lexer.standard.tokenize "a - -b ** 2 - c" = .ok tokens :=
    Lexer.tokenize_of_scanSource hscan.1 hscan.2
  have hrow : Token.Expression (Token.solid tokens) :=
    .binary (.name (x := ⟨.name, "a", 1, ⟨0, 1⟩⟩) rfl) rfl (.unary rfl
      (.binary (.name (x := ⟨.name, "b", 1, ⟨5, 6⟩⟩) rfl) rfl
        (.binary (.literal (t := ⟨.number, "2", 1, ⟨10, 11⟩⟩) (by decide)) rfl (.name rfl))))
  have hlimit : (standard.reduce (Parsing.start tokens)).2 < standard.maxPasses := by
    rw [Parsing.start, Stream.prepare_eq_inked]
    decide +kernel
  obtain ⟨e, hparse, hroot, hclean⟩ := parse_climbs hlexed (by decide) hrow hlimit
  have hclimbed : Climbing.parse (Token.solid tokens) = some (.binary 1 .sub (.binary 1 .sub
      (.variable 1 "a" none) (.unary 1 .negative (.binary 1 .pow (.variable 1 "b" none)
        (.number 1 ⟨2, 0⟩) none)) none) (.variable 1 "c" none) none) := rfl
  obtain rfl := Option.some.inj (hparse.symm.trans hclimbed)
  exact ⟨tokens, hlexed, hroot, hclean⟩

end Grammar

end StackScript
