import StackScript.Grammar.Rule
import StackScript.Proofs.Lossless
import StackScript.Proofs.Numerals

/-!
# StackScript.Proofs.Lexed — what a lexed token can be

The lexer gives none of the tags that a reduction gives, and what it takes for a number denotes one:
digits, and with a point more digits after it.
-/

namespace StackScript

/-- The tags that reductions give. -/
def Rule.results : List Tag := standard.map result

/-- The token has no tag of a reduced run, and as a number it denotes one. -/
structure Token.Lexical (t : Token) : Prop where
  not_result : t.tag ∉ Rule.results
  readable : t.tag = .number → (Decimal.ofText? t.text).isSome

/-! ### Numbers -/

open Text in
theorem Decimal.ofText?_numeral {cs : List Char} {n : Nat} (h : Recognizer.numeral cs = some n) :
    (Decimal.ofText? (String.ofList (cs.take n))).isSome := by
  have hcs := List.takeWhile_append_dropWhile (p := Char.isDigit) (l := cs)
  have hdigits : ∀ c ∈ cs.takeWhile Char.isDigit, c.isDigit = true :=
    fun c hc => List.mem_takeWhile_imp hc
  rw [Recognizer.numeral] at h
  generalize cs.takeWhile Char.isDigit = whole at h hcs hdigits
  cases whole with
  | nil => cases h
  | cons d ds =>
    have hwhole : natural? (d :: ds) = some (value (d :: ds)) :=
      natural?_eq_some (List.cons_ne_nil _ _) hdigits
    -- a digit is no sign, so the text is read as it is
    have hunsigned : ∀ rest, ofChars? (d :: rest) =
        (ofUnsigned? (d :: rest)).map fun p => ⟨Int.ofNat p.1, p.2⟩ := by
      have hminus := (ne_of_isDigit (hdigits d List.mem_cons_self)).2.1
      intro rest
      simp [ofChars?, hminus]
    have hpoint : ∀ c ∈ d :: ds, (c == '.') = false :=
      fun c hc => beq_eq_false_iff_ne.mpr (ne_of_isDigit (hdigits c hc)).2.2
    have hinteger : (ofText? (String.ofList (cs.take (d :: ds).length))).isSome := by
      rw [ofText?, String.toList_ofList, ← hcs, List.take_left, hunsigned, ofUnsigned?,
        splitFirst_eq_none hpoint]
      dsimp only
      rw [hwhole]
      rfl
    dsimp only at h
    split at h
    case h_2 =>
      obtain rfl := Option.some.inj h
      exact hinteger
    case h_1 rest hrest =>
      have hfraction : ∀ c ∈ rest.takeWhile Char.isDigit, c.isDigit = true :=
        fun c hc => List.mem_takeWhile_imp hc
      have hsplit := List.takeWhile_append_dropWhile (p := Char.isDigit) (l := rest)
      generalize rest.takeWhile Char.isDigit = fraction at h hfraction hsplit
      cases fraction with
      | nil =>
        obtain rfl := Option.some.inj h
        exact hinteger
      | cons e es =>
        obtain rfl := Option.some.inj h
        have htake : cs.take ((d :: ds).length + 1 + (e :: es).length) =
            (d :: ds) ++ '.' :: (e :: es) := by
          rw [← hcs, hrest, ← hsplit, ← List.cons_append, ← List.append_assoc]
          exact List.take_left' (by simp; omega)
        rw [ofText?, String.toList_ofList, htake, List.cons_append, hunsigned, ← List.cons_append,
          ofUnsigned?, splitFirst_append_cons hpoint rfl]
        dsimp only
        rw [hwhole, natural?_eq_some (List.cons_ne_nil _ _) hfraction]
        rfl

/-! ### Tokens -/

namespace Lexer

variable {lexer : Lexer}

/-- A token of a lexer is what one of its recognizers takes. -/
theorem recognized_of_mem_scan {offset line : Nat} {cs : List Char} {t : Token}
    (h : t ∈ (lexer.scan offset line cs).tokens) :
    ∃ recognizer rest n, (t.tag, recognizer) ∈ lexer ∧ recognizer rest = some n ∧
      t.text = String.ofList (rest.take n) := by
  fun_induction lexer.scan offset line cs with
  | case1 | case2 => cases h
  | case3 offset line cs _ tag n hfirst text stop rest ih =>
    rcases List.mem_cons.mp h with rfl | h
    · obtain ⟨recognizer, hmem, hsome⟩ := exists_of_first?_eq_some hfirst
      exact ⟨recognizer, cs, n, hmem, hsome, rfl⟩
    · exact ih h

theorem tag_of_mem_standard {p : Tag × Recognizer} (h : p ∈ standard) : p.1 ∉ Rule.results := by
  have htags : ∀ t ∈ standard.map Prod.fst, t ∉ Rule.results := by decide
  exact htags p.1 (List.mem_map_of_mem h)

theorem numeral_of_mem_standard {recognizer : Recognizer} (h : (.number, recognizer) ∈ standard) :
    recognizer = Recognizer.numeral := by
  simpa [standard] using h

/-- A source lexes if nothing stops the lexer. -/
theorem scanSource_of_tokenize {source : String} {tokens : List Token}
    (h : lexer.tokenize source = .ok tokens) : lexer.scanSource source = ⟨tokens, none⟩ := by
  generalize hlexed : lexer.scanSource source = lexed
  rw [tokenize, hlexed] at h
  obtain ⟨ts, - | d⟩ := lexed
  · rw [← Except.ok.inj h]
  · cases h

theorem tokenize_of_scanSource {source : String} {tokens : List Token}
    (htokens : (lexer.scanSource source).tokens = tokens)
    (hfailure : (lexer.scanSource source).failure = none) : lexer.tokenize source = .ok tokens := by
  rw [tokenize, hfailure, htokens]

/-- What the lexer of the language gives are lexical tokens. -/
theorem lexical_of_tokenize {source : String} {tokens : List Token}
    (h : standard.tokenize source = .ok tokens) : ∀ t ∈ tokens, t.Lexical := by
  have htokens : (standard.scanSource source).tokens = tokens := by rw [scanSource_of_tokenize h]
  intro t ht
  obtain ⟨recognizer, rest, n, hmem, hn, htext⟩ := recognized_of_mem_scan (htokens ▸ ht)
  refine ⟨tag_of_mem_standard hmem, fun hnumber => ?_⟩
  rw [hnumber] at hmem
  rw [numeral_of_mem_standard hmem] at hn
  rw [htext]
  exact Decimal.ofText?_numeral hn

end Lexer

end StackScript
