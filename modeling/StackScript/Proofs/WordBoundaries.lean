import Mathlib.Data.List.Basic
import StackScript.Proofs.Spelling

/-!
# StackScript.Proofs.WordBoundaries — words end where they are bounded

A keyword is only recognized before a character that continues no word, and a name takes all
letters, digits and underscores of ASCII that follow.  So no letter, digit or underscore stands
behind either (`Recognizer.EndsWord`).  The operators `and`, `or` and `not` share their recognizers
with symbols, so of these only what begins like a name is said to end so (`Recognizer.EndsNames`).
A reserved word is taken for a name only where its own recognizer refuses it, because of a word
character beyond ASCII.
-/

namespace StackScript

open Text Recognizer

/-- The tags with one spelling that is like a name. -/
def Tag.keywords : List Tag :=
  [.null, .thisWord, .superWord, .printWord, .whileWord, .ifWord, .elseWord, .varWord, .funcWord,
    .returnWord, .continueWord, .breakWord, .classWord, .extendsWord, .newWord]

/-- The tags of names and of what is spelled like names. -/
def Tag.words : List Tag := [.name, .boolean, .elseIfWord] ++ keywords

/-- The operators that are spelled like names. -/
def Word.operators : List String := ["and", "or", "not"]

/-- The characters do not begin with a letter, digit or underscore of ASCII. -/
def Text.AtWordEnd (cs : List Char) : Prop := ∀ c, cs.head? = some c → isAsciiWord c = false

theorem Text.atWordEnd_of_atBoundary {cs : List Char} (h : atBoundary cs = true) :
    AtWordEnd cs := by
  intro c hc
  obtain ⟨ds, rfl⟩ := List.head?_eq_some_iff.mp hc
  rw [Bool.eq_false_iff]
  intro hword
  rw [atBoundary, isWordChar_of_isAsciiWord hword] at h
  cases h

theorem Text.atWordEnd_dropWhile (cs : List Char) : AtWordEnd (cs.dropWhile isAsciiWord) := by
  intro c hc
  have hnot := List.head?_dropWhile_not isAsciiWord cs
  rwa [hc] at hnot

/-! ### Recognizers of words -/

namespace Recognizer

/-- A word ends behind what is taken. -/
def EndsWord (r : Recognizer) : Prop := ∀ cs n, r cs = some n → AtWordEnd (cs.drop n)

/-- A word ends behind what is taken if this begins like a name. -/
def EndsNames (r : Recognizer) : Prop :=
  ∀ a cs n, isNameStart a = true → r (a :: cs) = some n → AtWordEnd ((a :: cs).drop n)

theorem EndsWord.endsNames {r : Recognizer} (h : r.EndsWord) : r.EndsNames :=
  fun _ _ _ _ => h _ _

theorem endsNames_of_none {r : Recognizer}
    (h : ∀ a cs, isNameStart a = true → r (a :: cs) = none) : r.EndsNames := by
  intro a cs n ha hn
  rw [h a cs ha] at hn
  cases hn

theorem word_eq_some_iff {s : String} {cs : List Char} {n : Nat} :
    word s cs = some n ↔
      ∃ rest, cs = s.toList ++ rest ∧ atBoundary rest = true ∧ n = s.toList.length := by
  rw [word, Option.bind_eq_some_iff]
  simp only [dropStart?_eq_some_iff]
  refine exists_congr fun rest => and_congr_right fun _ => ?_
  by_cases hrest : atBoundary rest <;> simp [hrest, eq_comm]

theorem endsWord_word (s : String) : (word s).EndsWord := by
  intro cs n h
  obtain ⟨rest, rfl, hrest, rfl⟩ := word_eq_some_iff.mp h
  rw [List.drop_left]
  exact atWordEnd_of_atBoundary hrest

theorem endsWord_oneOf {rs : List Recognizer} (h : ∀ r ∈ rs, r.EndsWord) :
    (oneOf rs).EndsWord := by
  intro cs n hn
  obtain ⟨r, hr, hsome⟩ := List.exists_of_findSome?_eq_some hn
  exact h r hr cs n hsome

theorem endsWord_elseIf : elseIf.EndsWord := by
  intro cs n h
  obtain ⟨rest, hrest, htail⟩ := Option.bind_eq_some_iff.mp h
  obtain rfl := dropStart?_eq_some_iff.mp hrest
  have hgap := List.takeWhile_append_dropWhile (p := isBlank) (l := rest)
  generalize rest.takeWhile isBlank = gap at htail hgap
  cases gap with
  | nil => cases htail
  | cons b gap =>
    obtain ⟨k, hk, rfl⟩ := Option.map_eq_some_iff.mp htail
    obtain ⟨after, hafter, hbound, rfl⟩ := word_eq_some_iff.mp hk
    have hdrop : (['e', 'l', 's', 'e'] ++ rest).drop
        (4 + (b :: gap).length + "if".toList.length) = after := by
      rw [← hgap, hafter, ← List.append_assoc, ← List.append_assoc]
      exact List.drop_left' (by simp only [List.length_append, List.length_cons, List.length_nil])
    rw [hdrop]
    exact atWordEnd_of_atBoundary hbound

theorem endsWord_identifier : identifier.EndsWord := by
  intro cs n h
  cases cs with
  | nil => cases h
  | cons c cs =>
    rw [identifier] at h
    split at h
    case isFalse => cases h
    case isTrue =>
      obtain rfl := Option.some.inj h
      have hdrop : cs.drop (cs.takeWhile isAsciiWord).length = cs.dropWhile isAsciiWord := by
        conv => lhs; arg 2; rw [← List.takeWhile_append_dropWhile (p := isAsciiWord) (l := cs)]
        exact List.drop_left
      rw [Nat.add_comm, List.drop_succ_cons, hdrop]
      exact atWordEnd_dropWhile cs

theorem endsNames_symbol {s : String} (h : (s.toList.head?.any fun d => !isNameStart d) = true) :
    (symbol s).EndsNames := endsNames_of_none fun _ _ ha => Word.symbol_eq_none ha h

theorem endsNames_oneOf {rs : List Recognizer} (h : ∀ r ∈ rs, r.EndsNames) :
    (oneOf rs).EndsNames := by
  intro a cs n ha hn
  obtain ⟨r, hr, hsome⟩ := List.exists_of_findSome?_eq_some hn
  exact h r hr a cs n ha hsome

end Recognizer

/-! ### Recognizers of the language -/

namespace Lexer

theorem endsNames_of_mem_standard : ∀ p ∈ standard, EndsNames p.2 := by
  have hword : ∀ s, (word s).EndsNames := fun s => (endsWord_word s).endsNames
  have hnewline : EndsNames Token.newlineRun? :=
    endsNames_of_none fun _ cs ha => (Word.unnamed_eq_none ha cs).1
  have htext : EndsNames Token.stringLiteral? :=
    endsNames_of_none fun _ cs ha => (Word.unnamed_eq_none ha cs).2.1
  have hcomment : comment.EndsNames :=
    endsNames_of_none fun _ cs ha => (Word.unnamed_eq_none ha cs).2.2.1
  have hnumeral : numeral.EndsNames :=
    endsNames_of_none fun _ cs ha => (Word.unnamed_eq_none ha cs).2.2.2.1
  have hblank : EndsNames (run fun c => c == ' ' || c == '\t' || c == '\r') :=
    endsNames_of_none fun _ cs ha => (Word.unnamed_eq_none ha cs).2.2.2.2
  simp (disch := decide) only [standard, List.forall_mem_cons, List.not_mem_nil, false_implies,
    implies_true, and_true, true_and, hnewline, htext, hcomment, hnumeral, hblank, hword,
    endsNames_symbol, endsWord_elseIf.endsNames, endsWord_identifier.endsNames]
  refine ⟨?_, ?_, ?_, ?_, ?_, ?_⟩ <;> refine endsNames_oneOf ?_ <;>
    simp (disch := decide) only [List.forall_mem_cons, List.not_mem_nil, false_implies,
      implies_true, and_true, hword, endsNames_symbol]

theorem endsWord_of_mem_standard : ∀ p ∈ standard, p.1 ∈ Tag.words → EndsWord p.2 := by
  have hboolean : (oneOf [word "true", word "false"]).EndsWord :=
    endsWord_oneOf (by simp [endsWord_word])
  simp only [standard, List.forall_mem_cons, List.not_mem_nil, false_implies, implies_true,
    and_true, true_and, endsWord_word, hboolean, endsWord_elseIf, endsWord_identifier]
  -- what is left are the recognizers of other tags
  and_intros <;> exact fun h => absurd h (by decide)

end Lexer

/-! ### Reserved words -/

namespace Recognizer

/-- Something is taken where the word is one. -/
def Claims (r : Recognizer) (kw : String) : Prop :=
  ∀ cs, word kw cs ≠ none → ∃ n, r cs = some (n + 1)

theorem word_ne_zero {s : String} (h : s.toList ≠ []) (cs : List Char) : word s cs ≠ some 0 := by
  intro hzero
  obtain ⟨rest, -, -, hlength⟩ := word_eq_some_iff.mp hzero
  exact h (List.length_eq_zero_iff.mp hlength.symm)

theorem symbol_ne_zero {s : String} (h : s.toList ≠ []) (cs : List Char) :
    symbol s cs ≠ some 0 := by
  intro hzero
  obtain ⟨rest, -, hlength⟩ := Option.map_eq_some_iff.mp hzero
  exact h (List.length_eq_zero_iff.mp hlength)

theorem claims_word {kw : String} (h : kw.toList ≠ []) : Claims (word kw) kw := by
  intro cs hcs
  obtain ⟨n, hn⟩ := Option.ne_none_iff_exists'.mp hcs
  cases n with
  | zero => exact absurd hn (word_ne_zero h cs)
  | succ n => exact ⟨n, hn⟩

theorem claims_oneOf {rs : List Recognizer} {kw : String} (hkw : word kw ∈ rs)
    (h : ∀ r ∈ rs, ∀ cs, r cs ≠ some 0) : Claims (oneOf rs) kw := by
  intro cs hcs
  have hsome : oneOf rs cs ≠ none := fun hnone =>
    hcs (List.findSome?_eq_none_iff.mp hnone _ hkw)
  obtain ⟨n, hn⟩ := Option.ne_none_iff_exists'.mp hsome
  cases n with
  | zero =>
    obtain ⟨r, hr, hzero⟩ := List.exists_of_findSome?_eq_some hn
    exact absurd hzero (h r hr cs)
  | succ n => exact ⟨n, hn⟩

end Recognizer

namespace Lexer

/-- The recognizers before that of names. -/
def beforeNames : Lexer := standard.dropLast

theorem word_mem_beforeNames : ∀ t ∈ Tag.keywords, (t, word t.spelling) ∈ beforeNames := by
  intro t ht
  have hfind : Tag.keywords.map (fun t => beforeNames.find? fun p => p.1 == t) =
      Tag.keywords.map fun t => some (t, word t.spelling) := by rfl
  exact List.mem_of_find?_eq_some (List.map_inj_left.mp hfind t ht)

/-- Each reserved word is claimed by a recognizer of its own. -/
theorem claims_of_mem_reserved {kw : String} (h : kw ∈ Word.reserved) :
    ∃ p ∈ beforeNames, Claims p.2 kw := by
  have hcases : kw = "true" ∨ kw = "false" ∨ kw = "and" ∨ kw = "or" ∨ kw = "not" ∨
      ∃ t ∈ Tag.keywords, t.spelling = kw ∧ kw.toList ≠ [] := by
    revert kw
    decide
  have hboolean : ∀ {kw}, word kw ∈ [word "true", word "false"] →
      ∃ p ∈ beforeNames, Claims p.2 kw := by
    intro kw hkw
    refine ⟨_, List.mem_of_getElem? (i := 4) rfl, claims_oneOf hkw ?_⟩
    rw [← List.forall_iff_forall_mem]
    exact ⟨word_ne_zero (by decide), word_ne_zero (by decide)⟩
  have hlogic : ∀ {kw}, word kw ∈ [symbol "||", symbol "&&", symbol "|", symbol "&", symbol "^",
      symbol ">>", symbol "<<", word "and", word "or"] → ∃ p ∈ beforeNames, Claims p.2 kw := by
    intro kw hkw
    refine ⟨_, List.mem_of_getElem? (i := 11) rfl, claims_oneOf hkw ?_⟩
    rw [← List.forall_iff_forall_mem]
    refine ⟨?_, ?_, ?_, ?_, ?_, ?_, ?_, word_ne_zero (by decide), word_ne_zero (by decide)⟩ <;>
      exact symbol_ne_zero (by decide)
  have hnegation : Claims (oneOf [symbol "!", word "not"]) "not" := by
    refine claims_oneOf (.tail _ (.head _)) ?_
    rw [← List.forall_iff_forall_mem]
    exact ⟨symbol_ne_zero (by decide), word_ne_zero (by decide)⟩
  rcases hcases with rfl | rfl | rfl | rfl | rfl | ⟨t, ht, rfl, hne⟩
  · exact hboolean (.head _)
  · exact hboolean (.tail _ (.head _))
  · exact hlogic (List.mem_of_getElem? (i := 7) rfl)
  · exact hlogic (List.mem_of_getElem? (i := 8) rfl)
  · exact ⟨_, List.mem_of_getElem? (i := 13) rfl, hnegation⟩
  · exact ⟨_, word_mem_beforeNames t ht, claims_word hne⟩

/-- Where a name is taken, nothing is taken by a recognizer before that of names. -/
theorem first?_beforeNames {cs : List Char} {n : Nat}
    (h : standard.first? cs = some (.name, n)) : beforeNames.first? cs = none := by
  have hsplit : standard = beforeNames ++ [(Tag.name, identifier)] := rfl
  rw [hsplit, first?, List.findSome?_append, ← first?] at h
  cases hbefore : beforeNames.first? cs with
  | none => rfl
  | some taken =>
    have htags : ∀ p ∈ beforeNames, p.1 ≠ Tag.name := by decide
    rw [hbefore] at h
    obtain rfl := Option.some.inj h
    obtain ⟨r, hr, -⟩ := exists_of_first?_eq_some hbefore
    exact absurd rfl (htags _ hr)

theorem word_eq_none_of_name {cs : List Char} {n : Nat}
    (h : standard.first? cs = some (.name, n)) {kw : String} (hkw : kw ∈ Word.reserved) :
    word kw cs = none := by
  obtain ⟨p, hp, hclaims⟩ := claims_of_mem_reserved hkw
  by_contra hne
  obtain ⟨k, hk⟩ := hclaims cs hne
  have hzero := eq_zero_of_first?_eq_none (first?_beforeNames h) hp hk
  cases hzero

/-! ### Tokens -/

/-- A token is what is taken first of the characters from where it stands on. -/
theorem first?_of_mem_scan {lexer : Lexer} (hlexer : lexer.Within) {offset line : Nat}
    {cs : List Char} {t : Token} (h : t ∈ (lexer.scan offset line cs).tokens) :
    ∃ past rest, cs = past ++ (t.text.toList ++ rest) ∧
      t.span = ⟨offset + byteLength past, offset + byteLength (past ++ t.text.toList)⟩ ∧
      lexer.first? (t.text.toList ++ rest) = some (t.tag, t.text.toList.length) := by
  fun_induction lexer.scan offset line cs with
  | case1 | case2 => cases h
  | case3 offset line cs _ tag n hfirst text stop after ih =>
    have hsplit : text ++ cs.drop n = cs := List.take_append_drop n cs
    rcases List.mem_cons.mp h with rfl | h
    · have hlength : text.length = n := List.length_take_of_le (first?_le hlexer hfirst)
      refine ⟨[], cs.drop n, ?_, ?_, ?_⟩
      · rw [String.toList_ofList, List.nil_append, hsplit]
      · rw [String.toList_ofList]
        rfl
      · rw [String.toList_ofList, hsplit, hlength]
        exact hfirst
    · obtain ⟨past, rest, hcs, hspan, htaken⟩ := ih h
      refine ⟨text ++ past, rest, ?_, ?_, htaken⟩
      · rw [List.append_assoc, ← hcs, hsplit]
      · rw [hspan]
        simp only [stop, byteLength_append, Nat.add_assoc]

/-- Behind a name, a keyword, and an operator that is spelled like a name, there is no letter, digit
or underscore of ASCII; and a name is spelled like a reserved word only if a word character beyond
ASCII is behind it. -/
theorem words_end_at_boundaries (source : String) {t : Token}
    (ht : t ∈ (standard.scanSource source).tokens) :
    ∃ past rest : List Char, source.toList = past ++ (t.text.toList ++ rest) ∧
      t.span = ⟨byteLength past, byteLength (past ++ t.text.toList)⟩ ∧
      (t.tag ∈ Tag.words ∨ t.text ∈ Word.operators →
        ∀ c, rest.head? = some c → isAsciiWord c = false) ∧
      (t.tag = .name → t.text ∈ Word.reserved →
        ∃ c, rest.head? = some c ∧ isWordChar c = true ∧ 0x80 ≤ c.toNat) := by
  obtain ⟨past, rest, hsource, hspan, hfirst⟩ := first?_of_mem_scan standard_within ht
  obtain ⟨r, hr, htaken⟩ := exists_of_first?_eq_some hfirst
  rw [Nat.zero_add, Nat.zero_add] at hspan
  have hwords : t.tag ∈ Tag.words → AtWordEnd rest := by
    intro htag
    have hend := endsWord_of_mem_standard _ hr htag _ _ htaken
    rwa [List.drop_left] at hend
  refine ⟨past, rest, hsource, hspan, ?_, ?_⟩
  · rintro (htag | htext)
    · exact hwords htag
    · have hstart : ∀ w ∈ Word.operators, ∃ a as, w.toList = a :: as ∧ isNameStart a = true := by
        simp [Word.operators, isNameStart]
      obtain ⟨a, as, hcs, ha⟩ := hstart _ htext
      rw [hcs, List.cons_append] at htaken
      have hend := endsNames_of_mem_standard _ hr a _ _ ha htaken
      rwa [← List.cons_append, List.drop_left] at hend
  · intro htag hreserved
    rw [htag] at hfirst
    have hnone := word_eq_none_of_name hfirst hreserved
    have hnot : atBoundary rest ≠ true := fun hboundary =>
      Option.some_ne_none _ ((word_eq_some_iff.mpr ⟨rest, rfl, hboundary, rfl⟩).symm.trans hnone)
    cases rest with
    | nil => exact absurd rfl hnot
    | cons c cs =>
      have hword : isWordChar c = true := by simpa [atBoundary] using hnot
      refine ⟨c, rfl, hword, Nat.le_of_not_lt fun hascii => ?_⟩
      rw [isWordChar_of_ascii hascii, hwords (htag ▸ List.mem_cons_self) c rfl] at hword
      cases hword

/-- In `not ifé` the operator is followed by a blank, and the name `if` by a letter beyond ASCII. -/
theorem words_end_at_boundaries_beyond_ascii :
    let source := "not ifé"
    (∃ t ∈ (standard.scanSource source).tokens, t.text = "not" ∧
      ∃ past rest : List Char, source.toList = past ++ (['n', 'o', 't'] ++ rest) ∧
        ∀ c, rest.head? = some c → isAsciiWord c = false) ∧
      ∃ t ∈ (standard.scanSource source).tokens, t.tag = .name ∧ t.text = "if" ∧
        ∃ past rest : List Char, source.toList = past ++ (['i', 'f'] ++ rest) ∧
          (∀ c, rest.head? = some c → isAsciiWord c = false) ∧
          ∃ c, rest.head? = some c ∧ isWordChar c = true ∧ 0x80 ≤ c.toNat := by
  intro source
  have htokens : (standard.scanSource source).tokens = [⟨.negation, "not", 1, ⟨0, 3⟩⟩,
      ⟨.blank, " ", 1, ⟨3, 4⟩⟩, ⟨.name, "if", 1, ⟨4, 6⟩⟩] := by
    decide +kernel
  refine ⟨⟨⟨.negation, "not", 1, ⟨0, 3⟩⟩, htokens ▸ .head _, rfl, ?_⟩,
    ⟨.name, "if", 1, ⟨4, 6⟩⟩, htokens ▸ .tail _ (.tail _ (.head _)), rfl, rfl, ?_⟩
  · obtain ⟨past, rest, hsource, -, hend, -⟩ :=
      words_end_at_boundaries source (t := ⟨.negation, "not", 1, ⟨0, 3⟩⟩) (htokens ▸ .head _)
    exact ⟨past, rest, hsource, hend (.inr (by decide))⟩
  · obtain ⟨past, rest, hsource, -, hend, hreserved⟩ :=
      words_end_at_boundaries source (t := ⟨.name, "if", 1, ⟨4, 6⟩⟩)
        (htokens ▸ .tail _ (.tail _ (.head _)))
    exact ⟨past, rest, hsource, hend (.inl (by decide)), hreserved rfl (by decide)⟩

end Lexer

end StackScript
