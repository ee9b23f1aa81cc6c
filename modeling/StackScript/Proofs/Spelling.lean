import StackScript.Proofs.Literals
import StackScript.Proofs.Numerals
import StackScript.Proofs.Wording

/-!
# StackScript.Proofs.Spelling — words are lexed as they are spelled

A word with a blank or a line break after it is the next token, whatever follows.  The words with
one spelling are looked at one by one.  A name is not taken for a keyword, since a keyword that it
begins with is followed by a word character; a number ends before the blank; and in a quoted text
each quote but the last is escaped.
-/

namespace StackScript

open Text Recognizer

/-- The character separates words: a blank or a line break. -/
def Word.IsGap (c : Char) : Prop := c = ' ' ∨ c = '\n'

/-- The word is the next token where these characters follow it. -/
def Word.IsNext (w : Word) (cs : List Char) : Prop :=
  Lexer.standard.first? (w.text.toList ++ cs) = some (w.tag, w.text.toList.length)

/-- The characters of line breaks and blanks. -/
def Word.layout : List Char := ['\n', ' ', '\t', '\r']

/-- The characters do not begin with layout. -/
def Word.Begins (cs : List Char) : Prop := ∃ d ds, cs = d :: ds ∧ d ∉ layout

/-- The tags of layout. -/
def Tag.isLayout : Tag → Bool
  | .newline | .blank | .comment => true
  | _ => false

/-- The word is no layout and does not begin with any. -/
structure Word.Plain (w : Word) : Prop where
  solid : w.tag.isLayout = false
  begins : Begins w.text.toList

/-- Before a gap the word is the next token, whatever follows the gap. -/
structure Word.Lexes (w : Word) : Prop extends Plain w where
  isNext : ∀ {c}, IsGap c → ∀ cs, w.IsNext (c :: cs)

/-! ### Words with one spelling -/

namespace Word

/-- The keywords, brackets, points, commas and operators.  `else if` is not one of them, since there
is a gap in it. -/
def fixed : List Word :=
  ([.null, .equals, .comma, .dot, .leftBrace, .rightBrace, .leftParen, .rightParen, .leftBracket,
    .rightBracket, .printWord, .whileWord, .ifWord, .varWord, .funcWord, .returnWord,
    .continueWord, .breakWord, .classWord, .extendsWord, .newWord, .thisWord,
    .superWord] : List Tag).map of ++
  ([.add, .sub, .mul, .div, .mod, .pow, .equal, .notEqual, .greater, .greaterEqual, .less,
    .lessEqual, .and, .or, .bitAnd, .bitOr, .bitXor, .shiftLeft,
    .shiftRight] : List BinaryOp).map (fun op => ⟨op.tag, op.symbol⟩) ++
  ([.negative, .not, .bitNot] : List UnaryOp).map (fun op => ⟨op.tag, op.symbol⟩) ++
  [⟨.boolean, "true"⟩, ⟨.boolean, "false"⟩]

theorem first?_fixed_blank (cs : List Char) :
    (fixed.map fun w => Lexer.standard.first? (w.text.toList ++ ' ' :: cs)) =
      fixed.map fun w => some (w.tag, w.text.toList.length) := by rfl

theorem first?_fixed_newline (cs : List Char) :
    (fixed.map fun w => Lexer.standard.first? (w.text.toList ++ '\n' :: cs)) =
      fixed.map fun w => some (w.tag, w.text.toList.length) := by rfl

theorem begins_fixed : ∀ w ∈ fixed, w.tag.isLayout = false ∧
    w.text.toList.head?.any fun c => c ∉ layout := by
  decide

theorem lexes_fixed {w : Word} (h : w ∈ fixed) : w.Lexes := by
  obtain ⟨hsolid, hbegins⟩ := begins_fixed w h
  refine ⟨⟨hsolid, ?_⟩, ?_⟩
  · cases hcs : w.text.toList with
    | nil =>
      rw [hcs] at hbegins
      cases hbegins
    | cons c cs =>
      rw [hcs] at hbegins
      exact ⟨c, cs, rfl, of_decide_eq_true hbegins⟩
  · rintro c (rfl | rfl) cs
    · exact List.map_inj_left.mp (first?_fixed_blank cs) w h
    · exact List.map_inj_left.mp (first?_fixed_newline cs) w h

theorem lexes_elseIf : (of .elseIfWord).Lexes := by
  refine ⟨⟨rfl, 'e', _, rfl, by decide⟩, ?_⟩
  rintro c (rfl | rfl) cs <;> rfl

end Word

/-! ### Characters of names -/

namespace Text

/-- A character that a name can begin with. -/
def isNameStart (c : Char) : Bool := c.isAlpha || c == '_'

example : isNameStart '_' = true ∧ isNameStart '1' = false := by decide +kernel

theorem isAsciiWord_of_isNameStart {c : Char} (h : isNameStart c = true) :
    isAsciiWord c = true := by
  rw [isNameStart, Bool.or_eq_true] at h
  rw [isAsciiWord, Char.isAlphanum, Bool.or_eq_true, Bool.or_eq_true]
  exact h.imp .inl id

theorem toNat_of_isNameStart {c : Char} (h : isNameStart c = true) :
    65 ≤ c.toNat ∧ c.toNat ≤ 122 := by
  change ((decide ('A'.val ≤ c.val ∧ c.val ≤ 'Z'.val) ||
    (decide ('a'.val ≤ c.val) && decide (c.val ≤ 'z'.val))) || c == '_') = true at h
  simp only [Bool.or_eq_true, Bool.and_eq_true, decide_eq_true_eq, UInt32.le_iff_toNat_le,
    beq_iff_eq] at h
  rcases h with (⟨hge, hle⟩ | ⟨hge, hle⟩) | rfl
  · exact ⟨Nat.le_trans (by decide) hge, Nat.le_trans hle (by decide)⟩
  · exact ⟨Nat.le_trans (by decide) hge, Nat.le_trans hle (by decide)⟩
  · decide

theorem toNat_of_isDigit {c : Char} (h : c.isDigit = true) : 48 ≤ c.toNat ∧ c.toNat ≤ 57 := by
  change (decide ('0'.val ≤ c.val) && decide (c.val ≤ '9'.val)) = true at h
  simp only [Bool.and_eq_true, decide_eq_true_eq, UInt32.le_iff_toNat_le] at h
  exact h

theorem toNat_of_isAsciiWord {c : Char} (h : isAsciiWord c = true) :
    48 ≤ c.toNat ∧ c.toNat ≤ 122 := by
  rw [isAsciiWord, Char.isAlphanum, Bool.or_eq_true, Bool.or_eq_true] at h
  have hcases : isNameStart c = true ∨ c.isDigit = true := by
    rw [isNameStart, Bool.or_eq_true]
    rcases h with (h | h) | h
    · exact .inl (.inl h)
    · exact .inr h
    · exact .inl (.inr h)
  rcases hcases with h | h
  · have := toNat_of_isNameStart h
    omega
  · have := toNat_of_isDigit h
    omega

theorem isDigit_of_isNameStart {c : Char} (h : isNameStart c = true) : c.isDigit = false := by
  rw [Bool.eq_false_iff]
  intro hdigit
  have := toNat_of_isNameStart h
  have := toNat_of_isDigit hdigit
  omega

theorem isWordChar_of_isAsciiWord {c : Char} (h : isAsciiWord c = true) : isWordChar c = true := by
  have := toNat_of_isAsciiWord h
  rw [isWordChar_of_ascii (by omega), h]

theorem isBlank_of_isAsciiWord {c : Char} (h : isAsciiWord c = true) : isBlank c = false := by
  have := toNat_of_isAsciiWord h
  rw [isBlank, Bool.eq_false_iff, Ne, Ranges.has_iff]
  rintro ⟨r, hr, hrange⟩
  simp only [blankRanges, List.mem_cons, List.not_mem_nil, or_false] at hr
  rcases hr with rfl | rfl | rfl | rfl | rfl | rfl | rfl | rfl | rfl | rfl <;> omega

end Text

namespace Word

theorem isAsciiWord_of_isGap {c : Char} (h : IsGap c) : isAsciiWord c = false := by
  rcases h with rfl | rfl <;> rfl

/-! ### Names -/

/-- The characters of a name. -/
theorem isName_iff {x : String} : isName x = true ↔ ∃ a as, x.toList = a :: as ∧
    isNameStart a = true ∧ (∀ d ∈ a :: as, isAsciiWord d = true) ∧ x ∉ reserved := by
  rw [isName]
  cases hx : x.toList with
  | nil => simp
  | cons a as =>
    simp only [Bool.and_eq_true, List.all_eq_true, Bool.not_eq_true', List.contains_eq_mem,
      decide_eq_false_iff_not, List.cons.injEq, and_assoc]
    constructor
    · rintro ⟨ha, has, hreserved⟩
      exact ⟨a, as, rfl, rfl, ha,
        List.forall_mem_cons.mpr ⟨isAsciiWord_of_isNameStart ha, has⟩, hreserved⟩
    · rintro ⟨_, _, rfl, rfl, ha, has, hreserved⟩
      exact ⟨ha, (List.forall_mem_cons.mp has).2, hreserved⟩

/-- Where a name with a gap after it begins with a keyword that is another word, a word character
follows the keyword. -/
theorem after_keyword {x kw : String} {c : Char} {cs rest : List Char}
    (hx : ∀ d ∈ x.toList, isAsciiWord d = true) (hkw : ∀ d ∈ kw.toList, isAsciiWord d = true)
    (hne : x ≠ kw) (hc : IsGap c) (h : x.toList ++ c :: cs = kw.toList ++ rest) :
    ∃ d ds, rest = d :: ds ∧ isAsciiWord d = true := by
  have hne' : x.toList ≠ kw.toList := fun heq => hne (String.toList_inj.mp heq)
  rcases List.append_eq_append_iff.mp h with ⟨as, has, hrest⟩ | ⟨as, has, rfl⟩
  · cases as with
    | nil => exact absurd (by rw [has, List.append_nil]) hne'
    | cons d ds =>
      obtain ⟨rfl, -⟩ := List.cons.inj hrest
      have := hkw c (by rw [has]; simp)
      rw [isAsciiWord_of_isGap hc] at this
      cases this
  · cases as with
    | nil => exact absurd (by rw [has, List.append_nil]) hne'
    | cons d ds => exact ⟨d, _, rfl, hx d (by rw [has]; simp)⟩

theorem isAsciiWord_of_mem_reserved {kw : String} (h : kw ∈ reserved) :
    ∀ d ∈ kw.toList, isAsciiWord d = true := by
  have hall : (reserved.all fun kw => kw.toList.all isAsciiWord) = true := by decide
  exact List.all_eq_true.mp (List.all_eq_true.mp hall kw h)

section Names

variable {x : String} {c : Char} {cs : List Char} (hx : ∀ d ∈ x.toList, isAsciiWord d = true)
  (hreserved : x ∉ reserved) (hc : IsGap c)
include hx hreserved hc

theorem word_eq_none {kw : String} (hkw : kw ∈ reserved) :
    Recognizer.word kw (x.toList ++ c :: cs) = none := by
  rw [Recognizer.word, Option.bind_eq_none_iff]
  intro rest hrest
  obtain ⟨d, ds, rfl, hd⟩ := after_keyword hx (isAsciiWord_of_mem_reserved hkw)
    (fun h => hreserved (h ▸ hkw)) hc (dropStart?_eq_some_iff.mp hrest)
  rw [atBoundary, isWordChar_of_isAsciiWord hd]
  rfl

theorem elseIf_eq_none : elseIf (x.toList ++ c :: cs) = none := by
  rw [elseIf, Option.bind_eq_none_iff]
  intro rest hrest
  have helse : "else" ∈ reserved := by decide
  obtain ⟨d, ds, rfl, hd⟩ := after_keyword hx (isAsciiWord_of_mem_reserved helse)
    (fun h => hreserved (h ▸ helse)) hc (dropStart?_eq_some_iff.mp hrest)
  rw [List.takeWhile_cons_of_neg (by rw [isBlank_of_isAsciiWord hd]; exact Bool.false_ne_true)]

end Names

/-- What begins with another character is no line break, no text and no comment. -/
theorem layout_eq_none {a : Char} (ha : a ∉ ['\n', '\r', '"', '\'', '/']) (cs : List Char) :
    Token.newlineRun? (a :: cs) = none ∧ Token.stringLiteral? (a :: cs) = none ∧
      comment (a :: cs) = none := by
  simp only [List.mem_cons, List.not_mem_nil, or_false, not_or] at ha
  obtain ⟨hnewline, hreturn, hquote, hquote', hslash⟩ := ha
  refine ⟨?_, ?_, ?_⟩
  · rw [Token.newlineRun?]
    · exact fun _ h => hnewline (List.cons.inj h).1
    · exact fun _ h => hreturn (List.cons.inj h).1
  · rw [Token.stringLiteral?, if_neg]
    simp [hquote, hquote']
  · rw [comment, dropStart?, if_neg (Ne.symm hslash)]
    rfl

theorem symbol_eq_none {s : String} {a : Char} {cs : List Char} (ha : isNameStart a = true)
    (hs : (s.toList.head?.any fun d => !isNameStart d) = true) :
    symbol s (a :: cs) = none := by
  rw [symbol]
  cases hcs : s.toList with
  | nil =>
    rw [hcs] at hs
    cases hs
  | cons d ds =>
    rw [hcs] at hs
    have hne : d ≠ a := by
      rintro rfl
      simp [ha] at hs
    rw [dropStart?, if_neg hne]
    rfl

theorem ne_of_isNameStart {a d : Char} (ha : isNameStart a = true) (hd : isNameStart d = false) :
    a ≠ d := by
  rintro rfl
  rw [ha] at hd
  cases hd

/-- What begins like a name is no layout and no literal. -/
theorem unnamed_eq_none {a : Char} (ha : isNameStart a = true) (cs : List Char) :
    Token.newlineRun? (a :: cs) = none ∧ Token.stringLiteral? (a :: cs) = none ∧
      comment (a :: cs) = none ∧ numeral (a :: cs) = none ∧
      run (fun c => c == ' ' || c == '\t' || c == '\r') (a :: cs) = none := by
  have hne : ∀ {d}, isNameStart d = false → a ≠ d := ne_of_isNameStart ha
  obtain ⟨hnewline, htext, hcomment⟩ := layout_eq_none (a := a) (by
    simp [hne (d := '\n') rfl, hne (d := '\r') rfl, hne (d := '"') rfl, hne (d := '\'') rfl,
      hne (d := '/') rfl]) cs
  refine ⟨hnewline, htext, hcomment, ?_, ?_⟩
  · rw [numeral, List.takeWhile_cons_of_neg]
    simp [isDigit_of_isNameStart ha]
  · rw [run, List.takeWhile_cons_of_neg]
    simp [hne (d := ' ') rfl, hne (d := '\t') rfl, hne (d := '\r') rfl]

/-- A name before a gap is lexed as a name. -/
theorem lexes_name {x : String} (h : isName x = true) : (name x).Lexes := by
  obtain ⟨a, as, hcs, ha, has, hreserved⟩ := isName_iff.mp h
  have hne : ∀ d, isNameStart d = false → a ≠ d := fun _ => ne_of_isNameStart ha
  refine ⟨⟨rfl, a, as, hcs, ?_⟩, fun {c} hc cs => ?_⟩
  · simp [layout, hne '\n' rfl, hne ' ' rfl, hne '\t' rfl, hne '\r' rfl]
  have hx : ∀ d ∈ x.toList, isAsciiWord d = true := by rwa [hcs]
  have hword : ∀ kw, kw ∈ reserved → word kw (a :: (as ++ c :: cs)) = none := by
    intro kw hkw
    have hnone : Recognizer.word kw (x.toList ++ c :: cs) = none := word_eq_none hx hreserved hc hkw
    rwa [hcs] at hnone
  have helseIf : elseIf (a :: (as ++ c :: cs)) = none := by
    have hnone : elseIf (x.toList ++ c :: cs) = none := elseIf_eq_none hx hreserved hc
    rwa [hcs] at hnone
  have hsymbol : ∀ s : String, (s.toList.head?.any fun d => !isNameStart d) = true →
      symbol s (a :: (as ++ c :: cs)) = none := fun _ => symbol_eq_none ha
  obtain ⟨hnewline, htext, hcomment, hnumeral, hblank⟩ := unnamed_eq_none ha (as ++ c :: cs)
  have hidentifier : identifier (a :: (as ++ c :: cs)) = some (as.length + 1) := by
    have hgap : ¬ isAsciiWord c = true := by simp [isAsciiWord_of_isGap hc]
    have hstart : (a.isAlpha || a == '_') = true := ha
    rw [identifier, if_pos hstart, List.takeWhile_append_of_pos (List.forall_mem_cons.mp has).2,
      List.takeWhile_cons_of_neg hgap, List.append_nil, Nat.add_comm]
  rw [IsNext, name, hcs, List.cons_append, Lexer.first?, Lexer.standard]
  simp (disch := decide) only [oneOf, List.findSome?_cons, List.findSome?_nil, hnewline, htext,
    hcomment, hnumeral, hblank, hidentifier, helseIf, hword, hsymbol, List.length_cons]

/-! ### Numbers and texts -/

theorem isDigit_of_isGap {c : Char} (h : IsGap c) : c.isDigit = false := by
  rcases h with rfl | rfl <;> rfl

theorem numeral_digits {ds : List Char} (hne : ds ≠ []) (hds : ∀ d ∈ ds, d.isDigit = true)
    {c : Char} (hc : IsGap c) (cs : List Char) : numeral (ds ++ c :: cs) = some ds.length := by
  have hgap : ¬ c.isDigit = true := by simp [isDigit_of_isGap hc]
  obtain ⟨d, ds, rfl⟩ := List.exists_cons_of_ne_nil hne
  rw [numeral, List.takeWhile_append_of_pos hds, List.takeWhile_cons_of_neg hgap,
    List.append_nil, List.dropWhile_append_of_pos hds, List.dropWhile_cons_of_neg hgap]
  rcases hc with rfl | rfl <;> rfl

theorem numeral_fraction {ds fs : List Char} (hne : ds ≠ []) (hds : ∀ d ∈ ds, d.isDigit = true)
    (hne' : fs ≠ []) (hfs : ∀ d ∈ fs, d.isDigit = true) {c : Char} (hc : IsGap c)
    (cs : List Char) :
    numeral ((ds ++ '.' :: fs) ++ c :: cs) = some (ds ++ '.' :: fs).length := by
  have hgap : ¬ c.isDigit = true := by simp [isDigit_of_isGap hc]
  have hpoint : ¬ '.'.isDigit = true := by decide
  have hfraction : (fs ++ c :: cs).takeWhile Char.isDigit = fs := by
    rw [List.takeWhile_append_of_pos hfs, List.takeWhile_cons_of_neg hgap, List.append_nil]
  rw [List.append_assoc, List.cons_append, numeral, List.takeWhile_append_of_pos hds,
    List.takeWhile_cons_of_neg hpoint, List.append_nil, List.dropWhile_append_of_pos hds,
    List.dropWhile_cons_of_neg hpoint]
  obtain ⟨d, ds, rfl⟩ := List.exists_cons_of_ne_nil hne
  obtain ⟨f, fs, rfl⟩ := List.exists_cons_of_ne_nil hne'
  simp only [hfraction, List.length_append, List.length_cons]
  exact congrArg some (by omega)

/-- A quoted text is lexed as a text. -/
theorem lexes_quoted (s : String) : Lexes ⟨.text, quoted s⟩ := by
  have hcs : (quoted s).toList = '"' :: (s.toList.flatMap escape ++ ['"']) := String.toList_ofList
  refine ⟨⟨rfl, '"', _, hcs, by decide⟩, fun {c} _ cs => ?_⟩
  have hquote : Token.IsQuote '"' := .inl rfl
  have htext := Token.stringLiteral?_written Token.standsFor_escape hquote s.toList (c :: cs)
  rw [IsNext, hcs, List.cons_append, List.append_assoc, List.singleton_append,
    Token.first?_quote hquote htext]
  simp

end Word

/-- The digits of a decimal without sign: there is no point, or digits stand on both sides of it. -/
theorem Decimal.unsignedChars_cases (d : Decimal) :
    d.unsignedChars = digits d.unscaled.natAbs ∨
      ∃ ds fs, d.unsignedChars = ds ++ '.' :: fs ∧ ds ≠ [] ∧ (∀ c ∈ ds, c.isDigit = true) ∧
        fs ≠ [] ∧ ∀ c ∈ fs, c.isDigit = true := by
  rw [unsignedChars]
  split
  case isTrue => exact .inl rfl
  case isFalse hscale =>
    have hlength := d.scale_lt_length_padded
    have hpos : d.scale.toNat ≠ 0 := fun h => hscale (UInt32.toNat_inj.mp h)
    refine .inr ⟨d.padded.take (d.padded.length - d.scale.toNat),
      d.padded.drop (d.padded.length - d.scale.toNat), rfl, ?_,
      fun c hc => isDigit_of_mem_padded (List.mem_of_mem_take hc), ?_,
      fun c hc => isDigit_of_mem_padded (List.mem_of_mem_drop hc)⟩
    · rw [← List.length_pos_iff, List.length_take]
      omega
    · rw [← List.length_pos_iff, List.length_drop]
      omega

/-- A number without sign is lexed as a number. -/
theorem Word.lexes_number {d : Decimal} (h : 0 ≤ d.unscaled) : Lexes ⟨.number, d.text⟩ := by
  have hcs : d.text.toList = d.unsignedChars := by
    rw [Decimal.text, String.toList_ofList, Decimal.chars, if_neg (Int.not_lt.mpr h)]
  have hnumeral : ∀ {c}, IsGap c → ∀ cs,
      numeral (d.unsignedChars ++ c :: cs) = some d.unsignedChars.length := by
    intro c hc cs
    rcases d.unsignedChars_cases with h | ⟨ds, fs, h, hne, hds, hne', hfs⟩
    · rw [h]
      exact numeral_digits (digits_ne_nil _) (fun _ => isDigit_of_mem_digits) hc cs
    · rw [h]
      exact numeral_fraction hne hds hne' hfs hc cs
  have hfirst : ∃ a as, d.unsignedChars = a :: as ∧ a.isDigit = true := by
    rcases d.unsignedChars_cases with h | ⟨ds, fs, h, hne, hds, -⟩
    · obtain ⟨a, as, has⟩ := List.exists_cons_of_ne_nil (digits_ne_nil d.unscaled.natAbs)
      exact ⟨a, as, h.trans has, isDigit_of_mem_digits (by rw [has]; exact List.mem_cons_self)⟩
    · obtain ⟨a, as, rfl⟩ := List.exists_cons_of_ne_nil hne
      exact ⟨a, _, h, hds a List.mem_cons_self⟩
  obtain ⟨a, as, has, ha⟩ := hfirst
  have hne : ∀ c, c.isDigit = false → a ≠ c := by
    rintro c hc rfl
    rw [ha] at hc
    cases hc
  refine ⟨⟨rfl, a, as, hcs.trans has, ?_⟩, fun {c} hc cs => ?_⟩
  · simp [layout, hne '\n' rfl, hne ' ' rfl, hne '\t' rfl, hne '\r' rfl]
  have hvalue := hnumeral hc cs
  rw [has, List.cons_append] at hvalue
  obtain ⟨hnewline, htext, hcomment⟩ := layout_eq_none (a := a)
    (by simp [hne '\n' rfl, hne '\r' rfl, hne '"' rfl, hne '\'' rfl, hne '/' rfl]) (as ++ c :: cs)
  rw [IsNext, hcs, has, List.cons_append, Lexer.first?, Lexer.standard]
  simp only [List.findSome?_cons, hnewline, htext, hcomment, hvalue, List.length_cons]

/-! ### Gaps -/

namespace Lexer

/-- A blank is a token of its own where something else follows it. -/
theorem first?_blank {d : Char} (hd : d ∉ Word.layout) (cs : List Char) :
    standard.first? (' ' :: d :: cs) = some (.blank, 1) := by
  have hrun : run (fun c => c == ' ' || c == '\t' || c == '\r') (' ' :: d :: cs) = some 1 := by
    simp only [Word.layout, List.mem_cons, List.not_mem_nil, or_false, not_or] at hd
    rw [run, List.takeWhile_cons_of_pos (by rfl), List.takeWhile_cons_of_neg]
    · rfl
    · simp [hd]
  have hstandard : standard = standard.take 20 ++
      (Tag.blank, run fun c => c == ' ' || c == '\t' || c == '\r') :: standard.drop 21 := rfl
  have hbefore : first? (standard.take 20) (' ' :: d :: cs) = none := by rfl
  rw [first?, hstandard, List.findSome?_append, ← first?, hbefore, List.findSome?_cons]
  simp [hrun]

/-- A line break is a token of its own where no layout follows it. -/
theorem first?_newline {cs : List Char}
    (hcs : ∀ d, cs.head? = some d → d ∉ Word.layout) :
    standard.first? ('\n' :: cs) = some (.newline, 1) := by
  have hrun : Token.newlineRun? ('\n' :: cs) = some 1 := by
    rw [Token.newlineRun?]
    cases cs with
    | nil => rfl
    | cons d cs =>
      have hd := hcs d rfl
      simp only [Word.layout, List.mem_cons, List.not_mem_nil, or_false, not_or] at hd
      obtain ⟨hnewline, hblank, htab, hreturn⟩ := hd
      rw [Token.lastBreak]
      · exact fun _ h => hnewline (List.cons.inj h).1
      · exact fun _ h => hblank (List.cons.inj h).1
      · exact fun _ h => htab (List.cons.inj h).1
      · exact fun _ h => hreturn (List.cons.inj h).1
  rw [first?, standard, List.findSome?_cons]
  simp only [hrun]

end Lexer

end StackScript
