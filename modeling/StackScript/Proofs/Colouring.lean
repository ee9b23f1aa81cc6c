import StackScript.Proofs.Lossless
import StackScript.Terminal.Highlight

/-!
# StackScript.Proofs.Colouring — colours add nothing but escape sequences

A terminal takes an escape sequence for an order and shows the other characters.  What a text shows
does not depend on what follows it (`Shows`), so a highlighted line shows what its pieces show, one
after the other; the pieces are the tokens and the rest behind them, and these are the line.

Nothing is said of how a terminal marks a colour but that it puts one escape sequence before the
text and one after it (`Color.Wraps`).
-/

namespace StackScript

/-! ### What a text shows -/

namespace Text

theorem takeBytes_zero (cs : List Char) : takeBytes 0 cs = [] := by
  cases cs with
  | nil => rfl
  | cons c cs => exact if_neg (Nat.not_le_of_lt c.utf8Size_pos)

theorem dropBytes_byteLength (cs ds : List Char) : dropBytes (byteLength cs) (cs ++ ds) = ds := by
  induction cs with
  | nil =>
    cases ds with
    | nil => rfl
    | cons d ds => exact if_neg (Nat.not_le_of_lt d.utf8Size_pos)
  | cons c cs ih =>
    rw [byteLength_cons, List.cons_append, dropBytes, if_pos (Nat.le_add_right _ _),
      Nat.add_sub_cancel_left, ih]

/-- The character that begins an escape sequence. -/
def escape : Char := '\x1b'

/-- The characters outside escape sequences, if reading begins inside one or not.  A sequence ends
with the next `m`. -/
def outside (inside : Bool) : List Char → List Char
  | [] => []
  | c :: cs =>
    if inside then outside (c != 'm') cs
    else if c = escape then outside true cs
    else c :: outside false cs

/-- A text without its escape sequences. -/
def withoutEscapes (s : String) : String := String.ofList (outside false s.toList)

/-- An escape sequence from its first character to its last. -/
def IsEscape (s : String) : Prop := ∃ body, 'm' ∉ body ∧ s.toList = escape :: (body ++ ['m'])

/-- Whatever comes after the first text, it shows the second one. -/
def Shows (s t : String) : Prop :=
  ∀ after, outside false (s.toList ++ after) = t.toList ++ outside false after

theorem outside_body {body : List Char} (h : 'm' ∉ body) (after : List Char) :
    outside true (body ++ 'm' :: after) = outside false after := by
  induction body with
  | nil => rfl
  | cons c body ih =>
    obtain ⟨hc, hbody⟩ := not_or.mp (mt List.mem_cons.mpr h)
    have hm : (c != 'm') = true := bne_iff_ne.mpr (Ne.symm hc)
    rw [List.cons_append, outside, if_pos rfl, hm]
    exact ih hbody

theorem IsEscape.shows {s : String} (h : IsEscape s) : Shows s "" := by
  intro after
  obtain ⟨body, hbody, hs⟩ := h
  rw [hs, List.cons_append, List.append_assoc]
  exact outside_body hbody after

theorem shows_self {s : String} (h : escape ∉ s.toList) : Shows s s := by
  intro after
  generalize s.toList = cs at h
  induction cs with
  | nil => rfl
  | cons c cs ih =>
    obtain ⟨hc, hcs⟩ := not_or.mp (mt List.mem_cons.mpr h)
    rw [List.cons_append, outside, if_neg Bool.false_ne_true, if_neg (Ne.symm hc), ih hcs]
    rfl

theorem Shows.append {s s' t t' : String} (h : Shows s t) (h' : Shows s' t') :
    Shows (s ++ s') (t ++ t') := by
  intro after
  rw [String.toList_append, List.append_assoc, h, h', String.toList_append, List.append_assoc]

theorem shows_join {α : Type} {f g : α → String} {as : List α} (h : ∀ a ∈ as, Shows (f a) (g a)) :
    Shows (String.join (as.map f)) (String.join (as.map g)) := by
  induction as with
  | nil => exact shows_self List.not_mem_nil
  | cons a as ih =>
    rw [List.map_cons, String.join_cons, List.map_cons, String.join_cons]
    exact (h a List.mem_cons_self).append (ih fun b hb => h b (List.mem_cons_of_mem a hb))

theorem Shows.withoutEscapes_eq {s t : String} (h : Shows s t) : withoutEscapes s = t := by
  have hs := h []
  rw [List.append_nil] at hs
  rw [withoutEscapes, hs, outside, List.append_nil, String.ofList_toList]

end Text

/-! ### Texts in a colour -/

namespace Color

open Text

/-- A colour other than plain is shown by an escape sequence before the text and one after it. -/
def Wraps (paint : Color → String → String) : Prop :=
  ∀ color ≠ plain, ∃ start stop, IsEscape start ∧ IsEscape stop ∧
    ∀ s, paint color s = start ++ s ++ stop

theorem Wraps.shows {paint : Color → String → String} (hpaint : Wraps paint) {color : Color}
    (hcolor : color ≠ plain) {s : String} (hs : escape ∉ s.toList) : Shows (paint color s) s := by
  obtain ⟨start, stop, hstart, hstop, hwraps⟩ := hpaint color hcolor
  have hall := (hstart.shows.append (shows_self hs)).append hstop.shows
  rwa [String.empty_append, String.append_empty, ← hwraps] at hall

theorem isEscape_escapeSequence (mode : Nat) : IsEscape (escapeSequence mode) := by
  refine ⟨'[' :: Nat.toDigits 10 mode, ?_, ?_⟩
  · intro hm
    rcases List.mem_cons.mp hm with hm | hm
    · exact absurd hm (by decide)
    · exact absurd (Nat.isDigit_of_mem_toDigits (by decide) (by decide) hm) (by decide)
  · rw [escapeSequence, Nat.toString_eq_repr, String.toList_append, String.toList_append,
      Nat.toList_repr]
    rfl

theorem wraps_paint : Wraps paint := by
  intro color hcolor
  obtain ⟨mode, hmode⟩ : ∃ mode, color.mode? = some mode := by
    cases color <;> first | exact absurd rfl hcolor | exact ⟨_, rfl⟩
  refine ⟨escapeSequence mode, escapeSequence 39, isEscape_escapeSequence mode,
    isEscape_escapeSequence 39, fun s => ?_⟩
  rw [paint, hmode]

end Color

/-! ### Lines -/

open Text

/-- The text of tokens. -/
def Token.written (tokens : List Token) : String := String.join (tokens.map Token.text)

@[simp] theorem Token.written_nil : Token.written [] = "" := String.join_nil

@[simp] theorem Token.written_cons (t : Token) (ts : List Token) :
    Token.written (t :: ts) = t.text ++ Token.written ts := String.join_cons

theorem Token.not_mem_text {c : Char} {tokens : List Token}
    (h : c ∉ (Token.written tokens).toList) : ∀ t ∈ tokens, c ∉ t.text.toList := by
  intro t ht hc
  rw [Token.written, String.toList_join] at h
  exact h (List.mem_flatMap.mpr ⟨t.text, List.mem_map_of_mem ht, hc⟩)

namespace Lexer

theorem scan_written (lexer : Lexer) (offset line : Nat) (cs : List Char) :
    let lexed := lexer.scan offset line cs
    ∃ rest, cs = (Token.written lexed.tokens).toList ++ rest ∧
      match lexed.failure with
      | none => rest = []
      | some d => rest ≠ [] ∧ ∃ line' snippet,
          d = .lexical line' (offset + byteLength (Token.written lexed.tokens).toList) snippet := by
  fun_induction lexer.scan offset line cs with
  | case1 => exact ⟨[], rfl, rfl⟩
  | case2 offset line cs hcs =>
    -- no recognizer makes progress here, and nothing is taken
    exact ⟨cs, rfl, hcs, line, _, rfl⟩
  | case3 offset line cs _ tag n _ text stop after ih =>
    obtain ⟨rest, hrest, hfailure⟩ := ih
    refine ⟨rest, ?_, ?_⟩
    · rw [Token.written_cons, String.toList_append, String.toList_ofList, List.append_assoc,
        ← hrest]
      exact (List.take_append_drop n cs).symm
    · rw [Token.written_cons, String.toList_append, String.toList_ofList, byteLength_append,
        ← Nat.add_assoc]
      exact hfailure

/-- A lexer takes the text before the place where it stops, and fails there if any is left. -/
theorem scanSource_written (lexer : Lexer) (source : String) :
    let lexed := lexer.scanSource source
    ∃ rest, source = Token.written lexed.tokens ++ rest ∧
      match lexed.failure with
      | none => rest = ""
      | some d => rest ≠ "" ∧ ∃ line snippet,
          d = .lexical line (bytes (Token.written lexed.tokens)).length snippet := by
  generalize hlexed : lexer.scanSource source = lexed
  rw [scanSource] at hlexed
  obtain ⟨rest, hsource, hfailure⟩ := lexer.scan_written 0 1 source.toList
  rw [hlexed] at hsource hfailure
  refine ⟨String.ofList rest, ?_, ?_⟩
  · rw [← String.toList_inj, String.toList_append, String.toList_ofList]
    exact hsource
  · cases hresult : lexed.failure with
    | none =>
      rw [hresult] at hfailure
      exact congrArg String.ofList hfailure
    | some d =>
      rw [hresult, Nat.zero_add, ← length_bytes] at hfailure
      exact ⟨mt String.ofList_eq_empty_iff.mp hfailure.1, hfailure.2⟩

end Lexer

namespace Theme

variable {paint : Color → String → String}

theorem shows_paintToken (hpaint : Color.Wraps paint) (theme : Theme) {t : Token}
    (ht : escape ∉ t.text.toList) : Shows (theme.paintToken paint t) t.text := by
  unfold paintToken
  dsimp only
  split
  · exact shows_self ht
  · rename_i hcolor
    exact hpaint.shows hcolor ht

/-- Tokens that are next to each other have nothing between them. -/
theorem highlightFrom_of_contiguous (paint : Color → String → String) (theme : Theme)
    (failed : Bool) (rest : String) {tokens : List Token} {past : List Char}
    (hcontiguous : Lexer.Contiguous (byteLength past) tokens)
    (hstop : ∀ t ∈ tokens, t.span.stop = t.span.start + byteLength t.text.toList) :
    theme.highlightFrom paint (past ++ ((Token.written tokens).toList ++ rest.toList)) failed
        (byteLength past) tokens =
      String.join (tokens.map (theme.paintToken paint)) ++
        if failed then paint .red rest else rest := by
  induction tokens generalizing past with
  | nil =>
    rw [highlightFrom, Token.written_nil, String.toList_empty, List.nil_append,
      dropBytes_byteLength, String.ofList_toList, List.map_nil, String.join_nil,
      String.empty_append]
  | cons t ts ih =>
    obtain ⟨hstart, hnext⟩ := hcontiguous
    obtain ⟨hend, hstop⟩ := List.forall_mem_cons.mp hstop
    have hpast : t.span.stop = byteLength (past ++ t.text.toList) := by
      rw [hend, hstart, byteLength_append]
    rw [hpast] at hnext
    have hrest := ih hnext hstop
    -- the token stands where the one before it ends: what is shown before it is empty
    rw [highlightFrom, hstart, Nat.sub_self, takeBytes_zero, String.ofList_nil,
      String.empty_append, hpast, List.map_cons, String.join_cons, String.append_assoc, ← hrest,
      Token.written_cons, String.toList_append]
    simp only [List.append_assoc]

/-- What is highlighted is the tokens in their colours and then the rest. -/
theorem highlightWith_eq (paint : Color → String → String) (theme : Theme) {line rest : String}
    {lexed : Lexed} (hlexed : Lexer.standard.scanSource line = lexed)
    (hline : line = Token.written lexed.tokens ++ rest) :
    theme.highlightWith paint line =
      String.join (lexed.tokens.map (theme.paintToken paint)) ++
        if lexed.failure.isSome then paint .red rest else rest := by
  subst hlexed
  obtain ⟨hcarries, hcontiguous, -⟩ := Lexer.scan_spec Lexer.standard_within [] line.toList
  have hchars := congrArg String.toList hline
  rw [String.toList_append] at hchars
  refine Eq.trans ?_ (highlightFrom_of_contiguous paint theme _ rest hcontiguous fun t ht => ?_)
  · rw [highlightWith, List.nil_append]
    exact congrArg (theme.highlightFrom paint · _ 0 _) hchars
  · rw [(hcarries t ht).stop_eq, length_bytes]

/-- Tokens in their colours show their text. -/
theorem shows_tokens (hpaint : Color.Wraps paint) (theme : Theme) {tokens : List Token}
    (h : escape ∉ (Token.written tokens).toList) :
    Shows (String.join (tokens.map (theme.paintToken paint))) (Token.written tokens) :=
  shows_join fun t ht => shows_paintToken hpaint theme (Token.not_mem_text h t ht)

theorem shows_highlightWith (hpaint : Color.Wraps paint) (theme : Theme) {line : String}
    (hline : escape ∉ line.toList) : Shows (theme.highlightWith paint line) line := by
  generalize hlexed : Lexer.standard.scanSource line = lexed
  obtain ⟨rest, hsplit, -⟩ := Lexer.standard.scanSource_written line
  rw [hlexed] at hsplit
  rw [highlightWith_eq paint theme hlexed hsplit]
  rw [hsplit, String.toList_append, List.mem_append, not_or] at hline
  conv => rhs; rw [hsplit]
  refine (shows_tokens hpaint theme hline.1).append ?_
  have hred : Color.red ≠ .plain := by decide
  split
  · exact hpaint.shows hred hline.2
  · exact shows_self hline.2

/-- Highlighting only adds colours: without the escape sequences a line is what it was.  All of it
are tokens, each in its colour, or the lexer fails, and what is red behind the tokens is the line
from the place of the failure on. -/
theorem highlighting_only_adds_colour (hpaint : Color.Wraps paint) (theme : Theme) {line : String}
    (hline : escape ∉ line.toList) :
    withoutEscapes (theme.highlightWith paint line) = line ∧
      let lexed := Lexer.standard.scanSource line
      let shown := String.join (lexed.tokens.map (theme.paintToken paint))
      match lexed.failure with
      | none => theme.highlightWith paint line = shown
      | some d => ∃ lineNumber offset snippet past rest,
          d = .lexical lineNumber offset snippet ∧ line = past ++ rest ∧
            (bytes past).length = offset ∧ rest ≠ "" ∧
            theme.highlightWith paint line = shown ++ paint .red rest ∧
            withoutEscapes shown = past := by
  refine ⟨(shows_highlightWith hpaint theme hline).withoutEscapes_eq, ?_⟩
  intro lexed shown
  obtain ⟨rest, hsplit, hfailure⟩ := Lexer.standard.scanSource_written line
  have hhighlight : theme.highlightWith paint line = _ := highlightWith_eq paint theme rfl hsplit
  cases hresult : lexed.failure with
  | none =>
    rw [hresult] at hfailure hhighlight
    rw [hhighlight, hfailure]
    exact String.append_empty
  | some d =>
    rw [hresult] at hfailure hhighlight
    obtain ⟨hrest, lineNumber, snippet, rfl⟩ := hfailure
    have hshown : Shows shown (Token.written lexed.tokens) := by
      refine shows_tokens hpaint theme fun hescape => hline ?_
      rw [hsplit, String.toList_append]
      exact List.mem_append_left _ hescape
    exact ⟨lineNumber, _, snippet, _, rest, rfl, hsplit, rfl, hrest, hhighlight,
      hshown.withoutEscapes_eq⟩

/-- The shell shows `x $y` with the end in red, where no token begins. -/
theorem highlighting_only_adds_colour_unreadable :
    let line := "x $y"
    let shown := String.join
      ((Lexer.standard.scanSource line).tokens.map (standard.paintToken Color.paint))
    Color.Wraps Color.paint ∧ escape ∉ line.toList ∧
      withoutEscapes (standard.highlight line) = line ∧
      ∃ past rest, line = past ++ rest ∧ (bytes past).length = 2 ∧ rest ≠ "" ∧
        standard.highlight line = shown ++ Color.red.paint rest ∧ withoutEscapes shown = past := by
  intro line shown
  have hescape : escape ∉ line.toList := by decide
  have hfailure : (Lexer.standard.scanSource line).failure = some (.lexical 1 2 "$y") := by
    decide +kernel
  obtain ⟨hline, hred⟩ := highlighting_only_adds_colour Color.wraps_paint standard hescape
  simp only [hfailure] at hred
  obtain ⟨lineNumber, offset, snippet, past, rest, hd, hsplit, hoffset, hrest⟩ := hred
  cases hd
  exact ⟨Color.wraps_paint, hescape, hline, past, rest, hsplit, hoffset, hrest⟩

end Theme

end StackScript
