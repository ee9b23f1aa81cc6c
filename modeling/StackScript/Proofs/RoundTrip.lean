import StackScript.Proofs.Rebuilding
import StackScript.Proofs.Scanning

/-!
# StackScript.Proofs.RoundTrip — written programs are read back

The tokens with the words of a program derive its statements, each in a chunk of its own.  So the
parse of the text of a program gives the program, with the lines where it stands in the text.
-/

namespace StackScript

open Leaf Word

/-! ### Parsing what is written -/

/-- Where no row begins with a parenthesis or a sign, the leaves of the rows are apart. -/
theorem Leaf.apart_ofLines {rows : List (List Token)} {wss : List (List Word)}
    (h : SpellsRows rows wss) (hw : wss.all canBegin = true) (broken : Bool) :
    Apart (ofLines broken rows) := by
  have hrow : ∀ {row ws}, Spells row ws → canBegin ws = true →
      ∀ broken, Apart (ofRow broken row) := by
    intro row ws hrow hbegin broken l hl hbroken
    cases row with
    | nil => cases hl
    | cons t ts =>
      rw [ofRow_cons] at hl
      rcases List.mem_cons.mp hl with rfl | hl
      · subst hrow
        simpa [canBegin, Token.word] using hbegin
      · exact apart_ofRow ts l hl hbroken
  induction rows generalizing wss broken with
  | nil => exact fun _ hl => absurd hl List.not_mem_nil
  | cons row rows ih =>
    subst h
    rw [List.map_cons, List.all_cons, Bool.and_eq_true] at hw
    have hrest := ih rfl hw.2 true
    rw [ofLines_true] at hrest
    rw [ofLines_cons]
    exact fun l hl => (List.mem_append.mp hl).elim (hrow rfl hw.1 broken l) (hrest l)

/-- Whatever source has the rows of these statements, its parse gives the statements, lines apart,
and reports nothing, as long as the passes end before the limit. -/
theorem Writable.parse {ss : List Stmt} (h : Writable ss) {tokens : List Token}
    (hrows : SpellsRows (Token.rows tokens) (Stmt.rowsAll ss))
    (hlimit : (Grammar.standard.reduce (Parsing.start tokens)).2 < Grammar.standard.maxPasses) :
    (Grammar.standard.parse tokens).root.unlined = (Block.mk 1 ss).unlined ∧
      (Grammar.standard.parse tokens).record.diagnostics = [] := by
  have hleaves : ∃ broken, ofTokens tokens = ofLines broken (Token.rows tokens) := by
    cases hlist : Token.rows tokens with
    | nil => exact ⟨true, ofTokens_of_rows_eq_nil hlist⟩
    | cons row rows => exact ofTokens_rows hlist
  obtain ⟨broken, hleaves⟩ := hleaves
  obtain ⟨cs, hcs⟩ := Stmt.rebuildsAll ss h.writable broken _ hrows
  have hreading : Reading [] cs (ofTokens tokens) := by
    rw [hleaves]
    exact ⟨hcs.forest, hcs.chunks, apart_ofLines hrows h.apart broken⟩
  obtain ⟨hroot, hclean⟩ := hreading.parse hlimit
  refine ⟨?_, hclean⟩
  rw [hroot, unlined_blockOf, hcs.statements]
  rfl

namespace Grammar

/-- The statements of a program survive.  The text of statements is lexed to tokens with their rows.
And wherever tokens have these rows, whatever layout there is, the parse gives the statements, lines
apart, and reports nothing, as long as the passes end before the limit. -/
theorem parse_reads_back {ss : List Stmt} (h : Writable ss) :
    (∃ tokens, Lexer.standard.tokenize (Stmt.text ss) = .ok tokens ∧
      SpellsRows (Token.rows tokens) (Stmt.rowsAll ss)) ∧
    ∀ tokens, SpellsRows (Token.rows tokens) (Stmt.rowsAll ss) →
      (standard.reduce (Parsing.start tokens)).2 < standard.maxPasses →
        (standard.parse tokens).root.unlined = (Block.mk 1 ss).unlined ∧
          (standard.parse tokens).record.diagnostics = [] :=
  ⟨Stmt.tokenize_text h.writable, fun _ => h.parse⟩

/-- A branch with a bare `return` and an `else`, in another layout than that of its text. -/
theorem parse_reads_back_otherwise : ∃ tokens,
    Lexer.standard.tokenize "if a \x7b\n  return\n\x7d else \x7b\n  f(-b) // c\n\n\x7d" =
      .ok tokens ∧
    (standard.parse tokens).root.unlined = .mk 0 [.branch 0 (.variable 0 "a" none)
      (.mk 0 [.returns 0 none]) (.otherwise (.mk 0
        [.value (.call 0 "f" [.unary 0 .negative (.variable 0 "b" none)])]))] ∧
    (standard.parse tokens).record.diagnostics = [] := by
  let ss : List Stmt := [.branch 1 (.variable 1 "a" none) (.mk 2 [.returns 2 none])
    (.otherwise (.mk 4 [.value (.call 4 "f" [.unary 4 .negative (.variable 4 "b" none)])]))]
  let source := "if a \x7b\n  return\n\x7d else \x7b\n  f(-b) // c\n\n\x7d"
  let tokens := (Lexer.standard.scanSource source).tokens
  have hwritable : Writable ss := ⟨by decide, by decide⟩
  -- decided together, since each part goes through the lexer
  have hall : (Lexer.standard.scanSource source).failure = none ∧
      (Token.rows tokens).map (List.map Token.word) = Stmt.rowsAll ss ∧
      (standard.reduce (Parsing.start tokens)).2 < standard.maxPasses := by
    simp only [tokens, source]
    rw [Parsing.start, Stream.prepare_eq_inked]
    decide +kernel
  obtain ⟨hfailure, hrows, hlimit⟩ := hall
  obtain ⟨-, hparse⟩ := parse_reads_back hwritable
  obtain ⟨hroot, hclean⟩ := hparse tokens hrows hlimit
  exact ⟨tokens, Lexer.tokenize_of_scanSource rfl hfailure, hroot, hclean⟩

/-- Maps have no written form, since a key can keep a map from being read: `return` before a map is
taken for one without a value while a call in the map waits for its reduction, and is not if there is
a number in place of the call. -/
theorem map_of_a_call_is_not_returned : ∃ ts us : List Token,
    Lexer.standard.tokenize "func g() \x7b return \x7b1: 2\x7d \x7d" = .ok ts ∧
    Lexer.standard.tokenize "func g() \x7b return \x7bf(): 2\x7d \x7d" = .ok us ∧
    (standard.parse ts).record.diagnostics = [] ∧
    (standard.parse us).record.diagnostics = [.unexpected "declare_function" 1] := by
  let withNumber := "func g() \x7b return \x7b1: 2\x7d \x7d"
  let withCall := "func g() \x7b return \x7bf(): 2\x7d \x7d"
  let ts := (Lexer.standard.scanSource withNumber).tokens
  let us := (Lexer.standard.scanSource withCall).tokens
  have hnumber : (Lexer.standard.scanSource withNumber).failure = none ∧
      (standard.parse ts).record.diagnostics = [] := by
    simp only [ts, withNumber]
    rw [parse, Parsing.start, Stream.prepare_eq_inked]
    decide +kernel
  have hcall : (Lexer.standard.scanSource withCall).failure = none ∧
      (standard.parse us).record.diagnostics = [.unexpected "declare_function" 1] := by
    simp only [us, withCall]
    rw [parse, Parsing.start, Stream.prepare_eq_inked]
    decide +kernel
  exact ⟨ts, us, Lexer.tokenize_of_scanSource rfl hnumber.1,
    Lexer.tokenize_of_scanSource rfl hcall.1, hnumber.2, hcall.2⟩

end Grammar

end StackScript
