import StackScript.Proofs.Lexed
import StackScript.Proofs.Rows
import StackScript.Proofs.Spelling

/-!
# StackScript.Proofs.Scanning — rows are lexed to their words

The lexer goes through the text of a row word by word: after each comes a gap, which ends it.  So
what is lexed from the text of statements has the words of their rows (`Stmt.tokenize_text`).
-/

namespace StackScript

/-! ### Lexing rows -/

namespace Word

/-- Each word of the row is the next token where it stands. -/
def RowLexes : List Word → Prop
  | [] => False
  | [w] => w.Plain ∧ ∀ cs, w.IsNext ('\n' :: cs)
  | w :: v :: ws => w.Plain ∧ (∀ cs, w.IsNext (' ' :: (v.text.toList ++ cs))) ∧ RowLexes (v :: ws)

theorem rowLexes_of_lexes {row : List Word} (hne : row ≠ []) (h : ∀ w ∈ row, w.Lexes) :
    RowLexes row := by
  induction row with
  | nil => exact absurd rfl hne
  | cons w ws ih =>
    obtain ⟨hw, hws⟩ := List.forall_mem_cons.mp h
    cases ws with
    | nil => exact ⟨hw.toPlain, hw.isNext (.inr rfl)⟩
    | cons v ws =>
      exact ⟨hw.toPlain, fun _ => hw.isNext (.inl rfl) _, ih (List.cons_ne_nil _ _) hws⟩

theorem line_single (w : Word) : line [w] = w.text.toList ++ ['\n'] := by
  simp [line, List.intercalate]

theorem line_cons (w v : Word) (ws : List Word) :
    line (w :: v :: ws) = w.text.toList ++ ' ' :: line (v :: ws) := by
  simp [line, List.intercalate]

/-- The text of a row begins with its first word. -/
theorem exists_line (w : Word) (ws : List Word) : ∃ cs, line (w :: ws) = w.text.toList ++ cs := by
  cases ws with
  | nil => exact ⟨_, line_single w⟩
  | cons v ws => exact ⟨_, line_cons w v ws⟩

theorem RowLexes.plain {w : Word} {ws : List Word} (h : RowLexes (w :: ws)) : w.Plain := by
  cases ws <;> exact h.1

theorem begins_line {row : List Word} (h : RowLexes row) (cs : List Char) :
    Begins (line row ++ cs) := by
  cases row with
  | nil => exact h.elim
  | cons w ws =>
    obtain ⟨rest, hline⟩ := exists_line w ws
    obtain ⟨d, ds, hcs, hd⟩ := h.plain.begins
    exact ⟨d, _, by rw [hline, hcs]; rfl, hd⟩

end Word

namespace Token

theorem split_newline {t : Token} (h : t.tag = .newline) (ts : List Token) :
    split (t :: ts) = ([], (split ts).1 :: (split ts).2) := by
  rw [split]
  exact if_pos h

theorem split_blank {t : Token} (h : t.tag = .blank) (ts : List Token) :
    split (t :: ts) = split ts := by
  have hnewline : t.tag ≠ .newline := by
    rw [h]
    decide
  rw [split]
  dsimp only
  rw [if_neg hnewline, if_pos (.inl h)]

theorem split_solid {t : Token} (h : t.tag.isLayout = false) (ts : List Token) :
    split (t :: ts) = (t :: (split ts).1, (split ts).2) := by
  have hne : ∀ tag : Tag, tag.isLayout = true → t.tag ≠ tag := by
    rintro tag htag rfl
    rw [h] at htag
    cases htag
  rw [split]
  dsimp only
  rw [if_neg (hne _ rfl), if_neg (not_or.mpr ⟨hne _ rfl, hne _ rfl⟩)]

end Token

namespace Lexer

/-- The next token is lexed, and then what follows it. -/
theorem scan_isNext {w : Word} {cs : List Char} (h : w.IsNext cs) (offset line : Nat) :
    ∃ t offset' line', t.word = w ∧ standard.scan offset line (w.text.toList ++ cs) =
      ⟨t :: (standard.scan offset' line' cs).tokens, (standard.scan offset' line' cs).failure⟩ := by
  refine ⟨_, _, _, ?_, scan_of_first?_eq_some h⟩
  rw [Token.word, String.ofList_toList]

/-- A row is lexed to its words, and the line break after it begins a row. -/
theorem scan_line {row : List Word} (h : Word.RowLexes row) {cs : List Char}
    (hcs : ∀ d, cs.head? = some d → d ∉ Word.layout) (offset line : Nat) :
    ∃ ts offset' line', Spells ts row ∧
      (standard.scan offset line (Word.line row ++ cs)).failure =
        (standard.scan offset' line' cs).failure ∧
      Token.split (standard.scan offset line (Word.line row ++ cs)).tokens =
        (ts, (Token.split (standard.scan offset' line' cs).tokens).1 ::
          (Token.split (standard.scan offset' line' cs).tokens).2) := by
  match row, h with
  | [w], ⟨hw, hnext⟩ =>
    obtain ⟨t, offset₁, line₁, ht, hscan⟩ := scan_isNext (hnext cs) offset line
    obtain ⟨n, offset₂, line₂, hn, hscan'⟩ :=
      scan_isNext (w := ⟨.newline, "\n"⟩) (first?_newline hcs) offset₁ line₁
    have hsplit : Word.line [w] ++ cs = w.text.toList ++ '\n' :: cs := by
      rw [Word.line_single, List.append_assoc, List.singleton_append]
    have hnewline : standard.scan offset₁ line₁ ('\n' :: cs) = _ := hscan'
    refine ⟨[t], offset₂, line₂, congrArg (fun w => [w]) ht, ?_⟩
    rw [hsplit, hscan, hnewline]
    refine ⟨rfl, ?_⟩
    rw [Token.split_solid (Token.tag_of_word ht ▸ hw.solid),
      Token.split_newline (Token.tag_of_word hn)]
  | w :: v :: ws, ⟨hw, hnext, hrow⟩ =>
    obtain ⟨d, ds, hline, hd⟩ := Word.begins_line hrow cs
    have hfollow : w.IsNext (' ' :: (Word.line (v :: ws) ++ cs)) := by
      obtain ⟨rest, hrest⟩ := Word.exists_line v ws
      rw [hrest, List.append_assoc]
      exact hnext (rest ++ cs)
    obtain ⟨t, offset₁, line₁, ht, hscan⟩ := scan_isNext hfollow offset line
    have hblank : Word.IsNext ⟨.blank, " "⟩ (Word.line (v :: ws) ++ cs) := by
      rw [hline]
      exact first?_blank hd ds
    obtain ⟨b, offset₂, line₂, hb, hscan'⟩ := scan_isNext hblank offset₁ line₁
    obtain ⟨ts, offset', line', hts, hfailure, hsplit⟩ := scan_line hrow hcs offset₂ line₂
    have hgap : standard.scan offset₁ line₁ (' ' :: (Word.line (v :: ws) ++ cs)) = _ := hscan'
    have hwords : Word.line (w :: v :: ws) ++ cs =
        w.text.toList ++ ' ' :: (Word.line (v :: ws) ++ cs) := by
      rw [Word.line_cons, List.append_assoc, List.cons_append]
    refine ⟨t :: ts, offset', line', ?_, ?_⟩
    · rw [Spells, List.map_cons, ht, hts]
    · rw [hwords, hscan, hgap]
      refine ⟨hfailure, ?_⟩
      rw [Token.split_solid (Token.tag_of_word ht ▸ hw.solid),
        Token.split_blank (Token.tag_of_word hb), hsplit]

/-- Rows are lexed to their words. -/
theorem scan_lines {rows : List (List Word)} (h : ∀ row ∈ rows, Word.RowLexes row)
    (offset line : Nat) :
    ∃ tss, SpellsRows tss rows ∧
      (standard.scan offset line (rows.flatMap Word.line)).failure = none ∧
      (Token.split (standard.scan offset line (rows.flatMap Word.line)).tokens).1 ::
        (Token.split (standard.scan offset line (rows.flatMap Word.line)).tokens).2 =
          tss ++ [[]] := by
  induction rows generalizing offset line with
  | nil =>
    have hend : standard.scan offset line [] = ⟨[], none⟩ := by rw [scan, dif_pos rfl]
    rw [List.flatMap_nil, hend]
    exact ⟨[], rfl, rfl, rfl⟩
  | cons row rows ih =>
    obtain ⟨hrow, hrows⟩ := List.forall_mem_cons.mp h
    have hbegins : ∀ d, (rows.flatMap Word.line).head? = some d → d ∉ Word.layout := by
      intro d hd
      cases rows with
      | nil => cases hd
      | cons row' rows =>
        obtain ⟨d', ds, hcs, hd'⟩ :=
          Word.begins_line (hrows row' List.mem_cons_self) (rows.flatMap Word.line)
        rw [List.flatMap_cons, hcs] at hd
        obtain rfl := Option.some.inj hd
        exact hd'
    obtain ⟨ts, offset', line', hts, hfailure, hsplit⟩ := scan_line hrow hbegins offset line
    obtain ⟨tss, htss, hfailure', hsplit'⟩ := ih hrows offset' line'
    rw [List.flatMap_cons, hfailure, hsplit]
    refine ⟨ts :: tss, ?_, hfailure', ?_⟩
    · rw [SpellsRows, List.map_cons, htss]
      exact congrArg (· :: rows) hts
    · rw [hsplit']
      rfl

end Lexer

/-! ### The words of statements are lexed -/

namespace Word

/-- All words are lexed. -/
def AllLex (ws : List Word) : Prop := ∀ w ∈ ws, w.Lexes

theorem AllLex.cons {w : Word} {ws : List Word} (hw : w.Lexes) (hws : AllLex ws) :
    AllLex (w :: ws) := List.forall_mem_cons.mpr ⟨hw, hws⟩

theorem AllLex.append {ws vs : List Word} (hws : AllLex ws) (hvs : AllLex vs) :
    AllLex (ws ++ vs) := List.forall_mem_append.mpr ⟨hws, hvs⟩

theorem AllLex.nil : AllLex [] := fun _ h => absurd h List.not_mem_nil

theorem AllLex.single {w : Word} (hw : w.Lexes) : AllLex [w] := .cons hw .nil

theorem AllLex.operand {least level : Nat} {ws : List Word} (h : AllLex ws) :
    AllLex (operand least level ws) := by
  rw [Word.operand]
  split
  · exact h
  · exact .cons (lexes_fixed (by decide)) (h.append (.single (lexes_fixed (by decide))))

theorem AllLex.separated {wss : List (List Word)} (h : ∀ ws ∈ wss, AllLex ws) :
    AllLex (separated wss) := by
  fun_induction Word.separated wss with
  | case1 => exact .nil
  | case2 ws => exact h ws List.mem_cons_self
  | case3 ws vs wss ih =>
    obtain ⟨hws, hvs⟩ := List.forall_mem_cons.mp h
    exact hws.append (.cons (lexes_fixed (by decide)) (ih hvs))

end Word

open Word

theorem BinaryOp.lexes (op : BinaryOp) : Word.Lexes ⟨op.tag, op.symbol⟩ := by
  refine lexes_fixed ?_
  cases op <;> decide

theorem UnaryOp.lexes (op : UnaryOp) : Word.Lexes ⟨op.tag, op.symbol⟩ := by
  refine lexes_fixed ?_
  cases op <;> decide

/-- The expression has a word. -/
theorem Expr.words_ne_nil {e : Expr} (h : e.writable = true) : e.words ≠ [] := by
  cases e with
  | map => exact absurd h Bool.false_ne_true
  | field | binary | method => exact List.append_ne_nil_of_right_ne_nil _ (List.cons_ne_nil _ _)
  | _ => exact List.cons_ne_nil _ _

mutual

/-- The words of an expression are lexed. -/
theorem Expr.allLex : (e : Expr) → e.writable = true → AllLex e.words
  | .number _ _, h => .single (lexes_number (of_decide_eq_true h))
  | .text _ s, _ => .single (lexes_quoted s)
  | .boolean _ true, _ | .boolean _ false, _ => .single (lexes_fixed (by decide))
  | .null _, _ | .this _, _ | .super _, _ => .single (lexes_fixed (by decide))
  | .list _ items, h =>
    .cons (lexes_fixed (by decide)) ((AllLex.separated (Expr.allLexEach items h)).append
      (.single (lexes_fixed (by decide))))
  | .map .., h => absurd h Bool.false_ne_true
  | .variable _ x _, h => by
    rw [Expr.writable, Bool.and_eq_true] at h
    exact .single (lexes_name h.1)
  | .field _ receiver x, h => by
    rw [Expr.writable, Bool.and_eq_true] at h
    exact (receiver.allLex h.1).operand.append
      (.cons (lexes_fixed (by decide)) (.single (lexes_name h.2)))
  | .binary _ op left right _, h => by
    rw [Expr.writable, Bool.and_eq_true, Bool.and_eq_true] at h
    exact (left.allLex h.1.1).operand.append (.cons op.lexes (right.allLex h.1.2).operand)
  | .unary _ op operand, h => .cons op.lexes (operand.allLex h).operand
  | .call _ x args, h => by
    rw [Expr.writable, Bool.and_eq_true] at h
    exact .cons (lexes_name h.1) (.cons (lexes_fixed (by decide))
      ((AllLex.separated (Expr.allLexEach args h.2)).append (.single (lexes_fixed (by decide)))))
  | .method _ receiver x args, h => by
    rw [Expr.writable, Bool.and_eq_true, Bool.and_eq_true] at h
    exact (receiver.allLex h.1.1).operand.append (.cons (lexes_fixed (by decide))
      (.cons (lexes_name h.1.2) (.cons (lexes_fixed (by decide))
        ((AllLex.separated (Expr.allLexEach args h.2)).append
          (.single (lexes_fixed (by decide)))))))
  | .create _ x args, h => by
    rw [Expr.writable, Bool.and_eq_true] at h
    exact .cons (lexes_fixed (by decide)) (.cons (lexes_name h.1) (.cons (lexes_fixed (by decide))
      ((AllLex.separated (Expr.allLexEach args h.2)).append (.single (lexes_fixed (by decide))))))

/-- The words of each of the expressions are lexed. -/
theorem Expr.allLexEach : (es : List Expr) → Expr.writableAll es = true →
    ∀ ws ∈ Expr.wordsEach es, AllLex ws
  | [], _ => fun _ h => absurd h List.not_mem_nil
  | e :: es, h => by
    rw [Expr.writableAll, Bool.and_eq_true] at h
    exact List.forall_mem_cons.mpr ⟨e.allLex h.1, Expr.allLexEach es h.2⟩

end

namespace Word

/-- A row that begins with a word that is lexed. -/
theorem RowLexes.row {w : Word} {ws : List Word} (hw : w.Lexes) (hws : AllLex ws) :
    RowLexes (w :: ws) := rowLexes_of_lexes (List.cons_ne_nil w ws) (hws.cons hw)

/-- All rows are lexed. -/
def RowsLex (rows : List (List Word)) : Prop := ∀ row ∈ rows, RowLexes row

theorem RowsLex.cons {row : List Word} {rows : List (List Word)} (h : RowLexes row)
    (hs : RowsLex rows) : RowsLex (row :: rows) := List.forall_mem_cons.mpr ⟨h, hs⟩

theorem RowsLex.append {rows rows' : List (List Word)} (h : RowsLex rows) (h' : RowsLex rows') :
    RowsLex (rows ++ rows') := List.forall_mem_append.mpr ⟨h, h'⟩

theorem RowsLex.single {row : List Word} (h : RowLexes row) : RowsLex [row] :=
  List.forall_mem_singleton.mpr h

/-- The row that closes a body. -/
theorem rowsLex_close : RowsLex [[of .rightBrace]] := .single (.row (lexes_fixed (by decide)) .nil)

/-- The row before the body of an `else`, which is not taken for an `else if`. -/
theorem rowLexes_otherwise : RowLexes [of .rightBrace, of .elseWord, of .leftBrace] := by
  have hclose : (of .rightBrace).Lexes := lexes_fixed (by decide)
  have hopen : (of .leftBrace).Lexes := lexes_fixed (by decide)
  exact ⟨hclose.toPlain, fun _ => hclose.isNext (.inl rfl) _,
    ⟨rfl, 'e', _, rfl, by decide⟩, fun _ => rfl, hopen.toPlain,
    hopen.isNext (.inr rfl)⟩

end Word

mutual

/-- The rows of a statement are lexed. -/
theorem Stmt.rowsLex : (s : Stmt) → s.writable = true → RowsLex s.rows
  | .value e, h => .single (rowLexes_of_lexes (Expr.words_ne_nil h) (e.allLex h))
  | .declare _ x none _, h => by
    rw [Stmt.writable, Bool.and_eq_true, Bool.and_eq_true] at h
    exact .single (.row (lexes_fixed (by decide)) (.single (lexes_name h.1.1)))
  | .declare _ x (some e) _, h => by
    rw [Stmt.writable, Bool.and_eq_true, Bool.and_eq_true] at h
    exact .single (.row (lexes_fixed (by decide)) (.cons (lexes_name h.1.1)
      (.cons (lexes_fixed (by decide)) (e.allLex h.1.2))))
  | .assign _ x e _, h => by
    rw [Stmt.writable, Bool.and_eq_true, Bool.and_eq_true] at h
    exact .single (.row (lexes_name h.1.1) (.cons (lexes_fixed (by decide)) (e.allLex h.1.2)))
  | .setField _ receiver x e, h => by
    rw [Stmt.writable, Bool.and_eq_true, Bool.and_eq_true] at h
    refine .single (rowLexes_of_lexes ?_ ?_)
    · exact List.append_ne_nil_of_right_ne_nil _ (List.cons_ne_nil _ _)
    · exact (receiver.allLex h.1.1).operand.append (.cons (lexes_fixed (by decide))
        (.cons (lexes_name h.1.2) (.cons (lexes_fixed (by decide)) (e.allLex h.2))))
  | .print _ e, h => .single (.row (lexes_fixed (by decide)) (e.allLex h))
  | .branch _ c body rest, h => by
    rw [Stmt.writable, Bool.and_eq_true, Bool.and_eq_true] at h
    exact .cons (.row (lexes_fixed (by decide))
      ((c.allLex h.1.1).append (.single (lexes_fixed (by decide)))))
      ((body.rowsLex h.1.2).append (rest.rowsLex h.2))
  | .loop _ c body, h => by
    rw [Stmt.writable, Bool.and_eq_true] at h
    exact .cons (.row (lexes_fixed (by decide))
      ((c.allLex h.1).append (.single (lexes_fixed (by decide)))))
      ((body.rowsLex h.2).append rowsLex_close)
  | .function _ x params body, h => by
    rw [Stmt.writable, Bool.and_eq_true, Bool.and_eq_true, List.all_eq_true] at h
    have hparams : AllLex (separated (params.map fun p => [.name p])) := by
      refine .separated fun ws hws => ?_
      obtain ⟨p, hp, rfl⟩ := List.mem_map.mp hws
      exact .single (lexes_name (h.1.2 p hp))
    exact .cons (.row (lexes_fixed (by decide)) (.cons (lexes_name h.1.1)
      (.cons (lexes_fixed (by decide)) (hparams.append
        (.cons (lexes_fixed (by decide)) (.single (lexes_fixed (by decide))))))))
      ((body.rowsLex h.2).append rowsLex_close)
  | .classDecl _ x none members, h => by
    rw [Stmt.writable, Bool.and_eq_true, Bool.and_eq_true] at h
    exact .cons (.row (lexes_fixed (by decide)) (.cons (lexes_name h.1.1)
      (.single (lexes_fixed (by decide))))) ((members.rowsLex h.2).append rowsLex_close)
  | .classDecl _ x (some y) members, h => by
    rw [Stmt.writable, Bool.and_eq_true, Bool.and_eq_true] at h
    exact .cons (.row (lexes_fixed (by decide)) (.cons (lexes_name h.1.1)
      (.cons (lexes_fixed (by decide)) (.cons (lexes_name h.1.2)
        (.single (lexes_fixed (by decide))))))) ((members.rowsLex h.2).append rowsLex_close)
  | .returns _ none, _ => .single (.row (lexes_fixed (by decide)) .nil)
  | .returns _ (some e), h => .single (.row (lexes_fixed (by decide)) (e.allLex h))
  | .continues _, _ => .single (.row (lexes_fixed (by decide)) .nil)
  | .breaks _, _ => .single (.row (lexes_fixed (by decide)) .nil)
  | .free .., h => absurd h Bool.false_ne_true

/-- The rows of what follows the body of an `if` are lexed. -/
theorem Rest.rowsLex : (r : Rest) → r.writable = true → RowsLex r.rows
  | .nothing, _ => rowsLex_close
  | .elseIf _ c body rest, h => by
    rw [Rest.writable, Bool.and_eq_true, Bool.and_eq_true] at h
    exact .cons (.row (lexes_fixed (by decide)) (.cons lexes_elseIf
      ((c.allLex h.1.1).append (.single (lexes_fixed (by decide))))))
      ((body.rowsLex h.1.2).append (rest.rowsLex h.2))
  | .otherwise body, h => .cons rowLexes_otherwise ((body.rowsLex h).append rowsLex_close)

/-- The rows of a block are lexed. -/
theorem Block.rowsLex : (b : Block) → b.writable = true → RowsLex b.rows
  | .mk _ statements, h => Stmt.rowsLexAll statements h

/-- The rows of statements are lexed. -/
theorem Stmt.rowsLexAll : (ss : List Stmt) → Stmt.writableAll ss = true →
    RowsLex (Stmt.rowsAll ss)
  | [], _ => fun _ h => absurd h List.not_mem_nil
  | s :: ss, h => by
    rw [Stmt.writableAll, Bool.and_eq_true, Bool.and_eq_true] at h
    exact (s.rowsLex h.1.1).append (Stmt.rowsLexAll ss h.2)

end

/-- The text of statements is lexed to the words of their rows. -/
theorem Stmt.tokenize_text {ss : List Stmt} (h : Stmt.writableAll ss = true) :
    ∃ tokens, Lexer.standard.tokenize (Stmt.text ss) = .ok tokens ∧
      SpellsRows (Token.rows tokens) (Stmt.rowsAll ss) := by
  obtain ⟨tss, htss, hfailure, hsplit⟩ := Lexer.scan_lines (Stmt.rowsLexAll ss h) 0 1
  have hne : ∀ ts ∈ tss, ts ≠ [] := by
    rintro _ hts rfl
    have hrow : ([] : List Word) ∈ Stmt.rowsAll ss := htss ▸ List.mem_map_of_mem hts
    exact Stmt.rowsLexAll ss h [] hrow
  have hsource : Lexer.standard.scanSource (Stmt.text ss) =
      Lexer.standard.scan 0 1 ((Stmt.rowsAll ss).flatMap Word.line) := by
    rw [Lexer.scanSource, Stmt.text, String.toList_ofList]
  refine ⟨_, Lexer.tokenize_of_scanSource rfl (by rw [hsource, hfailure]), ?_⟩
  have hrows : Token.rows (Lexer.standard.scanSource (Stmt.text ss)).tokens = tss := by
    rw [Token.rows, hsource, hsplit, List.filter_append, List.filter_eq_self.mpr]
    · simp
    · intro ts hts
      simpa using hne ts hts
  rw [hrows]
  exact htss

end StackScript
