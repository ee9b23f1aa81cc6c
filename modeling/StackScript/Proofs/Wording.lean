import StackScript.Text.WordChar
import StackScript.Token
import StackScript.Tree

/-!
# StackScript.Proofs.Wording — trees written in rows

A word is a token without its place.  `Expr.words` writes an expression in words, with parentheses
around an operand wherever its level is too low for where it stands.  `Stmt.rows` writes a statement
in rows of words: one statement a row, a body between its braces on rows of its own, and what
follows the body of an `if` on the row of the closing brace.  `Stmt.text` is the text of the rows.

`Writable` says which statements have a written form: numbers have no sign and names are names, a
bare `return` ends its block, and no row begins with a parenthesis or a sign.
-/

namespace StackScript

open Text

/-- The spelling of the tokens with this tag, if they have only one. -/
def Tag.spelling : Tag → String
  | .null => "null"
  | .equals => "="
  | .comma => ","
  | .dot => "."
  | .leftBrace => "\x7b"
  | .rightBrace => "\x7d"
  | .leftParen => "("
  | .rightParen => ")"
  | .leftBracket => "["
  | .rightBracket => "]"
  | .printWord => "print"
  | .whileWord => "while"
  | .ifWord => "if"
  | .elseIfWord => "else if"
  | .elseWord => "else"
  | .varWord => "var"
  | .funcWord => "func"
  | .returnWord => "return"
  | .continueWord => "continue"
  | .breakWord => "break"
  | .classWord => "class"
  | .extendsWord => "extends"
  | .newWord => "new"
  | .thisWord => "this"
  | .superWord => "super"
  | _ => ""

/-! ### Words -/

/-- A token without its place. -/
structure Word where
  tag : Tag
  text : String
deriving DecidableEq, Repr, Inhabited

/-- The word of a token. -/
def Token.word (t : Token) : Word := ⟨t.tag, t.text⟩

namespace Word

/-- The word of a tag that has only one. -/
def of (t : Tag) : Word := ⟨t, t.spelling⟩

/-- A name as a word. -/
def name (x : String) : Word := ⟨.name, x⟩

/-- The words that are no names, though they look like names. -/
def reserved : List String :=
  ["true", "false", "null", "print", "and", "or", "not", "while", "if", "else", "var", "func",
   "return", "continue", "break", "class", "extends", "new", "this", "super"]

/-- A letter or underscore with letters, digits and underscores after it, which is not reserved. -/
def isName (x : String) : Bool :=
  match x.toList with
  | [] => false
  | c :: cs => (c.isAlpha || c == '_') && cs.all isAsciiWord && !reserved.contains x

/-- A character between quotes. -/
def escape (c : Char) : List Char :=
  if c = '"' ∨ c = '\\' then ['\\', c] else if c = '\n' then ['\\', 'n'] else [c]

/-- The literal of a text. -/
def quoted (s : String) : String := String.ofList ('"' :: (s.toList.flatMap escape ++ ['"']))

/-- The words can be the begin of a row: no parenthesis and no minus.  A plus never begins a row. -/
def canBegin : List Word → Bool
  | w :: _ => w.tag != .leftParen && w.tag != .term
  | [] => false

/-- Lists of words with commas between them. -/
def separated : List (List Word) → List Word
  | [] => []
  | [ws] => ws
  | ws :: vs :: wss => ws ++ of .comma :: separated (vs :: wss)

/-- The words of an operand of a level where another level is the least that can stand. -/
def operand (least level : Nat) (ws : List Word) : List Word :=
  if least ≤ level then ws else of .leftParen :: (ws ++ [of .rightParen])

end Word

/-! ### Levels of operators -/

namespace BinaryOp

/-- The tag of an operator. -/
def tag : BinaryOp → Tag
  | and | or | bitAnd | bitOr | bitXor | shiftLeft | shiftRight => .logic
  | equal | notEqual | greater | greaterEqual | less | lessEqual => .comparison
  | add | sub => .term
  | mul | div | mod => .factor
  | pow => .power

/-- The level of an operation, which is the higher the tighter it binds. -/
def level : BinaryOp → Nat
  | and | or | bitAnd | bitOr | bitXor | shiftLeft | shiftRight => 1
  | equal | notEqual | greater | greaterEqual | less | lessEqual => 2
  | add | sub => 3
  | mul | div | mod => 4
  | pow => 6

/-- The least level of the left operand: the power is the only one that does not associate to the
left, and a prefix operator cannot stand there either. -/
def leftLevel : BinaryOp → Nat
  | pow => 7
  | op => op.level

/-- The least level of the right operand. -/
def rightLevel : BinaryOp → Nat
  | pow => 5
  | op => op.level + 1

end BinaryOp

/-- The tag of a prefix operator. -/
def UnaryOp.tag : UnaryOp → Tag
  | .negative => .term
  | .not => .negation
  | .bitNot => .tilde

/-! ### Expressions -/

namespace Expr

/-- The level of an expression as it is written. -/
def level : Expr → Nat
  | .binary _ op _ _ _ => op.level
  | .unary .. => 5
  | _ => 7

end Expr

mutual

/-- The words of an expression. -/
def Expr.words : Expr → List Word
  | .number _ d => [⟨.number, d.text⟩]
  | .text _ s => [⟨.text, Word.quoted s⟩]
  | .boolean _ b => [⟨.boolean, if b then "true" else "false"⟩]
  | .null _ => [.of .null]
  | .this _ => [.of .thisWord]
  | .super _ => [.of .superWord]
  | .list _ items =>
    .of .leftBracket :: (Word.separated (Expr.wordsEach items) ++ [.of .rightBracket])
  | .map .. => []
  | .variable _ x _ => [.name x]
  | .field _ receiver x =>
    Word.operand 7 receiver.level receiver.words ++ [.of .dot, .name x]
  | .binary _ op left right _ =>
    Word.operand op.leftLevel left.level left.words ++
      ⟨op.tag, op.symbol⟩ :: Word.operand op.rightLevel right.level right.words
  | .unary _ op a => ⟨op.tag, op.symbol⟩ :: Word.operand 5 a.level a.words
  | .call _ x args =>
    .name x :: .of .leftParen :: (Word.separated (Expr.wordsEach args) ++ [.of .rightParen])
  | .method _ receiver x args =>
    Word.operand 7 receiver.level receiver.words ++
      .of .dot :: .name x :: .of .leftParen ::
        (Word.separated (Expr.wordsEach args) ++ [.of .rightParen])
  | .create _ x args =>
    .of .newWord :: .name x :: .of .leftParen ::
      (Word.separated (Expr.wordsEach args) ++ [.of .rightParen])

/-- The words of each of the expressions. -/
def Expr.wordsEach : List Expr → List (List Word)
  | [] => []
  | e :: es => e.words :: Expr.wordsEach es

end

mutual

/-- The expression has a written form: there are no maps and no bindings in it, its numbers have no
sign, and its names are names. -/
def Expr.writable : Expr → Bool
  | .number _ d => decide (0 ≤ d.unscaled)
  | .text .. | .boolean .. | .null _ | .this _ | .super _ => true
  | .list _ items => Expr.writableAll items
  | .map .. => false
  | .variable _ x binding => Word.isName x && binding.isNone
  | .field _ receiver x => receiver.writable && Word.isName x
  | .binary _ _ left right target => left.writable && right.writable && target.isNone
  | .unary _ _ operand => operand.writable
  | .call _ x args => Word.isName x && Expr.writableAll args
  | .method _ receiver x args => receiver.writable && Word.isName x && Expr.writableAll args
  | .create _ x args => Word.isName x && Expr.writableAll args

/-- Each of the expressions has a written form. -/
def Expr.writableAll : List Expr → Bool
  | [] => true
  | e :: es => e.writable && Expr.writableAll es

end

/-! ### Statements -/

mutual

/-- The rows of a statement. -/
def Stmt.rows : Stmt → List (List Word)
  | .value e => [e.words]
  | .declare _ x none _ => [[.of .varWord, .name x]]
  | .declare _ x (some e) _ => [.of .varWord :: .name x :: .of .equals :: e.words]
  | .assign _ x e _ => [.name x :: .of .equals :: e.words]
  | .setField _ receiver x e =>
    [Word.operand 7 receiver.level receiver.words ++ .of .dot :: .name x :: .of .equals :: e.words]
  | .print _ e => [.of .printWord :: e.words]
  | .branch _ c body rest =>
    (.of .ifWord :: (c.words ++ [.of .leftBrace])) :: (body.rows ++ rest.rows)
  | .loop _ c body =>
    (.of .whileWord :: (c.words ++ [.of .leftBrace])) :: (body.rows ++ [[.of .rightBrace]])
  | .function _ x params body =>
    (.of .funcWord :: .name x :: .of .leftParen ::
      (Word.separated (params.map fun p => [.name p]) ++ [.of .rightParen, .of .leftBrace])) ::
      (body.rows ++ [[.of .rightBrace]])
  | .classDecl _ x none members =>
    [.of .classWord, .name x, .of .leftBrace] :: (members.rows ++ [[.of .rightBrace]])
  | .classDecl _ x (some y) members =>
    [.of .classWord, .name x, .of .extendsWord, .name y, .of .leftBrace] ::
      (members.rows ++ [[.of .rightBrace]])
  | .returns _ none => [[.of .returnWord]]
  | .returns _ (some e) => [.of .returnWord :: e.words]
  | .continues _ => [[.of .continueWord]]
  | .breaks _ => [[.of .breakWord]]
  | .free .. => []

/-- The rows of what follows the body of an `if`, from the closing brace of the body on. -/
def Rest.rows : Rest → List (List Word)
  | .nothing => [[.of .rightBrace]]
  | .elseIf _ c body rest =>
    (.of .rightBrace :: .of .elseIfWord :: (c.words ++ [.of .leftBrace])) ::
      (body.rows ++ rest.rows)
  | .otherwise body =>
    [.of .rightBrace, .of .elseWord, .of .leftBrace] :: (body.rows ++ [[.of .rightBrace]])

/-- The rows of a block. -/
def Block.rows : Block → List (List Word)
  | .mk _ statements => Stmt.rowsAll statements

/-- The rows of the statements one after another. -/
def Stmt.rowsAll : List Stmt → List (List Word)
  | [] => []
  | s :: ss => s.rows ++ Stmt.rowsAll ss

end

/-- A `return` without a value. -/
def Stmt.isBareReturn : Stmt → Bool
  | .returns _ none => true
  | _ => false

mutual

/-- The statement has a written form: so have its expressions, there are no bindings in it, its
names are names, and a bare `return` ends its block. -/
def Stmt.writable : Stmt → Bool
  | .value e => e.writable
  | .declare _ x init binding => Word.isName x && init.all Expr.writable && binding.isNone
  | .assign _ x e binding => Word.isName x && e.writable && binding.isNone
  | .setField _ receiver x e => receiver.writable && Word.isName x && e.writable
  | .print _ e => e.writable
  | .branch _ c body rest => c.writable && body.writable && rest.writable
  | .loop _ c body => c.writable && body.writable
  | .function _ x params body => Word.isName x && params.all Word.isName && body.writable
  | .classDecl _ x parent members => Word.isName x && parent.all Word.isName && members.writable
  | .returns _ value => value.all Expr.writable
  | .continues _ | .breaks _ => true
  | .free .. => false

/-- What follows the body of an `if` has a written form. -/
def Rest.writable : Rest → Bool
  | .nothing => true
  | .elseIf _ c body rest => c.writable && body.writable && rest.writable
  | .otherwise body => body.writable

/-- The block has a written form. -/
def Block.writable : Block → Bool
  | .mk _ statements => Stmt.writableAll statements

/-- Each of the statements has a written form, and only the last may be a bare `return`. -/
def Stmt.writableAll : List Stmt → Bool
  | [] => true
  | s :: ss => s.writable && (!s.isBareReturn || ss.isEmpty) && Stmt.writableAll ss

end

/-- The statements have a written form, and no row of it begins with a parenthesis or a sign. -/
structure Writable (ss : List Stmt) : Prop where
  writable : Stmt.writableAll ss = true
  apart : (Stmt.rowsAll ss).all Word.canBegin = true

/-! ### Text -/

/-- The characters of a row and of the line break after it. -/
def Word.line (row : List Word) : List Char :=
  List.intercalate [' '] (row.map fun w => w.text.toList) ++ ['\n']

/-- The text of statements. -/
def Stmt.text (ss : List Stmt) : String := String.ofList ((Stmt.rowsAll ss).flatMap Word.line)

/-! ### Tokens with given words -/

/-- The tokens have these words. -/
def Spells (ts : List Token) (ws : List Word) : Prop := ts.map Token.word = ws

namespace Spells

variable {ts us : List Token} {w : Word} {ws vs : List Word}

theorem nil (h : Spells ts []) : ts = [] := List.map_eq_nil_iff.mp h

theorem cons (h : Spells ts (w :: ws)) : ∃ t us, ts = t :: us ∧ t.word = w ∧ Spells us ws :=
  List.map_eq_cons_iff.mp h

theorem append (h : Spells ts (ws ++ vs)) :
    ∃ us us', ts = us ++ us' ∧ Spells us ws ∧ Spells us' vs := List.map_eq_append_iff.mp h

theorem single (h : Spells ts [w]) : ∃ t, ts = [t] ∧ t.word = w := by
  obtain ⟨t, us, rfl, ht, hus⟩ := h.cons
  rw [hus.nil]
  exact ⟨t, rfl, ht⟩

theorem concat (h : Spells ts (ws ++ [w])) :
    ∃ us t, ts = us ++ [t] ∧ Spells us ws ∧ t.word = w := by
  obtain ⟨us, vs, rfl, hus, hvs⟩ := h.append
  obtain ⟨t, rfl, ht⟩ := hvs.single
  exact ⟨us, t, rfl, hus, ht⟩

end Spells

theorem Token.tag_of_word {t : Token} {w : Word} (h : t.word = w) : t.tag = w.tag :=
  congrArg Word.tag h

theorem Token.text_of_word {t : Token} {w : Word} (h : t.word = w) : t.text = w.text :=
  congrArg Word.text h

/-- The rows of tokens have these words. -/
def SpellsRows (rows : List (List Token)) (wss : List (List Word)) : Prop :=
  rows.map (List.map Token.word) = wss

namespace SpellsRows

variable {rows : List (List Token)} {ws : List Word} {wss vss : List (List Word)}

theorem nil (h : SpellsRows rows []) : rows = [] := List.map_eq_nil_iff.mp h

theorem cons (h : SpellsRows rows (ws :: wss)) :
    ∃ row rows', rows = row :: rows' ∧ Spells row ws ∧ SpellsRows rows' wss :=
  List.map_eq_cons_iff.mp h

theorem append (h : SpellsRows rows (wss ++ vss)) :
    ∃ rows₁ rows₂, rows = rows₁ ++ rows₂ ∧ SpellsRows rows₁ wss ∧ SpellsRows rows₂ vss :=
  List.map_eq_append_iff.mp h

theorem single (h : SpellsRows rows [ws]) : ∃ row, rows = [row] ∧ Spells row ws := by
  obtain ⟨row, rows', rfl, hrow, hrows'⟩ := h.cons
  rw [hrows'.nil]
  exact ⟨row, rfl, hrow⟩

/-- The rows of a body and of its closing brace. -/
theorem body (h : SpellsRows rows (wss ++ [[.of .rightBrace]])) :
    ∃ rows' b, rows = rows' ++ [[b]] ∧ SpellsRows rows' wss ∧ b.tag = .rightBrace := by
  obtain ⟨rows', last, rfl, hrows', hlast⟩ := h.append
  obtain ⟨row, rfl, hrow⟩ := hlast.single
  obtain ⟨b, rfl, hb⟩ := hrow.single
  exact ⟨rows', b, rfl, hrows', Token.tag_of_word hb⟩

end SpellsRows

end StackScript
