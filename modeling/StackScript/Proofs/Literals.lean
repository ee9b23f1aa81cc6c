import Mathlib.Data.List.Induction
import StackScript.Proofs.Lossless
import StackScript.Proofs.Wording

/-!
# StackScript.Proofs.Literals — every text has a literal

Between the quotes of a literal a character stands for itself, or a backslash and a character stand
for one.  The scanner only knows whether a backslash takes the meaning of the next character away;
`unescape` takes a backslash and the character after it at once.  Both agree on what is written
character by character (`closingQuote?_written`, `unescape_written`), and the flag of the scanner
tells whether the run of backslashes before a place is odd (`escapedAfter_iff`).
-/

namespace StackScript

open Text

/-- Bytes of what a recognizer takes of a text. -/
def Recognizer.bytesTaken (r : Recognizer) (s : String) : Option Nat :=
  (r s.toList).map fun n => byteLength (s.toList.take n)

namespace Token

/-- A character that literals begin and end with. -/
def IsQuote (q : Char) : Prop := q = '"' ∨ q = '\''

theorem IsQuote.ne_backslash {q : Char} (h : IsQuote q) : q ≠ '\\' := by
  rintro rfl
  rcases h with h | h <;> cases h

/-! ### Literals written character by character -/

/-- Between quotes `q` the characters stand for `c`. -/
inductive StandsFor (q : Char) : List Char → Char → Prop
  | plain {c : Char} (hbackslash : c ≠ '\\') (hquote : c ≠ q) : StandsFor q [c] c
  | escaped {c d : Char} (h : escapeOf d = c) : StandsFor q ['\\', d] c

theorem stringLiteral?_cons {q : Char} (hq : IsQuote q) (cs : List Char) :
    stringLiteral? (q :: cs) = (closingQuote? q false cs).map (· + 1) := by
  rcases hq with rfl | rfl <;> rfl

section Written

variable {q : Char} {write : Char → List Char} (hwrite : ∀ c, StandsFor q (write c) c)
include hwrite

/-- The literal ends at the quote behind what is written. -/
theorem closingQuote?_written (hq : q ≠ '\\') (cs rest : List Char) :
    closingQuote? q false (cs.flatMap write ++ q :: rest) =
      some ((cs.flatMap write).length + 1) := by
  induction cs with
  | nil =>
    rw [List.flatMap_nil, List.nil_append, closingQuote?, if_neg Bool.false_ne_true, if_neg hq,
      if_pos rfl]
    rfl
  | cons c cs ih =>
    have hc := hwrite c
    rw [List.flatMap_cons, List.append_assoc]
    generalize write c = ds at hc
    cases hc with
    | plain hbackslash hquote =>
      rw [List.singleton_append, closingQuote?, if_neg Bool.false_ne_true, if_neg hbackslash,
        if_neg hquote, ih]
      simp
    | escaped hd =>
      rw [List.cons_append, List.singleton_append, closingQuote?, if_neg Bool.false_ne_true,
        if_pos rfl, closingQuote?, if_pos rfl, ih]
      simp

/-- What is written denotes the text. -/
theorem unescape_written (cs : List Char) : unescape (cs.flatMap write) = cs := by
  induction cs with
  | nil => rfl
  | cons c cs ih =>
    have hc := hwrite c
    rw [List.flatMap_cons]
    generalize write c = ds at hc
    cases hc with
    | plain hbackslash hquote =>
      rw [List.singleton_append, unescape, ih]
      · exact fun h _ => hbackslash h
      · exact fun _ _ h _ => hbackslash h
    | escaped hd =>
      rw [List.cons_append, List.singleton_append, unescape, hd, ih]

/-- A literal is what a text begins with, whatever follows. -/
theorem stringLiteral?_written (hq : IsQuote q) (cs rest : List Char) :
    stringLiteral? (q :: (cs.flatMap write ++ q :: rest)) =
      some ((cs.flatMap write).length + 1 + 1) := by
  rw [stringLiteral?_cons hq, closingQuote?_written hwrite hq.ne_backslash]
  rfl

/-- A literal denotes the text. -/
theorem unquote_written (cs : List Char) : unquote (q :: (cs.flatMap write ++ [q])) = cs := by
  rw [unquote, if_pos]
  · rw [List.drop_one, List.tail_cons, List.dropLast_concat, unescape_written hwrite]
  · simp

end Written

/-- No recognizer before that of literals takes a quote. -/
theorem first?_quote {q : Char} (hq : IsQuote q) {cs : List Char} {n : Nat}
    (h : stringLiteral? (q :: cs) = some (n + 1)) :
    Lexer.standard.first? (q :: cs) = some (.text, n + 1) := by
  have hnewline : newlineRun? (q :: cs) = none := by rcases hq with rfl | rfl <;> rfl
  rw [Lexer.first?, Lexer.standard]
  simp only [List.findSome?_cons, hnewline, h]

/-- In a quoted text the characters stand for those of the text. -/
theorem standsFor_escape (c : Char) : StandsFor '"' (Word.escape c) c := by
  rw [Word.escape]
  split
  case isTrue h =>
    refine .escaped ?_
    rcases h with rfl | rfl <;> rfl
  case isFalse h =>
    obtain ⟨hquote, hbackslash⟩ := not_or.mp h
    split
    case isTrue hbreak => exact .escaped hbreak.symm
    case isFalse => exact .plain hbackslash hquote

/-! ### Literals in quotes of either kind -/

/-- A character between quotes `q`, with a backslash before `q` and before a backslash. -/
def escapeIn (q c : Char) : List Char := if c = '\\' ∨ c = q then ['\\', c] else [c]

/-- The literal of a text in quotes `q`. -/
def literal (q : Char) (s : String) : String :=
  String.ofList (q :: (s.toList.flatMap (escapeIn q) ++ [q]))

theorem standsFor_escapeIn {q : Char} (hq : IsQuote q) (c : Char) :
    StandsFor q (escapeIn q c) c := by
  rw [escapeIn]
  split
  case isTrue h =>
    refine .escaped ?_
    rcases h with rfl | rfl
    · rfl
    · rcases hq with rfl | rfl <;> rfl
  case isFalse h =>
    obtain ⟨hbackslash, hquote⟩ := not_or.mp h
    exact .plain hbackslash hquote

theorem stringLiteral?_literal {q : Char} (hq : IsQuote q) (s : String) (rest : List Char) :
    stringLiteral? ((literal q s).toList ++ rest) = some (literal q s).toList.length := by
  rw [literal, String.toList_ofList, List.cons_append, List.append_assoc, List.singleton_append,
    stringLiteral?_written (standsFor_escapeIn hq) hq]
  simp

theorem unquote_literal {q : Char} (hq : IsQuote q) (s : String) :
    unquote (literal q s).toList = s.toList := by
  rw [literal, String.toList_ofList, unquote_written (standsFor_escapeIn hq)]

/-- A literal that a source begins with is its first token. -/
theorem head?_tokens_literal {q : Char} (hq : IsQuote q) (s rest : String) :
    (Lexer.standard.scanSource (literal q s ++ rest)).tokens.head? =
      some ⟨.text, literal q s, 1, ⟨0, (bytes (literal q s)).length⟩⟩ := by
  have htaken := stringLiteral?_literal hq s rest.toList
  obtain ⟨cs, hcs⟩ : ∃ cs, (literal q s).toList = q :: cs := ⟨_, String.toList_ofList⟩
  rw [hcs, List.cons_append, List.length_cons] at htaken
  have hfirst : Lexer.standard.first? ((literal q s).toList ++ rest.toList) =
      some (.text, (literal q s).toList.length) := by
    rw [hcs]
    exact first?_quote hq htaken
  rw [Lexer.scanSource, String.toList_append, Lexer.scan_of_first?_eq_some hfirst,
    length_bytes, String.ofList_toList, Nat.zero_add]
  rfl

/-! ### Quotes that are escaped -/

/-- Whether the scanner takes the character after `cs` for escaped. -/
def escapedAfter (escaped : Bool) (cs : List Char) : Bool :=
  cs.foldl (fun escaped c => !escaped && c == '\\') escaped

/-- How many backslashes a text ends with. -/
def backslashesBefore (cs : List Char) : Nat := (cs.reverse.takeWhile (· == '\\')).length

/-- The character after `past` is escaped: the number of backslashes right before it is odd. -/
def Escaped (past : List Char) : Prop := backslashesBefore past % 2 = 1

theorem escapedAfter_concat (escaped : Bool) (cs : List Char) (c : Char) :
    escapedAfter escaped (cs ++ [c]) = (!escapedAfter escaped cs && c == '\\') := by
  rw [escapedAfter, List.foldl_append]
  rfl

theorem backslashesBefore_concat (cs : List Char) (c : Char) :
    backslashesBefore (cs ++ [c]) = if c = '\\' then backslashesBefore cs + 1 else 0 := by
  rw [backslashesBefore, List.reverse_concat, List.takeWhile_cons]
  split <;> simp_all [backslashesBefore]

theorem escapedAfter_iff (cs : List Char) : escapedAfter false cs = true ↔ Escaped cs := by
  rw [Escaped]
  induction cs using List.reverseRecOn with
  | nil => decide
  | append_singleton cs c ih =>
    rw [escapedAfter_concat, backslashesBefore_concat, Bool.and_eq_true, beq_iff_eq,
      Bool.not_eq_true', ← Bool.not_eq_true, ih]
    split
    case isTrue hc =>
      rw [and_iff_left hc]
      omega
    case isFalse hc => simp [hc]

theorem closingQuote?_cons {q : Char} (hq : q ≠ '\\') (escaped : Bool) (c : Char)
    (cs : List Char) : closingQuote? q escaped (c :: cs) =
      if escaped = false ∧ c = q then some 1
      else (closingQuote? q (!escaped && c == '\\') cs).map (· + 1) := by
  rw [closingQuote?]
  cases escaped with
  | true => simp
  | false =>
    by_cases hbackslash : c = '\\'
    · subst hbackslash
      simp [Ne.symm hq]
    · have hplain : (c == '\\') = false := beq_eq_false_iff_ne.mpr hbackslash
      simp [hbackslash, hplain]

/-- There is no closing quote if and only if each quote is escaped. -/
theorem closingQuote?_eq_none_iff {q : Char} (hq : q ≠ '\\') (escaped : Bool) (cs : List Char) :
    closingQuote? q escaped cs = none ↔
      ∀ past rest, cs = past ++ q :: rest → escapedAfter escaped past = true := by
  induction cs generalizing escaped with
  | nil => simp [closingQuote?]
  | cons c cs ih =>
    rw [closingQuote?_cons hq]
    by_cases hclose : escaped = false ∧ c = q
    · obtain ⟨rfl, rfl⟩ := hclose
      rw [if_pos ⟨rfl, rfl⟩]
      constructor
      · intro h
        cases h
      · intro h
        cases h [] cs rfl
    · rw [if_neg hclose, Option.map_eq_none_iff, ih]
      constructor
      · rintro h (- | ⟨d, past⟩) rest hcs
        · obtain ⟨rfl, rfl⟩ := List.cons.inj hcs
          exact Bool.not_eq_false _ |>.mp fun he => hclose ⟨he, rfl⟩
        · obtain ⟨rfl, rfl⟩ := List.cons.inj hcs
          exact h past rest rfl
      · intro h past rest hcs
        exact h (c :: past) rest (congrArg (c :: ·) hcs)

/-- A text that begins with a quote begins with a literal unless each later quote is escaped. -/
theorem stringLiteral?_eq_none_iff {q : Char} (hq : IsQuote q) (cs : List Char) :
    stringLiteral? (q :: cs) = none ↔ ∀ past rest, cs = past ++ q :: rest → Escaped past := by
  rw [stringLiteral?_cons hq, Option.map_eq_none_iff, closingQuote?_eq_none_iff hq.ne_backslash]
  simp only [escapedAfter_iff]

/-- Every text has a literal in quotes of either kind: with a backslash before each backslash and
each such quote, it is what the recognizer of literals and the lexer take of a source that begins
with it, and denotes the text.  A text that begins with a quote begins with no literal if and only
if each later quote of the kind is escaped. -/
theorem every_text_has_a_literal {q : Char} (hq : IsQuote q) :
    (∀ s rest : String,
      Recognizer.bytesTaken stringLiteral? (literal q s ++ rest) =
          some (bytes (literal q s)).length ∧
        (Lexer.standard.scanSource (literal q s ++ rest)).tokens.head? =
          some ⟨.text, literal q s, 1, ⟨0, (bytes (literal q s)).length⟩⟩ ∧
        String.ofList (unquote (literal q s).toList) = s) ∧
      ∀ cs : List Char, stringLiteral? (q :: cs) = none ↔
        ∀ past rest, cs = past ++ q :: rest → Escaped past := by
  refine ⟨fun s rest => ⟨?_, head?_tokens_literal hq s rest, ?_⟩, stringLiteral?_eq_none_iff hq⟩
  · rw [Recognizer.bytesTaken, String.toList_append, stringLiteral?_literal hq, Option.map_some,
      List.take_left, length_bytes]
  · rw [unquote_literal hq, String.ofList_toList]

/-- A text of a quote and a backslash, before another quote; and a literal that is left open, with
an escaped quote at its end. -/
theorem every_text_has_a_literal_of_quote : IsQuote '\'' ∧
    Recognizer.bytesTaken stringLiteral? "'\\'\\\\''" = some 6 ∧
    (Lexer.standard.scanSource "'\\'\\\\''").tokens.head? =
      some ⟨.text, "'\\'\\\\'", 1, ⟨0, 6⟩⟩ ∧
    String.ofList (unquote "'\\'\\\\'".toList) = "'\\" ∧
    stringLiteral? ['\'', 'a', '\\', '\''] = none := by
  have hq : IsQuote '\'' := .inr rfl
  obtain ⟨hliteral, hopen⟩ := every_text_has_a_literal hq
  obtain ⟨htaken, hhead, htext⟩ := hliteral "'\\" "'"
  refine ⟨hq, htaken, hhead, htext, (hopen _).mpr fun past rest h => ?_⟩
  rcases past with - | ⟨a, - | ⟨b, - | ⟨c, past⟩⟩⟩
  · cases h
  · cases h
  · cases h
    exact (escapedAfter_iff _).mp rfl
  · simp at h

end Token

end StackScript
