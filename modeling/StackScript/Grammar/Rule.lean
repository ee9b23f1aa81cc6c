import StackScript.Grammar.Pattern
import StackScript.Grammar.Stream

/-!
# StackScript.Grammar.Rule — the rules of the language and where they apply

A rule names a pattern of tags and the tag that a match is reduced to.  Since a rule takes the
leftmost match it sees, most of the rules ask for more: `Rule.accepts` looks at the symbols around a
match and refuses it while a neighbour binds tighter.  The binary operators have five levels,
loosest first:

| level | tag | operators | associates |
|---|---|---|---|
| 1 | `logic` | `and` `or` and the bitwise and shift operators | left |
| 2 | `comparison` | `==` `!=` `<` `<=` `>` `>=` | left |
| 3 | `term` | `+` `-` | left |
| 4 | `factor` | `*` `/` `%` | left |
| 5 | `power` | `**` | right |

Prefix operators bind tighter than the first four levels and looser than `**`; a field or a call
after its receiver binds tightest.
-/

namespace StackScript

/-- A rule of the grammar, in order of priority. -/
inductive Rule where
  | literal | assignmentHead | declaration | functionHead | classHead | newHead | methodHead
  | fieldAssignmentHead | field | callHead | variable | list | map | group | unary | power | factor
  | term | comparison | logic | arguments | jump | print | returns | assignment | branch | elseIf
  | otherwise | loop | functionEnd | classEnd | sequence | trailing | statement
deriving DecidableEq, Repr, Inhabited

/-- Where a rule matched: the index of the first active symbol and the number of active symbols. -/
structure Site where
  start : Nat
  length : Nat
deriving DecidableEq, Repr, Inhabited

namespace Site

/-- The index of the active symbol after the match. -/
def after (m : Site) : Nat := m.start + m.length

end Site

namespace Rule

/-- All rules, in order of priority. -/
def standard : List Rule :=
  [literal, assignmentHead, declaration, functionHead, classHead, newHead, methodHead,
   fieldAssignmentHead, field, callHead, .variable, list, map, group, unary, power, factor, term,
   comparison, logic, arguments, jump, print, returns, assignment, branch, elseIf, otherwise, loop,
   functionEnd, classEnd, sequence, trailing, statement]

open Pattern Tag in
/-- The pattern of a rule. -/
def pattern : Rule → Pattern
  | literal => one [number, text, boolean, null, thisWord, superWord]
  | assignmentHead => all [optional (tag varWord), tag name, tag equals]
  | declaration => tags [varWord, name]
  | functionHead =>
    all [tag funcWord, tag name, tag leftParen, commaList (tag name), tag rightParen,
      tag leftBrace]
  | classHead =>
    all [tag classWord, tag name, optional (tags [extendsWord, name]), tag leftBrace]
  | newHead => tags [newWord, name, leftParen]
  | methodHead => tags [expression, dot, name, leftParen]
  | fieldAssignmentHead => tags [expression, dot, name, equals]
  | field => tags [expression, dot, name]
  | callHead => tags [name, leftParen]
  | .variable => tag name
  | list => all [tag leftBracket, commaList (tag expression), tag rightBracket]
  | map => all [tag leftBrace, commaList (tags [expression, colon, expression]), tag rightBrace]
  | group => tags [leftParen, expression, rightParen]
  | unary => all [one [Tag.term, negation, tilde], tag expression]
  | power => tags [expression, Tag.power, expression]
  | factor => tags [expression, Tag.factor, expression]
  | term => tags [expression, Tag.term, expression]
  | comparison => tags [expression, Tag.comparison, expression]
  | logic => tags [expression, Tag.logic, expression]
  | arguments =>
    all [one [Tag.callHead, Tag.newHead], commaList (tag expression), tag rightParen]
  | jump => one [continueWord, breakWord]
  | print => tags [printWord, expression]
  | returns => all [tag returnWord, optional (tag expression)]
  | assignment => tags [Tag.assignmentHead, expression]
  | branch =>
    all [tag ifWord, tag expression, tag leftBrace, optional (tag program), tag rightBrace]
  | elseIf =>
    all [tag program, tag elseIfWord, tag expression, tag leftBrace, optional (tag program),
      tag rightBrace]
  | otherwise =>
    all [tag program, tag elseWord, tag leftBrace, optional (tag program), tag rightBrace]
  | loop =>
    all [tag whileWord, tag expression, tag leftBrace, optional (tag program), tag rightBrace]
  | functionEnd => all [tag Tag.functionHead, optional (tag program), tag rightBrace]
  | classEnd => all [tag Tag.classHead, optional (tag program), tag rightBrace]
  | sequence =>
    let separators := atLeastOnce (one [newline, semicolon])
    all [tag program, separators, tag program, many (all [separators, tag program])]
  | trailing => tags [program, semicolon]
  | statement => tag expression

/-- The tag that a match is reduced to. -/
def result : Rule → Tag
  | assignmentHead | fieldAssignmentHead => .assignmentHead
  | functionHead => .functionHead
  | classHead => .classHead
  | newHead => .newHead
  | methodHead | callHead => .callHead
  | literal | field | .variable | list | map | group | unary | power | factor | term | comparison
  | logic | arguments => .expression
  | declaration | jump | print | returns | assignment | branch | elseIf | otherwise | loop
  | functionEnd | classEnd | sequence | trailing | statement => .program

/-- The tags of detached symbols that a rule sees. -/
def included : Rule → List Tag
  | sequence => [.newline]
  | _ => []

/-- The pattern of a rule as it is listed. -/
def patternText : Rule → String
  | literal => "NUM|TXT|BOOL|NULL|THIS|SUPER"
  | assignmentHead => "(VAR )?ID SET"
  | declaration => "VAR ID"
  | functionHead => "FUNC ID LEFT_PARENTHESIS( ID( COMMA ID)*)? RIGHT_PARENTHESIS LEFT_BRACE"
  | classHead => "CLASS ID( EXTENDS ID)? LEFT_BRACE"
  | newHead => "NEW ID LEFT_PARENTHESIS"
  | methodHead => "expression DOT ID LEFT_PARENTHESIS"
  | fieldAssignmentHead => "expression DOT ID SET"
  | field => "expression DOT ID"
  | callHead => "ID LEFT_PARENTHESIS"
  | .variable => "ID"
  | list => "LEFT_BRACKET (expression (COMMA expression )*)?RIGHT_BRACKET"
  | map => "LEFT_BRACE (expression COLON expression (COMMA expression COLON expression )*)?"
      ++ "RIGHT_BRACE"
  | group => "LEFT_PARENTHESIS expression RIGHT_PARENTHESIS"
  | unary => "(OP2|NOT|TILDE) expression"
  | power => "expression EXPONENTIATION expression"
  | factor => "expression OP1 expression"
  | term => "expression OP2 expression"
  | comparison => "expression COMP expression"
  | logic => "expression OP3 expression"
  | arguments => "(call_function|new_instance) (expression (COMMA expression )*)?RIGHT_PARENTHESIS"
  | jump => "CONTINUE|BREAK"
  | print => "PRINT expression"
  | returns => "RETURN( expression)?"
  | assignment => "variable_set expression"
  | branch => "IF expression LEFT_BRACE (program )?RIGHT_BRACE"
  | elseIf => "program ELSEIF expression LEFT_BRACE (program )?RIGHT_BRACE"
  | otherwise => "program ELSE LEFT_BRACE (program )?RIGHT_BRACE"
  | loop => "WHILE expression LEFT_BRACE (program )?RIGHT_BRACE"
  | functionEnd => "declare_function( program)? RIGHT_BRACE"
  | classEnd => "declare_class( program)? RIGHT_BRACE"
  | sequence => "program( (NEWLINE|SEMICOLON))+ program(( (NEWLINE|SEMICOLON))+ program)*"
  | trailing => "program SEMICOLON"
  | statement => "expression"

end Rule

/-! ### Classes of tags -/

namespace Tag

/-- The level of a binary operator. -/
def level? : Tag → Option Nat
  | logic => some 1
  | comparison => some 2
  | term => some 3
  | factor => some 4
  | power => some 5
  | _ => none

/-- An operand can end here, so that a minus right after it is binary. -/
def endsOperand : Tag → Bool
  | expression | rightParen | rightBracket | name | number | text | boolean | null | thisWord
  | superWord => true
  | _ => false

/-- An expression that is not reduced yet can begin here. -/
def startsExpression : Tag → Bool
  | expression | name | number | text | boolean | null | thisWord | superWord | leftParen
  | leftBracket | callHead | newHead | negation | tilde | term | newWord => true
  | _ => false

/-- A value is expected right after this, so that a brace there opens a map. -/
def expectsValue : Tag → Bool
  | assignmentHead | printWord | returnWord | comma | leftParen | leftBracket | colon | callHead
  | newHead | negation | tilde => true
  | t => t.level?.isSome

/-- A name after this is being declared or looked up, not read. -/
def namesMember : Tag → Bool
  | dot | funcWord | classWord | extendsWord | newWord | varWord => true
  | _ => false

/-- A statement can begin right after this. -/
def opensStatement : Tag → Bool
  | leftBrace | semicolon | rightBrace | program | functionHead | classHead => true
  | _ => false

/-- An expression right before this is part of something larger than a statement. -/
def holdsExpression : Tag → Bool
  | colon | comma | rightParen | rightBracket | leftBrace => true
  | _ => false

end Tag

/-! ### Neighbours of a match -/

namespace Stream

/-- The tag of the active symbol at `index`. -/
def tagAt? (s : Stream) (index : Nat) : Option Tag := s.active[index]?.map (·.tag)

/-- The tag of the active symbol before `index`. -/
def tagBefore? (s : Stream) : Nat → Option Tag
  | 0 => none
  | index + 1 => s.tagAt? index

/-- The symbol at `index` is a minus that is no binary operator: it follows no operand, or it
begins a line. -/
def isPrefixMinus (s : Stream) (index : Nat) : Bool :=
  s.active[index]?.any (fun m => decide (m.tag = .term) && decide (m.text = "-")) &&
    match s.tagBefore? index with
    | some before => !before.endsOperand || s.lineBreakBefore index
    | none => true

/-- The symbol at `index` extends the expression before it: a binary operator or a point on the
same line. -/
def continues (s : Stream) (index : Nat) : Bool :=
  match s.tagAt? index with
  | some tag => (tag.level?.isSome || tag == .dot) && !s.lineBreakBefore index
  | none => false

/-- An operator of `level` between two expressions may be reduced: no neighbour binds tighter, nor
equally tight on the side that takes precedence.  That is the left side, and the right side for an
operator that associates to the right. -/
def binaryFits (s : Stream) (m : Site) (level : Nat) (rightAssociative : Bool) : Bool :=
  let fitsBefore :=
    match m.start with
    | 0 => true
    | before + 1 =>
      match s.tagAt? before with
      | none => true
      | some tag =>
        if s.isPrefixMinus before || tag == .negation || tag == .tilde then decide (5 ≤ level)
        else tag.level?.all fun other =>
          decide (other < level) || (other == level && rightAssociative)
  let fitsAfter :=
    match s.tagAt? m.after with
    | none => true
    | some tag => tag != .dot && tag.level?.all fun other =>
        decide (other < level) || (other == level && !rightAssociative)
  fitsBefore && fitsAfter

/-- A statement can begin after the symbol before a match, or at the very start. -/
def statementStarts (s : Stream) (m : Site) : Bool :=
  (s.tagBefore? m.start).all Tag.opensStatement

end Stream

namespace Rule

/-- A match of the rule may be reduced. -/
def accepts (rule : Rule) (s : Stream) (m : Site) : Bool :=
  let before := s.tagBefore? m.start
  let next := s.tagAt? m.after
  match rule with
  | assignmentHead | callHead => before != some .dot
  | .variable => !before.any Tag.namesMember
  | field => next != some .leftParen && next != some .equals
  | group => before != some .name
  | map => before.any Tag.expectsValue
  | unary =>
    (s.tagAt? m.start != some .term || s.isPrefixMinus m.start)
      && next != some .dot && next != some .power
  | power => s.binaryFits m 5 true
  | factor => s.binaryFits m 4 false
  | term => s.binaryFits m 3 false
  | comparison => s.binaryFits m 2 false
  | logic => s.binaryFits m 1 false
  | print | assignment => !s.continues m.after
  | returns =>
    if 1 < m.length then !s.continues m.after
    else next.all fun tag => s.lineBreakBefore m.after || !tag.startsExpression
  | sequence => next != some .elseWord && next != some .elseIfWord
  | trailing => next == none || next == some .rightBrace
  | statement =>
    s.statementStarts m && !next.any Tag.holdsExpression && !s.continues m.after
  | literal | declaration | functionHead | classHead | newHead | methodHead
  | fieldAssignmentHead | list | arguments | jump | branch | elseIf | otherwise | loop
  | functionEnd | classEnd => true

end Rule

end StackScript
