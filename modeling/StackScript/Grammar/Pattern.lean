import StackScript.Tag

/-!
# StackScript.Grammar.Pattern — patterns over runs of tags

A pattern takes tags off the front of a list: one tag of a set, one pattern after another, a pattern
or nothing, a pattern any number of times.  It takes as much as it can and does not go back on that,
which is enough for patterns in which one tag of lookahead decides.
-/

namespace StackScript

/-- A pattern over tags. -/
inductive Pattern where
  | nothing
  /-- one tag of the list -/
  | one (of : List Tag)
  | andThen (p q : Pattern)
  | optional (p : Pattern)
  /-- any number of times, none included -/
  | many (p : Pattern)
deriving Repr, Inhabited

namespace Pattern

/-- `step` as often as it succeeds, at most `n` times. -/
def repeated (step : List Tag → Option (List Tag)) : Nat → List Tag → List Tag
  | 0, ts => ts
  | n + 1, ts =>
    match step ts with
    | none => ts
    | some rest => repeated step n rest

/-- What a pattern leaves of a list that it matches the front of. -/
def rest? : Pattern → List Tag → Option (List Tag)
  | nothing, ts => some ts
  | one _, [] => none
  | one of, t :: ts => if of.contains t then some ts else none
  | andThen p q, ts => (p.rest? ts).bind q.rest?
  | optional p, ts => some ((p.rest? ts).getD ts)
  | many p, ts => some (repeated p.rest? ts.length ts)

/-- How many tags a pattern takes off the front of a list. -/
def length? (p : Pattern) (ts : List Tag) : Option Nat :=
  (p.rest? ts).map fun rest => ts.length - rest.length

/-- A single tag. -/
def tag (t : Tag) : Pattern := one [t]

/-- One pattern after another. -/
def all : List Pattern → Pattern
  | [] => nothing
  | [p] => p
  | p :: ps => andThen p (all ps)

/-- Tags in sequence. -/
def tags (ts : List Tag) : Pattern := all (ts.map tag)

/-- A pattern one or more times. -/
def atLeastOnce (p : Pattern) : Pattern := andThen p (many p)

/-- A pattern any number of times with commas between, or nothing. -/
def commaList (p : Pattern) : Pattern := optional (andThen p (many (andThen (tag .comma) p)))

end Pattern

end StackScript
