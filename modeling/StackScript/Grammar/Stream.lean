import StackScript.Grammar.Fragment

/-!
# StackScript.Grammar.Stream — the symbols that the grammar reduces

Symbols are active or detached.  The rules see the active ones.  A detached symbol, a line break as
a rule, keeps the number of the active symbol that it stands before, so that a rule that asks for
its tag sees it in its place again.  `entries` lists what a rule sees; `replace` puts one symbol for
a run of entries and keeps every detached symbol outside the run where it was.
-/

namespace StackScript

/-- A symbol taken out of the active list. -/
structure Detached where
  /-- the index of the active symbol that it stands before -/
  position : Nat
  symbol : Symbol
deriving Inhabited

/-- A place in the list that a rule sees: an index into the active or the detached list. -/
inductive Entry where
  | active (index : Nat)
  | detached (index : Nat)
deriving DecidableEq, Repr, Inhabited

/-- Active and detached symbols. -/
structure Stream where
  active : List Symbol
  detached : List Detached
deriving Inhabited

namespace Stream

/-- All symbols active. -/
def ofSymbols (symbols : List Symbol) : Stream := ⟨symbols, []⟩

/-! ### Detached symbols -/

/-- Two detached symbols of one tag in one gap are one symbol. -/
def foldInto (d : Detached) : List Detached → List Detached
  | [] => [d]
  | e :: es =>
    if d.position = e.position ∧ d.symbol.tag = e.symbol.tag then
      foldInto
        ⟨d.position,
          { d.symbol with
            text := d.symbol.text ++ e.symbol.text
            span := ⟨d.symbol.span.start, max d.symbol.span.stop e.symbol.span.stop⟩ }⟩ es
    else d :: foldInto e es

/-- Folds neighbours of one tag in one gap into one. -/
def foldNeighbours : List Detached → List Detached
  | [] => []
  | d :: ds => foldInto d ds

/-- How many of the first `n` active symbols have the tag. -/
def countBefore (s : Stream) (tag : Tag) (n : Nat) : Nat :=
  (s.active.take n).countP (·.tag = tag)

/-- The detached symbols renumbered for a list that has lost every active symbol of the tag. -/
def renumbered (s : Stream) (tag : Tag) (ds : List Detached) : List Detached :=
  ds.map fun d => { d with position := d.position - s.countBefore tag d.position }

/-- Moves every active symbol of the tag to the detached ones, behind those of the same gap. -/
def remove (s : Stream) (tag : Tag) : Stream :=
  let moved := (s.active.zipIdx.filter (·.1.tag = tag)).map fun p =>
    (⟨p.2 - s.countBefore tag p.2, p.1⟩ : Detached)
  let all := List.merge (s.renumbered tag s.detached) moved fun d e =>
    decide (d.position ≤ e.position)
  ⟨s.active.filter (·.tag ≠ tag), foldNeighbours all⟩

/-- Drops every symbol of the tag, active or detached. -/
def purge (s : Stream) (tag : Tag) : Stream :=
  ⟨s.active.filter (·.tag ≠ tag),
    foldNeighbours (s.renumbered tag (s.detached.filter (·.symbol.tag ≠ tag)))⟩

/-- A detached symbol has this tag and span. -/
def isDetached (s : Stream) (tag : Tag) (span : Span) : Bool :=
  s.detached.any fun d => decide (d.symbol.tag = tag) && decide (d.symbol.span = span)

/-- A line break stands right before the active symbol at `index`. -/
def lineBreakBefore (s : Stream) (index : Nat) : Bool :=
  s.detached.any fun d => decide (d.position = index) && decide (d.symbol.tag = .newline)

/-! ### What a rule sees -/

/-- The active symbols from index `i` on, and after each the detached ones of the gap that follows
it, those of the included tags.  `ds` holds the detached symbols not passed yet with their
indices. -/
def weave (included : List Tag) (i : Nat) : List Symbol → List (Detached × Nat) →
    List (Tag × Entry)
  | [], _ => []
  | a :: as, ds =>
    let gap := ds.takeWhile fun d => decide (d.1.position ≤ i + 1)
    let shown := gap.filter fun d =>
      decide (d.1.position = i + 1) && included.contains d.1.symbol.tag
    (a.tag, .active i) :: shown.map (fun d => (d.1.symbol.tag, .detached d.2))
      ++ weave included (i + 1) as (ds.dropWhile fun d => decide (d.1.position ≤ i + 1))

/-- What a rule sees that asks for the included tags.  A symbol detached from the very start stays
out of sight. -/
def entries (s : Stream) (included : List Tag) : List (Tag × Entry) :=
  weave included 0 s.active s.detached.zipIdx

/-- The symbol at an entry. -/
def symbolAt? (s : Stream) : Entry → Option Symbol
  | .active i => s.active[i]?
  | .detached i => s.detached[i]?.map (·.symbol)

/-- The symbols at a run of entries. -/
def collect (s : Stream) (run : List Entry) : List Symbol := run.filterMap s.symbolAt?

/-- The tags of the active symbols, a space between two. -/
def tagLine (s : Stream) : String := " ".intercalate (s.active.map (·.tag.toText))

/-! ### Replacing a run -/

/-- The active indices among entries. -/
def activeIndices (run : List Entry) : List Nat :=
  run.filterMap fun
    | .active i => some i
    | .detached _ => none

/-- Puts `symbol` for the run of active symbols from `first` to `last`.  Detached symbols of the run
or inside it go; those after it move with what they stand before. -/
def splice (s : Stream) (run : List Entry) (first last : Nat) (symbol : Symbol) : Stream :=
  let kept := s.detached.zipIdx.filter fun d =>
    !run.contains (.detached d.2) && (decide (d.1.position ≤ first) || decide (last < d.1.position))
  let moved := kept.map fun d =>
    if last < d.1.position then { d.1 with position := d.1.position - (last - first) } else d.1
  ⟨s.active.take first ++ symbol :: s.active.drop (last + 1), moved⟩

/-- Puts `symbol` for a run of entries, if the run has an active one. -/
def replace (s : Stream) (run : List Entry) (symbol : Symbol) : Option Stream :=
  let indices := activeIndices run
  match indices.head?, indices.getLast? with
  | some first, some last => some (s.splice run first last symbol)
  | _, _ => none

end Stream

/-! ### Listings of tags -/

/-- The list that a rule sees, written out: a space before the first tag and after each. -/
structure TagMap where
  entries : List (Tag × Entry)

namespace TagMap

/-- The tags with a space before the first and after each. -/
def text (m : TagMap) : String :=
  m.entries.foldl (fun s e => s ++ e.1.toText ++ " ") " "

/-- The byte at which each tag begins, the first at `from`. -/
def startsFrom : Nat → List (Tag × Entry) → List Nat
  | _, [] => []
  | start, e :: es => start :: startsFrom (start + e.1.toText.utf8ByteSize + 1) es

/-- The entry whose tag begins at a byte of the text. -/
def entryAt? (m : TagMap) (offset : Nat) : Option Nat :=
  (startsFrom 1 m.entries).findIdx? (· == offset)

end TagMap

end StackScript
