import StackScript.Text.GraphemeClass

/-!
# StackScript.Text.Grapheme — what a reader takes for one character

`graphemes` cuts a text into extended grapheme clusters: a character begins a new one unless its
class joins it to what was read before (Unicode Standard Annex 29).  Besides the character before,
three things behind it count: the length of a run of regional letters, a pictograph in front of a
joiner, and a consonant in front of a linker.  Nothing of the text is lost (`flatten_graphemes`).
The program does not cut texts itself: this stands for the line editor's library, which takes back
one grapheme for each backspace (`Shell.takeBack`).
-/

namespace StackScript.Text

/-- What counts of the text that was read. -/
structure GraphemeContext where
  /-- the class of the last character; there is none before the text -/
  last : GraphemeClass
  /-- the text ends with an odd run of regional letters -/
  oddRegional : Bool
  /-- it ends with a pictograph and its marks -/
  pictograph : Bool
  /-- it ends with a pictograph, its marks and a joiner -/
  joined : Bool
  /-- it ends with a consonant and its marks -/
  linkable : Bool
  /-- a linker is among these marks -/
  linked : Bool
deriving DecidableEq, Repr, Inhabited

namespace GraphemeContext

/-- Nothing was read. -/
def start : GraphemeContext := ⟨.lineFeed, false, false, false, false, false⟩

/-- A mark that may stand between a consonant and the one that it is linked to. -/
def keepsLink (c : Char) : Bool :=
  match GraphemeClass.ofChar c with
  | .joiner => true
  | .extending => c != '\u200c'
  | _ => false

/-- The context after one more character. -/
def push (s : GraphemeContext) (c : Char) : GraphemeContext :=
  let k := GraphemeClass.ofChar c
  let linkable := s.linkable && keepsLink c
  { last := k
    oddRegional := k == .regional && !(s.last == .regional && s.oddRegional)
    pictograph := k == .pictograph || k == .extending && s.pictograph
    joined := k == .joiner && s.pictograph
    linkable := k == .linkable || linkable
    linked := linkable && (s.linked || isLinker c) }

/-- A character of class `k` belongs to the grapheme read last. -/
def joins (s : GraphemeContext) (k : GraphemeClass) : Bool :=
  match s.last, k with
  | .carriageReturn, .lineFeed => true
  | .carriageReturn, _ | .lineFeed, _ | .control, _ => false
  | _, .carriageReturn | _, .lineFeed | _, .control => false
  | _, .extending | _, .joiner | _, .spacing => true
  | .leadingSign, _ => true
  | .leadingConsonant, .leadingConsonant | .leadingConsonant, .vowel => true
  | .leadingConsonant, .openSyllable | .leadingConsonant, .closedSyllable => true
  | .openSyllable, .vowel | .openSyllable, .trailingConsonant => true
  | .vowel, .vowel | .vowel, .trailingConsonant => true
  | .closedSyllable, .trailingConsonant | .trailingConsonant, .trailingConsonant => true
  | _, .linkable => s.linked
  | _, .pictograph => s.joined
  | .regional, .regional => s.oddRegional
  | _, _ => false

end GraphemeContext

/-- The graphemes of a text, of which `first` begins the first. -/
def graphemesFrom (s : GraphemeContext) (first : List Char) : List Char → List (List Char)
  | [] => if first.isEmpty then [] else [first]
  | c :: cs =>
    if first.isEmpty || s.joins (GraphemeClass.ofChar c) then
      graphemesFrom (s.push c) (first ++ [c]) cs
    else first :: graphemesFrom (s.push c) [c] cs

/-- The graphemes of a text. -/
def graphemes (cs : List Char) : List (List Char) := graphemesFrom .start [] cs

theorem flatten_graphemesFrom (s : GraphemeContext) (first cs : List Char) :
    (graphemesFrom s first cs).flatten = first ++ cs := by
  induction cs generalizing s first with
  | nil => by_cases h : first.isEmpty <;> simp_all [graphemesFrom]
  | cons c cs ih =>
    unfold graphemesFrom
    split
    · simp [ih]
    · simp [ih]

@[simp] theorem flatten_graphemes (cs : List Char) : (graphemes cs).flatten = cs :=
  flatten_graphemesFrom .start [] cs

end StackScript.Text
