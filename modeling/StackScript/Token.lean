import StackScript.Tag

/-!
# StackScript.Token — tagged pieces of the source

A token is a piece of source text with its tag, the line it starts on and the bytes it covers.
-/

namespace StackScript

/-- Bytes of the source, from `start` up to but not including `stop`. -/
structure Span where
  start : Nat
  stop : Nat
deriving DecidableEq, Repr, Inhabited

/-- A tagged piece of source text. -/
structure Token where
  tag : Tag
  text : String
  /-- the line it starts on, counted from one -/
  line : Nat
  span : Span
deriving DecidableEq, Repr, Inhabited

end StackScript
