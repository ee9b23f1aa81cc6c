/-!
# StackScript.Binding — what a name refers to

A variable is a local slot, a parameter of the running function or a global.  Instructions address
the first two by one number: slots count from zero and parameters are the negated ordinals.
-/

namespace StackScript

/-- What a variable name was resolved to. -/
inductive Binding where
  | slot (id : Nat)
  /-- the parameter with this ordinal, counted from one -/
  | param (ordinal : Nat)
  /-- a global, addressed by its name -/
  | global
deriving DecidableEq, Repr, Inhabited

namespace Binding

/-- The number that instructions address the variable by; a global has none. -/
def id? : Binding → Option Int
  | slot id => some id
  | param ordinal => some (-ordinal)
  | global => none

end Binding

end StackScript
