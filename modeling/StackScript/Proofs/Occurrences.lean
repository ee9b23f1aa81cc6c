import StackScript.Scope

/-!
# StackScript.Proofs.Occurrences — what a tree does with names, in order

`Block.occurrences` lists, in the order in which a tree is gone through, where bodies begin and end
and where a name is read, assigned or declared, with the binding that stands there.  Resolving a
tree is resolving these one after the other (`Block.resolve_follows`), so that whatever is said of
scopes can be said of lists.
-/

namespace StackScript

/-- What happens to names at one place of a tree. -/
inductive Occurrence where
  /-- a body begins, that of a function with its parameters -/
  | enter (params : List String)
  | leave
  | read (name : String) (line : Nat) (binding : Option Binding)
  | write (name : String) (line : Nat) (binding : Option Binding)
  | declare (name : String) (binding : Option Binding)
deriving DecidableEq, Repr, Inhabited

namespace Occurrence

/-- The same without its binding. -/
def bare : Occurrence → Occurrence
  | read name line _ => .read name line none
  | write name line _ => .write name line none
  | declare name _ => .declare name none
  | enter params => .enter params
  | leave => .leave

/-- The problem of a name that is used without a binding. -/
def problem? : Occurrence → Option Diagnostic
  | read name line none => some (.undefinedRead name line)
  | write name line none => some (.undefinedWrite name line)
  | read _ _ (some _) | write _ _ (some _) | declare _ _ | enter _ | leave => none

end Occurrence

/-! ### The occurrences of a tree -/

mutual

/-- The occurrences in an expression; the arguments of a method come before its receiver. -/
def Expr.occurrences : Expr → List Occurrence
  | .list _ items => Expr.occurrencesAll items
  | .map _ entries => Expr.occurrencesPairs entries
  | .variable line name binding => [.read name line binding]
  | .field _ receiver _ => receiver.occurrences
  | .binary _ _ left right _ => left.occurrences ++ right.occurrences
  | .unary _ _ operand => operand.occurrences
  | .call _ _ args => Expr.occurrencesAll args
  | .method _ receiver _ args => Expr.occurrencesAll args ++ receiver.occurrences
  | .create _ _ args => Expr.occurrencesAll args
  | .number .. | .text .. | .boolean .. | .null .. | .this .. | .super .. => []

/-- The occurrences in expressions from first to last. -/
def Expr.occurrencesAll : List Expr → List Occurrence
  | [] => []
  | e :: es => e.occurrences ++ Expr.occurrencesAll es

/-- The occurrences in keys and values from first to last. -/
def Expr.occurrencesPairs : List (Expr × Expr) → List Occurrence
  | [] => []
  | (k, v) :: es => k.occurrences ++ (v.occurrences ++ Expr.occurrencesPairs es)

end

/-- The occurrences in an expression that may be absent. -/
def Expr.occurrencesOption : Option Expr → List Occurrence
  | none => []
  | some e => e.occurrences

mutual

/-- The occurrences in a statement.  A variable is declared after its initial value, and a body
begins after the condition for it.  A declaration directly in a class body makes a field and is no
occurrence. -/
def Stmt.occurrences (isMember : Bool) : Stmt → List Occurrence
  | .value e => e.occurrences
  | .declare _ name init binding =>
    Expr.occurrencesOption init ++ if isMember then [] else [.declare name binding]
  | .assign line name value binding => value.occurrences ++ [.write name line binding]
  | .setField _ receiver _ value => receiver.occurrences ++ value.occurrences
  | .print _ value => value.occurrences
  | .branch _ condition body rest =>
    condition.occurrences ++ (body.occurrencesBody [] ++ rest.occurrences)
  | .loop _ condition body => condition.occurrences ++ body.occurrencesBody []
  | .function _ _ params body => body.occurrencesBody params
  | .classDecl _ _ _ members => members.occurrences true
  | .returns _ value => Expr.occurrencesOption value
  | .continues _ | .breaks _ | .free .. => []

/-- The occurrences in what follows the body of an `if`. -/
def Rest.occurrences : Rest → List Occurrence
  | .nothing => []
  | .elseIf _ condition body rest =>
    condition.occurrences ++ (body.occurrencesBody [] ++ rest.occurrences)
  | .otherwise body => body.occurrencesBody []

/-- The occurrences of a body, from its beginning to its end. -/
def Block.occurrencesBody (params : List String) : Block → List Occurrence
  | .mk _ statements => .enter params :: (Stmt.occurrencesAll false statements ++ [.leave])

/-- The occurrences in a block that is no body: the whole program, or the members of a class. -/
def Block.occurrences (isMember : Bool) : Block → List Occurrence
  | .mk _ statements => Stmt.occurrencesAll isMember statements

/-- The occurrences in statements from first to last. -/
def Stmt.occurrencesAll (isMember : Bool) : List Stmt → List Occurrence
  | [] => []
  | s :: ss => s.occurrences isMember ++ Stmt.occurrencesAll isMember ss

end

/-- The end of a local variable is no occurrence. -/
theorem Stmt.occurrencesAll_append_free (ss : List Stmt) (line : Nat)
    (locals : List (String × Nat)) :
    Stmt.occurrencesAll false (ss ++ locals.map fun d => .free line d.1 d.2) =
      Stmt.occurrencesAll false ss := by
  induction ss with
  | nil =>
    induction locals with
    | nil => rfl
    | cons d locals ih => exact ih
  | cons s ss ih => rw [List.cons_append, occurrencesAll, occurrencesAll, ih]

/-! ### Resolving occurrences -/

namespace Occurrence

/-- Gives an occurrence its binding. -/
def resolve : Occurrence → Resolve Occurrence
  | enter params => fun s => (.enter params, s.push params)
  | leave => fun s => (.leave, s.pop.2)
  | read name line _ =>
    return .read name line (← Resolve.use name (.undefinedRead name line))
  | write name line _ =>
    return .write name line (← Resolve.use name (.undefinedWrite name line))
  | declare name _ => return .declare name (← Resolve.declare name)

/-- Gives occurrences their bindings from first to last. -/
def resolveAll : List Occurrence → Resolve (List Occurrence)
  | [] => return []
  | o :: os => do
    let o ← o.resolve
    let os ← resolveAll os
    return o :: os

theorem resolveAll_cons (o : Occurrence) (os : List Occurrence) (s : Scope) :
    resolveAll (o :: os) s =
      ((o.resolve s).1 :: (resolveAll os (o.resolve s).2).1, (resolveAll os (o.resolve s).2).2) :=
  rfl

theorem resolveAll_append (os os' : List Occurrence) (s : Scope) :
    resolveAll (os ++ os') s =
      ((resolveAll os s).1 ++ (resolveAll os' (resolveAll os s).2).1,
        (resolveAll os' (resolveAll os s).2).2) := by
  induction os generalizing s with
  | nil => rfl
  | cons o os ih => rw [List.cons_append, resolveAll_cons, ih, resolveAll_cons, List.cons_append]

end Occurrence

open Occurrence

/-- Resolving something gives its occurrences their bindings. -/
def Resolve.Follows {α : Type} (x : Resolve α) (occurrences : α → List Occurrence)
    (os : List Occurrence) : Prop :=
  ∀ s : Scope, resolveAll os s = (occurrences (x s).1, (x s).2)

mutual

theorem Expr.resolve_follows : (e : Expr) → e.resolve.Follows Expr.occurrences e.occurrences
  | .list _ items => fun s => Expr.resolveAll_follows items s
  | .map _ entries => fun s => Expr.resolvePairs_follows entries s
  | .variable .. => fun _ => rfl
  | .field _ receiver _ => fun s => receiver.resolve_follows s
  | .binary _ _ left right _ => fun s => by
    rw [Expr.occurrences, resolveAll_append, left.resolve_follows, right.resolve_follows]
    rfl
  | .unary _ _ operand => fun s => operand.resolve_follows s
  | .call _ _ args => fun s => Expr.resolveAll_follows args s
  | .method _ receiver _ args => fun s => by
    rw [Expr.occurrences, resolveAll_append, Expr.resolveAll_follows args, receiver.resolve_follows]
    rfl
  | .create _ _ args => fun s => Expr.resolveAll_follows args s
  | .number .. | .text .. | .boolean .. | .null .. | .this .. | .super .. => fun _ => rfl

theorem Expr.resolveAll_follows : (es : List Expr) →
    (Expr.resolveAll es).Follows Expr.occurrencesAll (Expr.occurrencesAll es)
  | [] => fun _ => rfl
  | e :: es => fun s => by
    rw [Expr.occurrencesAll, resolveAll_append, e.resolve_follows, Expr.resolveAll_follows es]
    rfl

theorem Expr.resolvePairs_follows : (es : List (Expr × Expr)) →
    (Expr.resolvePairs es).Follows Expr.occurrencesPairs (Expr.occurrencesPairs es)
  | [] => fun _ => rfl
  | (k, v) :: es => fun s => by
    rw [Expr.occurrencesPairs, resolveAll_append, k.resolve_follows, resolveAll_append,
      v.resolve_follows, Expr.resolvePairs_follows es]
    rfl

end

theorem Expr.resolveOption_follows (e : Option Expr) :
    (Expr.resolveOption e).Follows Expr.occurrencesOption (Expr.occurrencesOption e) := by
  cases e with
  | none => exact fun _ => rfl
  | some e => exact fun s => e.resolve_follows s

/-- A body is resolved between its beginning and its end. -/
theorem Resolve.inFrame_follows {x : Resolve (List Stmt)} {os : List Occurrence}
    (h : x.Follows (Stmt.occurrencesAll false) os) (params : List String) (line : Nat) :
    (inFrame params line x).Follows (Block.occurrencesBody params)
      (.enter params :: (os ++ [.leave])) := by
  intro s
  rw [resolveAll_cons, resolveAll_append]
  change (_ :: ((resolveAll os (s.push params)).1 ++ [Occurrence.leave]),
    (resolveAll os (s.push params)).2.pop.2) = _
  rw [h]
  change _ = (Occurrence.enter params :: (Stmt.occurrencesAll false (_ ++ _) ++ [.leave]), _)
  rw [Stmt.occurrencesAll_append_free]
  rfl

mutual

theorem Stmt.resolve_follows (isMember : Bool) : (st : Stmt) →
    (st.resolve isMember).Follows (Stmt.occurrences isMember) (st.occurrences isMember)
  | .value e => fun s => e.resolve_follows s
  | .declare _ _ init _ => fun s => by
    rw [Stmt.occurrences, resolveAll_append, Expr.resolveOption_follows init]
    cases isMember <;> rfl
  | .assign _ _ value _ => fun s => by
    rw [Stmt.occurrences, resolveAll_append, value.resolve_follows]
    rfl
  | .setField _ receiver _ value => fun s => by
    rw [Stmt.occurrences, resolveAll_append, receiver.resolve_follows, value.resolve_follows]
    rfl
  | .print _ value => fun s => value.resolve_follows s
  | .branch _ condition body rest => fun s => by
    rw [Stmt.occurrences, resolveAll_append, condition.resolve_follows, resolveAll_append,
      body.resolveBody_follows, rest.resolve_follows]
    rfl
  | .loop _ condition body => fun s => by
    rw [Stmt.occurrences, resolveAll_append, condition.resolve_follows, body.resolveBody_follows]
    rfl
  | .function _ _ params body => fun s => body.resolveBody_follows params s
  | .classDecl _ _ _ members => fun s => members.resolve_follows true s
  | .returns _ value => fun s => Expr.resolveOption_follows value s
  | .continues _ | .breaks _ | .free .. => fun _ => rfl

theorem Rest.resolve_follows : (r : Rest) → r.resolve.Follows Rest.occurrences r.occurrences
  | .nothing => fun _ => rfl
  | .elseIf _ condition body rest => fun s => by
    rw [Rest.occurrences, resolveAll_append, condition.resolve_follows, resolveAll_append,
      body.resolveBody_follows, rest.resolve_follows]
    rfl
  | .otherwise body => fun s => body.resolveBody_follows [] s

theorem Block.resolveBody_follows : (b : Block) → (params : List String) →
    (b.resolveBody params).Follows (Block.occurrencesBody params) (b.occurrencesBody params)
  | .mk line statements, params =>
    Resolve.inFrame_follows (Stmt.resolveAll_follows false statements) params line

/-- Resolving a tree gives its occurrences their bindings, one after the other. -/
theorem Block.resolve_follows (isMember : Bool) : (b : Block) →
    (b.resolve isMember).Follows (Block.occurrences isMember) (b.occurrences isMember)
  | .mk _ statements => fun s => Stmt.resolveAll_follows isMember statements s

theorem Stmt.resolveAll_follows (isMember : Bool) : (ss : List Stmt) →
    (Stmt.resolveAll isMember ss).Follows (Stmt.occurrencesAll isMember)
      (Stmt.occurrencesAll isMember ss)
  | [] => fun _ => rfl
  | st :: ss => fun s => by
    rw [Stmt.occurrencesAll, resolveAll_append, st.resolve_follows, Stmt.resolveAll_follows]
    rfl

end

end StackScript
