import Mathlib.Data.List.Nodup
import Mathlib.Data.List.Pairwise
import Mathlib.Data.List.Perm.Subperm
import Mathlib.Logic.Relation
import StackScript.Tree

/-!
# StackScript.Proofs.Arena — trees in an arena

An arena is a list of nodes that name each other by their index.  `Arena.Shows a ts is ids` says that
the trees `ts` stand in it with their roots at `is`, and that `ids` are all their nodes.  Nothing in
this keeps a node out of two trees; but where no index comes twice in `ids`, the nodes that are
reached from a root form a tree (`Shows.isTree`).  What happens at other indices does not matter
(`Shows.frame`).
-/

namespace StackScript

/-! ### Nodes -/

/-- The branch that follows the body of an `if`. -/
inductive Else (ι : Type) where
  | elseIf (branch : ι)
  | otherwise (body : ι)
deriving DecidableEq, Repr

/-- A node of an arena, with `ι` for the nodes below it.  An assignment can still lack its value, a
call its arguments. -/
inductive Node (ι : Type) where
  | number (value : Decimal)
  | text (value : String)
  | boolean (value : Bool)
  | null
  | this
  | super
  | list (items : List ι)
  | map (entries : List (ι × ι))
  | variable (name : String) (receiver : Option ι)
  | binary (op : BinaryOp) (left right : ι)
  | unary (op : UnaryOp) (operand : ι)
  | call (name : String) (receiver : Option ι) (args : List ι)
  | create (className : String) (args : List ι)
  | setVariable (name : String) (value : Option ι) (declares : Bool) (receiver : Option ι)
  | print (value : ι)
  | branch (condition body : ι) (rest : Option (Else ι))
  | loop (condition body : ι)
  | function (name : String) (params : List String) (body : ι)
  | classDecl (name : String) (parent : Option String) (members : ι)
  | returns (value : Option ι)
  | continues
  | breaks
  | blocks (statements : List ι)
  | free (name : String) (slot : Nat)
deriving DecidableEq, Repr

namespace Else

variable {ι : Type}

/-- The node that a branch names. -/
def node : Else ι → ι
  | elseIf i | otherwise i => i

/-- A branch without the node that it names. -/
def label : Else ι → Else Unit
  | elseIf _ => .elseIf ()
  | otherwise _ => .otherwise ()

end Else

namespace Node

variable {ι : Type}

/-- The nodes below, expressions before blocks, the arguments of a call before its receiver. -/
def children : Node ι → List ι
  | list items => items
  | map entries => entries.flatMap fun e => [e.1, e.2]
  | .variable _ receiver => receiver.toList
  | binary _ left right => [left, right]
  | unary _ operand => [operand]
  | call _ receiver args => args ++ receiver.toList
  | create _ args => args
  | setVariable _ value _ receiver => receiver.toList ++ value.toList
  | print value => [value]
  | branch condition body rest => condition :: body :: (rest.map Else.node).toList
  | loop condition body => [condition, body]
  | function _ _ body => [body]
  | classDecl _ _ members => [members]
  | returns value => value.toList
  | blocks statements => statements
  | number _ | text _ | boolean _ | null | this | super | continues | breaks | free .. => []

/-- A node without the names of the nodes below it. -/
def label : Node ι → Node Unit
  | number value => .number value
  | text value => .text value
  | boolean value => .boolean value
  | null => .null
  | this => .this
  | super => .super
  | list items => .list (items.map fun _ => ())
  | map entries => .map (entries.map fun _ => ((), ()))
  | .variable name receiver => .variable name (receiver.map fun _ => ())
  | binary op _ _ => .binary op () ()
  | unary op _ => .unary op ()
  | call name receiver args => .call name (receiver.map fun _ => ()) (args.map fun _ => ())
  | create className args => .create className (args.map fun _ => ())
  | setVariable name value declares receiver =>
    .setVariable name (value.map fun _ => ()) declares (receiver.map fun _ => ())
  | print _ => .print ()
  | branch _ _ rest => .branch () () (rest.map Else.label)
  | loop _ _ => .loop () ()
  | function name params _ => .function name params ()
  | classDecl name parent _ => .classDecl name parent ()
  | returns value => .returns (value.map fun _ => ())
  | continues => .continues
  | breaks => .breaks
  | blocks statements => .blocks (statements.map fun _ => ())
  | free name slot => .free name slot

end Node

/-! ### Trees -/

/-- A tree of nodes, each with its line. -/
inductive Tree where
  | node (line : Nat) (label : Node Unit) (children : List Tree)

mutual

/-- The tree of an expression. -/
def Expr.tree : Expr → Tree
  | .number line value => .node line (.number value) []
  | .text line value => .node line (.text value) []
  | .boolean line value => .node line (.boolean value) []
  | .null line => .node line .null []
  | .this line => .node line .this []
  | .super line => .node line .super []
  | .list line items => .node line (.list (items.map fun _ => ())) (Expr.trees items)
  | .map line entries => .node line (.map (entries.map fun _ => ((), ()))) (Expr.treesPairs entries)
  | .variable line name _ => .node line (.variable name none) []
  | .field line receiver name => .node line (.variable name (some ())) [receiver.tree]
  | .binary line op left right _ => .node line (.binary op () ()) [left.tree, right.tree]
  | .unary line op operand => .node line (.unary op ()) [operand.tree]
  | .call line name args => .node line (.call name none (args.map fun _ => ())) (Expr.trees args)
  | .method line receiver name args =>
    .node line (.call name (some ()) (args.map fun _ => ())) (Expr.trees args ++ [receiver.tree])
  | .create line className args =>
    .node line (.create className (args.map fun _ => ())) (Expr.trees args)

/-- The trees of expressions. -/
def Expr.trees : List Expr → List Tree
  | [] => []
  | e :: es => e.tree :: Expr.trees es

/-- The trees of keys and values in turn. -/
def Expr.treesPairs : List (Expr × Expr) → List Tree
  | [] => []
  | (k, v) :: es => k.tree :: v.tree :: Expr.treesPairs es

end

/-- The tree of an expression that may be absent. -/
def Expr.treesOption : Option Expr → List Tree
  | none => []
  | some e => [e.tree]

/-- The form of what follows the body of an `if`. -/
def Rest.label : Rest → Option (Else Unit)
  | nothing => none
  | elseIf .. => some (.elseIf ())
  | otherwise _ => some (.otherwise ())

mutual

/-- The tree of a statement. -/
def Stmt.tree : Stmt → Tree
  | .value e => e.tree
  | .declare line name init _ =>
    .node line (.setVariable name (init.map fun _ => ()) true none) (Expr.treesOption init)
  | .assign line name value _ =>
    .node line (.setVariable name (some ()) false none) [value.tree]
  | .setField line receiver name value =>
    .node line (.setVariable name (some ()) false (some ())) [receiver.tree, value.tree]
  | .print line value => .node line (.print ()) [value.tree]
  | .branch line condition body rest =>
    .node line (.branch () () rest.label) (condition.tree :: body.tree :: rest.trees)
  | .loop line condition body => .node line (.loop () ()) [condition.tree, body.tree]
  | .function line name params body => .node line (.function name params ()) [body.tree]
  | .classDecl line name parent members => .node line (.classDecl name parent ()) [members.tree]
  | .returns line value => .node line (.returns (value.map fun _ => ())) (Expr.treesOption value)
  | .continues line => .node line .continues []
  | .breaks line => .node line .breaks []
  | .free line name slot => .node line (.free name slot) []

/-- The tree of what follows the body of an `if`, if anything does. -/
def Rest.trees : Rest → List Tree
  | .nothing => []
  | .elseIf line condition body rest =>
    [.node line (.branch () () rest.label) (condition.tree :: body.tree :: rest.trees)]
  | .otherwise body => [body.tree]

/-- The tree of a block. -/
def Block.tree : Block → Tree
  | .mk line statements => .node line (.blocks (statements.map fun _ => ())) (Stmt.trees statements)

/-- The trees of statements. -/
def Stmt.trees : List Stmt → List Tree
  | [] => []
  | s :: ss => s.tree :: Stmt.trees ss

end

/-! ### Arenas -/

/-- A node of an arena with its line. -/
structure Cell where
  node : Node Nat
  line : Nat
deriving DecidableEq, Repr

/-- Nodes that name each other by their index. -/
abbrev Arena := List Cell

namespace Arena

variable {a b : Arena} {t : Tree} {ts us : List Tree} {i j : Nat} {is js ids ids' : List Nat}

/-- The nodes that a node names. -/
def children (a : Arena) (i : Nat) : List Nat := (a[i]?.map (·.node.children)).getD []

/-- The trees stand in the arena with their roots at `is`, and `ids` are all their nodes. -/
inductive Shows (a : Arena) : List Tree → List Nat → List Nat → Prop
  | nil : Shows a [] [] []
  | cons {cell : Cell} {i : Nat} {below ts : List Tree} {is ids ids' : List Nat}
    (hcell : a[i]? = some cell) (hbelow : Shows a below cell.node.children ids)
    (hrest : Shows a ts is ids') :
    Shows a (.node cell.line cell.node.label below :: ts) (i :: is) (i :: (ids ++ ids'))

namespace Shows

/-- Trees are where they are, whatever happens elsewhere. -/
theorem frame (h : a.Shows ts is ids) (hsame : ∀ j ∈ ids, b[j]? = a[j]?) : b.Shows ts is ids := by
  induction h with
  | nil => exact .nil
  | cons hcell _ _ ihbelow ihrest =>
    obtain ⟨hi, hids⟩ := List.forall_mem_cons.mp hsame
    exact .cons (hi.trans hcell) (ihbelow fun j hj => hids j (List.mem_append_left _ hj))
      (ihrest fun j hj => hids j (List.mem_append_right _ hj))

theorem append (h : a.Shows ts is ids) (h' : a.Shows us js ids') :
    a.Shows (ts ++ us) (is ++ js) (ids ++ ids') := by
  induction h with
  | nil => exact h'
  | cons hcell hbelow _ _ ih =>
    rw [List.cons_append, List.cons_append, List.cons_append, List.append_assoc]
    exact .cons hcell hbelow ih

/-- One tree. -/
theorem single {cell : Cell} {below : List Tree} (hcell : a[i]? = some cell)
    (hbelow : a.Shows below cell.node.children ids) :
    a.Shows [.node cell.line cell.node.label below] [i] (i :: ids) := by
  have h := Shows.cons hcell hbelow .nil
  rwa [List.append_nil] at h

theorem single_inv {line : Nat} {label : Node Unit} {below : List Tree}
    (h : a.Shows [.node line label below] is ids) :
    ∃ i cell ids', is = [i] ∧ ids = i :: ids' ∧ a[i]? = some cell ∧ cell.line = line ∧
      cell.node.label = label ∧ a.Shows below cell.node.children ids' := by
  cases h with
  | cons hcell hbelow hrest =>
    cases hrest
    exact ⟨_, _, _, rfl, by rw [List.append_nil], hcell, rfl, rfl, hbelow⟩

/-- The first tree and the others. -/
theorem cons_inv (h : a.Shows (t :: ts) is ids) :
    ∃ i is' ids₁ ids₂, is = i :: is' ∧ ids = ids₁ ++ ids₂ ∧ a.Shows [t] [i] ids₁ ∧
      a.Shows ts is' ids₂ := by
  cases h with
  | cons hcell hbelow hrest => exact ⟨_, _, _, _, rfl, rfl, single hcell hbelow, hrest⟩

theorem length_eq (h : a.Shows ts is ids) : ts.length = is.length := by
  induction h with
  | nil => rfl
  | cons _ _ _ _ ih => rw [List.length_cons, List.length_cons, ih]

theorem lt_length (h : a.Shows ts is ids) : ∀ j ∈ ids, j < a.length := by
  induction h with
  | nil => exact fun j hj => absurd hj List.not_mem_nil
  | cons hcell _ _ ihbelow ihrest =>
    refine List.forall_mem_cons.mpr ⟨(List.getElem?_eq_some_iff.mp hcell).1, fun j hj => ?_⟩
    exact (List.mem_append.mp hj).elim (ihbelow j) (ihrest j)

/-- Where no node comes twice, there are no more nodes than the arena has. -/
theorem length_le (h : a.Shows ts is ids) (hnodup : ids.Nodup) : ids.length ≤ a.length := by
  have hsub : ids ⊆ List.range a.length := fun j hj => List.mem_range.mpr (h.lt_length j hj)
  simpa using (hnodup.subperm hsub).length_le

/-- The nodes of trees are their roots and what the nodes name, each as often. -/
theorem perm (h : a.Shows ts is ids) : (is ++ ids.flatMap a.children).Perm ids := by
  induction h with
  | nil => exact .refl _
  | @cons cell i below ts is ids ids' hcell _ _ ihbelow ihrest =>
    have hchildren : a.children i = cell.node.children := by rw [children, hcell]; rfl
    rw [List.flatMap_cons, List.flatMap_append, hchildren, List.cons_append]
    refine .cons i (.trans ?_ (ihbelow.append ihrest))
    calc is ++ (cell.node.children ++ (ids.flatMap a.children ++ ids'.flatMap a.children))
      _ = is ++ ((cell.node.children ++ ids.flatMap a.children) ++ ids'.flatMap a.children) := by
        rw [List.append_assoc]
      _ |>.Perm ((cell.node.children ++ ids.flatMap a.children) ++ is ++ ids'.flatMap a.children) := by
        rw [← List.append_assoc]
        exact List.perm_append_comm.append_right _
      _ = _ := by rw [List.append_assoc]

end Shows

/-! ### Trees as graphs -/

open Relation

/-- A node names another one. -/
def Edge (a : Arena) (i j : Nat) : Prop := j ∈ a.children i

/-- A node is reached from another one. -/
abbrev Reaches (a : Arena) : Nat → Nat → Prop := ReflTransGen a.Edge

/-- The nodes that are reached from the root form a tree: each is in the arena, each but the root is
named at exactly one place of them, the root at none, and no node is below itself. -/
structure IsTree (a : Arena) (root : Nat) : Prop where
  in_range : ∀ i, a.Reaches root i → i < a.length
  one_edge : ∀ i, a.Reaches root i → i ≠ root →
    ∃! e : Nat × Nat, a.Reaches root e.1 ∧ (a.children e.1)[e.2]? = some i
  no_edge : ∀ i, a.Reaches root i → ¬a.Edge i root
  no_cycle : ∀ i, a.Reaches root i → ¬TransGen a.Edge i i

namespace Shows

/-- What a node of trees names is a node of them. -/
theorem mem_of_edge (h : a.Shows ts is ids) (hi : i ∈ ids) (hedge : a.Edge i j) : j ∈ ids :=
  h.perm.subset (List.mem_append_right _ (List.mem_flatMap.mpr ⟨i, hi, hedge⟩))

theorem mem_of_reaches (h : a.Shows ts is ids) (hi : i ∈ ids) (hreaches : a.Reaches i j) :
    j ∈ ids := by
  induction hreaches with
  | refl => exact hi
  | tail _ hedge ih => exact h.mem_of_edge ih hedge

theorem root_mem (h : a.Shows ts is ids) : ∀ i ∈ is, i ∈ ids :=
  fun _ hi => h.perm.subset (List.mem_append_left _ hi)

/-- From the nodes of trees every way down ends. -/
theorem acc (h : a.Shows ts is ids) : ∀ i ∈ ids, Acc (fun i j => a.Edge j i) i := by
  induction h with
  | nil => exact fun i hi => absurd hi List.not_mem_nil
  | @cons cell i below ts is ids ids' hcell hbelow _ ihbelow ihrest =>
    refine List.forall_mem_cons.mpr ⟨.intro i fun j hj => ?_, fun j hj => ?_⟩
    · have hchildren : a.children i = cell.node.children := by rw [children, hcell]; rfl
      rw [Edge, hchildren] at hj
      exact ihbelow j (hbelow.root_mem j hj)
    · exact (List.mem_append.mp hj).elim (ihbelow j) (ihrest j)

/-- Where no node comes twice, the nodes that are reached from the root of a tree form one. -/
theorem isTree (h : a.Shows [t] [i] ids) (hnodup : ids.Nodup) : a.IsTree i := by
  have hroot : i ∈ ids := h.root_mem i (List.mem_singleton_self i)
  have hmem : ∀ {j}, a.Reaches i j → j ∈ ids := fun hj => h.mem_of_reaches hroot hj
  have hall : (i :: ids.flatMap a.children).Nodup := h.perm.nodup_iff.mpr hnodup
  obtain ⟨hnotRoot, hflat⟩ := List.nodup_cons.mp hall
  obtain ⟨hchildren, hdisjoint⟩ := List.nodup_flatMap.mp hflat
  refine ⟨fun j hj => h.lt_length j (hmem hj), fun j hj hne => ?_, fun j hj hedge => ?_,
    fun j hj hcycle => ?_⟩
  · obtain hji | ⟨k, hk, hedge⟩ := ReflTransGen.cases_tail hj
    · exact absurd hji hne
    obtain ⟨n, hn, hget⟩ := List.mem_iff_getElem.mp hedge
    refine ⟨(k, n), ⟨hk, List.getElem?_eq_some_iff.mpr ⟨hn, hget⟩⟩, ?_⟩
    rintro ⟨k', n'⟩ ⟨hk', hget'⟩
    -- two places at one node are told apart by their index, and no two nodes name the same
    have hsymm : Std.Symm (Function.onFun List.Disjoint a.children) :=
      ⟨fun _ _ h _ hj hi => h hi hj⟩
    have hkk' : k' = k := by
      by_contra hne'
      exact hdisjoint.forall (hmem hk') (hmem hk) hne' (List.mem_of_getElem? hget') hedge
    subst hkk'
    obtain ⟨hn', hget'⟩ := List.getElem?_eq_some_iff.mp hget'
    have hnn' : n' = n := (hchildren k' (hmem hk)).getElem_inj_iff.mp (hget'.trans hget.symm)
    rw [hnn']
  · exact hnotRoot (List.mem_flatMap.mpr ⟨j, hmem hj, hedge⟩)
  · have hacc := h.acc j (hmem hj)
    clear hj
    induction hacc with
    | intro j _ ih =>
      obtain ⟨k, hedge, hback⟩ := TransGen.head'_iff.mp hcycle
      exact ih k hedge (TransGen.tail' hback hedge)

end Shows

end Arena

end StackScript
