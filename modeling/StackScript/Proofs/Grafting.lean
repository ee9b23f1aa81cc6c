import StackScript.Proofs.Making
import StackScript.Proofs.Planting

/-!
# StackScript.Proofs.Grafting — what a rule does to an arena

A match comes with the trees of its symbols, no node in two of them.  Building puts one tree in their
place (`Arena.Grafts`): it takes nodes of the match and new ones, and changes no others.  So the trees
of all other symbols stay as they are.  For each form of a rule this is shown from a few steps: a
node is added, a head is changed, a branch is attached at the end of a chain.
-/

namespace StackScript

/-! ### Trees of what symbols stand for -/

/-- The tree of a program. -/
def Program.tree : Program → Tree
  | single s => s.tree
  | several b => b.tree

/-- The tree of what a symbol stands for; a declaration has an empty block up to its end. -/
def Fragment.tree : Fragment → Tree
  | value e => e.tree
  | program p => p.tree
  | assignmentHead line declares none name => .node line (.setVariable name none declares none) []
  | assignmentHead line _ (some receiver) name =>
    .node line (.setVariable name none false (some ())) [receiver.tree]
  | callHead line receiver name =>
    .node line (.call name (receiver.map fun _ => ()) []) (Expr.treesOption receiver)
  | newHead line className => .node line (.create className []) []
  | functionHead line name params =>
    .node line (.function name params ()) [.node line (.blocks []) []]
  | classHead line name parent => .node line (.classDecl name parent ()) [.node line (.blocks []) []]

/-- A tree is a node of its expression's line, neither a block nor an `if`. -/
theorem Expr.tree_root (e : Expr) : ∃ label below, e.tree = .node e.line label below ∧
    (∀ is, label ≠ .blocks is) ∧ ∀ c d r, label ≠ .branch c d r := by
  cases e <;> exact ⟨_, _, rfl, fun _ => nofun, fun _ _ _ => nofun⟩

/-- A tree is a node of its statement's line; it is no block, and an `if` is one in the tree. -/
theorem Stmt.tree_root (s : Stmt) : ∃ label below, s.tree = .node s.line label below ∧
    (∀ is, label ≠ .blocks is) ∧
    ∀ c d r, label = .branch c d r → ∃ line e b rest, s = .branch line e b rest := by
  cases s with
  | value e =>
    obtain ⟨label, below, htree, hblocks, hbranch⟩ := e.tree_root
    exact ⟨label, below, htree, hblocks, fun c d r h => absurd h (hbranch c d r)⟩
  | branch line e b rest => exact ⟨_, _, rfl, fun _ => nofun, fun _ _ _ _ => ⟨_, _, _, _, rfl⟩⟩
  | _ => exact ⟨_, _, rfl, fun _ => nofun, fun _ _ _ => nofun⟩

theorem Stmt.trees_append (ss ss' : List Stmt) :
    Stmt.trees (ss ++ ss') = Stmt.trees ss ++ Stmt.trees ss' := by
  induction ss with
  | nil => rfl
  | cons s ss ih => rw [List.cons_append, Stmt.trees, Stmt.trees, ih, List.cons_append]

namespace Arena

variable {a b : Arena} {t : Tree} {ts us : List Tree} {i j n : Nat} {is js ids ids' : List Nat}

/-- The nodes of symbols are the roots of the trees of what they stand for, `ids` all nodes of these
trees. -/
inductive Carries (a : Arena) : List Symbol → Nodes → List Nat → Prop
  | nil : Carries a [] [] []
  | token {s : Symbol} {ms : List Symbol} {is : Nodes} {ids : List Nat} (hs : s.fragment = none)
    (h : Carries a ms is ids) : Carries a (s :: ms) (none :: is) ids
  | whole {s : Symbol} {f : Fragment} {i : Nat} {ms : List Symbol} {is : Nodes}
    {ids ids' : List Nat} (hs : s.fragment = some f) (hf : a.Shows [f.tree] [i] ids)
    (h : Carries a ms is ids') : Carries a (s :: ms) (some i :: is) (ids ++ ids')

/-- In place of trees with the nodes `ids` there are others, with nodes of `ids` or new ones; all
other nodes are as they were. -/
structure Grafts (a : Arena) (ids : List Nat) (b : Arena) (ts : List Tree) (is : List Nat)
    (n : Nat) : Prop where
  length_eq : b.length = a.length + n
  frame : ∀ j, j < a.length → j ∉ ids → b[j]? = a[j]?
  shown : ∃ ids', b.Shows ts is ids' ∧ ids'.Nodup ∧ ∀ j ∈ ids', j ∈ ids ∨ a.length ≤ j

namespace Grafts

theorem of_shows (h : a.Shows ts is ids') (hnodup : ids'.Nodup) (hsub : ids' ⊆ ids) :
    a.Grafts ids a ts is 0 :=
  ⟨rfl, fun _ _ _ => rfl, ids', h, hnodup, fun _ hj => .inl (hsub hj)⟩

theorem mono (h : a.Grafts ids b ts is n) (hsub : ids ⊆ ids') : a.Grafts ids' b ts is n := by
  obtain ⟨ids'', hshows, hnodup, hmem⟩ := h.shown
  exact ⟨h.length_eq, fun j hj hnot => h.frame j hj fun hmem => hnot (hsub hmem), ids'', hshows,
    hnodup, fun j hj => (hmem j hj).imp_left fun h => hsub h⟩

/-- A new node above the trees. -/
theorem add (node : Node Nat) (h : a.Grafts ids b ts node.children n) (line : Nat) :
    a.Grafts ids (b ++ [⟨node, line⟩]) [.node line node.label ts] [b.length] (n + 1) := by
  obtain ⟨ids', hshows, hnodup, hmem⟩ := h.shown
  have hlt := hshows.lt_length
  have hnew : (b ++ [(⟨node, line⟩ : Cell)])[b.length]? = some ⟨node, line⟩ := by simp
  have hbelow : (b ++ [(⟨node, line⟩ : Cell)]).Shows ts node.children ids' :=
    hshows.frame fun j hj => List.getElem?_append_left (hlt j hj)
  refine ⟨?_, fun j hj hnot => ?_, b.length :: ids', .single hnew hbelow, ?_, ?_⟩
  · rw [List.length_append, List.length_singleton, h.length_eq, Nat.add_assoc]
  · rw [List.getElem?_append_left (by rw [h.length_eq]; omega), h.frame j hj hnot]
  · exact List.nodup_cons.mpr ⟨fun hmem => Nat.lt_irrefl _ (hlt _ hmem), hnodup⟩
  · refine List.forall_mem_cons.mpr ⟨.inr ?_, hmem⟩
    rw [h.length_eq]
    exact Nat.le_add_right _ _

/-- Trees at the left of the match that are not touched. -/
theorem beside (h : a.Grafts ids b ts is n) (h' : a.Shows us js ids')
    (hnodup : (ids' ++ ids).Nodup) : a.Grafts (ids' ++ ids) b (us ++ ts) (js ++ is) n := by
  obtain ⟨ids'', hshows, hnodup'', hmem⟩ := h.shown
  obtain ⟨hids', -, hdisjoint⟩ := List.nodup_append.mp hnodup
  have hnot : ∀ j ∈ ids', j ∉ ids := fun j hj hj' => hdisjoint j hj j hj' rfl
  have hleft : b.Shows us js ids' :=
    h'.frame fun j hj => h.frame j (h'.lt_length j hj) (hnot j hj)
  refine ⟨h.length_eq, fun j hj hnot => h.frame j hj fun hmem =>
    hnot (List.mem_append_right _ hmem), ids' ++ ids'', hleft.append hshows, ?_, fun j hj => ?_⟩
  · refine List.nodup_append.mpr ⟨hids', hnodup'', fun j hj j' hj' heq => ?_⟩
    subst heq
    rcases hmem j hj' with hmem | hle
    · exact hnot j hj hmem
    · exact Nat.lt_irrefl _ (Nat.lt_of_lt_of_le (h'.lt_length j hj) hle)
  · rcases List.mem_append.mp hj with hj | hj
    · exact .inl (List.mem_append_left _ hj)
    · exact (hmem j hj).imp_left (List.mem_append_right _)

/-- A node above the trees that names them, after a change at this node alone. -/
theorem above {d : Arena} {cell : Cell} (cell' : Cell) (hcell : a[i]? = some cell)
    (h : a.Grafts ids b ts cell'.node.children n) (hi : i ∉ ids) (hlength : d.length = b.length)
    (hself : b[i]? = some cell → d[i]? = some cell') (hother : ∀ j, j ≠ i → d[j]? = b[j]?) :
    a.Grafts (i :: ids) d [.node cell'.line cell'.node.label ts] [i] n := by
  obtain ⟨ids', hshows, hnodup, hmem⟩ := h.shown
  have hlt : i < a.length := (List.getElem?_eq_some_iff.mp hcell).1
  have hnot : i ∉ ids' := by
    intro hi'
    rcases hmem i hi' with hi' | hle
    · exact hi hi'
    · exact Nat.lt_irrefl _ (Nat.lt_of_lt_of_le hlt hle)
  have hbelow := hshows.frame fun j hj => hother j fun heq => hnot (heq ▸ hj)
  refine ⟨hlength.trans h.length_eq, fun j hj hnot => ?_, i :: ids',
    .single (hself ((h.frame i hlt hi).trans hcell)) hbelow, List.nodup_cons.mpr ⟨hnot, hnodup⟩, ?_⟩
  · rw [List.mem_cons, not_or] at hnot
    rw [hother j hnot.1, h.frame j hj hnot.2]
  · exact List.forall_mem_cons.mpr ⟨.inl List.mem_cons_self, fun j hj =>
      (hmem j hj).imp_left (List.mem_cons_of_mem _)⟩

/-- A node that is not changed. -/
theorem under {cell : Cell} (hcell : a[i]? = some cell)
    (h : a.Grafts ids b ts cell.node.children n) (hi : i ∉ ids) :
    a.Grafts (i :: ids) b [.node cell.line cell.node.label ts] [i] n :=
  above cell hcell h hi rfl id fun _ _ => rfl

/-- A node that is changed to name the trees. -/
theorem change {f : Node Nat → Node Nat} {cell : Cell} (hcell : a[i]? = some cell)
    (h : a.Grafts ids b ts (f cell.node).children n) (hi : i ∉ ids) :
    a.Grafts (i :: ids) (b.modify i fun c => { c with node := f c.node })
      [.node cell.line (f cell.node).label ts] [i] n := by
  refine above ⟨f cell.node, cell.line⟩ hcell h hi (List.length_modify _ _ _) (fun hb => ?_)
    fun j hj => List.getElem?_modify_ne _ _ hj.symm
  rw [List.getElem?_modify_eq, hb]
  rfl

end Grafts

/-! ### Chains -/

theorem chain_inv {line : Nat} {rest : Option (Else Unit)}
    (h : a.Shows [.node line (.branch () () rest) ts] [i] ids) :
    ∃ condition body rest' ids', a[i]? = some ⟨.branch condition body rest', line⟩ ∧
      rest'.map Else.label = rest ∧ ids = i :: ids' ∧
      a.Shows ts (condition :: body :: (rest'.map Else.node).toList) ids' := by
  obtain ⟨i', ⟨node, line'⟩, ids', hi, hids, hcell, rfl, hlabel, hbelow⟩ := h.single_inv
  obtain rfl := (List.cons.inj hi).1
  cases node <;> cases hlabel
  exact ⟨_, _, _, ids', hcell, rfl, hids, hbelow⟩

/-- Two trees and one more. -/
theorem Shows.two_inv {c d : Tree} {x y : Nat} (h : a.Shows (c :: d :: ts) (x :: y :: is) ids) :
    ∃ ids₁ ids₂, ids = ids₁ ++ ids₂ ∧ a.Shows [c, d] [x, y] ids₁ ∧ a.Shows ts is ids₂ := by
  obtain ⟨_, _, ids₁, _, his, rfl, hc, h⟩ := h.cons_inv
  obtain ⟨rfl, rfl⟩ := List.cons.inj his
  obtain ⟨_, _, ids₂, ids₃, his, rfl, hd, h⟩ := h.cons_inv
  obtain ⟨rfl, rfl⟩ := List.cons.inj his
  exact ⟨ids₁ ++ ids₂, ids₃, (List.append_assoc _ _ _).symm, hc.append hd, h⟩

/-- A link of a chain that goes on. -/
theorem elseIf_inv {line line' : Nat} {c d : Tree} {c' : Expr} {d' : Block} {rest : Rest}
    (h : a.Shows [.node line (.branch () () (Rest.elseIf line' c' d' rest).label)
      (c :: d :: (Rest.elseIf line' c' d' rest).trees)] [i] ids) :
    ∃ x y k ids₁ ids₂, a[i]? = some ⟨.branch x y (some (.elseIf k)), line⟩ ∧
      ids = i :: (ids₁ ++ ids₂) ∧ a.Shows [c, d] [x, y] ids₁ ∧
      a.Shows [.node line' (.branch () () rest.label) (c'.tree :: d'.tree :: rest.trees)] [k]
        ids₂ := by
  obtain ⟨x, y, r, below, hcell, hr, rfl, hbelow⟩ := chain_inv h
  rw [Rest.trees] at hbelow
  obtain ⟨ids₁, ids₂, rfl, hbodies, hchain⟩ := hbelow.two_inv
  cases r with
  | none => cases hr
  | some last =>
    cases last with
    | elseIf k => exact ⟨x, y, k, ids₁, ids₂, hcell, rfl, hbodies, hchain⟩
    | otherwise => cases hr

/-- A chain that ends in an `else` has no end to attach a branch to. -/
theorem chainEnd?_eq_none : ∀ {rest : Rest} {line fuel i : Nat} {c d : Tree} {ids : List Nat},
    rest.attach .nothing = none →
    a.Shows [.node line (.branch () () rest.label) (c :: d :: rest.trees)] [i] ids →
    a.chainEnd? fuel i = none
  | _, _, 0, _, _, _, _, _, _ => rfl
  | .nothing, _, _, _, _, _, _, hrest, _ => by cases hrest
  | .elseIf _ _ _ rest, _, fuel + 1, _, _, _, _, hrest, h => by
    obtain ⟨x, y, k, ids₁, ids₂, hcell, rfl, -, hchain⟩ := elseIf_inv h
    rw [chainEnd?, hcell]
    exact chainEnd?_eq_none (Option.map_eq_none_iff.mp hrest) hchain
  | .otherwise body, _, fuel + 1, _, _, _, _, _, h => by
    obtain ⟨x, y, r, below, hcell, hr, -, -⟩ := chain_inv h
    rw [chainEnd?, hcell]
    cases r with
    | none => cases hr
    | some last => cases last <;> cases hr; rfl

/-- A branch at the end of a chain: the end is found, and changing it there attaches the branch. -/
theorem Grafts.attach {new : Rest} {last : Else Nat} (hlabel : new.label = some last.label)
    (hnew : a.Grafts ids' b new.trees [last.node] n) :
    ∀ {rest rest' : Rest} {line fuel i : Nat} {c d : Tree} {ids : List Nat},
    rest.attach new = some rest' →
    a.Shows [.node line (.branch () () rest.label) (c :: d :: rest.trees)] [i] ids →
    ids.length ≤ fuel → (ids ++ ids').Nodup →
    ∃ j, a.chainEnd? fuel i = some j ∧
      a.Grafts (ids ++ ids') (b.modify j fun c => { c with node := c.node.withRest last })
        [.node line (.branch () () rest'.label) (c :: d :: rest'.trees)] [i] n
  | _, _, _, 0, i, _, _, _, _, h, hfuel, _ => by
    have hi := h.root_mem i (List.mem_singleton_self i)
    rw [List.length_eq_zero_iff.mp (Nat.le_zero.mp hfuel)] at hi
    cases hi
  | .nothing, rest', line, fuel + 1, i, c, d, ids, hrest, h, hfuel, hnodup => by
    obtain ⟨x, y, r, below, hcell, hr, rfl, hbelow⟩ := chain_inv h
    obtain rfl := Option.some.inj hrest
    obtain rfl : r = none := Option.map_eq_none_iff.mp hr
    rw [Rest.trees] at hbelow
    obtain ⟨hi, hnodup⟩ := List.nodup_cons.mp hnodup
    refine ⟨i, by rw [chainEnd?, hcell], ?_⟩
    have hgrafts := change (f := Node.withRest last) hcell (hnew.beside hbelow hnodup) hi
    rw [hlabel]
    exact hgrafts
  | .elseIf line' c' d' rest, rest', line, fuel + 1, i, c, d, ids, hrest, h, hfuel, hnodup => by
    obtain ⟨x, y, k, ids₁, ids₂, hcell, rfl, hbodies, hchain⟩ := elseIf_inv h
    obtain ⟨tail, htail, rfl⟩ := Option.map_eq_some_iff.mp hrest
    rw [List.cons_append, List.append_assoc] at hnodup ⊢
    obtain ⟨hi, hnodup⟩ := List.nodup_cons.mp hnodup
    have hfuel' : ids₂.length ≤ fuel := by
      rw [List.length_cons, List.length_append] at hfuel
      omega
    obtain ⟨j, hend, hgrafts⟩ := attach hlabel hnew htail hchain hfuel'
      (List.nodup_append.mp hnodup).2.1
    refine ⟨j, by rw [chainEnd?, hcell]; exact hend, ?_⟩
    exact under hcell (hgrafts.beside hbodies hnodup) hi
  | .otherwise _, _, _, _, _, _, _, _, hrest, _, _, _ => by cases hrest

/-! ### The trees of a match -/

namespace Carries

variable {s : Symbol} {ms : List Symbol} {ids : List Nat} {nodes : Nodes} {f : Fragment}
  {of : List Tag}

theorem nil_inv (h : a.Carries [] nodes ids) : nodes = [] ∧ ids = [] := by
  cases h
  exact ⟨rfl, rfl⟩

theorem token_inv (h : a.Carries (s :: ms) nodes ids) (hs : s.fragment = none) :
    ∃ nodes', nodes = none :: nodes' ∧ a.Carries ms nodes' ids := by
  cases h with
  | token _ h => exact ⟨_, rfl, h⟩
  | whole hs' => cases hs.symm.trans hs'

theorem whole_inv (h : a.Carries (s :: ms) nodes ids) (hs : s.fragment = some f) :
    ∃ i nodes' ids₁ ids₂, nodes = some i :: nodes' ∧ ids = ids₁ ++ ids₂ ∧
      a.Shows [f.tree] [i] ids₁ ∧ a.Carries ms nodes' ids₂ := by
  cases h with
  | token hs' => cases hs'.symm.trans hs
  | whole hs' hf h =>
    obtain rfl := Option.some.inj (hs'.symm.trans hs)
    exact ⟨_, _, _, _, rfl, rfl, hf, h⟩

/-- A token, then a symbol that stands for something. -/
theorem second_inv {o : Symbol} (h : a.Carries (o :: s :: ms) nodes ids) (ho : o.fragment = none)
    (hs : s.fragment = some f) :
    ∃ i nodes' ids₁ ids₂, nodes = none :: some i :: nodes' ∧ ids = ids₁ ++ ids₂ ∧
      a.Shows [f.tree] [i] ids₁ ∧ a.Carries ms nodes' ids₂ := by
  obtain ⟨rest, rfl, htail⟩ := h.token_inv ho
  obtain ⟨i, rest', ids₁, ids₂, rfl, rfl, hf, hms⟩ := htail.whole_inv hs
  exact ⟨i, rest', ids₁, ids₂, rfl, rfl, hf, hms⟩

theorem lt_length (h : a.Carries ms nodes ids) : ∀ j ∈ ids, j < a.length := by
  induction h with
  | nil => exact fun j hj => absurd hj List.not_mem_nil
  | token _ _ ih => exact ih
  | whole _ hf _ ih => exact fun j hj => (List.mem_append.mp hj).elim (hf.lt_length j) (ih j)

theorem tagged_cons (i : Option Nat) (t : Tag) :
    Nodes.tagged (i :: nodes) (s :: ms) t =
      (if s.tag = t then i.toList else []) ++ Nodes.tagged nodes ms t := by
  rw [Nodes.tagged, List.zip_cons_cons, List.filter_cons]
  by_cases hs : s.tag = t
  · rw [if_pos (by simpa using hs), if_pos hs, List.filterMap_cons]
    cases i <;> rfl
  · rw [if_neg (by simpa using hs), if_neg hs]
    rfl

/-- The nodes of the expressions of a list. -/
theorem items (h : a.Carries ms nodes ids) (hms : ∀ s ∈ ms, s.Item of) (hof : .expression ∉ of) :
    a.Shows (Expr.trees (Matched.exprs ms)) (nodes.tagged ms .expression) ids := by
  induction ms generalizing nodes ids with
  | nil =>
    obtain ⟨rfl, rfl⟩ := h.nil_inv
    exact .nil
  | cons s ms ih =>
    obtain ⟨hs, hms⟩ := List.forall_mem_cons.mp hms
    rw [Matched.exprs, List.filterMap_cons]
    rcases hs with hs | ⟨e, he⟩
    · obtain ⟨rest, rfl, hrest⟩ := h.token_inv hs.fragment_eq
      have htag : s.tag ≠ .expression := fun htag => hof (htag ▸ hs.mem)
      rw [tagged_cons, if_neg htag, List.nil_append, Symbol.expr?_of_fragment hs.fragment_eq]
      exact ih hrest hms
    · obtain ⟨i, rest, ids₁, ids₂, rfl, rfl, htree, hrest⟩ := h.whole_inv he.fragment_eq
      have htag : s.tag = .expression := he.tag_eq
      rw [tagged_cons, if_pos htag, he.expr?]
      dsimp only
      rw [Expr.trees]
      exact htree.append (ih hrest hms)

end Carries

/-- A block and its statements. -/
theorem block_inv {line : Nat} {ss : List Stmt}
    (h : a.Shows [(Block.mk line ss).tree] [i] ids) :
    ∃ children ids', a[i]? = some ⟨.blocks children, line⟩ ∧ ids = i :: ids' ∧
      a.Shows (Stmt.trees ss) children ids' := by
  rw [Block.tree] at h
  obtain ⟨i', ⟨node, line'⟩, ids', hi, hids, hcell, rfl, hlabel, hbelow⟩ := h.single_inv
  obtain rfl := (List.cons.inj hi).1
  cases node with
  | blocks children => exact ⟨children, ids', hcell, hids, hbelow⟩
  | _ => cases hlabel

/-- A statement and its node, which is no block. -/
theorem stmt_inv {s : Stmt} (h : a.Shows [s.tree] [i] ids) :
    ∃ node, a[i]? = some ⟨node, s.line⟩ ∧ (∀ is, node ≠ .blocks is) ∧
      ∀ condition body rest, node = .branch condition body rest →
        ∃ line e b rest, s = .branch line e b rest := by
  obtain ⟨label, below, htree, hblocks, hbranch⟩ := s.tree_root
  rw [htree] at h
  obtain ⟨i', ⟨node, line'⟩, ids', hi, hids, hcell, rfl, rfl, hbelow⟩ := h.single_inv
  obtain rfl := (List.cons.inj hi).1
  refine ⟨node, hcell, ?_, ?_⟩
  · rintro is rfl
    exact hblocks _ rfl
  · rintro condition body rest rfl
    exact hbranch _ _ _ rfl

/-- The statements of programs. -/
theorem Shows.statements {ps : List Program} (h : a.Shows (ps.map Program.tree) is ids) :
    ∃ ids', a.Shows (Stmt.trees (ps.flatMap Program.statements)) (is.flatMap a.statements) ids' ∧
      ids'.Sublist ids := by
  induction ps generalizing is ids with
  | nil =>
    cases h
    exact ⟨[], .nil, .refl _⟩
  | cons p ps ih =>
    obtain ⟨i, is, ids₁, ids₂, rfl, rfl, hp, hps⟩ := h.cons_inv
    obtain ⟨ids₂', hothers, hsub₂⟩ := ih hps
    have hstatements : ∃ ids', a.Shows (Stmt.trees p.statements) (a.statements i) ids' ∧
        ids'.Sublist ids₁ := by
      cases p with
      | single s =>
        obtain ⟨node, hcell, hblocks, -⟩ := stmt_inv hp
        have hself : a.statements i = [i] := by
          rw [Arena.statements, hcell]
          cases node <;> first | rfl | exact absurd rfl (hblocks _)
        rw [hself]
        exact ⟨ids₁, hp, .refl _⟩
      | several b =>
        obtain ⟨line, ss⟩ := b
        obtain ⟨children, ids', hcell, rfl, hbelow⟩ := block_inv hp
        have hself : a.statements i = children := by rw [Arena.statements, hcell]
        rw [hself]
        exact ⟨ids', hbelow, List.sublist_cons_self _ _⟩
    obtain ⟨ids₁', hstatements, hsub₁⟩ := hstatements
    rw [List.flatMap_cons, List.flatMap_cons, Stmt.trees_append]
    exact ⟨ids₁' ++ ids₂', hstatements.append hothers, hsub₁.append hsub₂⟩

/-- The nodes of the programs of a list. -/
theorem Carries.programs {ms : List Symbol} {nodes : Nodes} (h : a.Carries ms nodes ids)
    (hms : ∀ s ∈ ms, s.tag = .program → ∃ p, s.Bears (.program p)) :
    ∃ ids', a.Shows (((ms.filter (·.tag = .program)).filterMap (·.program?)).map Program.tree)
      (nodes.tagged ms .program) ids' ∧ ids'.Sublist ids := by
  induction h with
  | nil => exact ⟨[], .nil, .refl _⟩
  | @token s ms is ids hs _ ih =>
    obtain ⟨hs', hms⟩ := List.forall_mem_cons.mp hms
    have htag : s.tag ≠ .program := fun htag => by
      obtain ⟨p, hp⟩ := hs' htag
      exact nomatch hs.symm.trans hp.fragment_eq
    rw [tagged_cons, if_neg htag, List.filter_cons_of_neg (by simpa using htag)]
    exact ih hms
  | @whole s f i ms is ids ids' hs hf _ ih =>
    obtain ⟨hs', hms⟩ := List.forall_mem_cons.mp hms
    obtain ⟨ids'', hothers, hsub⟩ := ih hms
    rw [tagged_cons]
    by_cases htag : s.tag = .program
    · obtain ⟨p, hp⟩ := hs' htag
      obtain rfl := Option.some.inj (hs.symm.trans hp.fragment_eq)
      rw [if_pos htag, List.filter_cons_of_pos (by simpa using htag), List.filterMap_cons,
        hp.program?]
      exact ⟨ids ++ ids'', hf.append hothers, (List.Sublist.refl ids).append hsub⟩
    · rw [if_neg htag, List.filter_cons_of_neg (by simpa using htag)]
      exact ⟨ids'', hothers, hsub.trans (List.sublist_append_right _ _)⟩

end Arena

end StackScript
