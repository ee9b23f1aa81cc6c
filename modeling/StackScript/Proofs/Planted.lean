import StackScript.Proofs.Grafting
import StackScript.Proofs.Made

/-!
# StackScript.Proofs.Planted — what is planted is what is made

For every match of sound symbols (`Rule.Makes`), building in an arena puts the tree of the fragment
in the place of the trees of the match, with as many new nodes as the rule counts
(`Rule.Makes.planted`).
-/

namespace StackScript

namespace Nodes

variable (i : Option Nat) (ids : Nodes) (n : Nat)

@[simp] theorem node?_zero : node? (i :: ids) 0 = i := rfl

@[simp] theorem node?_succ : node? (i :: ids) (n + 1) = ids.node? n := rfl

end Nodes

namespace Arena

variable {a b : Arena} {ts : List Tree} {is ids ids' : List Nat} {n : Nat}

theorem Shows.trees_length {es : List Expr} (h : a.Shows (Expr.trees es) is ids) :
    is.length = es.length := by
  rw [← h.length_eq]
  clear h
  induction es with
  | nil => rfl
  | cons e es ih => rw [Expr.trees, List.length_cons, List.length_cons, ih]

theorem Shows.stmts_length {ss : List Stmt} (h : a.Shows (Stmt.trees ss) is ids) :
    is.length = ss.length := by
  rw [← h.length_eq]
  clear h
  induction ss with
  | nil => rfl
  | cons e es ih => rw [Stmt.trees, List.length_cons, List.length_cons, ih]

/-- A block of nothing. -/
theorem Grafts.emptyBlock (line : Nat) :
    a.Grafts [] (a ++ [⟨.blocks [], line⟩]) [.node line (.blocks []) []] [a.length] 1 :=
  Grafts.add (.blocks []) (.of_shows .nil .nil (List.Subset.refl _)) line

/-- Keys and values in turn. -/
theorem Shows.pairs : ∀ {es : List Expr} {is ids : List Nat}, a.Shows (Expr.trees es) is ids →
    es.length % 2 = 0 →
    a.Shows (Expr.treesPairs (pairsOf es)) ((Nodes.pairsOf is).flatMap fun e => [e.1, e.2]) ids ∧
      (Nodes.pairsOf is).length = (pairsOf es).length
  | [], is, ids, h, _ => by
    cases h
    exact ⟨.nil, rfl⟩
  | [_], _, _, _, heven => by cases heven
  | k :: v :: es, is, ids, h, heven => by
    obtain ⟨i, _, ids₁, _, rfl, rfl, hk, h⟩ := h.cons_inv
    obtain ⟨j, is, ids₂, ids₃, rfl, rfl, hv, h⟩ := h.cons_inv
    have heven' : es.length % 2 = 0 := by
      simp only [List.length_cons] at heven
      omega
    obtain ⟨hshows, hlength⟩ := h.pairs heven'
    exact ⟨hk.append (hv.append hshows), congrArg Nat.succ hlength⟩

/-- The end of a chain is looked for from its node on. -/
theorem chain?_branch {line i : Nat} {rest : Option (Else Unit)} {nodes : Nodes}
    (h : a.Shows [.node line (.branch () () rest) ts] [i] ids) :
    a.chain? (some i :: nodes) = a.chainEnd? a.length i := by
  obtain ⟨condition, body, rest', ids', hcell, -, -, -⟩ := chain_inv h
  rw [chain?, Nodes.node?_zero]
  dsimp only
  rw [hcell]

/-- What is no chain has no end to attach a branch to. -/
theorem chain?_eq_none {p : Program} {i : Nat} {nodes : Nodes} (h : a.Shows [p.tree] [i] ids)
    (hp : ∀ line e b rest, p ≠ .single (.branch line e b rest)) :
    a.chain? (some i :: nodes) = none := by
  rw [chain?, Nodes.node?_zero]
  dsimp only
  cases p with
  | single s =>
    obtain ⟨node, hcell, -, hbranch⟩ := stmt_inv h
    rw [hcell]
    cases node with
    | branch condition body rest =>
      obtain ⟨line, e, b, rest', rfl⟩ := hbranch _ _ _ rfl
      exact absurd rfl (hp line e b rest')
    | _ => rfl
  | several b =>
    obtain ⟨line, ss⟩ := b
    obtain ⟨children, ids', hcell, -, -⟩ := block_inv h
    rw [hcell]

end Arena

/-! ### Steps of building -/

namespace Planter

open Arena

variable {a b : Arena} {t : Tree} {ts : List Tree} {i n : Nat} {ids ids' : List Nat}
  {node : Node Nat} {line : Nat}

/-- Building gives a node of the tree, which takes the place of the nodes `ids`; `n` are new. -/
def Gives (m : Planter (Option Nat)) (a : Arena) (ids : List Nat) (t : Tree) (n : Nat) : Prop :=
  ∃ i b, m.run a = (some i, b) ∧ a.Grafts ids b [t] [i] n

/-- A node that is there. -/
theorem gives_pure (h : a.Shows [t] [i] ids') (hsub : ids'.Sublist ids) (hnodup : ids.Nodup) :
    Gives (pure (some i)) a ids t 0 :=
  ⟨i, a, rfl, .of_shows h (hnodup.sublist hsub) hsub.subset⟩

/-- A new node. -/
theorem gives_planted (h : a.Grafts ids' b ts node.children n) (hsub : ids' ⊆ ids)
    (hlabel : t = .node line node.label ts) :
    ∃ i c, (planted node line).run b = (some i, c) ∧ a.Grafts ids c [t] [i] (n + 1) :=
  ⟨b.length, _, rfl, hlabel ▸ (h.add node line).mono hsub⟩

/-- A new node above trees of the match. -/
theorem gives_above (h : a.Shows ts node.children ids') (hsub : ids'.Sublist ids)
    (hnodup : ids.Nodup) (hlabel : t = .node line node.label ts) :
    Gives (planted node line) a ids t 1 :=
  gives_planted (.of_shows h (hnodup.sublist hsub) (List.Subset.refl _)) hsub.subset hlabel

/-- A node that is changed to name other trees. -/
theorem gives_change {f : Node Nat → Node Nat} {cell : Cell} (hcell : a[i]? = some cell)
    (h : a.Grafts ids' b ts (f cell.node).children n) (hi : i ∉ ids') (hsub : i :: ids' ⊆ ids)
    (hlabel : t = .node cell.line (f cell.node).label ts) :
    ∃ k c, (do change i f; return some i : Planter (Option Nat)).run b = (some k, c) ∧
      a.Grafts ids c [t] [k] n :=
  ⟨i, _, rfl, hlabel ▸ (h.change hcell hi).mono hsub⟩

theorem run_bind {α β : Type} {m : Planter α} {k : α → Planter β} {x : α}
    (hm : m.run a = (x, b)) : (m >>= k).run a = (k x).run b := by
  rw [StateT.run_bind, hm]
  rfl

/-- One step and the others. -/
theorem gives_bind {α : Type} {m : Planter α} {k : α → Planter (Option Nat)} {x : α}
    (hm : m.run a = (x, b))
    (h : ∃ i c, (k x).run b = (some i, c) ∧ a.Grafts ids c [t] [i] n) : Gives (m >>= k) a ids t n := by
  obtain ⟨i, c, hrun, hgrafts⟩ := h
  exact ⟨i, c, (run_bind hm).trans hrun, hgrafts⟩

/-- A program as a block. -/
theorem asBlock_run {p : Program} (h : a.Shows [p.tree] [i] ids) (hnodup : ids.Nodup) :
    ∃ k b, (asBlock i).run a = (k, b) ∧ a.Grafts ids b [p.toBlock.tree] [k] p.wrappers := by
  have hsame := Grafts.of_shows h hnodup (List.Subset.refl _)
  cases p with
  | single s =>
    obtain ⟨node, hcell, hblocks, -⟩ := stmt_inv h
    refine ⟨a.length, a ++ [⟨.blocks [i], s.line⟩], ?_, Grafts.add (.blocks [i]) hsame _⟩
    refine (run_bind (m := get) (x := a) (b := a) rfl).trans ?_
    rw [hcell]
    cases node <;> first | rfl | exact absurd rfl (hblocks _)
  | several b =>
    obtain ⟨line, ss⟩ := b
    obtain ⟨children, ids', hcell, -, -⟩ := block_inv h
    refine ⟨i, a, ?_, hsame⟩
    refine (run_bind (m := get) (x := a) (b := a) rfl).trans ?_
    rw [hcell]
    rfl

/-- What stands in braces, at its place in a match. -/
theorem body_run {ms : List Symbol} {nodes' : Nodes} {block : Block} (all : List Symbol)
    (nodes : Nodes) (i : Nat) (hms : Rule.Body line ms block n) (h : a.Carries ms nodes' ids)
    (hnodup : ids.Nodup) (hline : Matched.line all = line) (htag : Matched.tag? all i = Matched.tag? ms 0)
    (hnode : nodes.node? i = nodes'.node? 0) :
    ∃ k b, (body all nodes i).run a = (k, b) ∧ a.Grafts ids b [block.tree] [k] n := by
  subst hline
  rw [body, htag, hnode]
  cases hms with
  | @empty z hz =>
    have hz' : Matched.tag? [z] 0 = some .rightBrace := congrArg some hz.tag_eq
    rw [hz']
    exact ⟨a.length, _, rfl, (Grafts.emptyBlock _).mono (List.nil_subset _)⟩
  | @program s z p hs hz =>
    obtain ⟨k, rest, ids₁, ids₂, rfl, rfl, hp, -⟩ := h.whole_inv hs.fragment_eq
    have hs' : Matched.tag? [s, z] 0 = some .program := congrArg some hs.tag_eq
    rw [hs']
    obtain ⟨k', b, hrun, hgrafts⟩ := asBlock_run hp (hnodup.sublist (List.sublist_append_left _ _))
    exact ⟨k', b, hrun, hgrafts.mono (List.subset_append_left _ _)⟩

/-- A branch is attached where the chain ends. -/
theorem plantBranch_run {nodes : Nodes} {last : Nat} {new : Else Nat}
    {branch : Planter (Option (Else Nat))} (hlast : a.chain? nodes = some last)
    (hbranch : branch.run a = (some new, b)) :
    (plantBranch nodes branch).run a =
      (nodes.node? 0, b.modify last fun c => { c with node := c.node.withRest new }) := by
  refine (run_bind (m := get) (x := a) (b := a) rfl).trans ?_
  rw [hlast]
  exact run_bind hbranch

/-- A branch without a chain to end is left out. -/
theorem plantBranch_none {nodes : Nodes} {branch : Planter (Option (Else Nat))}
    (hlast : a.chain? nodes = none) : (plantBranch nodes branch).run a = (nodes.node? 0, a) := by
  refine (run_bind (m := get) (x := a) (b := a) rfl).trans ?_
  rw [hlast]
  rfl

end Planter

/-! ### What is made is what is planted -/

/-- The node of a literal. -/
theorem Leaf.plant_literal {l : Leaf} {e : Expr} (h : l.literal? = some e) :
    ∃ node, plantLiteral [l.symbol] = Planter.planted node l.line ∧ node.children = [] ∧
      e.tree = .node l.line node.label [] := by
  have htag : Matched.tag? [l.symbol] 0 = some l.tag := rfl
  have htext : Matched.text [l.symbol] 0 = l.text := rfl
  have hline : Matched.line [l.symbol] = l.line := rfl
  rw [plantLiteral, htag, htext, hline]
  unfold Leaf.literal? at h
  cases ht : l.tag <;> rw [ht] at h <;> try cases h; done
  all_goals dsimp only at h ⊢
  case number =>
    obtain ⟨d, hd, rfl⟩ := Option.map_eq_some_iff.mp h
    rw [hd]
    exact ⟨_, rfl, rfl, rfl⟩
  all_goals
    obtain rfl := Option.some.inj h
    exact ⟨_, rfl, rfl, rfl⟩

namespace Symbol.Part

variable {ms : List Symbol} {of : List Tag}

theorem bears (hms : ∀ s ∈ ms, s.Part of) (hof : .program ∉ of) :
    ∀ s ∈ ms, s.tag = .program → ∃ p, s.Bears (.program p) :=
  fun s hs htag => (hms s hs).resolve_left fun h => hof (htag ▸ h.mem)

/-- Only symbols with the tag of a program stand for one. -/
theorem programs_eq (hms : ∀ s ∈ ms, s.Part of) :
    (ms.filter (·.tag = .program)).filterMap (·.program?) = Matched.programs ms := by
  rw [Matched.programs, List.filterMap_filter]
  refine List.filterMap_congr fun s hs => ?_
  rcases hms s hs with h | ⟨p, hp⟩
  · rw [Symbol.program?_of_fragment h.fragment_eq, ite_self]
  · have htag : s.tag = .program := hp.tag_eq
    rw [if_pos (by simpa using htag)]

end Symbol.Part

namespace Rule

open Arena Planter

variable {a : Arena} {r : Rule} {ms : List Symbol} {f : Fragment} {n : Nat} {ds : List Diagnostic}
  {nodes : Nodes} {ids : List Nat}

/-- The head of a call, and the call that it becomes with arguments. -/
theorem applied_shows {es : List Expr} {e : Expr} {i : Nat} {args ids' : List Nat}
    (he : f.applied? es = some e) (h : a.Shows [f.tree] [i] ids)
    (hargs : a.Shows (Expr.trees es) args ids') :
    ∃ cell ids'' us, a[i]? = some cell ∧ ids = i :: ids'' ∧
      a.Shows us (cell.node.withArguments args).children (ids' ++ ids'') ∧
      e.tree = .node cell.line (cell.node.withArguments args).label us := by
  have hlength := hargs.trees_length
  cases f with
  | callHead line receiver name =>
    obtain ⟨i', ⟨node, line'⟩, ids'', hi, rfl, hcell, rfl, hlabel, hbelow⟩ := h.single_inv
    obtain rfl := (List.cons.inj hi).1
    cases node with
    | call name' receiver' args' =>
      obtain ⟨rfl, hreceiver, hnone⟩ := Node.call.inj hlabel
      obtain rfl := List.map_eq_nil_iff.mp hnone
      refine ⟨_, _, _, hcell, rfl, hargs.append hbelow, ?_⟩
      simp only [Node.withArguments, Node.label, List.map_const', hlength, hreceiver]
      cases receiver <;> obtain rfl := Option.some.inj he
      · simp only [Expr.tree, Expr.treesOption, List.append_nil, List.map_const', Option.map_none]
      · simp only [Expr.tree, Expr.treesOption, List.map_const', Option.map_some]
    | _ => cases hlabel
  | newHead line className =>
    obtain ⟨i', ⟨node, line'⟩, ids'', hi, rfl, hcell, rfl, hlabel, hbelow⟩ := h.single_inv
    obtain rfl := (List.cons.inj hi).1
    cases node with
    | create className' args' =>
      obtain ⟨rfl, hnone⟩ := Node.create.inj hlabel
      obtain rfl := List.map_eq_nil_iff.mp hnone
      obtain rfl := Option.some.inj he
      obtain ⟨⟩ := hbelow
      refine ⟨_, _, _, hcell, rfl, (List.append_nil ids').symm ▸ hargs, ?_⟩
      simp only [Node.withArguments, Node.label, List.map_const', hlength, Expr.tree]
    | _ => cases hlabel
  | _ => cases he

/-- The head of an assignment, and the statement that it becomes with a value. -/
theorem assigned_shows {e : Expr} {s : Stmt} {i j : Nat} {ids' : List Nat}
    (hs : f.assigned? e = some s) (h : a.Shows [f.tree] [i] ids) (hvalue : a.Shows [e.tree] [j] ids') :
    ∃ cell ids'' us, a[i]? = some cell ∧ ids = i :: ids'' ∧
      a.Shows us (cell.node.withValue j).children (ids'' ++ ids') ∧
      s.tree = .node cell.line (cell.node.withValue j).label us := by
  cases f with
  | assignmentHead line declares receiver name =>
    cases receiver with
    | none =>
      obtain ⟨i', ⟨node, line'⟩, ids'', hi, rfl, hcell, rfl, hlabel, hbelow⟩ := h.single_inv
      obtain rfl := (List.cons.inj hi).1
      cases node with
      | setVariable name' value' declares' receiver' =>
        obtain ⟨rfl, hvalue', rfl, hreceiver⟩ := Node.setVariable.inj hlabel
        obtain rfl := Option.map_eq_none_iff.mp hvalue'
        obtain rfl := Option.map_eq_none_iff.mp hreceiver
        refine ⟨_, _, _, hcell, rfl, hbelow.append hvalue, ?_⟩
        cases declares' <;> obtain rfl := Option.some.inj hs <;> rfl
      | _ => cases hlabel
    | some receiver =>
      obtain ⟨i', ⟨node, line'⟩, ids'', hi, rfl, hcell, rfl, hlabel, hbelow⟩ := h.single_inv
      obtain rfl := (List.cons.inj hi).1
      cases node with
      | setVariable name' value' declares' receiver' =>
        obtain ⟨rfl, hvalue', rfl, hreceiver⟩ := Node.setVariable.inj hlabel
        obtain rfl := Option.map_eq_none_iff.mp hvalue'
        obtain ⟨k, rfl, -⟩ := Option.map_eq_some_iff.mp hreceiver
        refine ⟨_, _, _, hcell, rfl, hbelow.append hvalue, ?_⟩
        cases declares <;> obtain rfl := Option.some.inj hs <;> rfl
      | _ => cases hlabel
  | _ => cases hs

/-- The head of a declaration, and the statement that it becomes with a body. -/
theorem declared_shows {line i : Nat} {make : Block → Stmt} (hf : f.declared? = some (line, make))
    (h : a.Shows [f.tree] [i] ids) :
    ∃ cell ids', a[i]? = some cell ∧ ids = i :: ids' ∧ ∀ k block,
      (cell.node.withBody k).children = [k] ∧
        (make block).tree = .node cell.line (cell.node.withBody k).label [block.tree] := by
  cases f with
  | functionHead _ name params =>
    obtain ⟨i', ⟨node, line'⟩, ids', hi, rfl, hcell, rfl, hlabel, -⟩ := h.single_inv
    obtain rfl := (List.cons.inj hi).1
    cases hf
    cases node with
    | function name' params' body =>
      obtain ⟨rfl, rfl, -⟩ := Node.function.inj hlabel
      exact ⟨_, ids', hcell, rfl, fun k block => ⟨rfl, rfl⟩⟩
    | _ => cases hlabel
  | classHead _ name parent =>
    obtain ⟨i', ⟨node, line'⟩, ids', hi, rfl, hcell, rfl, hlabel, -⟩ := h.single_inv
    obtain rfl := (List.cons.inj hi).1
    cases hf
    cases node with
    | classDecl name' parent' body =>
      obtain ⟨rfl, rfl, -⟩ := Node.classDecl.inj hlabel
      exact ⟨_, ids', hcell, rfl, fun k block => ⟨rfl, rfl⟩⟩
    | _ => cases hlabel
  | _ => cases hf

/-- A branch that is attached to the chain at the first symbol. -/
theorem gives_attach {line i m : Nat} {e : Expr} {b : Block} {rest rest' : Rest}
    {branch : Planter (Option (Else Nat))} {c : Arena} {ids₁ ids₂ : List Nat} (new : Rest)
    (last : Else Nat) (hchain : a.Shows [(Stmt.branch line e b rest).tree] [i] ids₁)
    (hids : (ids₁ ++ ids₂).Nodup) (hbranch : branch.run a = (some last, c))
    (hlabel : new.label = some last.label) (hnew : a.Grafts ids₂ c new.trees [last.node] m)
    (hrest : rest.attach new = some rest') :
    Planter.Gives (plantBranch (some i :: nodes) branch) a (ids₁ ++ ids₂)
      (Program.single (.branch line e b rest')).tree m := by
  rw [Stmt.tree] at hchain
  obtain ⟨j, hend, hgrafts⟩ := hnew.attach hlabel hrest hchain
    (hchain.length_le (List.nodup_append.mp hids).1) hids
  exact ⟨i, _, plantBranch_run ((chain?_branch hchain).trans hend) hbranch, hgrafts⟩

/-- The rule of a binary operator. -/
theorem plant_of_operator? {t : Tag} {p : Operator} (ht : t.operator? = some p) :
    p.rule.plant ms nodes = plantBinary ms nodes := by
  cases t <;> cases ht <;> rfl

/-- The expressions of a match are behind its first symbol. -/
theorem shows_items {s : Symbol} {is : Nodes} {i : Option Nat} {of : List Tag}
    (hs : s.tag ≠ .expression) (hms : ∀ s ∈ ms, s.Item of) (hof : .expression ∉ of)
    (h : a.Carries ms is ids) :
    a.Shows (Expr.trees (Matched.exprs ms)) (Nodes.tagged (i :: is) (s :: ms) .expression) ids := by
  rw [Carries.tagged_cons, if_neg hs, List.nil_append]
  exact h.items hms hof

section Match

variable {a₁ a₂ : Symbol} (hids : ids.Nodup)
include hids

/-- A list of expressions. -/
theorem gives_list (h₁ : a₁.Is .leftBracket) (hms : ∀ s ∈ ms, s.Item [.comma, .rightBracket])
    (h : a.Carries (a₁ :: ms) nodes ids) :
    Gives (Rule.list.plant (a₁ :: ms) nodes) a ids
      (Expr.list a₁.line (Matched.exprs ms)).tree 1 := by
  obtain ⟨nodes, rfl, hitems⟩ := h.token_inv h₁.fragment_eq
  have hshows := shows_items (s := a₁) (i := none) (h₁.tag_eq ▸ by decide) hms (by decide) hitems
  refine gives_above hshows (.refl _) hids ?_
  rw [Expr.tree, Node.label, List.map_const', List.map_const', hshows.trees_length]
  rfl

/-- A list of keys and values. -/
theorem gives_map (h₁ : a₁.Is .leftBrace) (hms : ∀ s ∈ ms, s.Item [.comma, .colon, .rightBrace])
    (heven : (Matched.exprs ms).length % 2 = 0) (h : a.Carries (a₁ :: ms) nodes ids) :
    Gives (Rule.map.plant (a₁ :: ms) nodes) a ids
      (Expr.map a₁.line (pairsOf (Matched.exprs ms))).tree 1 := by
  obtain ⟨nodes, rfl, hitems⟩ := h.token_inv h₁.fragment_eq
  have hshows := shows_items (s := a₁) (i := none) (h₁.tag_eq ▸ by decide) hms (by decide) hitems
  obtain ⟨hpairs, hlength⟩ := hshows.pairs heven
  refine gives_above hpairs (.refl _) hids ?_
  rw [Expr.tree, Node.label, List.map_const', List.map_const', hlength]
  rfl

/-- The head of a call or an instantiation with its arguments. -/
theorem gives_arguments {e : Expr} (h₁ : a₁.tag = .callHead ∨ a₁.tag = .newHead)
    (hf : a₁.fragment = some f) (hms : ∀ s ∈ ms, s.Item [.comma, .rightParen])
    (he : f.applied? (Matched.exprs ms) = some e) (h : a.Carries (a₁ :: ms) nodes ids) :
    Gives (Rule.arguments.plant (a₁ :: ms) nodes) a ids e.tree 0 := by
  obtain ⟨i, rest, ids₁, ids₂, rfl, rfl, hhead, htail⟩ := h.whole_inv hf
  have htag : a₁.tag ≠ .expression := by rcases h₁ with h | h <;> rw [h] <;> decide
  obtain ⟨cell, ids₃, us, hcell, rfl, hargs, htree⟩ :=
    applied_shows he hhead (shows_items (i := some i) htag hms (by decide) htail)
  have hperm : (i :: (ids₂ ++ ids₃)).Perm (i :: ids₃ ++ ids₂) :=
    List.Perm.cons i List.perm_append_comm
  obtain ⟨hi, hnodup⟩ := List.nodup_cons.mp (hperm.nodup_iff.mpr hids)
  exact gives_change hcell (.of_shows hargs hnodup (List.Subset.refl _)) hi hperm.subset htree

/-- The head of an assignment and its value. -/
theorem gives_assignment {e : Expr} {s : Stmt} (h₁ : a₁.fragment = some f)
    (h₂ : a₂.fragment = some (.value e)) (hs : f.assigned? e = some s)
    (h : a.Carries (a₁ :: a₂ :: ms) nodes ids) :
    Gives (Rule.assignment.plant (a₁ :: a₂ :: ms) nodes) a ids s.tree 0 := by
  obtain ⟨i, rest, ids₁, ids₂, rfl, rfl, hhead, htail⟩ := h.whole_inv h₁
  obtain ⟨j, rest', ids₃, ids₄, rfl, rfl, hvalue, -⟩ := htail.whole_inv h₂
  obtain ⟨cell, ids₅, us, hcell, rfl, hshows, htree⟩ := assigned_shows hs hhead hvalue
  rw [List.cons_append, ← List.append_assoc] at hids ⊢
  obtain ⟨hi, hnodup⟩ := List.nodup_cons.mp (hids.sublist
    (List.Sublist.cons_cons i (List.sublist_append_left (ids₅ ++ ids₃) ids₄)))
  exact gives_change hcell (.of_shows hshows hnodup (List.Subset.refl _)) hi
    (List.cons_subset_cons i (List.subset_append_left _ _)) htree

/-- An `else if` at the end of the chain before it. -/
theorem gives_elseIf {c l : Symbol} {line : Nat} {e₀ e : Expr} {b₀ b : Block} {rest rest' : Rest}
    (h₁ : a₁.fragment = some (.program (.single (.branch line e₀ b₀ rest))))
    (h₂ : a₂.fragment = none) (hc : c.fragment = some (.value e)) (hl : l.fragment = none)
    (hms : Body a₁.line ms b n) (hrest : rest.attach (.elseIf a₂.line e b .nothing) = some rest')
    (h : a.Carries (a₁ :: a₂ :: c :: l :: ms) nodes ids) :
    Gives (Rule.elseIf.plant (a₁ :: a₂ :: c :: l :: ms) nodes) a ids
      (Stmt.branch line e₀ b₀ rest').tree (n + 1) := by
  obtain ⟨i, nodes, ids₁, ids₂, rfl, rfl, hchain, htail⟩ := h.whole_inv h₁
  obtain ⟨j, nodes', ids₃, ids₄, rfl, rfl, hcondition, htail'⟩ := htail.second_inv h₂ hc
  obtain ⟨nodes'', rfl, htail''⟩ := htail'.token_inv hl
  have hnodup := (List.nodup_append.mp hids).2.1
  obtain ⟨k, d, hrun, hbody⟩ := body_run (a₁ :: a₂ :: c :: l :: ms)
    (some i :: none :: some j :: none :: nodes'') 4 hms htail''
    (hnodup.sublist (List.sublist_append_right _ _)) rfl rfl rfl
  have hnew := (hbody.beside hcondition hnodup).add (.branch j k none) a₂.line
  exact gives_attach (.elseIf a₂.line e b .nothing) (.elseIf d.length) hchain hids
    (run_bind hrun) rfl hnew hrest

/-- An `else` at the end of the chain before it. -/
theorem gives_otherwise {l : Symbol} {line : Nat} {e₀ : Expr} {b₀ b : Block} {rest rest' : Rest}
    (h₁ : a₁.fragment = some (.program (.single (.branch line e₀ b₀ rest))))
    (h₂ : a₂.fragment = none) (hl : l.fragment = none) (hms : Body a₁.line ms b n)
    (hrest : rest.attach (.otherwise b) = some rest')
    (h : a.Carries (a₁ :: a₂ :: l :: ms) nodes ids) :
    Gives (Rule.otherwise.plant (a₁ :: a₂ :: l :: ms) nodes) a ids
      (Stmt.branch line e₀ b₀ rest').tree n := by
  obtain ⟨i, nodes, ids₁, ids₂, rfl, rfl, hchain, htail⟩ := h.whole_inv h₁
  obtain ⟨nodes', rfl, htail'⟩ := htail.token_inv h₂
  obtain ⟨nodes'', rfl, htail''⟩ := htail'.token_inv hl
  obtain ⟨k, d, hrun, hbody⟩ := body_run (a₁ :: a₂ :: l :: ms)
    (some i :: none :: none :: nodes'') 3 hms htail'' (List.nodup_append.mp hids).2.1 rfl rfl rfl
  exact gives_attach (.otherwise b) (.otherwise k) hchain hids (run_bind hrun) rfl hbody hrest

/-- A branch that is left out keeps what stands before it. -/
theorem gives_leftOut {p : Program} (hr : r = .elseIf ∨ r = .otherwise)
    (h₁ : a₁.fragment = some (.program p))
    (hlast : ∀ i is ids', a.Shows [p.tree] [i] ids' → a.chain? (some i :: is) = none)
    (h : a.Carries (a₁ :: a₂ :: ms) nodes ids) :
    Gives (r.plant (a₁ :: a₂ :: ms) nodes) a ids p.tree 0 := by
  obtain ⟨i, rest, ids₁, ids₂, rfl, rfl, hp, -⟩ := h.whole_inv h₁
  have hgrafts := Grafts.of_shows hp (hids.sublist (List.sublist_append_left _ _))
    (List.subset_append_left ids₁ ids₂)
  rcases hr with rfl | rfl <;> exact ⟨i, a, plantBranch_none (hlast _ _ _ hp), hgrafts⟩

/-- The end of a declaration without a body. -/
theorem gives_closeEmpty {line : Nat} {make : Block → Stmt}
    (hr : r = .functionEnd ∨ r = .classEnd) (h₁ : a₁.fragment = some f)
    (hf : f.declared? = some (line, make)) (h₂ : a₂.Is .rightBrace)
    (h : a.Carries (a₁ :: a₂ :: ms) nodes ids) :
    Gives (r.plant (a₁ :: a₂ :: ms) nodes) a ids (make (.mk line [])).tree 0 := by
  obtain ⟨i, rest, ids₁, ids₂, rfl, rfl, hhead, -⟩ := h.whole_inv h₁
  have htree : f.tree = (make (.mk line [])).tree := by cases f <;> cases hf <;> rfl
  have hplant : r.plant (a₁ :: a₂ :: ms) (some i :: rest) = pure (some i) := by
    rcases hr with rfl | rfl <;>
      simp only [Rule.plant, plantDeclaration, Nodes.node?_zero, Matched.tag?_succ,
        Matched.tag?_zero, h₂.tag_eq, Option.some.injEq, reduceCtorEq, if_false]
  rw [hplant]
  exact gives_pure (htree ▸ hhead) (List.sublist_append_left _ _) hids

/-- The end of a declaration with its body. -/
theorem gives_close {z : Symbol} {line : Nat} {make : Block → Stmt} {p : Program}
    (hr : r = .functionEnd ∨ r = .classEnd) (h₁ : a₁.fragment = some f)
    (hf : f.declared? = some (line, make)) (h₂ : a₂.Bears (.program p)) (hz : z.Is .rightBrace)
    (h : a.Carries [a₁, a₂, z] nodes ids) :
    Gives (r.plant [a₁, a₂, z] nodes) a ids (make p.toBlock).tree p.wrappers := by
  obtain ⟨i, rest, ids₁, ids₂, rfl, rfl, hhead, htail⟩ := h.whole_inv h₁
  obtain ⟨cell, ids₃, hcell, rfl, hbody⟩ := declared_shows hf hhead
  have hbraces : Rule.Body a₁.line [a₂, z] p.toBlock p.wrappers := .program h₂ hz
  obtain ⟨k, b, hrun, hblock⟩ := body_run [a₁, a₂, z] (some i :: rest) 1 hbraces htail
    (hids.sublist (List.sublist_append_right _ _)) rfl rfl rfl
  obtain ⟨hchildren, htree⟩ := hbody k p.toBlock
  have hplant : r.plant [a₁, a₂, z] (some i :: rest) = (do
      let block ← body [a₁, a₂, z] (some i :: rest) 1
      change i (Node.withBody block)
      return some i) := by
    rcases hr with rfl | rfl <;>
      simp only [Rule.plant, plantDeclaration, Nodes.node?_zero, Matched.tag?_succ,
        Matched.tag?_zero, h₂.tag_eq, Fragment.tag, if_true]
  rw [hplant]
  have hi : i ∉ ids₂ := fun hmem => (List.nodup_cons.mp hids).1 (List.mem_append_right _ hmem)
  exact gives_bind hrun (gives_change hcell (hchildren ▸ hblock) hi
    (List.cons_subset_cons i (List.subset_append_right _ _)) htree)

/-- Programs one after another. -/
theorem gives_sequence (hms : ∀ s ∈ ms, s.Part [.newline, .semicolon])
    (h : a.Carries ms nodes ids) :
    Gives (Rule.sequence.plant ms nodes) a ids
      (Block.mk (Matched.line ms) ((Matched.programs ms).flatMap Program.statements)).tree 1 := by
  obtain ⟨ids₁, hprograms, hsub₁⟩ := h.programs (Symbol.Part.bears hms (by decide))
  rw [Symbol.Part.programs_eq hms] at hprograms
  obtain ⟨ids', hparts, hsub₂⟩ := hprograms.statements
  refine gives_bind (x := a) (b := a) rfl (gives_above hparts (hsub₂.trans hsub₁) hids ?_)
  rw [Block.tree, Node.label, List.map_const', List.map_const', hparts.stmts_length]

end Match

/-- Building in an arena does what `Makes` says. -/
theorem Makes.planted (h : r.Makes ms f n ds) (hms : a.Carries ms nodes ids) (hids : ids.Nodup) :
    Planter.Gives (r.plant ms nodes) a ids f.tree n := by
  cases h with
  | literal hl he =>
    obtain ⟨node, hplant, hchildren, htree⟩ := Leaf.plant_literal he
    rw [Rule.plant, hplant]
    exact gives_above (hchildren.symm ▸ .nil) (List.nil_sublist _) hids htree
  | declaration | newHead | «variable» => exact gives_above .nil (List.nil_sublist _) hids rfl
  | assignmentHead hx | declaringHead hx =>
    simp only [Rule.plant, plantAssignmentHead, Matched.tag?_zero, hx.tag_eq]
    exact gives_above .nil (List.nil_sublist _) hids rfl
  | callHead hx hl =>
    simp only [Rule.plant, plantCallHead, Matched.tag?_zero, hx.tag_eq, if_true]
    exact gives_above .nil (List.nil_sublist _) hids rfl
  | @functionHead w x ms hw hx hms' =>
    exact gives_planted (.emptyBlock w.line) (List.nil_subset _) rfl
  | @classHead w x b hw hx hb =>
    simp only [Rule.plant, Matched.tag?_succ, Matched.tag?_zero, hb.tag_eq, Option.some.injEq,
      reduceCtorEq, if_false]
    exact gives_planted (.emptyBlock w.line) (List.nil_subset _) rfl
  | @extendingHead w x v y b hw hx hv hy hb =>
    simp only [Rule.plant, Matched.tag?_succ, Matched.tag?_zero, hv.tag_eq, if_true]
    exact gives_planted (.emptyBlock w.line) (List.nil_subset _) rfl
  | methodHead ha hd hx hl =>
    obtain ⟨i, nodes, ids₁, ids₂, rfl, rfl, ha', -⟩ := hms.whole_inv ha.fragment_eq
    simp only [Rule.plant, plantCallHead, Matched.tag?_zero, ha.tag_eq, Fragment.tag,
      Nodes.node?_zero, Option.some.injEq, reduceCtorEq, if_false]
    exact gives_above ha' (List.sublist_append_left _ _) hids rfl
  | fieldAssignmentHead ha hd hx hs =>
    obtain ⟨i, nodes, ids₁, ids₂, rfl, rfl, ha', -⟩ := hms.whole_inv ha.fragment_eq
    simp only [Rule.plant, plantAssignmentHead, Matched.tag?_zero, ha.tag_eq, Fragment.tag,
      Nodes.node?_zero]
    exact gives_above ha' (List.sublist_append_left _ _) hids rfl
  | field ha hd hx =>
    obtain ⟨i, nodes, ids₁, ids₂, rfl, rfl, ha', -⟩ := hms.whole_inv ha.fragment_eq
    exact gives_above ha' (List.sublist_append_left _ _) hids rfl
  | list hl hms' => exact gives_list hids hl hms' hms
  | map hl hms' heven => exact gives_map hids hl hms' heven hms
  | group hl ha hr =>
    obtain ⟨i, rest, ids₁, ids₂, rfl, rfl, ha', -⟩ := hms.second_inv hl.fragment_eq ha.fragment_eq
    exact gives_pure ha' (List.sublist_append_left _ _) hids
  | unary ho ha =>
    obtain ⟨i, rest, ids₁, ids₂, rfl, rfl, ha', -⟩ := hms.second_inv ho.fragment_eq ha.fragment_eq
    simp only [Rule.plant, Nodes.node?_succ, Nodes.node?_zero, unaryOperator_eq]
    exact gives_above ha' (List.sublist_append_left _ _) hids rfl
  | binary ha ho hr hnone hb =>
    obtain ⟨i, rest, ids₁, ids₂, rfl, rfl, ha', htail⟩ := hms.whole_inv ha.fragment_eq
    obtain ⟨j, rest', ids₃, ids₄, rfl, rfl, hb', -⟩ := htail.second_inv hnone hb.fragment_eq
    rw [← hr, plant_of_operator? ho]
    simp only [plantBinary, Nodes.node?_succ, Nodes.node?_zero, binaryOperator_eq]
    refine gives_above (ha'.append hb') ?_ hids rfl
    rw [← List.append_assoc]
    exact List.sublist_append_left _ _
  | arguments ht ha hms' he => exact gives_arguments hids ht ha hms' he hms
  | @jump w hw =>
    simp only [Rule.plant, Matched.tag?_zero, Option.some.injEq]
    split <;> exact gives_above .nil (List.nil_sublist _) hids rfl
  | print hw ha | returns hw ha =>
    obtain ⟨i, rest, ids₁, ids₂, rfl, rfl, ha', -⟩ := hms.second_inv hw.fragment_eq ha.fragment_eq
    exact gives_above ha' (List.sublist_append_left _ _) hids rfl
  | returnsBare hw =>
    obtain ⟨rest, rfl, htail⟩ := hms.token_inv hw.fragment_eq
    obtain ⟨rfl, rfl⟩ := htail.nil_inv
    exact gives_above .nil (List.nil_sublist _) hids rfl
  | assignment ha hb hs => exact gives_assignment hids ha.fragment_eq hb.fragment_eq hs hms
  | @branch w a' l ms e block n hw ha hl hms' | @loop w a' l ms e block n hw ha hl hms' =>
    obtain ⟨i, rest, ids₁, ids₂, rfl, rfl, ha', htail⟩ :=
      hms.second_inv hw.fragment_eq ha.fragment_eq
    obtain ⟨rest', rfl, htail'⟩ := htail.token_inv hl.fragment_eq
    obtain ⟨k, b, hrun, hbody⟩ := body_run (w :: a' :: l :: ms) (none :: some i :: none :: rest') 3
      hms' htail' (hids.sublist (List.sublist_append_right _ _)) rfl rfl rfl
    exact gives_bind hrun (gives_planted (hbody.beside ha' hids) (List.Subset.refl _) rfl)
  | elseIf ha ho hc hl hms' hrest =>
    exact gives_elseIf hids ha.fragment_eq ho.fragment_eq hc.fragment_eq hl.fragment_eq hms' hrest hms
  | otherwise ha ho hl hms' hrest =>
    exact gives_otherwise hids ha.fragment_eq ho.fragment_eq hl.fragment_eq hms' hrest hms
  | stray hr ha hp =>
    exact gives_leftOut hids hr ha.fragment_eq (fun _ _ _ h => chain?_eq_none h hp) hms
  | late hr ha hrest =>
    refine gives_leftOut hids hr ha.fragment_eq (fun i is ids' h => ?_) hms
    rw [Program.tree, Stmt.tree] at h
    exact (chain?_branch h).trans (chainEnd?_eq_none hrest h)
  | closeEmpty hr ha hf hz => exact gives_closeEmpty hids hr ha.fragment_eq hf hz hms
  | close hr ha hf hs hz => exact gives_close hids hr ha.fragment_eq hf hs hz hms
  | sequence hms' => exact gives_sequence hids hms' hms
  | trailing ha | statement ha =>
    obtain ⟨i, rest, ids₁, ids₂, rfl, rfl, ha', -⟩ := hms.whole_inv ha.fragment_eq
    exact gives_pure ha' (List.sublist_append_left _ _) hids

end Rule

end StackScript
