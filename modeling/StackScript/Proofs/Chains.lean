import StackScript.Proofs.Growing

/-!
# StackScript.Proofs.Chains — the branches of an arena

An `if` and the branches attached to it are a chain of nodes.  It ends in an `if` without a branch
(`Arena.LastLink`) or in an `else` (`Arena.Closed`), and no link of it is below an `else` of its tree
(`IsTree.not_below_else`).  Only two rules give a node a branch (`Rule.spares_plant`), and they give
it to the last link (`Planter.rests_plantBranch`).
-/

namespace StackScript

open Relation

/-! ### Chains -/

namespace Node

/-- The branch of an `if`, if it has one. -/
def rest? {ι : Type} : Node ι → Option (Else ι)
  | branch _ _ rest => rest
  | _ => none

variable (node : Node Nat) (i : Nat) (args : List Nat)

@[simp] theorem rest?_withArguments : (node.withArguments args).rest? = node.rest? := by
  cases node <;> rfl

@[simp] theorem rest?_withValue : (node.withValue i).rest? = node.rest? := by
  cases node <;> rfl

@[simp] theorem rest?_withBody : (node.withBody i).rest? = node.rest? := by
  cases node <;> rfl

end Node

namespace Arena

variable {a b : Arena} {i j : Nat}

/-- The branches, node by node. -/
def rests (a : Arena) : List (Option (Else Nat)) := a.map (·.node.rest?)

/-- The branch of the node at `i`, if it has one. -/
def rest? (a : Arena) (i : Nat) : Option (Else Nat) := a.rests[i]?.join

/-- An `if` stands at `i`. -/
def IsIf (a : Arena) (i : Nat) : Prop :=
  ∃ condition body rest line, a[i]? = some ⟨.branch condition body rest, line⟩

/-- A link of a chain and the one that an `else if` attaches to it. -/
def Link (a : Arena) (i j : Nat) : Prop := a.rest? i = some (.elseIf j)

/-- The chain that begins at `head` ends at `last`, which has no branch. -/
structure LastLink (a : Arena) (head last : Nat) : Prop where
  chain : ReflTransGen a.Link head last
  isIf : a.IsIf last
  rest_eq : a.rest? last = none

/-- The chain that begins at `head` ends in an `else`. -/
def Closed (a : Arena) (head : Nat) : Prop :=
  ∃ last body, ReflTransGen a.Link head last ∧ a.rest? last = some (.otherwise body)

theorem rest?_of_getElem? {cell : Cell} (h : a[i]? = some cell) : a.rest? i = cell.node.rest? := by
  rw [rest?, rests, List.getElem?_map, h]
  rfl

theorem edge_of_rest? {rest : Else Nat} (h : a.rest? i = some rest) : a.Edge i rest.node := by
  rw [rest?, rests, List.getElem?_map] at h
  cases hcell : a[i]? with
  | none =>
    rw [hcell] at h
    cases h
  | some cell =>
    obtain ⟨node, line⟩ := cell
    rw [hcell] at h
    have hrest : node.rest? = some rest := h
    rw [Edge, children, hcell]
    cases node with
    | branch condition body rest' =>
      obtain rfl : rest' = some rest := hrest
      exact List.mem_cons_of_mem _ (List.mem_cons_of_mem _ (List.mem_singleton_self _))
    | _ => cases hrest

theorem Link.edge (h : a.Link i j) : a.Edge i j := edge_of_rest? h

/-- In a tree a node is named by one node. -/
theorem IsTree.eq_of_edge {root k : Nat} (h : a.IsTree root) (hi : a.Reaches root i)
    (hj : a.Reaches root j) (hik : a.Edge i k) (hjk : a.Edge j k) : i = j := by
  have hk : k ≠ root := by
    rintro rfl
    exact h.no_edge i hi hik
  obtain ⟨m, hm⟩ := List.mem_iff_getElem?.mp hik
  obtain ⟨n, hn⟩ := List.mem_iff_getElem?.mp hjk
  have heq : (i, m) = (j, n) := (h.one_edge k (hi.tail hik) hk).unique ⟨hi, hm⟩ ⟨hj, hn⟩
  exact congrArg Prod.fst heq

/-- The links of a chain are not below an `else` of its tree. -/
theorem IsTree.not_below_else {root last body : Nat} (h : a.IsTree root)
    (hchain : ReflTransGen a.Link root last) (hj : a.Reaches root j)
    (hbody : a.rest? j = some (.otherwise body)) : ¬a.Reaches body last := by
  have hedge : a.Edge j body := edge_of_rest? hbody
  induction hchain with
  | refl =>
    intro hreaches
    obtain ⟨k, hk, hkroot⟩ := TransGen.tail'_iff.mp (TransGen.head' hedge hreaches)
    exact h.no_edge k (hj.trans hk) hkroot
  | @tail k last hk hlink ih =>
    intro hreaches
    have hroot : a.Reaches root k := ReflTransGen.mono (fun _ _ => Link.edge) _ _ hk
    rcases ReflTransGen.cases_tail hreaches with rfl | ⟨l, hl, hlast⟩
    · -- the `else` and the `else if` would name one node
      obtain rfl := h.eq_of_edge hj hroot hedge hlink.edge
      cases hbody.symm.trans hlink
    · obtain rfl := h.eq_of_edge ((hj.tail hedge).trans hl) hroot hlast hlink.edge
      exact ih hl

/-! ### Chains that stand in an arena -/

variable {ids : List Nat}

/-- Where a branch can be attached to a chain, the last link is found. -/
theorem lastLink_of_shows {new : Rest} : ∀ {rest rest' : Rest} {line fuel i : Nat} {c d : Tree}
    {ids : List Nat}, rest.attach new = some rest' →
    a.Shows [.node line (.branch () () rest.label) (c :: d :: rest.trees)] [i] ids →
    ids.length ≤ fuel → ∃ j, a.chainEnd? fuel i = some j ∧ a.LastLink i j
  | _, _, _, 0, i, _, _, _, _, h, hfuel => by
    have hi := h.root_mem i (List.mem_singleton_self i)
    rw [List.length_eq_zero_iff.mp (Nat.le_zero.mp hfuel)] at hi
    cases hi
  | .nothing, _, line, fuel + 1, i, _, _, _, _, h, _ => by
    obtain ⟨x, y, r, below, hcell, hr, -, -⟩ := chain_inv h
    obtain rfl : r = none := Option.map_eq_none_iff.mp hr
    exact ⟨i, by rw [chainEnd?, hcell], .refl, ⟨x, y, none, line, hcell⟩, rest?_of_getElem? hcell⟩
  | .elseIf _ _ _ rest, _, _, fuel + 1, i, _, _, _, hrest, h, hfuel => by
    obtain ⟨x, y, k, ids₁, ids₂, hcell, rfl, -, hchain⟩ := elseIf_inv h
    obtain ⟨tail, htail, -⟩ := Option.map_eq_some_iff.mp hrest
    have hfuel' : ids₂.length ≤ fuel := by
      rw [List.length_cons, List.length_append] at hfuel
      omega
    obtain ⟨j, hend, hlast⟩ := lastLink_of_shows htail hchain hfuel'
    exact ⟨j, by rw [chainEnd?, hcell]; exact hend, .head (rest?_of_getElem? hcell) hlast.chain,
      hlast.isIf, hlast.rest_eq⟩
  | .otherwise _, _, _, _, _, _, _, _, hrest, _, _ => by cases hrest

/-- Where no branch can be attached to a chain, it ends in an `else`. -/
theorem closed_of_shows : ∀ {rest : Rest} {line i : Nat} {c d : Tree} {ids : List Nat},
    rest.attach .nothing = none →
    a.Shows [.node line (.branch () () rest.label) (c :: d :: rest.trees)] [i] ids → a.Closed i
  | .nothing, _, _, _, _, _, hrest, _ => by cases hrest
  | .elseIf _ _ _ rest, _, _, _, _, _, hrest, h => by
    obtain ⟨x, y, k, ids₁, ids₂, hcell, -, -, hchain⟩ := elseIf_inv h
    obtain ⟨last, body, hlinks, hbody⟩ := closed_of_shows (Option.map_eq_none_iff.mp hrest) hchain
    exact ⟨last, body, .head (rest?_of_getElem? hcell) hlinks, hbody⟩
  | .otherwise _, _, i, _, _, _, _, h => by
    obtain ⟨x, y, r, below, hcell, hr, -, -⟩ := chain_inv h
    obtain ⟨last, rfl, hlast⟩ := Option.map_eq_some_iff.mp hr
    cases last with
    | elseIf => cases hlast
    | otherwise body => exact ⟨i, body, .refl, rest?_of_getElem? hcell⟩

/-- What is no `if` has none at its root. -/
theorem not_isIf_of_shows {p : Program} (h : a.Shows [p.tree] [i] ids)
    (hp : ∀ line e b rest, p ≠ .single (.branch line e b rest)) : ¬a.IsIf i := by
  rintro ⟨condition, body, rest, line, hcell⟩
  cases p with
  | single s =>
    obtain ⟨node, hnode, -, hbranch⟩ := stmt_inv h
    obtain ⟨line', e, b, rest', rfl⟩ := hbranch condition body rest
      (congrArg Cell.node (Option.some.inj (hnode.symm.trans hcell)))
    exact hp line' e b rest' rfl
  | several b =>
    obtain ⟨line', ss⟩ := b
    obtain ⟨children, ids', hnode, -, -⟩ := block_inv h
    cases hnode.symm.trans hcell

end Arena

/-! ### Building that keeps the branches -/

open Arena

/-- Nodes without branches are added. -/
def Arena.Grows (a b : Arena) : Prop :=
  ∃ new : Arena, b = a ++ new ∧ ∀ cell ∈ new, cell.node.rest? = none

theorem Arena.Grows.refl (a : Arena) : a.Grows a :=
  ⟨[], (List.append_nil a).symm, fun _ h => absurd h List.not_mem_nil⟩

theorem Arena.Grows.add {a b : Arena} {node : Node Nat} (h : a.Grows b) (hnode : node.rest? = none)
    (line : Nat) : a.Grows (b ++ [⟨node, line⟩]) := by
  obtain ⟨new, rfl, hnew⟩ := h
  refine ⟨new ++ [⟨node, line⟩], List.append_assoc .., fun cell hcell => ?_⟩
  rcases List.mem_append.mp hcell with hcell | hcell
  · exact hnew cell hcell
  · obtain rfl := List.mem_singleton.mp hcell
    exact hnode

theorem Arena.Grows.rests {a b : Arena} (h : a.Grows b) :
    ∃ n, b.rests = a.rests ++ List.replicate n none := by
  obtain ⟨new, rfl, hnew⟩ := h
  refine ⟨new.length, ?_⟩
  have hnone : Arena.rests new = List.replicate new.length none :=
    List.map_eq_replicate_iff.mpr hnew
  rw [Arena.rests, List.map_append, ← hnone]
  rfl

namespace Planter

variable {α β : Type} {a : Arena} {ids : Nodes}

/-- Building leaves all branches as they are; new nodes have none. -/
def Spares (m : Planter α) : Prop :=
  ∀ a : Arena, ∃ n, (m.run a).2.rests = a.rests ++ List.replicate n none

theorem spares_of_grows {m : Planter α} (h : ∀ a : Arena, a.Grows (m.run a).2) : m.Spares :=
  fun a => (h a).rests

theorem spares_pure (x : α) : (pure x : Planter α).Spares := spares_of_grows Grows.refl

theorem Spares.bind {m : Planter α} {k : α → Planter β} (hm : m.Spares) (hk : ∀ x, (k x).Spares) :
    (m >>= k).Spares := by
  intro a
  obtain ⟨n, hn⟩ := hm a
  obtain ⟨n', hn'⟩ := hk (m.run a).1 (m.run a).2
  refine ⟨n + n', ?_⟩
  have hrun : (m >>= k).run a = (k (m.run a).1).run (m.run a).2 := run_bind rfl
  rw [hrun, hn', hn, List.append_assoc, List.replicate_append_replicate]

theorem spares_add {node : Node Nat} (h : node.rest? = none) (line : Nat) :
    (add node line).Spares := spares_of_grows fun a => (Grows.refl a).add h line

theorem spares_planted {node : Node Nat} (h : node.rest? = none) (line : Nat) :
    (planted node line).Spares := (spares_add h line).bind fun _ => spares_pure _

/-- A change of other fields keeps branches. -/
theorem spares_change {f : Node Nat → Node Nat} (h : ∀ node, (f node).rest? = node.rest?)
    (i : Nat) : (change i f).Spares := by
  intro a
  refine ⟨0, ?_⟩
  have hrests : Arena.rests (a.modify i fun c => { c with node := f c.node }) = a.rests := by
    refine List.ext_getElem? fun j => ?_
    rw [Arena.rests, Arena.rests, List.getElem?_map, List.getElem?_map]
    by_cases hij : i = j
    · subst hij
      rw [List.getElem?_modify_eq]
      cases a[i]? with
      | none => rfl
      | some cell => exact congrArg some (h cell.node)
    · rw [List.getElem?_modify_ne _ _ hij]
  rw [List.replicate_zero, List.append_nil]
  exact hrests

theorem grows_asBlock (a : Arena) (i : Nat) : a.Grows ((asBlock i).run a).2 := by
  rw [asBlock, run_bind (m := get) (x := a) (b := a) rfl]
  split
  · exact .refl a
  · exact .refl a
  · exact (Grows.refl a).add rfl _

theorem run_body (a : Arena) (ms : Matched) (ids : Nodes) (i : Nat) :
    ∃ k b, (body ms ids i).run a = (k, b) ∧ a.Grows b := by
  have hgrows : a.Grows ((body ms ids i).run a).2 := by
    rw [body]
    split
    · exact grows_asBlock a _
    · exact (Grows.refl a).add rfl _
  exact ⟨_, _, rfl, hgrows⟩

theorem spares_body (ms : Matched) (ids : Nodes) (i : Nat) : (body ms ids i).Spares :=
  spares_of_grows fun a => by
    obtain ⟨k, b, hrun, hgrows⟩ := run_body a ms ids i
    rw [hrun]
    exact hgrows

section Heads

variable (ms : Matched) (ids : Nodes)

theorem spares_plantLiteral : (plantLiteral ms).Spares := by
  unfold plantLiteral
  split
  case h_2 =>
    split
    · exact spares_planted rfl _
    · exact spares_pure _
  all_goals first | exact spares_planted rfl _ | exact spares_pure _

theorem spares_plantAssignmentHead : (plantAssignmentHead ms ids).Spares := by
  unfold plantAssignmentHead
  split
  case h_4 =>
    split
    · exact spares_planted rfl _
    · exact spares_pure _
  all_goals first | exact spares_planted rfl _ | exact spares_pure _

theorem spares_plantCallHead : (plantCallHead ms ids).Spares := by
  unfold plantCallHead
  split
  · exact spares_planted rfl _
  split
  · exact spares_planted rfl _
  · exact spares_pure _

theorem spares_plantBinary : (plantBinary ms ids).Spares := by
  unfold plantBinary
  split
  · exact spares_planted rfl _
  · exact spares_pure _

theorem spares_plantDeclaration : (plantDeclaration ms ids).Spares := by
  unfold plantDeclaration
  split
  · exact spares_pure _
  split
  · refine (spares_body ms ids 1).bind fun block => ?_
    exact (spares_change (fun _ => by simp) _).bind fun _ => spares_pure _
  · exact spares_pure _

end Heads

end Planter

open Planter

/-- The keyword of a rule for a branch. -/
def Rule.keyword? : Rule → Option Tag
  | elseIf => some .elseIfWord
  | otherwise => some .elseWord
  | _ => none

/-- Only the rules for branches give a node one. -/
theorem Rule.spares_plant {r : Rule} (h : r.keyword? = none) (ms : Matched) (ids : Nodes) :
    (r.plant ms ids).Spares := by
  unfold Rule.plant
  cases r with
  | literal => exact spares_plantLiteral ms
  | assignmentHead | fieldAssignmentHead => exact spares_plantAssignmentHead ms ids
  | methodHead | callHead => exact spares_plantCallHead ms ids
  | power | factor | term | comparison | logic => exact spares_plantBinary ms ids
  | functionEnd | classEnd => exact spares_plantDeclaration ms ids
  | functionHead | classHead =>
    exact (spares_add rfl _).bind fun _ => spares_planted rfl _
  | group | trailing | statement => exact spares_pure _
  | sequence =>
    exact Spares.bind (m := get) (spares_of_grows Grows.refl) fun _ => spares_planted rfl _
  | jump =>
    refine spares_planted ?_ _
    split <;> rfl
  | arguments =>
    dsimp only
    split
    · exact (spares_change (fun _ => by simp) _).bind fun _ => spares_pure _
    · exact spares_pure _
  | assignment =>
    dsimp only
    split
    · exact (spares_change (fun _ => by simp) _).bind fun _ => spares_pure _
    · exact spares_pure _
  | branch | loop =>
    dsimp only
    split
    · exact (spares_body ms ids 3).bind fun _ => spares_planted rfl _
    · exact spares_pure _
  | field | unary | print =>
    dsimp only
    split
    · exact spares_planted rfl _
    · exact spares_pure _
  | elseIf | otherwise => cases h
  | _ => exact spares_planted rfl _

/-- A branch that is attached is that of the last link, and of no other node. -/
theorem Planter.rests_plantBranch {a b : Arena} {head last : Nat} {nodes : Nodes}
    (hlast : a.LastLink head last) (hchain : a.chain? nodes = some last) (new : Else Nat)
    (branch : Planter (Option (Else Nat))) (hbranch : branch.run a = (some new, b))
    (hgrows : a.Grows b) :
    ∃ n, ((plantBranch nodes branch).run a).2.rests =
      (a.rests ++ List.replicate n none).set last (some new) := by
  obtain ⟨n, hn⟩ := hgrows.rests
  refine ⟨n, ?_⟩
  obtain ⟨added, rfl, -⟩ := hgrows
  obtain ⟨condition, body, rest, line, hcell⟩ := hlast.isIf
  have hlt : last < a.length := (List.getElem?_eq_some_iff.mp hcell).1
  rw [plantBranch_run hchain hbranch, ← hn]
  refine List.ext_getElem? fun j => ?_
  rw [Arena.rests, Arena.rests, List.getElem?_map, List.getElem?_set]
  by_cases hj : last = j
  · subst hj
    rw [List.getElem?_modify_eq, List.getElem?_append_left hlt, hcell, if_pos rfl,
      if_pos (by rw [List.length_map, List.length_append]; omega)]
    rfl
  · rw [List.getElem?_modify_ne _ _ hj, if_neg hj, List.getElem?_map]

/-! ### The trees of the active symbols -/

namespace Arena.Carries

variable {a : Arena} {ms : List Symbol} {nodes : Nodes} {ids : List Nat} {i j k : Nat}

/-- The node of a symbol is the root of a tree. -/
theorem exists_shows (h : a.Carries ms nodes ids) (hi : some i ∈ nodes) :
    ∃ t ids', a.Shows [t] [i] ids' ∧ ids'.Sublist ids := by
  induction h with
  | nil => cases hi
  | token _ _ ih => exact ih ((List.mem_cons.mp hi).resolve_left nofun)
  | @whole s f j ms nodes ids ids' _ hf _ ih =>
    rcases List.mem_cons.mp hi with hi | hi
    · obtain rfl := Option.some.inj hi
      exact ⟨f.tree, ids, hf, List.sublist_append_left _ _⟩
    · obtain ⟨t, ids'', hshows, hsub⟩ := ih hi
      exact ⟨t, ids'', hshows, hsub.trans (List.sublist_append_right _ _)⟩

theorem mem_of_reaches (h : a.Carries ms nodes ids) (hi : some i ∈ nodes) (hk : a.Reaches i k) :
    k ∈ ids := by
  obtain ⟨t, ids', hshows, hsub⟩ := h.exists_shows hi
  exact hsub.subset (hshows.mem_of_reaches (hshows.root_mem i (List.mem_singleton_self i)) hk)

/-- No node is in the trees of two symbols. -/
theorem eq_of_reaches (h : a.Carries ms nodes ids) (hnodup : ids.Nodup) (hi : some i ∈ nodes)
    (hj : some j ∈ nodes) (hik : a.Reaches i k) (hjk : a.Reaches j k) : i = j := by
  induction h with
  | nil => cases hi
  | token _ _ ih =>
    exact ih hnodup ((List.mem_cons.mp hi).resolve_left nofun)
      ((List.mem_cons.mp hj).resolve_left nofun)
  | @whole s f m ms nodes ids ids' _ hf hrest ih =>
    obtain ⟨-, hnodup', hdisjoint⟩ := List.nodup_append.mp hnodup
    have hroot : ∀ {l}, a.Reaches m l → l ∈ ids := fun hl =>
      hf.mem_of_reaches (hf.root_mem m (List.mem_singleton_self m)) hl
    rcases List.mem_cons.mp hi with hi' | hi' <;> rcases List.mem_cons.mp hj with hj' | hj'
    · exact Option.some.inj (hi'.trans hj'.symm)
    · obtain rfl := Option.some.inj hi'
      exact absurd rfl (hdisjoint k (hroot hik) k (hrest.mem_of_reaches hj' hjk))
    · obtain rfl := Option.some.inj hj'
      exact absurd rfl (hdisjoint k (hroot hjk) k (hrest.mem_of_reaches hi' hik))
    · exact ih hnodup' hi' hj'

end Arena.Carries

end StackScript
