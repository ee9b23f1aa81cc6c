import StackScript.Proofs.Chains
import StackScript.Proofs.Replacing

/-!
# StackScript.Proofs.Branches — every `else` is attached or reported

The keyword of a branch is taken by a reduction that either attaches a branch at the end of the
chain before it, where none was, or leaves the arena as it is and reports the keyword
(`Planting.Branching`).  All other reductions leave every branch as it is.  So the keywords that are
left, the branches in the arena and the reports are always as many together as the keywords of the
source (`Planting.owed`), and a keyword that is left at the end is reported.
-/

namespace StackScript

open Relation

/-! ### Keywords of branches -/

/-- `else`, or `else if`. -/
def Tag.isElse : Tag → Bool
  | elseWord | elseIfWord => true
  | _ => false

example : [Tag.ifWord, .elseIfWord, .elseWord].countP Tag.isElse = 2 := by decide +kernel

/-- A branch that was not attached. -/
def Diagnostic.isElse : Diagnostic → Bool
  | danglingElse _ | elseIfAfterElse _ => true
  | _ => false

/-- The keyword of a branch. -/
def Else.keyword {ι : Type} : Else ι → Tag
  | elseIf _ => .elseIfWord
  | otherwise _ => .elseWord

namespace Rule

open Pattern

variable {r : Rule} {us ts : List Tag} {k : Tag}

theorem filter_isElse_of_series {t : Tag} (h : us = [] ∨ Series t us) (ht : t.isElse = false) :
    us.filter Tag.isElse = [] := by
  rcases h with rfl | h
  · rfl
  · induction h with
    | one => rw [List.filter_cons_of_neg (by simp [ht]), List.filter_nil]
    | more _ ih =>
      rw [List.filter_cons_of_neg (by simp [ht]), List.filter_cons_of_neg (by decide), ih]

theorem filter_isElse_of_body (h : Tag.Body us) : us.filter Tag.isElse = [] := by
  cases h <;> rfl

/-- A shape has the keyword of its rule, and no other. -/
theorem Shape.filter_isElse (h : r.Shape us) (hr : r ≠ .map) :
    us.filter Tag.isElse = r.keyword?.toList := by
  cases h with
  | literal h =>
    simp only [List.mem_cons, List.not_mem_nil, or_false] at h
    rcases h with rfl | rfl | rfl | rfl | rfl | rfl <;> rfl
  | unary h =>
    simp only [List.mem_cons, List.not_mem_nil, or_false] at h
    rcases h with rfl | rfl | rfl <;> rfl
  | @binary t _ _ h hr =>
    subst hr
    cases t <;> cases h <;> rfl
  | jump h => rcases h with rfl | rfl <;> rfl
  | functionHead h =>
    have hcommas := filter_isElse_of_series h rfl
    rw [← List.cons_append, ← List.cons_append, ← List.cons_append]
    simp [hcommas, Tag.isElse, keyword?]
  | list h =>
    have hcommas := filter_isElse_of_series h rfl
    simp [hcommas, Tag.isElse, keyword?]
  | arguments ht h =>
    have hcommas := filter_isElse_of_series h rfl
    rcases ht with rfl | rfl <;> simp [hcommas, Tag.isElse, keyword?]
  | map => exact absurd rfl hr
  | branch h | elseIf h | otherwise h | loop h | functionEnd h | classEnd h =>
    rw [List.filter_append, filter_isElse_of_body h, List.append_nil]
    rfl
  | _ => rfl

/-- What a pattern takes has the keyword of its rule, and no other. -/
theorem filter_isElse_of_rest? (h : r.pattern.rest? (us ++ ts) = some ts) :
    us.filter Tag.isElse = r.keyword?.toList := by
  by_cases hsequence : r = .sequence
  · subst hsequence
    obtain ⟨vs, hvs, htags⟩ := yields_sequence _ _ h
    obtain rfl := List.append_cancel_right htags
    refine List.filter_eq_nil_iff.mpr fun t ht => ?_
    have := hvs t ht
    simp only [List.mem_cons, List.not_mem_nil, or_false] at this
    rcases this with (rfl | rfl) | rfl <;> decide
  by_cases hmap : r = .map
  · subst hmap
    obtain ⟨ts₁, hleft, h⟩ := Option.bind_eq_some_iff.mp h
    obtain ⟨vs, hvs, rfl⟩ := yields_entries _ _ h
    rw [rest?_tag_iff, ← List.cons_append] at hleft
    obtain rfl := List.append_cancel_right hleft
    rw [List.filter_cons_of_neg (by decide)]
    refine List.filter_eq_nil_iff.mpr fun t ht => ?_
    have := hvs.2 t ht
    simp only [List.mem_cons, List.not_mem_nil, or_false] at this
    rcases this with (rfl | rfl | rfl) | rfl <;> decide
  · obtain ⟨vs, hvs, htags⟩ := shape_of_rest? hsequence h
    obtain rfl := List.append_cancel_right htags
    exact hvs.filter_isElse hmap

/-- A rule for a branch takes a statement first, then its keyword. -/
theorem keyword_of_rest? (h : r.pattern.rest? (us ++ ts) = some ts) (hk : r.keyword? = some k) :
    ∃ vs, us = .program :: k :: vs := by
  have hsequence : r ≠ .sequence := by
    rintro rfl
    cases hk
  obtain ⟨vs, hvs, htags⟩ := shape_of_rest? hsequence h
  obtain rfl := List.append_cancel_right htags
  cases hvs with
  | elseIf | otherwise =>
    obtain rfl := Option.some.inj hk
    exact ⟨_, rfl⟩
  | @binary t _ _ ho hr =>
    subst hr
    cases t <;> cases ho <;> cases hk
  | _ => cases hk

end Rule

/-- The symbols that a reduction leaves lack the keyword of its rule. -/
theorem Parsing.Reduction.countP_isElse {p q : Parsing} {r : Rule} (e : Reduction r p q) :
    p.tags.countP Tag.isElse = q.tags.countP Tag.isElse + r.keyword?.toList.length := by
  obtain ⟨ts, hpattern⟩ := e.pattern_eq
  have hresult : r.result.isElse = false := by cases r <;> rfl
  have hink : ∀ t : Tag, (t.isElse && t.isInk) = t.isElse := by
    intro t
    cases t <;> rfl
  have hrun : (e.run.map (·.tag)).filter Tag.isElse = r.keyword?.toList := by
    rw [← Rule.filter_isElse_of_rest? hpattern, List.filter_map, List.filter_map]
    have hcollect := congrArg (List.filter fun s : Symbol => s.tag.isElse) e.filter_collect
    simp only [List.filter_filter, hink] at hcollect
    exact congrArg (List.map (·.tag)) hcollect.symm
  have hcount : (e.run.map (·.tag)).countP Tag.isElse = r.keyword?.toList.length := by
    rw [List.countP_eq_length_filter, hrun]
  rw [e.tags_eq, tags, e.active_eq, List.map_append, List.map_append, List.countP_append,
    List.countP_append, List.countP_append, List.countP_cons_of_neg (by simp [hresult]), hcount]
  omega

/-- A rule for a branch reduces a statement, its keyword right behind it, and more. -/
theorem Parsing.Reduction.run_of_keyword {p q : Parsing} {r : Rule} {k : Tag} (e : Reduction r p q)
    (hk : r.keyword? = some k) : ∃ s o ms, p.stream.collect e.found.run = s :: o :: ms ∧
      e.run = s :: o :: ms ∧ s.tag = .program ∧ o.tag = k := by
  have hincluded : r.included = [] := by cases r <;> first | rfl | cases hk
  obtain ⟨ts, hpattern⟩ := e.pattern_eq
  obtain ⟨us, hus⟩ := Rule.keyword_of_rest? hpattern hk
  rw [e.collect_eq hincluded] at hus
  obtain ⟨s, _, hrun, hs, hrest⟩ := List.map_eq_cons_iff.mp hus
  obtain ⟨o, ms, rfl, ho, -⟩ := List.map_eq_cons_iff.mp hrest
  exact ⟨s, o, ms, (e.collect_eq hincluded).trans hrun, hrun, hs, ho⟩

/-! ### The rules for branches -/

open Arena Planter

/-- What the keyword `o` behind the statement at `head` makes of an arena, and what is reported. -/
inductive Arena.Branches (a : Arena) (head : Nat) (o : Symbol) (b : Arena) : List Diagnostic → Prop
  /-- the chain gets a branch at its end, where none was -/
  | attached {last n : Nat} {new : Else Nat} (hlast : a.LastLink head last)
    (hnew : new.keyword = o.tag)
    (hrests : b.rests = (a.rests ++ List.replicate n none).set last (some new)) :
    Branches a head o b []
  /-- the chain ends in an `else` -/
  | late (hclosed : a.Closed head) (hsame : b = a) : Branches a head o b
      [if o.tag = .elseIfWord then .elseIfAfterElse o.line else .danglingElse o.line]
  /-- the statement is no `if` -/
  | stray (hhead : ¬a.IsIf head) (hsame : b = a) : Branches a head o b [.danglingElse o.line]

/-- New nodes have no branch. -/
theorem Arena.countP_append_none (rests : List (Option (Else Nat))) (n : Nat) :
    (rests ++ List.replicate n none).countP Option.isSome = rests.countP Option.isSome := by
  rw [List.countP_append, List.countP_replicate]
  rfl

/-- A keyword is attached once, or reported once. -/
theorem Arena.Branches.countP_eq {a b : Arena} {head : Nat} {o : Symbol} {ds : List Diagnostic}
    (h : a.Branches head o b ds) : b.rests.countP Option.isSome + ds.countP Diagnostic.isElse =
      a.rests.countP Option.isSome + 1 := by
  cases h with
  | @attached last n new hlast _ hrests =>
    obtain ⟨condition, body, rest, line, hcell⟩ := hlast.isIf
    have hlt : last < a.rests.length := by
      rw [Arena.rests, List.length_map]
      exact (List.getElem?_eq_some_iff.mp hcell).1
    have hnone : a.rests[last] = none := by
      have hrest := hlast.rest_eq
      rwa [Arena.rest?, List.getElem?_eq_getElem hlt, Option.join_some] at hrest
    have hlt' : last < (a.rests ++ List.replicate n none).length := by
      rw [List.length_append]
      omega
    rw [hrests, List.countP_set hlt', List.getElem_append_left hlt, hnone, Arena.countP_append_none]
    rfl
  | late _ hsame =>
    subst hsame
    split <;> rfl
  | stray _ hsame =>
    subst hsame
    rfl

/-- Only a rule for branches reports. -/
theorem Rule.Makes.silent {r : Rule} {ms : List Symbol} {f : Fragment} {n : Nat}
    {ds : List Diagnostic} (h : r.Makes ms f n ds) (hr : r.keyword? = none) : ds = [] := by
  cases h with
  | stray hr' | late hr' => rcases hr' with rfl | rfl <;> cases hr
  | _ => rfl

/-- A rule for a branch attaches it or reports it. -/
theorem Rule.Makes.branches {r : Rule} {s o : Symbol} {ms : List Symbol} {f : Fragment} {n : Nat}
    {ds : List Diagnostic} {a : Arena} {nodes : Nodes} {ids : List Nat}
    (h : r.Makes (s :: o :: ms) f n ds) (hr : r.keyword? = some o.tag)
    (hms : a.Carries (s :: o :: ms) nodes ids) (hids : ids.Nodup) :
    ∃ head nodes', nodes = some head :: nodes' ∧
      a.Branches head o ((r.plant (s :: o :: ms) nodes).run a).2 ds := by
  cases h with
  | @elseIf _ _ c l ms line e₀ e b₀ b rest rest' n ha ho hc hl hms' hrest =>
    obtain ⟨i, nodes, ids₁, ids₂, rfl, rfl, ha', htail⟩ := hms.whole_inv ha.fragment_eq
    obtain ⟨j, nodes', ids₃, ids₄, rfl, rfl, -, -⟩ := htail.second_inv ho.fragment_eq hc.fragment_eq
    rw [Fragment.tree, Program.tree, Stmt.tree] at ha'
    obtain ⟨last, hend, hlast⟩ := lastLink_of_shows hrest ha'
      (ha'.length_le (List.nodup_append.mp hids).1)
    obtain ⟨k, d, hrun, hgrows⟩ :=
      run_body a (s :: o :: c :: l :: ms) (some i :: none :: some j :: nodes') 4
    have hnew : (Else.elseIf d.length).keyword = o.tag := ho.tag_eq.symm
    obtain ⟨n, hrests⟩ := rests_plantBranch hlast ((chain?_branch ha').trans hend)
      (.elseIf d.length)
      (do
        let block ← body (s :: o :: c :: l :: ms) (some i :: none :: some j :: nodes') 4
        let new ← add (.branch j block none) o.line
        return some (.elseIf new))
      (run_bind hrun) (hgrows.add rfl o.line)
    exact ⟨i, _, rfl, .attached hlast hnew hrests⟩
  | @otherwise _ _ l ms line e₀ b₀ b rest rest' n ha ho hl hms' hrest =>
    obtain ⟨i, nodes, ids₁, ids₂, rfl, rfl, ha', -⟩ := hms.whole_inv ha.fragment_eq
    rw [Fragment.tree, Program.tree, Stmt.tree] at ha'
    obtain ⟨last, hend, hlast⟩ := lastLink_of_shows hrest ha'
      (ha'.length_le (List.nodup_append.mp hids).1)
    obtain ⟨k, d, hrun, hgrows⟩ := run_body a (s :: o :: l :: ms) (some i :: nodes) 3
    have hnew : (Else.otherwise k).keyword = o.tag := ho.tag_eq.symm
    obtain ⟨n, hrests⟩ := rests_plantBranch hlast ((chain?_branch ha').trans hend) (.otherwise k)
      (do
        let block ← body (s :: o :: l :: ms) (some i :: nodes) 3
        return some (.otherwise block))
      (run_bind hrun) hgrows
    exact ⟨i, _, rfl, .attached hlast hnew hrests⟩
  | @stray _ _ _ ms p hr' ha hp =>
    obtain ⟨i, nodes, ids₁, ids₂, rfl, rfl, ha', -⟩ := hms.whole_inv ha.fragment_eq
    refine ⟨i, nodes, rfl, .stray (not_isIf_of_shows ha' hp) ?_⟩
    have hnone : a.chain? (some i :: nodes) = none := chain?_eq_none ha' hp
    rcases hr' with rfl | rfl <;> exact congrArg Prod.snd (plantBranch_none hnone)
  | @late _ _ _ ms line e b rest hr' ha hrest =>
    obtain ⟨i, nodes, ids₁, ids₂, rfl, rfl, ha', -⟩ := hms.whole_inv ha.fragment_eq
    rw [Fragment.tree, Program.tree, Stmt.tree] at ha'
    have hnone : a.chain? (some i :: nodes) = none :=
      (chain?_branch ha').trans (chainEnd?_eq_none hrest ha')
    have hreport : r = .elseIf ↔ o.tag = .elseIfWord := by
      rcases hr' with rfl | rfl <;> simp [← Option.some.inj hr]
    simp only [hreport]
    refine ⟨i, nodes, rfl, .late (closed_of_shows hrest ha') ?_⟩
    rcases hr' with rfl | rfl <;> exact congrArg Prod.snd (plantBranch_none hnone)
  | @binary _ p _ _ b e e' ha ho hr' hnone hb =>
    subst hr'
    generalize o.tag = t at ho hr
    cases t <;> cases ho <;> cases hr
  | closeEmpty hr' | close hr' => rcases hr' with rfl | rfl <;> cases hr
  | _ => cases hr

/-! ### One reduction -/

namespace Planting

variable {p q : Planting} {r : Rule}

/-- The reduction takes the statement with the node `head` and right behind it the keyword `o`. -/
inductive Takes (p q : Planting) (head : Nat) (o : Symbol) : Prop
  | intro {before run after : List Symbol} {s t : Symbol}
    (hp : p.parsing.stream.active = before ++ (s :: o :: run ++ after))
    (hq : q.parsing.stream.active = before ++ t :: after) (hs : s.tag = .program)
    (hhead : p.ids.node? before.length = some head)

/-- The node is below the `else` of an `if` in the tree of an active symbol. -/
def BelowElse (p : Planting) (i : Nat) : Prop :=
  ∃ root j body, some root ∈ p.ids ∧ p.arena.Reaches root j ∧
    p.arena.rest? j = some (.otherwise body) ∧ p.arena.Reaches body i

/-- What a reduction does to branches.  A rule for them attaches one at the end of the chain before
its keyword, which is below no `else`, or reports the keyword; all other rules leave branches as
they are. -/
inductive Branching (r : Rule) (p q : Planting) : Prop
  | keyword {head : Nat} {o : Symbol} {ds : List Diagnostic} (hkeyword : r.keyword? = some o.tag)
    (htakes : p.Takes q head o) (hbranches : p.arena.Branches head o q.arena ds)
    (hbelow : ∀ last, p.arena.LastLink head last → ¬p.BelowElse last)
    (hreports : q.parsing.record.diagnostics = p.parsing.record.diagnostics ++ ds)
  | other {n : Nat} (hkeyword : r.keyword? = none)
    (hrests : q.arena.rests = p.arena.rests ++ List.replicate n none)
    (hreports : q.parsing.record.diagnostics = p.parsing.record.diagnostics)

/-- The end of a chain of a statement is below no `else`. -/
theorem Grown.not_belowElse (hp : p.Grown) {head last : Nat} (hhead : some head ∈ p.ids)
    (hlast : p.arena.LastLink head last) : ¬p.BelowElse last := by
  rintro ⟨root, j, body, hroot, hj, hbody, hreaches⟩
  obtain ⟨ids, hcarries, hnodup⟩ := hp.carried
  have hrootLast : p.arena.Reaches root last := (hj.tail (edge_of_rest? hbody)).trans hreaches
  have hheadLast : p.arena.Reaches head last :=
    ReflTransGen.mono (fun _ _ => Link.edge) _ _ hlast.chain
  obtain rfl := hcarries.eq_of_reaches hnodup hroot hhead hrootLast hheadLast
  obtain ⟨t, ids', hshows, hsub⟩ := hcarries.exists_shows hroot
  exact (hshows.isTree (hnodup.sublist hsub)).not_below_else hlast.chain hj hbody hreaches

/-- What a reduction does to branches. -/
theorem Grown.branching (hp : p.Grown) (h : p.reduceOnce r = some q) : p.Branching r q := by
  obtain ⟨e, harena, -⟩ := exists_of_reduceOnce h
  obtain ⟨f, n, ds, hmakes⟩ := e.makes hp.sound
  cases hkeyword : r.keyword? with
  | none =>
    obtain ⟨m, hrests⟩ := Rule.spares_plant hkeyword (p.parsing.stream.collect e.found.run)
      (e.found.run.map p.nodeAt?) p.arena
    refine .other hkeyword (harena ▸ hrests) ?_
    rw [hmakes.diagnostics_eq, hmakes.makes.silent hkeyword, List.append_nil]
  | some k =>
    obtain ⟨s, o, ms, hcollect, hrun, hs, rfl⟩ := e.run_of_keyword hkeyword
    obtain ⟨_, _, _, _, ir, _, _, _, _, _, hmatch, hnodup⟩ := hp.carries_match e
    have hir : ir.Nodup := (List.nodup_append.mp (List.nodup_append.mp hnodup).2.1).1
    have hms := hmakes.makes
    rw [hcollect] at hmatch hms harena
    obtain ⟨head, nodes, hhead, hbranches⟩ := hms.branches hkeyword hmatch hir
    have hnode : p.ids.node? e.before.length = some head := by
      obtain ⟨es, hes⟩ := List.head?_eq_some_iff.mp e.active_ends.1
      rw [hes, List.map_cons] at hhead
      exact (List.cons.inj hhead).1
    have hmem : some head ∈ p.ids := List.mem_of_getElem? (Option.join_eq_some_iff.mp hnode)
    have hactive : p.parsing.stream.active = e.before ++ (s :: o :: ms ++ e.after) := by
      rw [e.active_eq, hrun]
    exact .keyword hkeyword (.intro hactive e.result_active hs hnode) (harena ▸ hbranches)
      (fun last => hp.not_belowElse hmem) hmakes.diagnostics_eq

/-- The keywords that are left, the branches of the arena and the keywords that are reported. -/
def owed (p : Planting) : Nat :=
  p.parsing.tags.countP Tag.isElse + p.arena.rests.countP Option.isSome +
    p.parsing.record.diagnostics.countP Diagnostic.isElse

/-- A reduction trades a keyword for a branch or a report. -/
theorem Grown.owed_eq (hp : p.Grown) (h : p.reduceOnce r = some q) : q.owed = p.owed := by
  obtain ⟨e, -, -⟩ := exists_of_reduceOnce h
  rw [owed, owed, e.countP_isElse]
  cases hp.branching h with
  | other hkeyword hrests hreports =>
    rw [hkeyword, hrests, hreports, Arena.countP_append_none]
    rfl
  | @keyword head o ds hkeyword _ hbranches _ hreports =>
    have hcount := hbranches.countP_eq
    rw [hkeyword, hreports, List.countP_append, Option.toList_some, List.length_singleton]
    omega

theorem Grown.owed_of_steps (hp : p.Grown) (h : ReflTransGen Steps p q) : q.owed = p.owed := by
  induction h with
  | refl => rfl
  | tail hsteps hstep ih =>
    obtain ⟨r, hr⟩ := hstep
    exact ((hp.steps hsteps).owed_eq hr).trans ih

/-- At the start every keyword is left. -/
theorem owed_start (tokens : List Token) :
    (start tokens).owed = tokens.countP fun t => t.tag.isElse := by
  have hlayout : ∀ t : Tag, (t.isElse && decide (t ∉ [Tag.newline, .comment, .blank])) = t.isElse := by
    intro t
    cases t <;> rfl
  have howed : (start tokens).owed = (Parsing.start tokens).tags.countP Tag.isElse := rfl
  rw [howed, Parsing.tags_start, List.countP_filter, List.countP_map]
  exact List.countP_congr fun t _ => iff_of_eq (congrArg (· = true) (hlayout t.tag))

end Planting

/-- At the end every keyword that is left is reported. -/
theorem countP_leftovers (symbols : List Symbol) :
    (leftovers symbols).countP Diagnostic.isElse = (symbols.map (·.tag)).countP Tag.isElse := by
  have hstray : (symbols.map (·.tag)).countP Tag.isElse =
      (symbols.filter fun s => s.tag = .elseWord || s.tag = .elseIfWord).length := by
    rw [List.countP_map, List.countP_eq_length_filter]
    refine congrArg List.length (List.filter_congr fun s _ => ?_)
    rw [Function.comp_apply]
    cases s.tag <;> rfl
  rw [hstray, leftovers]
  split
  case isTrue hdone =>
    have hprogram : ∀ s ∈ symbols, s.tag = .program := by
      simpa using (Bool.and_eq_true_iff.mp hdone).2
    rw [List.filter_eq_nil_iff.mpr fun s hs => by rw [hprogram s hs]; decide]
    rfl
  case isFalse =>
    dsimp only
    split
    case isTrue hnone =>
      rw [List.isEmpty_iff.mp hnone]
      generalize (if (symbols.head?.map (·.tag)) = some .program then symbols.drop 1 else symbols) =
        rest
      cases rest.head? <;> rfl
    case isFalse =>
      rw [List.countP_map]
      exact List.countP_eq_length.mpr fun _ _ => rfl

namespace Grammar

open Planting Relation

/-- The last step of a parse leaves the branches as they are. -/
theorem rests_plant (g : Grammar) (tokens : List Token) :
    ∃ n, (g.plant tokens).2.rests =
      (g.plantAll (.start tokens)).arena.rests ++ List.replicate n none := by
  rw [plant]
  split
  · exact (grows_asBlock _ _).rests
  · exact ((Grows.refl _).add rfl _).rests

/-- No `else` is lost.  The keywords of a source are as many as the branches in the arena and the
reports of keywords.  A parse is a sequence of reductions, and each that takes a keyword attaches a
branch to the last link of the chain before it, where none was, or reports it; all other branches
stay as they are. -/
theorem no_else_is_lost (g : Grammar) {source : String} {tokens : List Token}
    (h : Lexer.standard.tokenize source = .ok tokens) :
    (tokens.countP fun t => t.tag.isElse) =
        (g.plant tokens).2.rests.countP Option.isSome +
          (g.parse tokens).record.diagnostics.countP Diagnostic.isElse ∧
      (∃ ids, (g.plant tokens).2.Shows [(g.parse tokens).root.tree] [(g.plant tokens).1] ids) ∧
      (∃ n, (g.plant tokens).2.rests =
        (g.plantAll (.start tokens)).arena.rests ++ List.replicate n none) ∧
      ReflTransGen Steps (.start tokens) (g.plantAll (.start tokens)) ∧
      ∀ {p q : Planting} {r : Rule}, ReflTransGen Steps (.start tokens) p →
        p.reduceOnce r = some q → p.Branching r q := by
  have hlexical := Lexer.lexical_of_tokenize h
  have hgrown := grown_start hlexical
  have hsteps := plantAll_steps g (start tokens)
  obtain ⟨-, ids, hshows, -⟩ := g.shows_plant hlexical
  obtain ⟨n, hrests⟩ := g.rests_plant tokens
  refine ⟨?_, ⟨ids, hshows⟩, ⟨n, hrests⟩, hsteps, fun hp hq => (hgrown.steps hp).branching hq⟩
  have howed := hgrown.owed_of_steps hsteps
  have hparsing : (g.plantAll (.start tokens)).parsing = (g.reduce (Parsing.start tokens)).1 :=
    parsing_reduce g _
  rw [owed_start, owed, hparsing, Parsing.tags] at howed
  rw [hrests, Arena.countP_append_none, g.diagnostics_parse, List.countP_append, countP_leftovers]
  omega

/-- The `else` is attached, the `else if` behind it is reported. -/
theorem no_else_is_lost_late : ∃ tokens,
    Lexer.standard.tokenize "if a \x7b \x7d else \x7b \x7d else if b \x7b \x7d" = .ok tokens ∧
    (tokens.countP fun t => t.tag.isElse) = 2 ∧
    (standard.parse tokens).record.diagnostics = [.elseIfAfterElse 1] ∧
    (standard.plant tokens).2.rests.countP Option.isSome = 1 := by
  let source := "if a \x7b \x7d else \x7b \x7d else if b \x7b \x7d"
  let tokens : List Token := (Lexer.standard.scanSource source).tokens
  -- decided together, since each part goes through the lexer
  have hall : (Lexer.standard.scanSource source).failure = none ∧
      (tokens.countP fun t => t.tag.isElse) = 2 ∧
      (standard.parse tokens).record.diagnostics = [.elseIfAfterElse 1] := by
    simp only [tokens, source]
    rw [parse, Parsing.start, Stream.prepare_eq_inked]
    decide +kernel
  obtain ⟨hfailure, hkeywords, hreports⟩ := hall
  have hlexed : Lexer.standard.tokenize source = .ok tokens :=
    Lexer.tokenize_of_scanSource rfl hfailure
  obtain ⟨hcount, -⟩ := standard.no_else_is_lost hlexed
  refine ⟨tokens, hlexed, hkeywords, hreports, ?_⟩
  have hone : [Diagnostic.elseIfAfterElse 1].countP Diagnostic.isElse = 1 := rfl
  rw [hkeywords, hreports, hone] at hcount
  omega

end Grammar

end StackScript
