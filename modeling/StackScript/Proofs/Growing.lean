import StackScript.Proofs.Mentions
import StackScript.Proofs.Planted

/-!
# StackScript.Proofs.Growing — the arena of a parse holds its tree

All through a parse the nodes of the active symbols are the roots of the trees that they stand for,
and no node is in two of these trees (`Planting.Grown`): one reduction grafts the trees of its match
into one, and the others are not touched.  So the root that a parse gives is the root of a tree, the
one of the program that is parsed.
-/

namespace StackScript

namespace Arena

variable {a b : Arena} {ms ms' : List Symbol} {nodes nodes' : Nodes} {ids ids' : List Nat}

namespace Carries

theorem length_eq (h : a.Carries ms nodes ids) : nodes.length = ms.length := by
  induction h with
  | nil => rfl
  | token _ _ ih => rw [List.length_cons, List.length_cons, ih]
  | whole _ _ _ ih => rw [List.length_cons, List.length_cons, ih]

theorem append (h : a.Carries ms nodes ids) (h' : a.Carries ms' nodes' ids') :
    a.Carries (ms ++ ms') (nodes ++ nodes') (ids ++ ids') := by
  induction h with
  | nil => exact h'
  | token hs _ ih => exact .token hs ih
  | whole hs hf _ ih =>
    rw [List.append_assoc]
    exact .whole hs hf ih

theorem append_inv (h : a.Carries (ms ++ ms') nodes ids) :
    ∃ nodes₁ nodes₂ ids₁ ids₂, nodes = nodes₁ ++ nodes₂ ∧ ids = ids₁ ++ ids₂ ∧
      a.Carries ms nodes₁ ids₁ ∧ a.Carries ms' nodes₂ ids₂ := by
  induction ms generalizing nodes ids with
  | nil => exact ⟨[], nodes, [], ids, rfl, rfl, .nil, h⟩
  | cons s ms ih =>
    cases h with
    | token hs h =>
      obtain ⟨nodes₁, nodes₂, ids₁, ids₂, rfl, rfl, h₁, h₂⟩ := ih h
      exact ⟨none :: nodes₁, nodes₂, ids₁, ids₂, rfl, rfl, .token hs h₁, h₂⟩
    | @whole _ f i _ _ ids _ hs hf h =>
      obtain ⟨nodes₁, nodes₂, ids₁, ids₂, rfl, rfl, h₁, h₂⟩ := ih h
      exact ⟨some i :: nodes₁, nodes₂, ids ++ ids₁, ids₂, rfl, (List.append_assoc _ _ _).symm,
        .whole hs hf h₁, h₂⟩

theorem frame (h : a.Carries ms nodes ids) (hsame : ∀ j ∈ ids, b[j]? = a[j]?) :
    b.Carries ms nodes ids := by
  induction h with
  | nil => exact .nil
  | token hs _ ih => exact .token hs (ih hsame)
  | whole hs hf _ ih =>
    exact .whole hs (hf.frame fun j hj => hsame j (List.mem_append_left _ hj))
      (ih fun j hj => hsame j (List.mem_append_right _ hj))

/-- Tokens have no nodes. -/
theorem of_tokens (hms : ∀ s ∈ ms, s.fragment = none) :
    a.Carries ms (ms.map fun _ => none) [] := by
  induction ms with
  | nil => exact .nil
  | cons s ms ih =>
    obtain ⟨hs, hms⟩ := List.forall_mem_cons.mp hms
    exact .token hs (ih hms)

end Carries

/-- Putting the trees of a match together leaves the trees of all other symbols as they are. -/
theorem Grafts.carries {before after : List Symbol} {nb na : Nodes} {ib ia ir : List Nat}
    {s : Symbol} {f : Fragment} {i n : Nat} (hb : a.Carries before nb ib)
    (ha : a.Carries after na ia) (hnodup : (ib ++ (ir ++ ia)).Nodup)
    (hs : s.fragment = some f) (h : a.Grafts ir b [f.tree] [i] n) :
    ∃ ids, b.Carries (before ++ s :: after) (nb ++ some i :: na) ids ∧ ids.Nodup := by
  obtain ⟨ids, hshows, hids, hmem⟩ := h.shown
  obtain ⟨hib, hrest, hdisjoint⟩ := List.nodup_append.mp hnodup
  obtain ⟨hir, hia, hdisjoint'⟩ := List.nodup_append.mp hrest
  have hb' : b.Carries before nb ib := hb.frame fun j hj => h.frame j (hb.lt_length j hj)
    fun hj' => hdisjoint j hj j (List.mem_append_left _ hj') rfl
  have ha' : b.Carries after na ia := ha.frame fun j hj => h.frame j (ha.lt_length j hj)
    fun hj' => hdisjoint' j hj' j hj rfl
  refine ⟨ib ++ (ids ++ ia), hb'.append (.whole hs hshows ha'), ?_⟩
  refine List.nodup_append.mpr ⟨hib, List.nodup_append.mpr ⟨hids, hia, ?_⟩, ?_⟩
  · rintro j hj _ hj' rfl
    rcases hmem j hj with hold | hnew
    · exact hdisjoint' j hold j hj' rfl
    · exact Nat.lt_irrefl _ (Nat.lt_of_lt_of_le (ha.lt_length j hj') hnew)
  · rintro j hj _ hj' rfl
    rcases List.mem_append.mp hj' with hj' | hj'
    · rcases hmem j hj' with hold | hnew
      · exact hdisjoint j hj j (List.mem_append_left _ hold) rfl
      · exact Nat.lt_irrefl _ (Nat.lt_of_lt_of_le (hb.lt_length j hj) hnew)
    · exact hdisjoint j hj j (List.mem_append_right _ hj') rfl

end Arena

/-! ### One reduction -/

namespace Planting

open Relation

variable {p q : Planting} {r : Rule}

/-- The nodes of the active symbols are the roots of trees that share no node, and the record counts
the nodes of the arena. -/
structure Grown (p : Planting) : Prop where
  sound : p.parsing.stream.Sound
  carried : ∃ ids, p.arena.Carries p.parsing.stream.active p.ids ids ∧ ids.Nodup
  length_eq : p.arena.length = p.parsing.record.nodes

/-- The nodes of a match are those of the active symbols in it. -/
theorem carries_collect {run : List Entry} {xs : List Symbol} {ns : Nodes} {ids : List Nat} {k : Nat}
    (h : p.arena.Carries xs ns ids)
    (hxs : ∀ j < xs.length, p.parsing.stream.active[k + j]? = xs[j]?)
    (hns : ∀ j < ns.length, p.ids[k + j]? = ns[j]?)
    (hindices : Stream.activeIndices run = List.range' k xs.length)
    (hdetached : ∀ j, .detached j ∈ run →
      ∃ d, p.parsing.stream.detached[j]? = some d ∧ d.symbol.fragment = none) :
    p.arena.Carries (p.parsing.stream.collect run) (run.map p.nodeAt?) ids := by
  induction run generalizing xs ns ids k with
  | nil =>
    cases xs with
    | nil =>
      obtain ⟨rfl, rfl⟩ := h.nil_inv
      exact .nil
    | cons x xs => cases hindices
  | cons e run ih =>
    have hdetached' := fun j hj => hdetached j (List.mem_cons_of_mem _ hj)
    cases e with
    | active i =>
      cases xs with
      | nil => cases hindices
      | cons x xs =>
        obtain ⟨rfl, hindices⟩ := List.cons.inj hindices
        have hxs' : ∀ j < xs.length, p.parsing.stream.active[i + 1 + j]? = xs[j]? := fun j hj => by
          rw [Nat.add_assoc, Nat.add_comm 1 j]
          exact hxs (j + 1) (Nat.succ_lt_succ hj)
        have hcollect : p.parsing.stream.collect (.active i :: run) =
            x :: p.parsing.stream.collect run := by
          have hx : p.parsing.stream.active[i]? = some x := hxs 0 (Nat.succ_pos _)
          rw [Stream.collect, List.filterMap_cons, Stream.symbolAt?, hx]
          rfl
        have hnode : ∀ {n ns'}, ns = n :: ns' → p.nodeAt? (.active i) = n := by
          rintro n ns' rfl
          have hn : p.ids[i]? = some n := hns 0 (Nat.succ_pos _)
          rw [nodeAt?, Nodes.node?, hn]
          rfl
        have hns' : ∀ {n ns'}, ns = n :: ns' → ∀ j < ns'.length, p.ids[i + 1 + j]? = ns'[j]? := by
          rintro n ns' rfl j hj
          rw [Nat.add_assoc, Nat.add_comm 1 j]
          exact hns (j + 1) (Nat.succ_lt_succ hj)
        rw [hcollect, List.map_cons]
        cases h with
        | token hs h =>
          rw [hnode rfl]
          exact .token hs (ih h hxs' (hns' rfl) hindices hdetached')
        | whole hs hf h =>
          rw [hnode rfl]
          exact .whole hs hf (ih h hxs' (hns' rfl) hindices hdetached')
    | detached j =>
      obtain ⟨d, hd, hnone⟩ := hdetached j List.mem_cons_self
      have hcollect : p.parsing.stream.collect (.detached j :: run) =
          d.symbol :: p.parsing.stream.collect run := by
        rw [Stream.collect, List.filterMap_cons, Stream.symbolAt?, hd]
        rfl
      rw [hcollect]
      exact .token hnone (ih h hxs hns hindices hdetached')

/-- What a reduction does to nodes and arena. -/
theorem exists_of_reduceOnce (h : p.reduceOnce r = some q) :
    ∃ e : Parsing.Reduction r p.parsing q.parsing,
      ((r.plant (p.parsing.stream.collect e.found.run) (e.found.run.map p.nodeAt?)).run p.arena).2 =
        q.arena ∧
      q.ids = Stream.spliced p.ids e.found.run ((r.plant (p.parsing.stream.collect e.found.run)
        (e.found.run.map p.nodeAt?)).run p.arena).1 := by
  have hparsing : p.parsing.reduceOnce r = some q.parsing := by
    rw [← parsing_reduceOnce, h]
    rfl
  obtain ⟨e⟩ := Parsing.reduction_of_reduceOnce hparsing
  refine ⟨e, ?_⟩
  rw [reduceOnce, e.find_eq, hparsing] at h
  have hq := Option.some.inj h
  exact ⟨congrArg Planting.arena hq, (congrArg Planting.ids hq).symm⟩

theorem spliced_eq {run : List Entry} {k n : Nat} {nb nr na : Nodes} (x : Option Nat)
    (hindices : Stream.activeIndices run = List.range' k n) (hn : n ≠ 0) (hb : nb.length = k)
    (hr : nr.length = n) : Stream.spliced (nb ++ (nr ++ na)) run x = nb ++ x :: na := by
  obtain ⟨m, rfl⟩ := Nat.exists_eq_succ_of_ne_zero hn
  have hlast : (List.range' k (m + 1)).getLast? = some (k + m) := by
    rw [List.range'_concat, List.getLast?_concat, Nat.one_mul]
  have hdrop : k + m + 1 = (nb ++ nr).length := by
    rw [List.length_append, hb, hr, Nat.add_assoc]
  rw [Stream.spliced, hindices, hlast]
  change (nb ++ (nr ++ na)).take k ++ x :: (nb ++ (nr ++ na)).drop (k + m + 1) = _
  rw [hdrop, ← List.append_assoc nb nr na, List.drop_left, List.append_assoc, ← hb, List.take_left]

/-- The trees of a match are apart from those before and after it. -/
theorem Grown.carries_match (hp : p.Grown) (e : Parsing.Reduction r p.parsing q.parsing) :
    ∃ nb nr na ib ir ia, p.ids = nb ++ (nr ++ na) ∧ nr.length = e.run.length ∧
      p.arena.Carries e.before nb ib ∧ p.arena.Carries e.after na ia ∧
      p.arena.Carries (p.parsing.stream.collect e.found.run) (e.found.run.map p.nodeAt?) ir ∧
      (ib ++ (ir ++ ia)).Nodup := by
  obtain ⟨ids, hcarries, hnodup⟩ := hp.carried
  rw [e.active_eq] at hcarries
  obtain ⟨nb, _, ib, _, hnodes, rfl, hb, hrest⟩ := hcarries.append_inv
  obtain ⟨nr, na, ir, ia, rfl, rfl, hr, ha⟩ := hrest.append_inv
  refine ⟨nb, nr, na, ib, ir, ia, hnodes, hr.length_eq, hb, ha, ?_, hnodup⟩
  refine carries_collect hr (fun j hj => ?_) (fun j hj => ?_) e.indices_eq fun j hj => ?_
  · rw [e.active_eq, List.getElem?_append_right (Nat.le_add_right _ _), Nat.add_sub_cancel_left,
      List.getElem?_append_left hj]
  · rw [hnodes, ← hb.length_eq, List.getElem?_append_right (Nat.le_add_right _ _),
      Nat.add_sub_cancel_left, List.getElem?_append_left hj]
  · obtain ⟨d, hd, -⟩ := e.detached_mem j hj
    exact ⟨d, hd, (hp.sound.detached d (List.mem_of_getElem? hd)).2⟩

/-- A reduction keeps the trees apart. -/
theorem Grown.reduceOnce (hp : p.Grown) (h : p.reduceOnce r = some q) : q.Grown := by
  obtain ⟨e, harena, hids⟩ := exists_of_reduceOnce h
  obtain ⟨f, n, ds, hmakes⟩ := e.makes hp.sound
  obtain ⟨nb, nr, na, ib, ir, ia, hnodes, hlength, hb, ha, hmatch, hnodup⟩ := hp.carries_match e
  have hir : ir.Nodup := (List.nodup_append.mp (List.nodup_append.mp hnodup).2.1).1
  obtain ⟨i, b, hrun, hgrafts⟩ := hmakes.makes.planted hmatch hir
  rw [hrun] at harena hids
  have hn : e.run.length ≠ 0 := fun hzero => e.run_ne_nil (List.length_eq_zero_iff.mp hzero)
  rw [hnodes, spliced_eq _ e.indices_eq hn hb.length_eq hlength] at hids
  refine ⟨e.sound hp.sound, ?_, ?_⟩
  · rw [hmakes.active_eq, hids, ← harena]
    exact hgrafts.carries hb ha hnodup rfl
  · rw [hmakes.nodes_eq, ← harena, hgrafts.length_eq, hp.length_eq]

/-! ### A whole parse -/

theorem grown_start {tokens : List Token} (h : ∀ t ∈ tokens, t.Lexical) : (start tokens).Grown := by
  have hsound := Stream.sound_prepare h
  refine ⟨hsound, ⟨[], .of_tokens fun s hs => ?_, .nil⟩, rfl⟩
  obtain ⟨t, -, rfl⟩ := Stream.mem_active_prepare hs
  rfl

/-- One reduction, by any rule. -/
def Steps (p q : Planting) : Prop := ∃ r, p.reduceOnce r = some q

theorem applyFor_steps (r : Rule) (fuel : Nat) (p : Planting) :
    ReflTransGen Steps p (applyFor r fuel p) := by
  induction fuel generalizing p with
  | zero => exact .refl
  | succ fuel ih =>
    rw [applyFor]
    split
    · exact .refl
    · rename_i q hq
      exact .head ⟨r, hq⟩ (ih q)

theorem applyAll_steps (rules : List Rule) (p : Planting) :
    ReflTransGen Steps p (p.applyAll rules) := by
  induction rules generalizing p with
  | nil => exact .refl
  | cons rule rules ih => exact (applyFor_steps rule _ p).trans (ih _)

/-- A parse is a sequence of reductions. -/
theorem plantAll_steps (g : Grammar) (p : Planting) : ReflTransGen Steps p (g.plantAll p) := by
  rw [Grammar.plantAll]
  generalize g.maxPasses = limit
  induction limit generalizing p with
  | zero => exact .refl
  | succ limit ih =>
    rw [passes]
    split
    · exact applyAll_steps g.rules p
    · exact (applyAll_steps g.rules p).trans (ih _)

/-- All through a parse the trees stay apart. -/
theorem Grown.steps (hp : p.Grown) (h : ReflTransGen Steps p q) : q.Grown := by
  induction h with
  | refl => exact hp
  | tail _ hstep ih =>
    obtain ⟨r, hr⟩ := hstep
    exact ih.reduceOnce hr

end Planting

namespace Grammar

open Arena Planter

/-- Programs joined into a block. -/
theorem joined_shows {a : Arena} {ps : List Program} {is ids : List Nat}
    (h : a.Shows (ps.map Program.tree) is ids) (hnodup : ids.Nodup) (line : Nat) :
    ∃ ids', (a ++ [⟨.blocks (is.flatMap a.statements), line⟩] : Arena).Shows
      [(Block.mk line (ps.flatMap Program.statements)).tree] [a.length] ids' ∧ ids'.Nodup := by
  obtain ⟨ids', hshows, hsub⟩ := h.statements
  have hgrafts := (Grafts.of_shows hshows (hnodup.sublist hsub) hsub.subset).add
    (.blocks (is.flatMap a.statements)) line
  obtain ⟨ids'', hblock, hids, -⟩ := hgrafts.shown
  have hlabel : (Node.blocks (is.flatMap a.statements)).label =
      .blocks ((ps.flatMap Program.statements).map fun _ => ()) := by
    rw [Node.label, List.map_const', List.map_const', hshows.stmts_length]
  rw [hlabel] at hblock
  exact ⟨ids'', hblock, hids⟩

/-- The arena of a parse shows the tree that is parsed, each node of it once, and has as many nodes
as are counted. -/
theorem shows_plant (g : Grammar) {tokens : List Token} (h : ∀ t ∈ tokens, t.Lexical) :
    (g.plant tokens).2.length = (g.parse tokens).record.nodes ∧
      ∃ ids, (g.plant tokens).2.Shows [(g.parse tokens).root.tree] [(g.plant tokens).1] ids ∧
        ids.Nodup := by
  have hgrown := (Planting.grown_start h).steps (Planting.plantAll_steps g _)
  have hparsing : (g.plantAll (.start tokens)).parsing = (g.reduce (Parsing.start tokens)).1 :=
    Planting.parsing_reduce g _
  rw [plant, parse, ← hparsing]
  generalize g.plantAll (.start tokens) = p at hgrown
  obtain ⟨ids, hcarries, hnodup⟩ := hgrown.carried
  obtain ⟨ids', hprograms, hsub⟩ := hcarries.programs fun s hs => (hgrown.sound.active s hs).program
  have hnodup' := hnodup.sublist hsub
  have hlength := hprograms.length_eq
  rw [List.length_map] at hlength
  dsimp only
  generalize (p.parsing.stream.active.filter (·.tag = .program)).filterMap (·.program?) = programs
    at hprograms hlength
  generalize p.ids.tagged p.parsing.stream.active .program = nodes at hprograms hlength
  generalize (p.parsing.stream.active.head?.map (·.line)).getD 1 = line
  have hadded : ∀ node : Node Nat, ((add node line).run p.arena).2.length =
      p.parsing.record.nodes + 1 := fun node => by
    rw [← hgrown.length_eq]
    exact List.length_append
  rcases programs with - | ⟨program, - | ⟨program', programs⟩⟩ <;>
    rcases nodes with - | ⟨i, - | ⟨i', nodes⟩⟩ <;> try cases hlength; done
  case cons.nil.cons.nil =>
    obtain ⟨k, b, hrun, hgrafts⟩ := asBlock_run hprograms hnodup'
    obtain ⟨ids'', hshows, hids, -⟩ := hgrafts.shown
    dsimp only
    rw [hrun]
    refine ⟨?_, ids'', hshows, hids⟩
    rw [hgrafts.length_eq, hgrown.length_eq]
  all_goals exact ⟨hadded _, joined_shows hprograms hnodup' line⟩

/-- Parsing loses, duplicates and reorders nothing.  What is reached from the root of the arena is a
tree, the one of the parsed program.  Where nothing is reported, its names and literals in the order
of the source are those of the tokens, each once. -/
theorem parse_keeps_tokens (g : Grammar) {source : String} {tokens : List Token}
    (h : Lexer.standard.tokenize source = .ok tokens) :
    (g.plant tokens).2.IsTree (g.plant tokens).1 ∧
      (∃ ids, (g.plant tokens).2.Shows [(g.parse tokens).root.tree] [(g.plant tokens).1] ids) ∧
      (g.plant tokens).2.length = (g.parse tokens).record.nodes ∧
      ((g.parse tokens).record.diagnostics = [] →
        (tokens.filter (·.tag ∈ Tag.mentioned)).map Token.mention? =
          (g.parse tokens).root.mentions.map some) := by
  have hlexical := Lexer.lexical_of_tokenize h
  obtain ⟨hlength, ids, hshows, hnodup⟩ := g.shows_plant hlexical
  refine ⟨hshows.isTree hnodup, ⟨ids, hshows⟩, hlength, fun hclean => ?_⟩
  rw [Token.mentions_of_lexical hlexical, g.mentions_parse hlexical hclean]

/-- The tree of a call has the name of the function before the argument. -/
theorem parse_keeps_tokens_call : ∃ tokens, Lexer.standard.tokenize "f(1)" = .ok tokens ∧
    (standard.plant tokens).2.IsTree (standard.plant tokens).1 ∧
    (standard.parse tokens).record.diagnostics = [] ∧
    (standard.parse tokens).root.mentions = [.name "f", .number ⟨1, 0⟩] := by
  let tokens : List Token := [⟨.name, "f", 1, ⟨0, 1⟩⟩, ⟨.leftParen, "(", 1, ⟨1, 2⟩⟩,
    ⟨.number, "1", 1, ⟨2, 3⟩⟩, ⟨.rightParen, ")", 1, ⟨3, 4⟩⟩]
  have hscan : (Lexer.standard.scanSource "f(1)").tokens = tokens ∧
      (Lexer.standard.scanSource "f(1)").failure = none := by decide +kernel
  have hlexed : Lexer.standard.tokenize "f(1)" = .ok tokens :=
    Lexer.tokenize_of_scanSource hscan.1 hscan.2
  obtain ⟨htree, -, -, hmentions⟩ := standard.parse_keeps_tokens hlexed
  have hclean : (standard.parse tokens).record.diagnostics = [] := by
    rw [parse, Parsing.start, Stream.prepare_eq_inked]
    decide +kernel
  have hmentioned : (tokens.filter (·.tag ∈ Tag.mentioned)).map Token.mention? =
      [.name "f", .number ⟨1, 0⟩].map some := by decide +kernel
  refine ⟨tokens, hlexed, htree, hclean, ?_⟩
  have hsome := hmentions hclean
  rw [hmentioned, List.map_inj_right fun _ _ => Option.some.inj] at hsome
  exact hsome.symm

end Grammar

end StackScript
