import StackScript.Proofs.Builds
import StackScript.Proofs.Joining
import StackScript.Proofs.Splicing

/-!
# StackScript.Proofs.Reducing — a reduction keeps the tree

As long as the symbols can be reduced to chunks (`Parsing.Reads`), a reduction by any rule that has
what it needs leaves symbols that can be reduced to the same block, and reports nothing.
-/

namespace StackScript

open Leaf

/-! ### What a rule takes -/

namespace Rule

variable {r : Rule} {pre run post : List Leaf}

/-- What a pattern takes has the shape of its rule. -/
theorem Fits.shape (hr : r ≠ .sequence) (h : r.Fits run post) : r.Shape (run.map Leaf.tag) := by
  cases h with
  | sequence => exact absurd rfl hr
  | plain _ _ h =>
    obtain ⟨us, hus, heq⟩ := shape_of_rest? hr h
    rw [List.map_append] at heq
    rwa [List.append_cancel_right heq]

theorem Takes.matches (hr : r ≠ .sequence) (h : r.Takes pre run post) : r.Matches pre run post :=
  ⟨h.fits.shape hr, h.admits⟩

end Rule

/-! ### One reduction -/

/-- The symbols can be reduced to the chunks, and nothing is reported. -/
structure Parsing.Reads (p : Parsing) (gone : List Rule) (cs : List Chunk) : Prop where
  tidy : p.stream.Tidy
  reading : Reading gone cs p.stream.leaves
  clean : p.record.diagnostics = []

namespace Parsing

variable {p p' : Parsing} {r : Rule} {gone : List Rule} {cs : List Chunk}
  {pre run post : List Leaf} {a : Leaf}

/-- The leaf that stands for what a production gives. -/
theorem stands_reduced {qs : List Phrase} {st : Start} {k : Nat} {f : Fragment}
    (hrun : List.Forall₂ Stands (a :: run) qs)
    (hq : Production r qs (.whole r.result st k f)) (span : Span) :
    Stands ⟨Symbol.reduced r.result a.line span (some f), a.broken⟩ (.whole r.result st k f) := by
  obtain ⟨p, ps, rfl, hst, -⟩ := hq.first
  obtain ⟨⟩ | ⟨ha, -⟩ := hrun
  have hstart : st = a.start := hst.symm.trans ha.start_eq
  rw [hstart]
  exact .whole rfl

/-- A rule other than that for sequences reduces the parts of a production. -/
theorem Reads.reduce (h : p.Reads gone cs) (hr : r ≠ .sequence) (hneeds : r.needs ⊆ gone)
    (hs : p.stream.leaves = pre ++ (a :: run ++ post)) (htakes : r.Takes pre (a :: run) post)
    (hleft : ∀ u v w run' post', pre = u ++ v :: w →
      v :: (w ++ (a :: run ++ post)) = run' ++ post' → ¬ r.Takes u run' post') (span : Span) :
    Forest gone (cs.map Chunk.phrase) (pre ++ ⟨Symbol.reduced r.result a.line span
        (p.built r pre (a :: run)).1, a.broken⟩ :: post) ∧
      (p.built r pre (a :: run)).2.diagnostics = p.record.diagnostics := by
  have hreading := h.reading
  rw [hs] at hreading
  have hmatches := htakes.matches hr
  have hmap : r ≠ .map := by
    rintro rfl
    have hshape := hmatches.shape
    generalize hts : (a :: run).map Leaf.tag = ts at hshape
    cases hshape with
    | map =>
      have hrefused := htakes.admits
      rw [hreading.not_map hts] at hrefused
      cases hrefused
    | @binary t _ _ ho hr' => cases t <;> cases ho <;> cases hr'
  obtain ⟨qs, q, hq, hstands, hspot⟩ := hreading.redex hneeds hmatches (by
    rintro u v rfl hlonger
    refine hleft u v [] (v :: a :: run) post rfl rfl ⟨.plain hr (List.cons_ne_nil _ _) ?_,
      hlonger.admits⟩
    rw [List.map_append]
    refine Rule.rest?_of_shape hmap hlonger.shape ?_
    intro hbare
    simp at hbare)
  obtain ⟨st, k, f, n, rfl, hmakes⟩ := hq.makes hstands hmatches.shape
  obtain ⟨dropped, hbuild⟩ := hmakes.gives p.record
  have hcollect : p.stream.collect (p.stream.matchOf r pre (a :: run)).run =
      (a :: run).map Leaf.symbol := by
    rw [Stream.matchOf, Rule.included_eq_nil hr]
    exact Stream.collect_between_nil hs
  rw [built, hcollect, hbuild]
  exact ⟨hspot.plug (.of_stands (stands_reduced hstands hq span)), List.append_nil _⟩

/-- The programs of leaves that stand for chunks. -/
theorem stands_programs {ds : List Chunk} (h : List.Forall₂ Stands run (ds.map Chunk.phrase)) :
    (run.map Leaf.symbol).filterMap Symbol.program? = ds.map Prod.snd := by
  induction ds generalizing run with
  | nil =>
    obtain ⟨⟩ := h
    rfl
  | cons d ds ih =>
    obtain ⟨⟩ | ⟨hl, hrest⟩ := h
    rw [List.map_cons, List.map_cons, List.filterMap_cons, hl.program?_eq, ih hrest]

/-- The rule for sequences reduces chunks. -/
theorem Reads.sequence (h : p.Reads gone cs)
    (hs : p.stream.leaves = pre ++ (a :: run ++ post))
    (htakes : Rule.sequence.Takes pre (a :: run) post) (span : Span) :
    ∃ cs', Reading gone cs' (pre ++ ⟨Symbol.reduced .program a.line span
        (p.built .sequence pre (a :: run)).1, a.broken⟩ :: post) ∧
      (∀ line, blockOf line cs' = blockOf line cs) ∧
      (p.built .sequence pre (a :: run)).2.diagnostics = p.record.diagnostics := by
  have hreading := h.reading
  rw [hs] at hreading
  have hnext : ∀ o w, post = o :: w → o.tag ≠ .elseWord ∧ o.tag ≠ .elseIfWord := by
    rintro o w rfl
    have hadmits := htakes.admits
    simp only [Rule.admits, firstTag_cons, Bool.and_eq_true, bne_iff_ne] at hadmits
    exact ⟨fun h => hadmits.1 (congrArg some h), fun h => hadmits.2 (congrArg some h)⟩
  have hjoins : Joins (a :: run) post := by
    obtain ⟨⟨hne⟩ | ⟨⟨⟨_, ys, heq, ha, hne, hys⟩, -⟩⟩, -⟩ := htakes
    · exact absurd rfl hne
    · obtain ⟨rfl, rfl⟩ := List.cons.inj heq
      obtain ⟨b, ys, rfl⟩ := List.exists_cons_of_ne_nil hne
      simp only [Leaf.joins, Bool.and_eq_true, decide_eq_true_eq] at hys
      refine ⟨by simp, ?_, fun l hl => (hys l hl).2, hnext⟩
      intro l hl
      rcases List.mem_cons.mp hl with rfl | hl
      · exact ha
      · exact (hys l hl).1
  obtain ⟨ds, hstands, hjoin⟩ := hreading.join hjoins
  have hprograms : Matched.programs (p.stream.collect
      ((p.stream.between [.newline] pre.length (a :: run)).map Prod.snd)) = _ :=
    h.tidy.programs_between hs
  obtain ⟨ms, hms⟩ : ∃ ms, p.stream.collect
      ((p.stream.between [.newline] pre.length (a :: run)).map Prod.snd) = a.symbol :: ms :=
    Stream.head?_between hs
  cases ds with
  | nil => cases hstands
  | cons d ds =>
    have hstart : d.1 = a.start := by
      obtain ⟨⟩ | ⟨ha, -⟩ := hstands
      exact ha.start_eq
    have hbuilt : p.built .sequence pre (a :: run) =
        (some (.program (Chunk.join (d :: ds)).2),
          { p.record with nodes := p.record.nodes + 1 }) := by
      have hbody : (Chunk.join (d :: ds)).2 =
          .several (.mk d.1.line ((d :: ds).flatMap fun d => d.2.statements)) := rfl
      rw [built, Stream.matchOf, show Rule.sequence.included = [.newline] from rfl, Rule.build,
        hprograms, hms, stands_programs hstands, List.flatMap_map, hbody, hstart]
      rfl
    obtain ⟨cs', hreading', hblock⟩ := hjoin ⟨Symbol.reduced .program a.line span
      (some (.program (Chunk.join (d :: ds)).2)), a.broken⟩ (by
        have hphrase : (Chunk.join (d :: ds)).phrase =
            .program a.start (Chunk.join (d :: ds)).2 := by
          rw [← hstart]
          rfl
        rw [hphrase]
        exact .whole rfl)
    refine ⟨cs', ?_, hblock, ?_⟩
    · rw [hbuilt]
      exact hreading'
    · rw [hbuilt]

/-- A reduction by a rule that has what it needs. -/
theorem Reads.step (h : p.Reads gone cs) (hneeds : r.needs ⊆ gone)
    (hstep : p.reduceOnce r = some p') : ∃ cs', p'.Reads gone cs' ∧
      ∀ line, blockOf line cs' = blockOf line cs := by
  obtain ⟨pre, a, run, post, span, hs, htakes, hleft, htidy, hleaves, hrecord⟩ :=
    reduceOnce_eq_some (h.tidy.sees r) hstep
  replace htidy := htidy h.tidy
  by_cases hr : r = .sequence
  · subst hr
    obtain ⟨cs', hreading, hblock, hclean⟩ := h.sequence hs htakes span
    refine ⟨cs', ⟨htidy, ?_, ?_⟩, hblock⟩
    · rw [hleaves]
      exact hreading
    · rw [hrecord, hclean, h.clean]
  · obtain ⟨hforest, hclean⟩ := h.reduce hr hneeds hs htakes hleft span
    refine ⟨cs, ⟨htidy, ⟨?_, h.reading.chunks, ?_⟩, ?_⟩, fun _ => rfl⟩
    · rw [hleaves]
      exact hforest
    · rw [hleaves]
      have hapart := h.reading.apart
      rw [hs] at hapart
      intro l hl hbroken
      rcases List.mem_append.mp hl with hl | hl
      · exact hapart l (List.mem_append_left _ hl) hbroken
      rcases List.mem_cons.mp hl with rfl | hl
      · have hresult : r.result ≠ .leftParen ∧ r.result ≠ .term := by
          cases r <;> exact ⟨by decide, by decide⟩
        exact hresult
      · exact hapart l (by simp [hl]) hbroken
    · rw [hrecord, hclean, h.clean]

end Parsing

end StackScript
