import StackScript.Proofs.Consuming
import StackScript.Proofs.Splicing

/-!
# StackScript.Proofs.Replacing — where a reduction puts its symbol

Nothing is assumed of the stream, as in `StackScript.Proofs.Consuming`.  What a rule sees stands in
the order of the source, so a match, which begins and ends with an active symbol, has inside of it
only detached symbols that stand before one of its active symbols but the first
(`Parsing.Reduction.inside`).  The new symbol covers the source from the first symbol of the match to
the last (`Parsing.Reduction.spliced`).
-/

namespace StackScript

namespace Stream

variable {s : Stream} {included : List Tag}

/-! ### The order of what a rule sees -/

/-- A number for the place of an entry: an active symbol has an odd one, a detached symbol the one
before that of the active symbol that it stands before. -/
def placeOf (s : Stream) : Entry → Nat
  | .active i => 2 * i + 1
  | .detached j => 2 * (s.detached[j]?.map (·.position)).getD 0

theorem placeOf_detached {j : Nat} {d : Detached} (h : s.detached[j]? = some d) :
    s.placeOf (.detached j) = 2 * d.position := by
  rw [placeOf, h]
  rfl

theorem weave_in_order {i : Nat} {as : List Symbol} {ds : List (Detached × Nat)}
    (hds : ∀ d ∈ ds, s.detached[d.2]? = some d.1) :
    ((weave included i as ds).Pairwise fun e e' => s.placeOf e.2 ≤ s.placeOf e'.2) ∧
      ∀ e ∈ weave included i as ds, 2 * i + 1 ≤ s.placeOf e.2 := by
  induction as generalizing i ds with
  | nil => exact ⟨.nil, fun e he => absurd he List.not_mem_nil⟩
  | cons a as ih =>
    have hdropped : ∀ d ∈ ds.dropWhile fun d => decide (d.1.position ≤ i + 1),
        s.detached[d.2]? = some d.1 := fun d hd => hds d ((List.dropWhile_sublist _).subset hd)
    obtain ⟨hrest, hlater⟩ := ih (i := i + 1) hdropped
    rw [weave, List.cons_append]
    generalize hshown : ((ds.takeWhile fun d => decide (d.1.position ≤ i + 1)).filter fun d =>
      decide (d.1.position = i + 1) && included.contains d.1.symbol.tag).map
        (fun d => (d.1.symbol.tag, Entry.detached d.2)) = shown
    -- what is shown in the gap stands right before the next active symbol
    have hgap : ∀ e ∈ shown, s.placeOf e.2 = 2 * (i + 1) := by
      intro e he
      rw [← hshown] at he
      obtain ⟨d, hd, rfl⟩ := List.mem_map.mp he
      obtain ⟨hmem, hd⟩ := List.mem_filter.mp hd
      rw [Bool.and_eq_true, decide_eq_true_eq] at hd
      rw [placeOf_detached (hds d ((List.takeWhile_sublist _).subset hmem)), hd.1]
    refine ⟨List.pairwise_cons.mpr ⟨fun e he => ?_, List.pairwise_append.mpr ⟨?_, hrest, ?_⟩⟩, ?_⟩
    · rw [placeOf]
      rcases List.mem_append.mp he with he | he
      · rw [hgap e he]
        omega
      · have := hlater e he
        omega
    · exact List.pairwise_of_forall_mem_list fun e he e' he' =>
        Nat.le_of_eq ((hgap e he).trans (hgap e' he').symm)
    · intro e he e' he'
      rw [hgap e he]
      have := hlater e' he'
      omega
    · intro e he
      rcases List.mem_cons.mp he with rfl | he
      · exact Nat.le_refl _
      rcases List.mem_append.mp he with he | he
      · rw [hgap e he]
        omega
      · have := hlater e he
        omega

/-- What a rule sees stands in order. -/
theorem entries_in_order (s : Stream) (included : List Tag) :
    (s.entries included).Pairwise fun e e' => s.placeOf e.2 ≤ s.placeOf e'.2 :=
  (weave_in_order fun _ hd => List.mem_zipIdx_iff_getElem?.mp hd).1

/-- Entries none of which is detached are those of their indices. -/
theorem map_active_activeIndices {run : List Entry} (h : ∀ j, .detached j ∉ run) :
    (activeIndices run).map Entry.active = run := by
  induction run with
  | nil => rfl
  | cons e run ih =>
    cases e with
    | active i => exact congrArg (_ :: ·) (ih fun j hj => h j (List.mem_cons_of_mem _ hj))
    | detached j => exact absurd List.mem_cons_self (h j)

end Stream

namespace Parsing.Reduction

variable {p q : Parsing} {r : Rule}

/-- A rule that asks for line breaks matches active symbols first and last. -/
theorem active_of_sequence (e : Reduction .sequence p q) :
    ∃ i es k, e.found.run = .active i :: (es ++ [.active k]) := by
  obtain ⟨pre, run, post, hentries, hrun, -⟩ := Stream.find_eq_some e.find_eq
  have hpoints : ∀ e ∈ run, p.stream.Points Rule.sequence.included e := by
    intro e he
    refine Stream.points_of_mem_entries ?_
    rw [hentries]
    exact List.mem_append_right _ (List.mem_append_left _ he)
  obtain ⟨ts, hpattern⟩ := e.pattern_eq
  obtain ⟨us, hus⟩ := Rule.programs_of_rest?_sequence hpattern
  rw [hrun, Stream.map_tag_collect hpoints] at hus
  have htags : run.map Prod.fst = .program :: (us ++ [.program]) := by
    have happend : run.map Prod.fst ++ ts = .program :: (us ++ [.program]) ++ ts :=
      hus.trans (by simp)
    exact List.append_cancel_right happend
  -- a detached symbol is a line break, no program
  have hactive : ∀ x, (Tag.program, x) ∈ run → ∃ i, x = .active i := by
    intro x hx
    cases x with
    | active i => exact ⟨i, rfl⟩
    | detached j => cases Rule.tag_of_included (r := .sequence) (hpoints _ hx).2
  obtain ⟨⟨t, x⟩, run, rfl, rfl, hrest⟩ := List.map_eq_cons_iff.mp htags
  obtain ⟨mid, last, rfl, -, hlast⟩ := List.map_eq_append_iff.mp hrest
  obtain ⟨⟨t', y⟩, hnil, rfl, rfl, hnil'⟩ := List.map_eq_cons_iff.mp hlast
  obtain rfl := List.map_eq_nil_iff.mp hnil'
  obtain ⟨i, rfl⟩ := hactive x List.mem_cons_self
  obtain ⟨k, rfl⟩ := hactive y (by simp)
  exact ⟨i, mid.map Prod.snd, k, by rw [hrun]; simp⟩

/-- A match begins with its first active symbol and ends with its last. -/
theorem active_ends (e : Reduction r p q) :
    e.found.run.head? = some (.active e.before.length) ∧
      e.found.run.getLast? = some (.active (e.before.length + (e.run.length - 1))) := by
  have hindices := e.indices_eq
  obtain ⟨n, hn⟩ : ∃ n, e.run.length = n + 1 :=
    Nat.exists_eq_succ_of_ne_zero fun hzero => e.run_ne_nil (List.length_eq_zero_iff.mp hzero)
  rw [hn] at hindices ⊢
  by_cases hr : r = .sequence
  · subst hr
    obtain ⟨i, es, k, hrun⟩ := e.active_of_sequence
    have hlast : Stream.activeIndices e.found.run = Stream.activeIndices (.active i :: es) ++ [k] := by
      rw [hrun, ← List.cons_append, Stream.activeIndices_append]
      rfl
    have hhead : Stream.activeIndices e.found.run = i :: Stream.activeIndices (es ++ [.active k]) := by
      rw [hrun]
      rfl
    rw [List.range'_succ, hhead] at hindices
    obtain ⟨rfl, -⟩ := List.cons.inj hindices
    rw [← hhead, ← List.range'_succ, hlast, List.range'_concat, Nat.one_mul] at hindices
    obtain ⟨-, hk⟩ := List.append_inj' hindices rfl
    obtain rfl := List.singleton_inj.mp hk
    rw [hrun, ← List.cons_append, List.getLast?_concat]
    exact ⟨rfl, rfl⟩
  · have hnone : ∀ j, .detached j ∉ e.found.run := by
      intro j hj
      obtain ⟨d, -, hincluded⟩ := e.detached_mem j hj
      rw [Rule.included_eq_nil hr] at hincluded
      cases hincluded
    have hlast : (List.range' e.before.length (n + 1)).getLast? = some (e.before.length + n) := by
      rw [List.range'_concat, List.getLast?_concat, Nat.one_mul]
    rw [← Stream.map_active_activeIndices hnone, hindices, List.head?_map, List.getLast?_map, hlast]
    exact ⟨rfl, rfl⟩

/-- A detached symbol inside of a match stands before an active symbol of it, but not the first. -/
theorem inside (e : Reduction r p q) {j : Nat} {d : Detached} (hj : .detached j ∈ e.found.run)
    (hd : p.stream.detached[j]? = some d) :
    e.before.length < d.position ∧ d.position ≤ e.before.length + (e.run.length - 1) := by
  obtain ⟨hhead, hlast⟩ := e.active_ends
  obtain ⟨pre, run, post, hentries, hrun, -⟩ := Stream.find_eq_some e.find_eq
  have horder := p.stream.entries_in_order r.included
  rw [hentries] at horder
  have hrunOrder : e.found.run.Pairwise fun x y => p.stream.placeOf x ≤ p.stream.placeOf y := by
    rw [hrun, List.pairwise_map]
    exact (List.pairwise_append.mp (List.pairwise_append.mp horder).2.1).1
  obtain ⟨es, hes⟩ := List.head?_eq_some_iff.mp hhead
  obtain ⟨es', hes'⟩ := List.getLast?_eq_some_iff.mp hlast
  have hfirst : p.stream.placeOf (.active e.before.length) ≤ p.stream.placeOf (.detached j) := by
    rw [hes] at hrunOrder hj
    rcases List.mem_cons.mp hj with hj | hj
    · cases hj
    · exact (List.pairwise_cons.mp hrunOrder).1 _ hj
  have hend : p.stream.placeOf (.detached j) ≤
      p.stream.placeOf (.active (e.before.length + (e.run.length - 1))) := by
    rw [hes'] at hrunOrder hj
    rcases List.mem_append.mp hj with hj | hj
    · exact (List.pairwise_append.mp hrunOrder).2.2 _ hj _ (List.mem_singleton_self _)
    · cases List.mem_singleton.mp hj
  rw [Stream.placeOf_detached hd, Stream.placeOf] at hfirst hend
  omega

/-- The first symbol that is collected is the first of the run. -/
theorem head?_collect (e : Reduction r p q) :
    (p.stream.collect e.found.run).head? = e.run.head? := by
  obtain ⟨es, hes⟩ := List.head?_eq_some_iff.mp e.active_ends.1
  obtain ⟨a, xs, hrun⟩ := List.exists_cons_of_ne_nil e.run_ne_nil
  have ha : p.stream.symbolAt? (.active e.before.length) = some a := by
    rw [Stream.symbolAt?, e.active_eq, List.getElem?_append_right (Nat.le_refl _), Nat.sub_self,
      hrun]
    rfl
  rw [hes, Stream.collect, List.filterMap_cons, ha, hrun]
  rfl

/-- The last symbol that is collected is the last of the run. -/
theorem getLast?_collect (e : Reduction r p q) :
    (p.stream.collect e.found.run).getLast? = e.run.getLast? := by
  obtain ⟨es, hes⟩ := List.getLast?_eq_some_iff.mp e.active_ends.2
  have hlt : e.run.length - 1 < e.run.length :=
    Nat.sub_lt (List.length_pos_iff.mpr e.run_ne_nil) Nat.one_pos
  have hlast : p.stream.symbolAt? (.active (e.before.length + (e.run.length - 1))) =
      e.run.getLast? := by
    rw [Stream.symbolAt?, e.active_eq, List.getElem?_append_right (Nat.le_add_right _ _),
      Nat.add_sub_cancel_left, List.getElem?_append_left hlt, List.getLast?_eq_getElem?]
  obtain ⟨b, hb⟩ : ∃ b, e.run.getLast? = some b :=
    ⟨_, List.getLast?_eq_getLast_of_ne_nil e.run_ne_nil⟩
  rw [hb] at hlast ⊢
  rw [hes, Stream.collect, List.filterMap_append, List.filterMap_cons, hlast]
  exact List.getLast?_concat

/-- A reduction puts one symbol for the run, with the span of the source from the first symbol of the
run to the last. -/
theorem spliced (e : Reduction r p q) (h : p.reduceOnce r = some q) :
    ∃ a xs b, e.run = a :: xs ∧ (a :: xs).getLast? = some b ∧
      q.stream = p.stream.splice e.found.run e.before.length (e.before.length + xs.length)
        (Symbol.reduced r.result a.line ⟨a.span.start, b.span.stop⟩
          ((r.build (p.stream.collect e.found.run)).run p.record).1) := by
  obtain ⟨a, xs, hrun⟩ := List.exists_cons_of_ne_nil e.run_ne_nil
  obtain ⟨b, hb⟩ : ∃ b, (a :: xs).getLast? = some b :=
    ⟨_, List.getLast?_eq_getLast_of_ne_nil (List.cons_ne_nil a xs)⟩
  have hfirst := e.head?_collect
  have hlast := e.getLast?_collect
  have hindices := e.indices_eq
  rw [hrun] at hfirst hlast hindices
  rw [hb] at hlast
  have hreplace : ∀ symbol, p.stream.replace e.found.run symbol = some
      (p.stream.splice e.found.run e.before.length (e.before.length + xs.length) symbol) := by
    intro symbol
    have hgetLast : (List.range' e.before.length (a :: xs).length).getLast? =
        some (e.before.length + xs.length) := by
      rw [List.length_cons, List.range'_concat, List.getLast?_concat, Nat.one_mul]
    rw [Stream.replace, hindices, hgetLast]
    rfl
  refine ⟨a, xs, b, hrun, hb, ?_⟩
  rw [reduceOnce, e.find_eq] at h
  simp only [Option.bind_eq_bind, Option.bind_some, hfirst, hlast, List.head?_cons, hreplace] at h
  exact (congrArg Parsing.stream (Option.some.inj h)).symm

end Parsing.Reduction

end StackScript
