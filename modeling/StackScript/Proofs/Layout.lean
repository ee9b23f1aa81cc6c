import StackScript.Proofs.Detaching

/-!
# StackScript.Proofs.Layout — the leaves of lexed tokens

Before the first rule is applied, white space and comments are dropped and line breaks are detached.
What is left are the other tokens, each with whether a line break stands before it.
-/

namespace StackScript

open Leaf

/-- Symbols without layout, each with whether a line break stands before it.  `broken` says so of
the first. -/
def Leaf.ofSymbols : Bool → List Symbol → List Leaf
  | _, [] => []
  | broken, a :: as =>
    if a.tag = .newline then ofSymbols true as
    else if a.tag = .blank ∨ a.tag = .comment then ofSymbols broken as
    else ⟨a, broken⟩ :: ofSymbols false as

/-- The leaves of lexed tokens. -/
def Leaf.ofTokens (tokens : List Token) : List Leaf :=
  ofSymbols false (tokens.map Symbol.ofToken)

namespace Stream

/-- The line breaks among symbols, each with the number of other symbols before it. -/
def breaks : Nat → List Symbol → List Detached
  | _, [] => []
  | k, a :: as => if a.tag = .newline then ⟨k, a⟩ :: breaks k as else breaks (k + 1) as

theorem position_of_mem_breaks {k : Nat} {as : List Symbol} {d : Detached} (h : d ∈ breaks k as) :
    k ≤ d.position ∧ d.symbol.tag = .newline ∧ d.symbol ∈ as := by
  fun_induction breaks k as with
  | case1 => cases h
  | case2 k a as ha ih =>
    rcases List.mem_cons.mp h with rfl | h
    · exact ⟨Nat.le_refl _, ha, List.mem_cons_self⟩
    · obtain ⟨h₁, h₂, h₃⟩ := ih h
      exact ⟨h₁, h₂, List.mem_cons_of_mem _ h₃⟩
  | case3 k a as ha ih =>
    obtain ⟨h₁, h₂, h₃⟩ := ih h
    exact ⟨by omega, h₂, List.mem_cons_of_mem _ h₃⟩

theorem breaks_sorted (k : Nat) (as : List Symbol) :
    (breaks k as).Pairwise fun d e => d.position ≤ e.position := by
  fun_induction breaks k as with
  | case1 => exact .nil
  | case2 k a as ha ih => exact .cons (fun e he => (position_of_mem_breaks he).1) ih
  | case3 k a as ha ih => exact ih

/-- Line breaks are the symbols of their tag among the others. -/
theorem amongOthers_newline (k : Nat) (as : List Symbol) :
    amongOthers .newline k as = breaks k as := by
  fun_induction breaks k as with
  | case1 => rfl
  | case2 k a as ha ih => rw [amongOthers, if_pos ha, ih]
  | case3 k a as ha ih => rw [amongOthers, if_neg ha, ih]

/-- A line break, which has no fragment. -/
def Detached.IsBreak (d : Detached) : Prop := d.symbol.tag = .newline ∧ d.symbol.fragment = none

theorem foldInto_breaks {d : Detached} {es : List Detached} (hd : Detached.IsBreak d)
    (hes : ∀ e ∈ es, Detached.IsBreak e) (hle : ∀ e ∈ es, d.position ≤ e.position)
    (hsorted : es.Pairwise fun d e => d.position ≤ e.position) :
    (∀ e ∈ foldInto d es, Detached.IsBreak e ∧ d.position ≤ e.position) ∧
      ((foldInto d es).Pairwise fun d e => d.position ≤ e.position) ∧
      ∀ i, ((foldInto d es).any fun e => decide (e.position = i)) =
        (decide (d.position = i) || es.any fun e => decide (e.position = i)) := by
  fun_induction foldInto d es with
  | case1 d =>
    refine ⟨?_, List.pairwise_singleton _ _, fun i => by simp⟩
    intro e he
    rw [List.mem_singleton.mp he]
    exact ⟨hd, Nat.le_refl _⟩
  | case2 d e es hsame ih =>
    obtain ⟨hall, hpairs, hany⟩ := ih hd (fun e' he => hes e' (List.mem_cons_of_mem _ he))
      (fun e' he => hle e' (List.mem_cons_of_mem _ he)) (List.pairwise_cons.mp hsorted).2
    refine ⟨hall, hpairs, fun i => ?_⟩
    rw [hany, List.any_cons, hsame.1]
    cases decide (e.position = i) <;> rfl
  | case3 d e es hother ih =>
    obtain ⟨hfirst, hrest⟩ := List.pairwise_cons.mp hsorted
    obtain ⟨hall, hpairs, hany⟩ := ih (hes e List.mem_cons_self)
      (fun e' he => hes e' (List.mem_cons_of_mem _ he)) hfirst hrest
    have hde := hle e List.mem_cons_self
    refine ⟨?_, .cons (fun e' he => Nat.le_trans hde (hall e' he).2) hpairs, fun i => ?_⟩
    · intro e' he
      rcases List.mem_cons.mp he with rfl | he
      · exact ⟨hd, Nat.le_refl _⟩
      · exact ⟨(hall e' he).1, Nat.le_trans hde (hall e' he).2⟩
    · rw [List.any_cons, hany, List.any_cons]

theorem foldNeighbours_breaks {ds : List Detached} (hds : ∀ d ∈ ds, Detached.IsBreak d)
    (hsorted : ds.Pairwise fun d e => d.position ≤ e.position) :
    (∀ d ∈ foldNeighbours ds, Detached.IsBreak d) ∧
      ((foldNeighbours ds).Pairwise fun d e => d.position ≤ e.position) ∧
      ∀ i, ((foldNeighbours ds).any fun e => decide (e.position = i)) =
        ds.any fun e => decide (e.position = i) := by
  cases ds with
  | nil => exact ⟨hds, hsorted, fun _ => rfl⟩
  | cons d ds =>
    obtain ⟨hfirst, hrest⟩ := List.pairwise_cons.mp hsorted
    obtain ⟨hall, hpairs, hany⟩ := foldInto_breaks (hds d List.mem_cons_self)
      (fun e he => hds e (List.mem_cons_of_mem _ he)) hfirst hrest
    exact ⟨fun e he => (hall e he).1, hpairs, fun i => by
      rw [List.any_cons]
      exact hany i⟩

/-! ### Leaves -/

/-- Leaves with the breaks before them. -/
theorem zipIdx_breaks {k : Nat} {broken : Bool} {as : List Symbol} {f : Nat → Bool}
    (has : ∀ a ∈ as, a.tag ≠ .blank ∧ a.tag ≠ .comment)
    (hf : ∀ j, k ≤ j → f j = ((decide (j = k) && broken) ||
      (breaks k as).any fun d => decide (d.position = j))) :
    ((as.filter (·.tag ≠ .newline)).zipIdx k).map (fun p => (⟨p.1, f p.2⟩ : Leaf)) =
      Leaf.ofSymbols broken as := by
  induction as generalizing k broken with
  | nil => rfl
  | cons a as ih =>
    have has' : ∀ b ∈ as, b.tag ≠ .blank ∧ b.tag ≠ .comment :=
      fun b hb => has b (List.mem_cons_of_mem _ hb)
    by_cases ha : a.tag = .newline
    · rw [List.filter_cons_of_neg (by simp [ha]), Leaf.ofSymbols, if_pos ha]
      refine ih has' fun j hj => ?_
      rw [hf j hj, breaks, if_pos ha, List.any_cons]
      by_cases hjk : j = k
      · simp [hjk]
      · have hkj : ¬ k = j := fun h => hjk h.symm
        simp [hjk, hkj]
    · obtain ⟨hblank, hcomment⟩ := has a List.mem_cons_self
      have hnone : ∀ j, j ≤ k → ((breaks (k + 1) as).any fun d => decide (d.position = j)) =
          false := by
        intro j hj
        rw [List.any_eq_false]
        intro d hd
        have := (position_of_mem_breaks hd).1
        simp
        omega
      rw [List.filter_cons_of_pos (by simp [ha]), Leaf.ofSymbols, if_neg ha,
        if_neg (by simp [hblank, hcomment]), List.zipIdx_cons, List.map_cons, hf k (Nat.le_refl k),
        breaks, if_neg ha, hnone k (Nat.le_refl k)]
      refine congr (congrArg List.cons (by simp)) (ih has' fun j hj => ?_)
      have hjk : j ≠ k := by omega
      rw [hf j (by omega), breaks, if_neg ha]
      simp [hjk]

/-- The symbols of tokens, without white space and comments. -/
def inked (tokens : List Token) : List Symbol :=
  ((tokens.map Symbol.ofToken).filter (·.tag ≠ .blank)).filter (·.tag ≠ .comment)

theorem prepare_eq_inked (tokens : List Token) : prepare tokens =
    ⟨(inked tokens).filter (·.tag ≠ .newline), foldNeighbours (breaks 0 (inked tokens))⟩ := by
  have hpurge : ((ofSymbols (tokens.map Symbol.ofToken)).purge .blank).purge .comment =
      ⟨inked tokens, []⟩ := rfl
  have hmoved : (((inked tokens).zipIdx.filter (·.1.tag = .newline)).map fun p =>
      (⟨p.2 - countBefore ⟨inked tokens, []⟩ .newline p.2, p.1⟩ : Detached)) =
      breaks 0 (inked tokens) :=
    (moved_eq_amongOthers .newline [] [] (inked tokens)).trans (amongOthers_newline 0 _)
  have hnone : (⟨inked tokens, []⟩ : Stream).renumbered .newline [] = [] := rfl
  rw [prepare, hpurge, remove]
  dsimp only
  rw [hmoved, hnone, List.nil_merge]

theorem isBreak_of_mem_breaks {k : Nat} {tokens : List Token} :
    ∀ d ∈ breaks k (inked tokens), Detached.IsBreak d := by
  intro d hd
  obtain ⟨-, hnewline, hmem⟩ := position_of_mem_breaks hd
  obtain ⟨t, -, ht⟩ := List.mem_map.mp (List.mem_of_mem_filter (List.mem_of_mem_filter hmem))
  refine ⟨hnewline, ?_⟩
  rw [← ht]
  rfl

theorem ofSymbols_inked (broken : Bool) (tokens : List Token) :
    Leaf.ofSymbols broken (inked tokens) =
      Leaf.ofSymbols broken (tokens.map Symbol.ofToken) := by
  rw [inked]
  induction tokens.map Symbol.ofToken generalizing broken with
  | nil => rfl
  | cons a as ih =>
    by_cases hblank : a.tag = .blank
    · rw [List.filter_cons_of_neg (by simp [hblank]), ih, Leaf.ofSymbols, if_neg (by simp [hblank]),
        if_pos (.inl hblank)]
    by_cases hcomment : a.tag = .comment
    · rw [List.filter_cons_of_pos (by simp [hblank]), List.filter_cons_of_neg (by simp [hcomment]),
        ih, Leaf.ofSymbols, if_neg (by simp [hcomment]), if_pos (.inr hcomment)]
    · rw [List.filter_cons_of_pos (by simp [hblank]), List.filter_cons_of_pos (by simp [hcomment]),
        Leaf.ofSymbols, Leaf.ofSymbols, ih, ih, ih]

/-- The leaves that the rules see first. -/
theorem leaves_prepare (tokens : List Token) : (prepare tokens).leaves = Leaf.ofTokens tokens := by
  obtain ⟨hbreaks, -, hany⟩ := foldNeighbours_breaks isBreak_of_mem_breaks
    (breaks_sorted 0 (inked tokens))
  rw [Leaf.ofTokens, ← ofSymbols_inked, prepare_eq_inked, leaves]
  refine zipIdx_breaks ?_ fun j _ => ?_
  · intro a ha
    have hcomment := (List.mem_filter.mp ha).2
    have hblank := (List.mem_filter.mp (List.mem_of_mem_filter ha)).2
    simpa using And.intro hblank hcomment
  · rw [Bool.and_false, Bool.false_or, ← hany j, lineBreakBefore]
    rw [Bool.eq_iff_iff, List.any_eq_true, List.any_eq_true]
    refine exists_congr fun d => and_congr_right fun hd => ?_
    simp [(hbreaks d hd).1]

/-- Before the first rule is applied, the stream is tidy. -/
theorem tidy_prepare {tokens : List Token}
    (h : ∀ l ∈ Leaf.ofTokens tokens, l.tag ≠ .semicolon) : (prepare tokens).Tidy := by
  obtain ⟨hbreaks, hsorted, -⟩ := foldNeighbours_breaks isBreak_of_mem_breaks
    (breaks_sorted 0 (inked tokens))
  refine ⟨?_, ?_, ?_⟩
  · intro l hl
    refine ⟨?_, h l (leaves_prepare tokens ▸ hl)⟩
    have hmem : l.symbol ∈ (prepare tokens).active := by
      rw [← map_symbol_leaves]
      exact List.mem_map_of_mem hl
    rw [prepare_eq_inked] at hmem
    simpa using (List.mem_filter.mp hmem).2
  · rw [prepare_eq_inked]
    exact hbreaks
  · rw [prepare_eq_inked]
    exact hsorted

end Stream

end StackScript
