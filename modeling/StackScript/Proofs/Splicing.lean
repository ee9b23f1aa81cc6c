import StackScript.Proofs.Matching

/-!
# StackScript.Proofs.Splicing — a reduction among the leaves

A reduction puts one leaf for the run of leaves that a rule has matched.  The line breaks inside of
the run go with it, and every other one stays where it was.
-/

namespace StackScript

open Leaf

namespace Stream

variable {s : Stream} {included : List Tag} {pre run post : List Leaf}

/-! ### The symbols of a match -/

theorem symbolAt?_active {l : Leaf} (hs : s.leaves = pre ++ l :: post) :
    s.symbolAt? (.active pre.length) = some l.symbol := active_of_leaves hs

/-- Without line breaks the symbols of a match are those of the run. -/
theorem collect_between_nil (hs : s.leaves = pre ++ (run ++ post)) :
    s.collect ((s.between [] pre.length run).map Prod.snd) = run.map Leaf.symbol := by
  induction run generalizing pre with
  | nil => rfl
  | cons l run ih =>
    have hl := symbolAt?_active hs
    cases run with
    | nil =>
      rw [between, List.map_cons, collect, List.filterMap_cons, hl]
      rfl
    | cons l' run =>
      have hs' : s.leaves = (pre ++ [l]) ++ (l' :: run ++ post) := by rw [hs]; simp
      have hrest := ih hs'
      rw [List.length_append, List.length_singleton, collect] at hrest
      rw [between, gap_nil, List.nil_append, List.map_cons, collect, List.filterMap_cons, hl, hrest]
      rfl

/-- The symbols in a gap have no fragment. -/
theorem Tidy.collect_gap (h : s.Tidy) (i : Nat) :
    ∀ a ∈ s.collect ((s.gap included i).map Prod.snd), a.fragment = none := by
  intro a ha
  obtain ⟨e, he, hae⟩ := List.mem_filterMap.mp ha
  obtain ⟨p, hp, rfl⟩ := List.mem_map.mp he
  obtain ⟨d, -, rfl⟩ := List.mem_map.mp hp
  obtain ⟨d', hd', rfl⟩ := Option.map_eq_some_iff.mp hae
  exact (h.breaks d' (List.mem_of_getElem? hd')).2

/-- The symbols of a match with a program each are those of the run. -/
theorem Tidy.programs_between (h : s.Tidy) (hs : s.leaves = pre ++ (run ++ post)) :
    Matched.programs (s.collect ((s.between included pre.length run).map Prod.snd)) =
      (run.map Leaf.symbol).filterMap Symbol.program? := by
  induction run generalizing pre with
  | nil => rfl
  | cons l run ih =>
    have hl := symbolAt?_active hs
    cases run with
    | nil =>
      rw [between, List.map_cons, collect, List.filterMap_cons, hl]
      rfl
    | cons l' run =>
      have hs' : s.leaves = (pre ++ [l]) ++ (l' :: run ++ post) := by rw [hs]; simp
      have hrest := ih hs'
      rw [List.length_append, List.length_singleton] at hrest
      have hgap : Matched.programs (s.collect ((s.gap included (pre.length + 1)).map Prod.snd)) =
          [] := by
        rw [Matched.programs, List.filterMap_eq_nil_iff]
        intro a ha
        rw [Symbol.program?, h.collect_gap _ a ha]
      rw [Matched.programs, collect] at hgap hrest ⊢
      rw [between, List.map_cons, List.map_append, List.filterMap_cons, List.filterMap_append, hl]
      dsimp only
      rw [List.filterMap_cons, List.filterMap_append, hgap, hrest]
      rfl

theorem head?_between {l : Leaf} (hs : s.leaves = pre ++ (l :: run ++ post)) :
    ∃ ms, s.collect ((s.between included pre.length (l :: run)).map Prod.snd) = l.symbol :: ms := by
  have hl := symbolAt?_active hs
  cases run with
  | nil =>
    rw [between, List.map_cons, collect, List.filterMap_cons, hl]
    exact ⟨_, rfl⟩
  | cons l' run =>
    rw [between, List.map_cons, collect, List.filterMap_cons, hl]
    exact ⟨_, rfl⟩

/-! ### Putting a symbol for a run -/

/-- The line breaks between leaves of a run stand before one of them, but not the first. -/
theorem position_of_mem_between {i j : Nat} {d : Detached}
    (hmem : .detached j ∈ (s.between included i run).map Prod.snd)
    (hd : s.detached[j]? = some d) : i < d.position ∧ d.position < i + run.length := by
  fun_induction between s included i run with
  | case1 => cases hmem
  | case2 => simp at hmem
  | case3 i l l' xs ih =>
    rw [List.map_cons, List.map_append, List.mem_cons, List.mem_append] at hmem
    rcases hmem with hmem | hmem | hmem
    · cases hmem
    · obtain ⟨p, hp, hj⟩ := List.mem_map.mp hmem
      obtain ⟨d', hd', rfl⟩ := List.mem_map.mp hp
      cases hj
      obtain ⟨hzip, hpos⟩ := List.mem_filter.mp hd'
      have hget := List.mem_zipIdx_iff_getElem?.mp hzip
      rw [hd] at hget
      obtain rfl := Option.some.inj hget
      simp at hpos ⊢
      omega
    · have := ih hmem
      simp at this ⊢
      omega

/-- The detached symbols that stay, with their new places, when the active symbols from `first` to
`last` become one. -/
def shifted (first last : Nat) (ds : List Detached) : List Detached :=
  (ds.filter fun d => decide (d.position ≤ first) || decide (last < d.position)).map fun d =>
    if last < d.position then { d with position := d.position - (last - first) } else d

theorem splice_eq {entries : List Entry} {first last : Nat} {symbol : Symbol}
    (h : ∀ j d, .detached j ∈ entries → s.detached[j]? = some d →
      first < d.position ∧ d.position ≤ last) :
    s.splice entries first last symbol =
      ⟨s.active.take first ++ symbol :: s.active.drop (last + 1), shifted first last s.detached⟩ := by
  rw [splice, shifted]
  congr 1
  have hkept : s.detached.zipIdx.filter (fun d => !entries.contains (.detached d.2) &&
      (decide (d.1.position ≤ first) || decide (last < d.1.position))) =
      s.detached.zipIdx.filter
        ((fun d => decide (d.position ≤ first) || decide (last < d.position)) ∘ Prod.fst) := by
    refine List.filter_congr fun d hd => ?_
    have hget := List.mem_zipIdx_iff_getElem?.mp hd
    by_cases hmem : entries.contains (.detached d.2)
    · have := h d.2 d.1 (List.contains_iff_mem.mp hmem) hget
      have : ¬ d.1.position ≤ first := by omega
      have : ¬ last < d.1.position := by omega
      simp [*]
    · rw [Bool.not_eq_true] at hmem
      rw [hmem]
      rfl
  rw [hkept, ← List.zipIdx_map_fst 0 s.detached, List.filter_map, List.zipIdx_map_fst, List.map_map]
  rfl

theorem shifted_sorted {first last : Nat} (hle : first ≤ last) {ds : List Detached}
    (h : ds.Pairwise fun d e => d.position ≤ e.position) :
    (shifted first last ds).Pairwise fun d e => d.position ≤ e.position := by
  refine List.pairwise_map.mpr ((h.filter _).imp_of_mem fun {d e} hd he hde => ?_)
  have hd := (List.mem_filter.mp hd).2
  have he := (List.mem_filter.mp he).2
  simp only [Bool.or_eq_true, decide_eq_true_eq] at hd he
  split <;> split <;> (try dsimp only) <;> omega

/-- A line break stays before the leaf before which it was. -/
theorem any_shifted {first last i : Nat} (hle : first ≤ last) (ds : List Detached) :
    ((shifted first last ds).any fun d =>
        decide (d.position = i) && decide (d.symbol.tag = .newline)) =
      ds.any fun d => decide (d.position = if i ≤ first then i else i + (last - first)) &&
        decide (d.symbol.tag = .newline) := by
  rw [shifted, List.any_map, List.any_filter]
  congr 1
  funext d
  by_cases hlast : last < d.position
  · have hfirst : ¬ d.position ≤ first := by omega
    by_cases hi : i ≤ first
    · have h₁ : ¬ d.position - (last - first) = i := by omega
      have h₂ : ¬ d.position = i := by omega
      simp [hlast, hi, h₁, h₂]
    · have h₁ : d.position - (last - first) = i ↔ d.position = i + (last - first) := by omega
      simp [hlast, hi, h₁]
  · by_cases hi : i ≤ first
    · by_cases hd : d.position ≤ first
      · simp [hlast, hi, hd]
      · have h₂ : ¬ d.position = i := by omega
        simp [hlast, hi, hd, h₂]
    · have h₁ : ¬ d.position = i + (last - first) := by omega
      have h₂ : d.position ≤ first → ¬ d.position = i := by omega
      by_cases hd : d.position ≤ first
      · simp [hlast, hi, h₁, h₂ hd]
      · simp [hlast, hi, hd, h₁]

/-- Putting a symbol for a run puts one leaf for its leaves. -/
theorem leaves_splice {entries : List Entry} {a : Leaf} {symbol : Symbol}
    (hs : s.leaves = pre ++ (a :: run ++ post))
    (h : ∀ j d, .detached j ∈ entries → s.detached[j]? = some d →
      pre.length < d.position ∧ d.position ≤ pre.length + run.length) :
    (s.splice entries pre.length (pre.length + run.length) symbol).leaves =
      pre ++ ⟨symbol, a.broken⟩ :: post := by
  have hle : pre.length ≤ pre.length + run.length := Nat.le_add_right _ _
  have hactive : s.active = pre.map Leaf.symbol ++ a.symbol :: run.map Leaf.symbol ++
      post.map Leaf.symbol := by
    rw [← map_symbol_leaves, hs]
    simp
  rw [splice_eq h]
  refine List.ext_getElem? fun i => ?_
  have hbreaks : ∀ as : List Symbol, lineBreakBefore
      ⟨as, shifted pre.length (pre.length + run.length) s.detached⟩ i =
        s.lineBreakBefore (if i ≤ pre.length then i else i + run.length) := by
    intro as
    rw [lineBreakBefore, any_shifted hle, Nat.add_sub_cancel_left]
    rfl
  rw [getElem?_leaves, hbreaks]
  have hold := getElem?_leaves s
  rw [hs, hactive] at hold
  have htake : s.active.take pre.length = pre.map Leaf.symbol := by
    rw [hactive, List.append_assoc]
    exact List.take_left' (List.length_map _)
  have hdrop : s.active.drop (pre.length + run.length + 1) = post.map Leaf.symbol := by
    rw [hactive]
    exact List.drop_left' (by simp [Nat.add_assoc])
  rw [htake, hdrop]
  rcases Nat.lt_trichotomy i pre.length with hi | rfl | hi
  · have hi' := hold i
    rw [List.getElem?_append_left hi, List.append_assoc,
      List.getElem?_append_left (by simpa using hi)] at hi'
    rw [if_pos (Nat.le_of_lt hi), List.getElem?_append_left (by simpa using hi),
      List.getElem?_append_left hi, ← hi']
  · have hhead : s.leaves = pre ++ a :: (run ++ post) := by rw [hs]; rfl
    rw [if_pos (Nat.le_refl _), lineBreakBefore_of_leaves hhead,
      List.getElem?_append_right (by simp), List.getElem?_append_right (Nat.le_refl _)]
    simp
  · obtain ⟨j, rfl⟩ : ∃ j, i = pre.length + (j + 1) := ⟨i - pre.length - 1, by omega⟩
    have hj := hold (pre.length + (j + 1) + run.length)
    rw [← List.append_assoc, List.getElem?_append_right (by simp; omega),
      List.getElem?_append_right (by simp; omega)] at hj
    have hsub : pre.length + (j + 1) + run.length - (pre ++ a :: run).length = j := by
      simp
      omega
    have hsub' : pre.length + (j + 1) + run.length -
        (pre.map Leaf.symbol ++ a.symbol :: run.map Leaf.symbol).length = j := by
      simp
      omega
    rw [hsub, hsub'] at hj
    rw [if_neg (by omega), List.getElem?_append_right (by simp),
      List.getElem?_append_right (by simp), List.length_map, Nat.add_sub_cancel_left,
      List.getElem?_cons_succ, List.getElem?_cons_succ, hj]

theorem Tidy.splice (h : s.Tidy) {entries : List Entry} {a : Leaf} {symbol : Symbol}
    (hs : s.leaves = pre ++ (a :: run ++ post))
    (hentries : ∀ j d, .detached j ∈ entries → s.detached[j]? = some d →
      pre.length < d.position ∧ d.position ≤ pre.length + run.length)
    (hsymbol : symbol.tag ≠ .newline ∧ symbol.tag ≠ .semicolon) :
    (s.splice entries pre.length (pre.length + run.length) symbol).Tidy where
  active := by
    rw [leaves_splice hs hentries]
    intro l hl
    rcases List.mem_append.mp hl with hl | hl
    · exact h.active l (by rw [hs]; exact List.mem_append_left _ hl)
    rcases List.mem_cons.mp hl with rfl | hl
    · exact hsymbol
    · exact h.active l (by simp [hs, hl])
  breaks := by
    rw [splice_eq hentries]
    intro d hd
    obtain ⟨d', hd', rfl⟩ := List.mem_map.mp hd
    have hbreak := h.breaks d' (List.mem_of_mem_filter hd')
    split <;> exact hbreak
  sorted := by
    rw [splice_eq hentries]
    exact shifted_sorted (Nat.le_add_right _ _) h.sorted

end Stream

namespace Parsing

variable {p p' : Parsing} {r : Rule}

/-- What a rule builds of this run. -/
def built (p : Parsing) (r : Rule) (pre run : List Leaf) : Option Fragment × Record :=
  (r.build (p.stream.collect (p.stream.matchOf r pre run).run)).run p.record

/-- A reduction of a match that is this run. -/
theorem reduceOnce_of_find {pre run post : List Leaf} {a : Leaf}
    (hs : p.stream.leaves = pre ++ (a :: run ++ post))
    (hfind : p.stream.find r = some (p.stream.matchOf r pre (a :: run))) :
    ∃ p' span, p.reduceOnce r = some p' ∧ (p.stream.Tidy → p'.stream.Tidy) ∧
      p'.stream.leaves = pre ++ ⟨Symbol.reduced r.result a.line span (p.built r pre (a :: run)).1,
        a.broken⟩ :: post ∧
      p'.record = (p.built r pre (a :: run)).2 := by
  obtain ⟨ms, hms⟩ : ∃ ms, p.stream.collect
      ((p.stream.between r.included pre.length (a :: run)).map Prod.snd) = a.symbol :: ms :=
    Stream.head?_between hs
  obtain ⟨last, hlast⟩ : ∃ last, (a.symbol :: ms).getLast? = some last :=
    ⟨_, List.getLast?_eq_getLast_of_ne_nil (List.cons_ne_nil _ _)⟩
  have hindices : Stream.activeIndices (p.stream.matchOf r pre (a :: run)).run =
      List.range' pre.length (run.length + 1) := p.stream.activeIndices_between _ _
  have hentries : ∀ j d, .detached j ∈ (p.stream.matchOf r pre (a :: run)).run →
      p.stream.detached[j]? = some d →
      pre.length < d.position ∧ d.position ≤ pre.length + run.length := by
    intro j d hmem hd
    have := Stream.position_of_mem_between hmem hd
    simp only [List.length_cons] at this
    omega
  have hresult : r.result ≠ .newline ∧ r.result ≠ .semicolon := by
    cases r <;> exact ⟨by decide, by decide⟩
  have hreplace : ∀ symbol, p.stream.replace (p.stream.matchOf r pre (a :: run)).run symbol =
      some (p.stream.splice (p.stream.matchOf r pre (a :: run)).run pre.length
        (pre.length + run.length) symbol) := by
    intro symbol
    have hgetLast : (List.range' pre.length (run.length + 1)).getLast? =
        some (pre.length + run.length) := by
      rw [List.range'_concat, List.getLast?_concat, Nat.one_mul]
    rw [Stream.replace, hindices, hgetLast]
    rfl
  have hcollect : p.stream.collect (p.stream.matchOf r pre (a :: run)).run = a.symbol :: ms := hms
  have hstep : p.reduceOnce r = some ⟨p.stream.splice (p.stream.matchOf r pre (a :: run)).run
      pre.length (pre.length + run.length) (Symbol.reduced r.result a.line
        ⟨a.symbol.span.start, last.span.stop⟩ (p.built r pre (a :: run)).1),
      (p.built r pre (a :: run)).2⟩ := by
    rw [reduceOnce, hfind, built]
    simp only [Option.bind_eq_bind, Option.bind_some, hcollect, List.head?_cons, hlast, hreplace]
    rfl
  exact ⟨_, _, hstep, fun h => h.splice hs hentries hresult, Stream.leaves_splice hs hentries, rfl⟩

/-- A reduction puts one leaf for the leftmost run that the rule takes. -/
theorem reduceOnce_eq_some (h : p.stream.Sees r) (hstep : p.reduceOnce r = some p') :
    ∃ pre a run post span, p.stream.leaves = pre ++ (a :: run ++ post) ∧
      r.Takes pre (a :: run) post ∧
      (∀ u v w run' post', pre = u ++ v :: w → v :: (w ++ (a :: run ++ post)) = run' ++ post' →
        ¬ r.Takes u run' post') ∧ (p.stream.Tidy → p'.stream.Tidy) ∧
      p'.stream.leaves = pre ++ ⟨Symbol.reduced r.result a.line span (p.built r pre (a :: run)).1,
        a.broken⟩ :: post ∧
      p'.record = (p.built r pre (a :: run)).2 := by
  cases hfind : p.stream.find r with
  | none =>
    rw [reduceOnce, hfind] at hstep
    cases hstep
  | some f =>
    obtain ⟨pre, run, post, hs, htakes, rfl, hleft⟩ := h.find_eq_some hfind
    obtain ⟨a, run, rfl⟩ := List.exists_cons_of_ne_nil htakes.fits.ne_nil
    obtain ⟨q, span, hq, htidy, hleaves, hrecord⟩ := reduceOnce_of_find hs hfind
    obtain rfl := Option.some.inj (hstep.symm.trans hq)
    exact ⟨pre, a, run, post, span, hs, htakes, hleft, htidy, hleaves, hrecord⟩

/-- Where the rule takes a run there is a reduction. -/
theorem reduceOnce_ne_none (h : p.stream.Sees r) {pre run post : List Leaf}
    (hs : p.stream.leaves = pre ++ (run ++ post)) (htakes : r.Takes pre run post) :
    p.reduceOnce r ≠ none := by
  cases hfind : p.stream.find r with
  | none => exact absurd hfind (h.find_ne_none hs htakes)
  | some f =>
    obtain ⟨pre, run, post, hs, htakes, rfl, -⟩ := h.find_eq_some hfind
    obtain ⟨a, run, rfl⟩ := List.exists_cons_of_ne_nil htakes.fits.ne_nil
    obtain ⟨q, span, hq, -⟩ := reduceOnce_of_find hs hfind
    rw [hq]
    exact Option.some_ne_none q

end Parsing

end StackScript
