import Mathlib.Data.List.TakeWhile
import StackScript.Grammar.Reduction
import StackScript.Proofs.AdmittedMatches

/-!
# StackScript.Proofs.Matching — what a search finds among the leaves

A rule sees the active symbols, and the rule for sequences sees the line breaks between them too
(`Stream.entries_eq`).  Its pattern is tried at each of them from the left, so a search finds the first
place where the pattern takes something that the rule accepts.
-/

namespace StackScript

open Leaf

/-- The leaf is a program on a line of its own. -/
def Leaf.joins (l : Leaf) : Bool := decide (l.tag = .program) && l.broken

/-- Programs in sequence, all but the first on lines of their own, with something else behind. -/
structure Succession (run post : List Leaf) : Prop where
  programs : ∃ a ys, run = a :: ys ∧ a.tag = .program ∧ ys ≠ [] ∧ ∀ l ∈ ys, l.joins = true
  stops : ∀ l, post.head? = some l → l.joins = false

theorem Succession.split {a : Leaf} {xs run post : List Leaf} (h : Succession run post)
    (hxs : a :: xs = run ++ post) : run = a :: xs.takeWhile Leaf.joins ∧
      post = xs.dropWhile Leaf.joins ∧ a.tag = .program ∧ xs.takeWhile Leaf.joins ≠ [] := by
  obtain ⟨⟨_, ys, rfl, ha, hne, hys⟩, hpost⟩ := h
  rw [List.cons_append] at hxs
  obtain ⟨rfl, rfl⟩ := List.cons.inj hxs
  have htake : post.takeWhile Leaf.joins = [] ∧ post.dropWhile Leaf.joins = post := by
    cases post with
    | nil => exact ⟨rfl, rfl⟩
    | cons l post => simp [hpost l rfl]
  rw [List.takeWhile_append_of_pos hys, List.dropWhile_append_of_pos hys, htake.1, htake.2,
    List.append_nil]
  exact ⟨rfl, rfl, ha, hne⟩

theorem succession_of_takeWhile {a : Leaf} {xs : List Leaf} (ha : a.tag = .program)
    (hne : xs.takeWhile Leaf.joins ≠ []) :
    Succession (a :: xs.takeWhile Leaf.joins) (xs.dropWhile Leaf.joins) :=
  ⟨⟨a, _, rfl, ha, hne, fun _ hl => List.mem_takeWhile_imp hl⟩,
    fun l hl => by
      have hnot := List.head?_dropWhile_not Leaf.joins xs
      rw [hl] at hnot
      simpa using hnot⟩

/-- The pattern of a rule takes the run where these leaves are behind it.  The pattern for sequences
takes the line breaks in the run too. -/
inductive Rule.Fits : Rule → List Leaf → List Leaf → Prop
  | plain {r : Rule} {run post : List Leaf} (hr : r ≠ .sequence) (hne : run ≠ [])
    (h : r.pattern.rest? ((run ++ post).map Leaf.tag) = some (post.map Leaf.tag)) : Fits r run post
  | sequence {run post : List Leaf} (h : Succession run post) : Fits .sequence run post

/-- The rule has a match here that it accepts. -/
structure Rule.Takes (r : Rule) (pre run post : List Leaf) : Prop where
  fits : r.Fits run post
  admits : r.admits pre run post = true

theorem Rule.Fits.ne_nil {r : Rule} {run post : List Leaf} (h : r.Fits run post) : run ≠ [] := by
  cases h with
  | plain _ hne => exact hne
  | sequence h =>
    obtain ⟨⟨a, ys, rfl, -⟩, -⟩ := h
    exact List.cons_ne_nil a ys

namespace Stream

variable {s : Stream} {included : List Tag}

/-- Only line breaks are detached, and they are in order.  No separator is active. -/
structure Tidy (s : Stream) : Prop where
  active : ∀ l ∈ s.leaves, l.tag ≠ .newline ∧ l.tag ≠ .semicolon
  breaks : ∀ d ∈ s.detached, d.symbol.tag = .newline ∧ d.symbol.fragment = none
  sorted : s.detached.Pairwise fun d e => d.position ≤ e.position

/-! ### What a rule sees -/

/-- The detached symbols before the active symbol at `i` that a rule sees. -/
def gap (s : Stream) (included : List Tag) (i : Nat) : List (Tag × Entry) :=
  (s.detached.zipIdx.filter fun d =>
    decide (d.1.position = i) && included.contains d.1.symbol.tag).map
      fun d => (d.1.symbol.tag, .detached d.2)

/-- The leaves from index `i` on, and after each the gap that follows it. -/
def seen (s : Stream) (included : List Tag) : Nat → List Leaf → List (Tag × Entry)
  | _, [] => []
  | i, l :: xs => (l.tag, .active i) :: (s.gap included (i + 1) ++ s.seen included (i + 1) xs)

theorem seen_append (i : Nat) (xs ys : List Leaf) : s.seen included i (xs ++ ys) =
    s.seen included i xs ++ s.seen included (i + xs.length) ys := by
  induction xs generalizing i with
  | nil => rfl
  | cons l xs ih =>
    rw [List.cons_append, seen, seen, ih, List.length_cons, List.cons_append, List.append_assoc,
      Nat.add_right_comm, Nat.add_assoc]

/-- The leaves from index `i` on, and the gaps between them. -/
def between (s : Stream) (included : List Tag) : Nat → List Leaf → List (Tag × Entry)
  | _, [] => []
  | i, [l] => [(l.tag, .active i)]
  | i, l :: l' :: xs =>
    (l.tag, .active i) :: (s.gap included (i + 1) ++ s.between included (i + 1) (l' :: xs))

theorem seen_eq_between {i : Nat} {xs : List Leaf} (hxs : xs ≠ []) :
    s.seen included i xs = s.between included i xs ++ s.gap included (i + xs.length) := by
  fun_induction between s included i xs with
  | case1 => exact absurd rfl hxs
  | case2 => exact congrArg (_ :: ·) (List.append_nil _)
  | case3 i l l' xs ih =>
    rw [seen, ih (List.cons_ne_nil _ _), List.cons_append, List.append_assoc, Nat.add_assoc,
      Nat.add_comm 1]
    rfl

/-- In a sorted list the elements up to a bound are at the front. -/
theorem takeWhile_le {α : Type} {f : α → Nat} {xs : List α} (h : xs.Pairwise fun a b => f a ≤ f b)
    (n : Nat) : (xs.takeWhile fun a => decide (f a ≤ n)) = xs.filter (fun a => decide (f a ≤ n)) ∧
      (xs.dropWhile fun a => decide (f a ≤ n)) = xs.filter (fun a => decide (n < f a)) := by
  induction h with
  | nil => exact ⟨rfl, rfl⟩
  | @cons a xs ha _ ih =>
    by_cases hn : f a ≤ n
    · simp [hn, Nat.not_lt.mpr hn, ih.1, ih.2]
    · have hlt : ∀ b ∈ xs, n < f b := fun b hb => Nat.lt_of_lt_of_le (Nat.not_le.mp hn) (ha b hb)
      have hnone : xs.filter (fun b => decide (f b ≤ n)) = [] :=
        List.filter_eq_nil_iff.mpr fun b hb => by simpa using hlt b hb
      have hall : xs.filter (fun b => decide (n < f b)) = xs :=
        List.filter_eq_self.mpr fun b hb => by simpa using hlt b hb
      simp [hn, Nat.not_le.mp hn, hnone, hall]

theorem weave_eq {i : Nat} {xs : List Leaf} {ds : List (Detached × Nat)}
    (hsorted : ds.Pairwise fun d e => d.1.position ≤ e.1.position)
    (hds : ∀ j, i < j → ds.filter (fun d => decide (d.1.position = j)) =
      s.detached.zipIdx.filter fun d => decide (d.1.position = j)) :
    weave included i (xs.map Leaf.symbol) ds = s.seen included i xs := by
  induction xs generalizing i ds with
  | nil => rfl
  | cons l xs ih =>
    obtain ⟨htake, hdrop⟩ := takeWhile_le hsorted (i + 1)
    have hgap : (ds.takeWhile fun d => decide (d.1.position ≤ i + 1)).filter (fun d =>
        decide (d.1.position = i + 1) && included.contains d.1.symbol.tag) =
        s.detached.zipIdx.filter fun d =>
          decide (d.1.position = i + 1) && included.contains d.1.symbol.tag := by
      have hand : ∀ es : List (Detached × Nat), (es.filter fun d =>
          decide (d.1.position = i + 1) && included.contains d.1.symbol.tag) =
          (es.filter fun d => decide (d.1.position = i + 1)).filter fun d =>
            included.contains d.1.symbol.tag := by
        intro es
        rw [List.filter_filter]
        exact List.filter_congr fun d _ => Bool.and_comm _ _
      have hpast : ∀ es : List (Detached × Nat), (es.filter fun d =>
          decide (d.1.position ≤ i + 1)).filter (fun d => decide (d.1.position = i + 1)) =
          es.filter fun d => decide (d.1.position = i + 1) := by
        intro es
        rw [List.filter_filter]
        refine List.filter_congr fun d _ => ?_
        by_cases hd : d.1.position = i + 1 <;> simp [hd]
      rw [hand, hand, ← hds (i + 1) (Nat.lt_succ_self i), htake, hpast]
    rw [List.map_cons, weave, hgap, hdrop, seen, List.cons_append, ih]
    · rfl
    · exact hsorted.filter _
    · intro j hj
      rw [← hds j (by omega), List.filter_filter]
      refine List.filter_congr fun d _ => ?_
      by_cases hd : d.1.position = j
      · simp [hd, hj]
      · simp [hd]

/-- What a rule sees, if what is detached is in order. -/
theorem entries_eq (hsorted : s.detached.Pairwise fun d e => d.position ≤ e.position)
    (included : List Tag) : s.entries included = s.seen included 0 s.leaves := by
  rw [← List.zipIdx_map_fst 0 s.detached, List.pairwise_map] at hsorted
  rw [entries, ← map_symbol_leaves]
  exact weave_eq hsorted fun _ _ => rfl

/-! ### Searches -/

/-- No match begins with a line break. -/
theorem rest?_newline (r : Rule) (ts : List Tag) : r.pattern.rest? (.newline :: ts) = none := by
  cases r <;> rfl

theorem tag_of_mem_gap {r : Rule} {i : Nat} {e : Tag × Entry} (he : e ∈ s.gap r.included i) :
    e.1 = .newline := by
  obtain ⟨d, hd, rfl⟩ := List.mem_map.mp he
  have hshown := (List.mem_filter.mp hd).2
  rw [Bool.and_eq_true, List.contains_iff_mem] at hshown
  exact Rule.tag_of_included hshown.2

variable {r : Rule} {f : Found}

/-- The match of a rule at the front of these leaves, the first of which has index `i`. -/
def matchSeen (s : Stream) (r : Rule) (i : Nat) (xs : List Leaf) : Option Found :=
  s.matchAt r ((s.seen r.included i xs).map Prod.fst) ((s.seen r.included i xs).map Prod.snd)

theorem findIn_newlines {es : List (Tag × Entry)} (hes : ∀ e ∈ es, e.1 = .newline)
    (ts : List Tag) (us : List Entry) :
    s.findIn r (es.map Prod.fst ++ ts) (es.map Prod.snd ++ us) = s.findIn r ts us := by
  induction es with
  | nil => rfl
  | cons e es ih =>
    have hnone : s.matchAt r (e.1 :: (es.map Prod.fst ++ ts)) (e.2 :: (es.map Prod.snd ++ us)) =
        none := by
      rw [matchAt, Pattern.length?, hes e List.mem_cons_self, rest?_newline]
      rfl
    rw [List.map_cons, List.map_cons, List.cons_append, List.cons_append, findIn, hnone]
    exact ih fun e' he => hes e' (List.mem_cons_of_mem _ he)

theorem findIn_seen (i : Nat) (l : Leaf) (xs : List Leaf) :
    s.findIn r ((s.seen r.included i (l :: xs)).map Prod.fst)
        ((s.seen r.included i (l :: xs)).map Prod.snd) =
      ((s.matchSeen r i (l :: xs)).or (s.findIn r ((s.seen r.included (i + 1) xs).map Prod.fst)
        ((s.seen r.included (i + 1) xs).map Prod.snd))) := by
  rw [matchSeen, seen, List.map_cons, List.map_cons, findIn, List.map_append, List.map_append,
    findIn_newlines fun e he => tag_of_mem_gap he]
  split <;> rename_i hmatch <;> rw [hmatch] <;> rfl

/-- A search ends at the first place where there is a match. -/
theorem findIn_seen_eq_some {i : Nat} {xs : List Leaf}
    (hfind : s.findIn r ((s.seen r.included i xs).map Prod.fst)
      ((s.seen r.included i xs).map Prod.snd) = some f) :
    ∃ us a vs, xs = us ++ a :: vs ∧ s.matchSeen r (i + us.length) (a :: vs) = some f ∧
      ∀ us₁ b us₂, us = us₁ ++ b :: us₂ →
        s.matchSeen r (i + us₁.length) (b :: (us₂ ++ a :: vs)) = none := by
  induction xs generalizing i with
  | nil => cases hfind
  | cons l xs ih =>
    rw [findIn_seen] at hfind
    cases hmatch : s.matchSeen r i (l :: xs) with
    | some g =>
      rw [hmatch, Option.some_or] at hfind
      refine ⟨[], l, xs, rfl, hmatch.trans hfind, ?_⟩
      intro us₁ b us₂ hnil
      simp at hnil
    | none =>
      rw [hmatch, Option.none_or] at hfind
      obtain ⟨us, a, vs, rfl, hfound, hleft⟩ := ih hfind
      refine ⟨l :: us, a, vs, rfl, ?_, ?_⟩
      · rwa [List.length_cons, ← Nat.add_assoc, Nat.add_right_comm]
      · intro us₁ b us₂ hus
        cases us₁ with
        | nil =>
          obtain ⟨rfl, rfl⟩ := List.cons.inj hus
          exact hmatch
        | cons c us₁ =>
          obtain ⟨rfl, rfl⟩ := List.cons.inj hus
          have hnone := hleft us₁ b us₂ rfl
          rwa [Nat.add_assoc, Nat.add_comm 1] at hnone

/-- A search fails if there is no match anywhere. -/
theorem findIn_seen_eq_none {i : Nat} {xs : List Leaf}
    (hfind : s.findIn r ((s.seen r.included i xs).map Prod.fst)
      ((s.seen r.included i xs).map Prod.snd) = none) {us vs : List Leaf} {a : Leaf}
    (hxs : xs = us ++ a :: vs) : s.matchSeen r (i + us.length) (a :: vs) = none := by
  induction us generalizing i xs with
  | nil =>
    subst hxs
    rw [List.nil_append, findIn_seen] at hfind
    exact (Option.or_eq_none_iff.mp hfind).1
  | cons l us ih =>
    subst hxs
    rw [List.cons_append, findIn_seen] at hfind
    have hnone := ih (Option.or_eq_none_iff.mp hfind).2 rfl
    rwa [Nat.add_assoc, Nat.add_comm 1] at hnone

/-! ### Patterns that see no line breaks -/

theorem gap_nil (s : Stream) (i : Nat) : s.gap [] i = [] := by
  simp [gap]

theorem tags_seen_nil (i : Nat) (xs : List Leaf) :
    (s.seen [] i xs).map Prod.fst = xs.map Leaf.tag := by
  induction xs generalizing i with
  | nil => rfl
  | cons l xs ih =>
    rw [seen, gap_nil, List.nil_append]
    exact congrArg (l.tag :: ·) (ih (i + 1))

theorem activeIndices_gap (i : Nat) : activeIndices ((s.gap included i).map Prod.snd) = [] := by
  rw [activeIndices, List.filterMap_eq_nil_iff]
  intro e he
  obtain ⟨p, hp, rfl⟩ := List.mem_map.mp he
  obtain ⟨d, -, rfl⟩ := List.mem_map.mp hp
  rfl

theorem activeIndices_between (i : Nat) (xs : List Leaf) :
    activeIndices ((s.between included i xs).map Prod.snd) = List.range' i xs.length := by
  fun_induction between s included i xs with
  | case1 => rfl
  | case2 => rfl
  | case3 i l l' xs ih =>
    have hgap : activeIndices ((s.gap included (i + 1)).map Prod.snd) = [] :=
      s.activeIndices_gap (i + 1)
    rw [activeIndices] at hgap ih ⊢
    rw [List.map_cons, List.map_append, List.filterMap_cons, List.filterMap_append, hgap, ih]
    rfl

/-- The match of a rule that is this run. -/
def matchOf (s : Stream) (r : Rule) (pre run : List Leaf) : Found :=
  ⟨(s.between r.included pre.length run).map Prod.snd, ⟨pre.length, run.length⟩⟩

/-- What a pattern takes is a run of leaves, if it leaves what is behind the run. -/
theorem matchSeen_of_rest? {pre run post : List Leaf} (hs : s.leaves = pre ++ (run ++ post))
    (hne : run ≠ []) {ts : List Tag}
    (hrest : r.pattern.rest? ((s.seen r.included pre.length (run ++ post)).map Prod.fst) = some ts)
    (hts : ts.length = (s.gap r.included (pre.length + run.length)).length +
      (s.seen r.included (pre.length + run.length) post).length) :
    s.matchSeen r pre.length (run ++ post) =
      if r.admits pre run post then some (s.matchOf r pre run) else none := by
  have hseen : s.seen r.included pre.length (run ++ post) =
      s.between r.included pre.length run ++ (s.gap r.included (pre.length + run.length) ++
        s.seen r.included (pre.length + run.length) post) := by
    rw [seen_append, seen_eq_between hne, List.append_assoc]
  have hlength : r.pattern.length? ((s.seen r.included pre.length (run ++ post)).map Prod.fst) =
      some (s.between r.included pre.length run).length := by
    rw [Pattern.length?, hrest, Option.map_some, List.length_map, hseen, List.length_append,
      List.length_append, hts, Nat.add_sub_cancel]
  have hstart : (List.range' pre.length run.length).head? = some pre.length := by
    obtain ⟨l, run, rfl⟩ := List.exists_cons_of_ne_nil hne
    rfl
  rw [matchSeen, matchAt, hlength, hseen, List.map_append, Option.bind_eq_bind, Option.bind_some]
  dsimp only
  rw [List.take_left' (List.length_map _), activeIndices_between, hstart, Option.bind_some,
    List.length_range', accepts_of_leaves hs hne]
  rfl

/-- The matches of a rule for which there are no line breaks. -/
theorem matchSeen_plain_iff (hr : r ≠ .sequence) {pre xs : List Leaf}
    (hs : s.leaves = pre ++ xs) : s.matchSeen r pre.length xs = some f ↔
      ∃ run post, xs = run ++ post ∧ r.Takes pre run post ∧ f = s.matchOf r pre run := by
  have hincluded := Rule.included_eq_nil hr
  have hmatch : ∀ run post, xs = run ++ post → run ≠ [] →
      r.pattern.rest? ((run ++ post).map Leaf.tag) = some (post.map Leaf.tag) →
      s.matchSeen r pre.length xs =
        if r.admits pre run post then some (s.matchOf r pre run) else none := by
    rintro run post rfl hne hrest
    have htags : r.pattern.rest? ((s.seen r.included pre.length (run ++ post)).map Prod.fst) =
        some (post.map Leaf.tag) := by rw [hincluded, tags_seen_nil, hrest]
    have hlength : (s.seen [] (pre.length + run.length) post).length =
        (post.map Leaf.tag).length := by rw [← tags_seen_nil, List.length_map]
    refine matchSeen_of_rest? hs hne htags ?_
    rw [hincluded, gap_nil, hlength]
    simp
  constructor
  · intro h
    cases hrest : r.pattern.rest? (xs.map Leaf.tag) with
    | none =>
      rw [matchSeen, matchAt, Pattern.length?, hincluded, tags_seen_nil, hrest] at h
      cases h
    | some ts =>
      obtain ⟨run, post, rfl, rfl⟩ : ∃ run post, xs = run ++ post ∧ ts = post.map Leaf.tag := by
        obtain ⟨us, hus⟩ := Pattern.rest?_suffix hrest
        obtain ⟨run, post, rfl, -, rfl⟩ := List.map_eq_append_iff.mp hus.symm
        exact ⟨run, post, rfl, rfl⟩
      cases run with
      | nil =>
        rw [matchSeen, matchAt, Pattern.length?, hincluded, tags_seen_nil, hrest, Option.map_some,
          List.nil_append, Nat.sub_self] at h
        cases h
      | cons l run =>
        have hne : l :: run ≠ [] := List.cons_ne_nil l run
        rw [hmatch _ _ rfl hne hrest] at h
        split at h
        case isTrue hadmits => exact ⟨_, _, rfl, ⟨.plain hr hne hrest, hadmits⟩, (Option.some.inj h).symm⟩
        case isFalse => cases h
  · rintro ⟨run, post, rfl, ⟨hfits, hadmits⟩, rfl⟩
    obtain ⟨-, hne, hrest⟩ | hfits := hfits
    · rw [hmatch _ _ rfl hne hrest, if_pos hadmits]
    · exact absurd rfl hr

/-! ### Sequences -/

/-- The tags of a gap that the rule for sequences sees. -/
theorem tags_gap (s : Stream) (i : Nat) :
    ∃ k, (s.gap [.newline] i).map Prod.fst = List.replicate k .newline ∧
      (k = 0 ↔ s.lineBreakBefore i = false) := by
  refine ⟨(s.gap [.newline] i).length, ?_, ?_⟩
  · refine List.eq_replicate_iff.mpr ⟨List.length_map _, fun t ht => ?_⟩
    obtain ⟨e, he, rfl⟩ := List.mem_map.mp ht
    exact tag_of_mem_gap (r := .sequence) he
  · rw [List.length_eq_zero_iff, gap, List.map_eq_nil_iff, List.filter_eq_nil_iff,
      lineBreakBefore, List.any_eq_false]
    constructor
    · intro hnone d hd
      obtain ⟨j, hj, rfl⟩ := List.mem_iff_getElem.mp hd
      have := hnone (s.detached[j], j) (by simp [List.mem_zipIdx_iff_getElem?, hj])
      simpa using this
    · rintro hnone ⟨d, j⟩ hd
      have hmem := (List.mem_zipIdx' hd).2
      have := hnone d (hmem ▸ List.getElem_mem _)
      simpa using this

/-- The tags from the gap before these leaves on, the first of which has index `i`. -/
def tagsFrom (s : Stream) (i : Nat) (xs : List Leaf) : List Tag :=
  (s.gap [.newline] i).map Prod.fst ++ (s.seen [.newline] i xs).map Prod.fst

open Pattern in
/-- A program on a line of its own is taken with the line breaks before it. -/
theorem rest?_separated (h : s.Tidy) {pre xs : List Leaf} (hs : s.leaves = pre ++ xs) :
    separated.rest? (s.tagsFrom pre.length xs) =
      match xs with
      | [] => none
      | l :: ys => if l.joins then some (s.tagsFrom (pre.length + 1) ys) else none := by
  obtain ⟨k, hgap, hk⟩ := s.tags_gap pre.length
  cases xs with
  | nil =>
    rw [tagsFrom, hgap, separated, all_cons, all_singleton, rest?_andThen, seen, List.map_nil,
      rest?_separators k rfl]
    split <;> rfl
  | cons l ys =>
    obtain ⟨hnewline, hsemicolon⟩ := h.active l (by simp [hs])
    have hseparator : separator.rest? ((s.seen [.newline] pre.length (l :: ys)).map Prod.fst) =
        none := by
      rw [seen, List.map_cons, separator, rest?_one_cons]
      simp [hnewline, hsemicolon]
    rw [tagsFrom, hgap, separated, all_cons, all_singleton, rest?_andThen,
      rest?_separators k hseparator]
    rw [lineBreakBefore_of_leaves hs] at hk
    dsimp only
    cases hb : l.broken with
    | false => simp [hk.mpr hb, Leaf.joins, hb]
    | true =>
      have hk : k ≠ 0 := by
        intro h0
        rw [hk.mp h0] at hb
        cases hb
      rw [if_neg hk, Option.bind_some, seen, List.map_cons, rest?_tag_cons, Leaf.joins, hb,
        Bool.and_true, List.map_append]
      by_cases hl : l.tag = .program <;> simp [hl, tagsFrom]

open Pattern in
/-- All programs are taken that are on lines of their own. -/
theorem rest?_many_separated (h : s.Tidy) {pre xs : List Leaf} (hs : s.leaves = pre ++ xs) :
    (many separated).rest? (s.tagsFrom pre.length xs) =
      some (s.tagsFrom (pre.length + (xs.takeWhile Leaf.joins).length)
        (xs.dropWhile Leaf.joins)) := by
  induction xs generalizing pre with
  | nil => exact rest?_many_of_none (rest?_separated h hs)
  | cons l xs ih =>
    have hstep := rest?_separated h hs
    dsimp only at hstep
    cases hl : l.joins with
    | false =>
      rw [hl] at hstep
      rw [rest?_many_of_none hstep, List.takeWhile_cons_of_neg (by simp [hl]),
        List.dropWhile_cons_of_neg (by simp [hl])]
      rfl
    | true =>
      rw [hl] at hstep
      have hs' : s.leaves = (pre ++ [l]) ++ xs := by rw [hs]; simp
      have hrest := ih hs'
      rw [List.length_append, List.length_singleton] at hrest
      rw [rest?_many_of_some consumes_separated hstep, hrest, List.takeWhile_cons_of_pos hl,
        List.dropWhile_cons_of_pos hl, List.length_cons, Nat.add_assoc, Nat.add_comm 1]

open Pattern in
/-- The pattern for sequences takes programs as long as they are on lines of their own. -/
theorem rest?_sequence (h : s.Tidy) {pre xs : List Leaf} {a : Leaf} (hs : s.leaves = pre ++ a :: xs) :
    Rule.sequence.pattern.rest? ((s.seen [.newline] pre.length (a :: xs)).map Prod.fst) =
      if a.tag = .program ∧ xs.takeWhile Leaf.joins ≠ [] then
        some (s.tagsFrom (pre.length + 1 + (xs.takeWhile Leaf.joins).length)
          (xs.dropWhile Leaf.joins))
      else none := by
  have hs' : s.leaves = (pre ++ [a]) ++ xs := by rw [hs]; simp
  have hone := rest?_separated h hs'
  have hmany := rest?_many_separated h hs'
  rw [List.length_append, List.length_singleton] at hone hmany
  rw [pattern_sequence, rest?_andThen, seen, List.map_cons, List.map_append, rest?_tag_cons]
  by_cases ha : a.tag = .program
  · have hassoc : (andThen (atLeastOnce separator) (andThen (tag .program) (many separated))).rest?
        (s.tagsFrom (pre.length + 1) xs) =
        (separated.rest? (s.tagsFrom (pre.length + 1) xs)).bind (many separated).rest? := by
      rw [rest?_andThen, separated, all_cons, all_singleton, rest?_andThen, Option.bind_assoc]
      rfl
    rw [if_pos ha, Option.bind_some]
    refine hassoc.trans ?_
    rw [hone]
    cases xs with
    | nil => simp
    | cons l ys =>
      dsimp only
      cases hl : l.joins with
      | false => simp [hl]
      | true =>
        have hstep : (many separated).rest? (s.tagsFrom (pre.length + 1) (l :: ys)) =
            (many separated).rest? (s.tagsFrom (pre.length + 1 + 1) ys) := by
          refine rest?_many_of_some consumes_separated ?_
          rw [hone]
          simp [hl]
        rw [if_pos rfl, Option.bind_some, ← hstep, hmany, if_pos ⟨ha, by simp [hl]⟩]
  · rw [if_neg ha, if_neg fun h => ha h.1]
    rfl

/-- The matches of the rule for sequences. -/
theorem matchSeen_sequence_iff (h : s.Tidy) {pre xs : List Leaf} (hs : s.leaves = pre ++ xs) :
    s.matchSeen .sequence pre.length xs = some f ↔
      ∃ run post, xs = run ++ post ∧ Rule.sequence.Takes pre run post ∧
        f = s.matchOf .sequence pre run := by
  cases xs with
  | nil =>
    constructor
    · intro hmatch
      cases hmatch
    · rintro ⟨run, post, hrun, htakes, -⟩
      exact absurd (List.append_eq_nil_iff.mp hrun.symm).1 htakes.fits.ne_nil
  | cons a xs =>
    have hrest := rest?_sequence h hs
    by_cases hsucc : a.tag = .program ∧ xs.takeWhile Leaf.joins ≠ []
    · have hxs' : a :: xs = (a :: xs.takeWhile Leaf.joins) ++ xs.dropWhile Leaf.joins := by
        rw [List.cons_append, List.takeWhile_append_dropWhile]
      rw [if_pos hsucc] at hrest
      have hmatch : s.matchSeen .sequence pre.length (a :: xs) =
          if Rule.sequence.admits pre (a :: xs.takeWhile Leaf.joins) (xs.dropWhile Leaf.joins) then
            some (s.matchOf .sequence pre (a :: xs.takeWhile Leaf.joins)) else none := by
        rw [hxs'] at hrest hs ⊢
        refine matchSeen_of_rest? hs (List.cons_ne_nil _ _) hrest ?_
        rw [tagsFrom, List.length_append, List.length_map, List.length_map, List.length_cons,
          Nat.add_assoc, Nat.add_comm 1]
        rfl
      rw [hmatch]
      constructor
      · intro h
        split at h
        case isTrue hadmits =>
          exact ⟨_, _, hxs', ⟨.sequence (succession_of_takeWhile hsucc.1 hsucc.2), hadmits⟩,
            (Option.some.inj h).symm⟩
        case isFalse => cases h
      · rintro ⟨run, post, hrun, ⟨⟨hne⟩ | ⟨hrun'⟩, hadmits⟩, rfl⟩
        · exact absurd rfl hne
        obtain ⟨rfl, rfl, -, -⟩ := hrun'.split hrun
        rw [if_pos hadmits]
    · rw [if_neg hsucc] at hrest
      have hmatch : s.matchSeen .sequence pre.length (a :: xs) = none := by
        rw [matchSeen, matchAt, Pattern.length?]
        exact hrest ▸ rfl
      rw [hmatch]
      constructor
      · intro h
        cases h
      · rintro ⟨run, post, hrun, ⟨⟨hne⟩ | ⟨hrun'⟩, -⟩, -⟩
        · exact absurd rfl hne
        · exact absurd (hrun'.split hrun).2.2 hsucc

/-! ### Finding -/

/-- What is detached is in order, and the matches that the rule accepts are the runs of leaves that
it takes. -/
structure Sees (s : Stream) (r : Rule) : Prop where
  sorted : s.detached.Pairwise fun d e => d.position ≤ e.position
  takes_iff : ∀ {pre xs : List Leaf} {f : Found}, s.leaves = pre ++ xs →
    (s.matchSeen r pre.length xs = some f ↔
      ∃ run post, xs = run ++ post ∧ r.Takes pre run post ∧ f = s.matchOf r pre run)

/-- In a tidy stream this is so of every rule. -/
theorem Tidy.sees (h : s.Tidy) (r : Rule) : s.Sees r := by
  by_cases hr : r = .sequence
  · subst hr
    exact ⟨h.sorted, matchSeen_sequence_iff h⟩
  · exact ⟨h.sorted, matchSeen_plain_iff hr⟩

/-- In any stream it is so of the rules that see no line breaks. -/
theorem sees_plain (hsorted : s.detached.Pairwise fun d e => d.position ≤ e.position)
    (hr : r ≠ .sequence) : s.Sees r := ⟨hsorted, matchSeen_plain_iff hr⟩

/-- A rule finds the leftmost of its matches. -/
theorem Sees.find_eq_some (h : s.Sees r) (hfind : s.find r = some f) :
    ∃ pre run post, s.leaves = pre ++ (run ++ post) ∧ r.Takes pre run post ∧ f = s.matchOf r pre run ∧
      ∀ u v w run' post', pre = u ++ v :: w → v :: (w ++ (run ++ post)) = run' ++ post' →
        ¬ r.Takes u run' post' := by
  rw [find, entries_eq h.sorted] at hfind
  obtain ⟨us, a, vs, hleaves, hfound, hleft⟩ := findIn_seen_eq_some hfind
  rw [Nat.zero_add] at hfound
  obtain ⟨run, post, hrun, htakes, hf⟩ := (h.takes_iff hleaves).mp hfound
  rw [hrun] at hleaves hleft
  refine ⟨us, run, post, hleaves, htakes, hf, ?_⟩
  rintro u v w run' post' rfl hrun' htakes'
  have hnone := hleft u v w rfl
  rw [Nat.zero_add, hrun'] at hnone
  have hsome := (h.takes_iff (by
    rw [hleaves, List.append_assoc, List.cons_append, hrun'])).mpr ⟨run', post', rfl, htakes', rfl⟩
  rw [hsome] at hnone
  cases hnone

/-- It finds one if there is one. -/
theorem Sees.find_ne_none (h : s.Sees r) {pre run post : List Leaf}
    (hs : s.leaves = pre ++ (run ++ post)) (htakes : r.Takes pre run post) : s.find r ≠ none := by
  intro hfind
  rw [find, entries_eq h.sorted] at hfind
  obtain ⟨l, run, rfl⟩ := List.exists_cons_of_ne_nil htakes.fits.ne_nil
  have hsome := (h.takes_iff hs).mpr ⟨_, _, rfl, htakes, rfl⟩
  have hnone := findIn_seen_eq_none hfind hs
  rw [Nat.zero_add] at hnone
  cases hsome.symm.trans hnone

end Stream

end StackScript
