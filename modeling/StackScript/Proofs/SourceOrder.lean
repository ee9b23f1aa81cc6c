import StackScript.Proofs.Detaching
import StackScript.Proofs.LineBreaks

/-!
# StackScript.Proofs.SourceOrder — the order in which removed tokens are listed

In a gap the removed symbols stand in the order in which their tags were removed.  So they stand in
the order of the source if and only if the source has no token right before one whose tag was
removed before its own (`Stream.listed_in_order_iff`).
-/

namespace StackScript

namespace Stream

/-- Each symbol begins where those before it have ended, or behind. -/
def InSourceOrder (as : List Symbol) : Prop := as.Pairwise fun a b => a.span.stop ≤ b.span.start

/-- No symbol with a removed tag stands right before one whose tag was removed earlier. -/
def RemovedInOrder (tags : List Tag) (as : List Symbol) : Prop :=
  as.IsChain fun a b => a.tag ∈ tags → tags.idxOf a.tag ≤ tags.idxOf b.tag

variable {tags : List Tag} {tag : Tag} {source old moved detached as bs : List Symbol}

/-! ### One gap -/

/-- What is detached in a gap belongs to what the source has there, it is in the order of the source
if this was removed in order, and only then, and then neighbours are joined and nothing else. -/
structure Faithful (tags : List Tag) (source detached : List Symbol) : Prop where
  removed : ∀ a ∈ source, a.tag ∈ tags
  origin : ∀ c ∈ detached, ∃ a ∈ source,
    a.tag = c.tag ∧ a.span.start = c.span.start ∧ a.span.stop ≤ c.span.stop
  nil : detached = [] → source = []
  chain : detached.IsChain fun a b => a.tag ≠ b.tag
  ordered : InSourceOrder detached → RemovedInOrder tags.reverse source
  joins : RemovedInOrder tags.reverse source → detached = joined source

/-- What has been gathered for one more tag.  As long as no gap but the first has anything in it,
all is as in the first gap, with the symbols of the tag behind it; else one of them stands before
something that was removed earlier. -/
structure Gathering (tags : List Tag) (tag : Tag) (source old moved : List Symbol) : Prop where
  removed : ∀ a ∈ source, a.tag ∈ tag :: tags
  origin : ∀ c ∈ old, c.tag ∈ tags ∧ ∃ a ∈ source,
    a.tag = c.tag ∧ a.span.start = c.span.start ∧ a.span.stop ≤ c.span.stop
  latest : ∀ a ∈ moved, a ∈ source ∧ a.tag = tag ∧ tag ∉ tags
  shape : (∃ first, source = first ++ moved ∧ Faithful tags first old) ∨
    (∃ c ∈ old, ∃ a ∈ moved.head?, a.span.stop ≤ c.span.start) ∧
      ¬ RemovedInOrder (tag :: tags).reverse source

theorem idxOf_reverse_cons_of_mem {t : Tag} (h : t ∈ tags) :
    (tag :: tags).reverse.idxOf t = tags.reverse.idxOf t := by
  rw [List.reverse_cons, List.idxOf_append_of_mem (List.mem_reverse.mpr h)]

theorem idxOf_reverse_cons_self (h : tag ∉ tags) :
    (tag :: tags).reverse.idxOf tag = tags.length := by
  rw [List.reverse_cons, List.idxOf_append_of_notMem (mt List.mem_reverse.mp h),
    List.idxOf_cons_self, Nat.add_zero, List.length_reverse]

theorem idxOf_reverse_lt {t : Tag} (h : t ∈ tags) : tags.reverse.idxOf t < tags.length := by
  rw [← List.length_reverse]
  exact List.idxOf_lt_length_of_mem (List.mem_reverse.mpr h)

/-- A symbol of the latest tag before one of an earlier tag. -/
theorem not_removedInOrder {a b : Symbol} (ha : a.tag = tag) (htag : tag ∉ tags)
    (hb : b.tag ∈ tags) :
    ¬ RemovedInOrder (tag :: tags).reverse (as ++ a :: b :: bs) := by
  intro h
  have hle := (List.isChain_append_cons_cons.mp h).2.1
    (List.mem_reverse.mpr (ha ▸ List.mem_cons_self))
  rw [ha, idxOf_reverse_cons_self htag, idxOf_reverse_cons_of_mem hb] at hle
  exact Nat.not_lt.mpr hle (idxOf_reverse_lt hb)

/-- Symbols of the latest tag behind the others. -/
theorem removedInOrder_append_iff (has : ∀ a ∈ as, a.tag ∈ tags)
    (hbs : ∀ b ∈ bs, b.tag = tag ∧ tag ∉ tags) :
    RemovedInOrder (tag :: tags).reverse (as ++ bs) ↔ RemovedInOrder tags.reverse as := by
  have hsame : RemovedInOrder (tag :: tags).reverse as ↔ RemovedInOrder tags.reverse as := by
    refine List.IsChain.iff_of_mem_imp fun a b ha hb => ?_
    rw [idxOf_reverse_cons_of_mem (has a ha), idxOf_reverse_cons_of_mem (has b hb)]
    exact imp_congr_left (iff_of_true (List.mem_reverse.mpr (List.mem_cons_of_mem _ (has a ha)))
      (List.mem_reverse.mpr (has a ha)))
  have hlatest : RemovedInOrder (tag :: tags).reverse bs := by
    refine (List.pairwise_of_forall_mem_list fun a ha b hb _ => ?_).isChain
    rw [(hbs a ha).1, (hbs b hb).1]
  rw [← hsame, RemovedInOrder, List.isChain_append]
  refine ⟨fun h => h.1, fun h => ⟨h, hlatest, fun a ha b hb _ => ?_⟩⟩
  have ha := has a (List.mem_of_mem_getLast? ha)
  obtain ⟨hb, htag⟩ := hbs b (List.mem_of_mem_head? hb)
  rw [hb, idxOf_reverse_cons_self htag, idxOf_reverse_cons_of_mem ha]
  exact Nat.le_of_lt (idxOf_reverse_lt ha)

theorem Faithful.gathering (h : Faithful tags source detached) :
    Gathering tags tag source detached [] := by
  refine ⟨fun a ha => List.mem_cons_of_mem _ (h.removed a ha), fun c hc => ?_,
    List.forall_mem_nil _, .inl ⟨source, (List.append_nil source).symm, h⟩⟩
  obtain ⟨a, ha, htag, hspan⟩ := h.origin c hc
  exact ⟨htag ▸ h.removed a ha, a, ha, htag, hspan⟩

/-- One more symbol of the tag, and the gap behind it. -/
theorem Gathering.snoc {a : Symbol} {source' : List Symbol}
    (h : Gathering tags tag source old moved) (ha : a.tag = tag) (hkept : tag ∉ tags)
    (hf : Faithful tags source' detached) (hsource : InSourceOrder (source ++ a :: source')) :
    Gathering tags tag (source ++ a :: source') (old ++ detached) (moved ++ [a]) := by
  obtain ⟨hremoved, horigin, hmoved, hshape⟩ := h
  refine ⟨?_, ?_, ?_, ?_⟩
  · refine List.forall_mem_append.mpr ⟨hremoved, List.forall_mem_cons.mpr ⟨?_, fun b hb => ?_⟩⟩
    · exact ha ▸ List.mem_cons_self
    · exact List.mem_cons_of_mem _ (hf.removed b hb)
  · refine List.forall_mem_append.mpr ⟨fun c hc => ?_, fun c hc => ?_⟩
    · obtain ⟨hc, b, hb, hspan⟩ := horigin c hc
      exact ⟨hc, b, List.mem_append_left _ hb, hspan⟩
    · obtain ⟨b, hb, htag, hspan⟩ := hf.origin c hc
      exact ⟨htag ▸ hf.removed b hb, b, List.mem_append_right _ (List.mem_cons_of_mem _ hb),
        htag, hspan⟩
  · refine List.forall_mem_append.mpr ⟨fun b hb => ?_, fun b hb => ?_⟩
    · obtain ⟨hb, htag⟩ := hmoved b hb
      exact ⟨List.mem_append_left _ hb, htag⟩
    · obtain rfl := List.mem_singleton.mp hb
      exact ⟨List.mem_append_right _ List.mem_cons_self, ha, hkept⟩
  rcases hshape with ⟨first, rfl, hfirst⟩ | ⟨⟨c, hc, b, hb, hle⟩, hnot⟩
  · cases detached with
    | nil =>
      obtain rfl := hf.nil rfl
      refine .inl ⟨first, List.append_assoc .., ?_⟩
      rwa [List.append_nil]
    | cons c detached =>
      -- something that was removed earlier stands behind this symbol
      obtain ⟨-, hsource', hbefore⟩ := List.pairwise_append.mp hsource
      obtain ⟨b, hb, -, hstart, -⟩ := hf.origin c List.mem_cons_self
      obtain ⟨d, ds, rfl⟩ := List.exists_cons_of_ne_nil (List.ne_nil_of_mem hb)
      refine .inr ⟨⟨c, List.mem_append_right _ List.mem_cons_self, ?_⟩,
        not_removedInOrder ha hkept (hf.removed d List.mem_cons_self)⟩
      rw [← hstart]
      cases moved with
      | nil => exact ⟨a, rfl, (List.pairwise_cons.mp hsource').1 b hb⟩
      | cons e moved =>
        exact ⟨e, rfl, hbefore e (List.mem_append_right _ List.mem_cons_self) b
          (List.mem_cons_of_mem _ hb)⟩
  · refine .inr ⟨⟨c, List.mem_append_left _ hc, b, ?_, hle⟩, fun hin => ?_⟩
    · rw [Option.mem_def, List.head?_append, Option.mem_def.mp hb]
      rfl
    · exact hnot (List.IsChain.left_of_append hin)

/-- What has been gathered is joined. -/
theorem Gathering.faithful (h : Gathering tags tag source old moved)
    (hcovers : ∀ a ∈ source, a.span.start < a.span.stop) :
    Faithful (tag :: tags) source (joined (old ++ moved)) := by
  obtain ⟨hremoved, horigin, hmoved, hshape⟩ := h
  have hsplit : ∀ as : List Symbol, (∀ c ∈ as, c.tag ∈ tags) →
      joined (as ++ moved) = joined as ++ joined moved := by
    intro as has
    refine joinRuns_append fun c hc b hb hsame => ?_
    obtain ⟨-, htag, hkept⟩ := hmoved b (List.mem_of_mem_head? hb)
    exact absurd (htag ▸ hsame ▸ has c hc) hkept
  have hold : joined (old ++ moved) = joined old ++ joined moved :=
    hsplit old fun c hc => (horigin c hc).1
  refine ⟨hremoved, fun c hc => ?_, fun hnil => ?_, isChain_joined _, fun hin => ?_,
    fun hin => ?_⟩
  · obtain ⟨b, hb, htag, hstart, hstop⟩ := origin_of_mem_joinRuns hc
    rcases List.mem_append.mp hb with hb | hb
    · obtain ⟨-, a, ha, htag', hstart', hstop'⟩ := horigin b hb
      exact ⟨a, ha, htag'.trans htag, hstart'.trans hstart, Nat.le_trans hstop' hstop⟩
    · exact ⟨b, (hmoved b hb).1, htag, hstart, hstop⟩
  · obtain ⟨rfl, rfl⟩ := List.append_eq_nil_iff.mp (eq_nil_of_joinRuns hnil)
    rcases hshape with ⟨first, rfl, hfirst⟩ | ⟨⟨c, hc, -⟩, -⟩
    · rw [List.append_nil]
      exact hfirst.nil rfl
    · cases hc
  · rw [hold] at hin
    obtain ⟨hin, -, hcross⟩ := List.pairwise_append.mp hin
    rcases hshape with ⟨first, rfl, hfirst⟩ | ⟨⟨c, hc, a, ha, hle⟩, -⟩
    · have hself : joined old = old := joinRuns_eq_self hfirst.chain
      rw [hself] at hin
      exact (removedInOrder_append_iff hfirst.removed fun b hb => (hmoved b hb).2).mpr
        (hfirst.ordered hin)
    · -- what was removed earlier is listed before a symbol of the tag that it stands behind
      obtain ⟨d, hd, -, hstop⟩ := exists_mem_joinRuns (p := fun _ => true) hc
      obtain ⟨e, he, hstart⟩ : ∃ e ∈ joined moved, e.span.start = a.span.start := by
        obtain ⟨b, bs, rfl⟩ := List.exists_cons_of_ne_nil (List.ne_nil_of_mem
          (List.mem_of_mem_head? ha))
        obtain rfl : b = a := Option.some.inj ha
        obtain ⟨e, es, hes, -, hstart⟩ := joinInto_eq_cons (fun _ => true) b bs
        exact ⟨e, List.mem_of_mem_head? (congrArg List.head? hes), hstart⟩
      obtain ⟨-, b, hb, -, hstart', hstop'⟩ := horigin c hc
      have hde := hcross d hd e he
      have ha := hcovers a (hmoved a (List.mem_of_mem_head? ha)).1
      have hb := hcovers b hb
      omega
  · rcases hshape with ⟨first, rfl, hfirst⟩ | ⟨-, hnot⟩
    · have hin := (removedInOrder_append_iff hfirst.removed fun b hb => (hmoved b hb).2).mp hin
      have hself : joined old = old := joinRuns_eq_self hfirst.chain
      rw [hold, hself, hfirst.joins hin]
      exact (hsplit first hfirst.removed).symm
    · exact absurd hin hnot

theorem Gathered.gathering {P : List Symbol → List Symbol → Prop}
    (hP : ∀ source detached, P source detached → (∀ a ∈ source, a.span.start < a.span.stop) →
      InSourceOrder source → Faithful tags source detached)
    (h : Gathered tags P tag source old moved) (hcovers : ∀ a ∈ source, a.span.start < a.span.stop)
    (hsource : InSourceOrder source) : Gathering tags tag source old moved := by
  induction h with
  | gap h => exact (hP _ _ h hcovers hsource).gathering
  | @snoc source old moved source' detached a _ ha hkept hgap ih =>
    obtain ⟨hcovers, hcovers'⟩ := List.forall_mem_append.mp hcovers
    obtain ⟨hfirst, hrest, -⟩ := List.pairwise_append.mp hsource
    have hf := hP source' detached hgap (List.forall_mem_cons.mp hcovers').2
      (List.pairwise_cons.mp hrest).2
    exact (ih hcovers hfirst).snoc ha hkept hf hsource

/-- What is in a gap when the tags have been removed. -/
theorem Piled.faithful (h : Piled tags source detached)
    (hcovers : ∀ a ∈ source, a.span.start < a.span.stop) (hsource : InSourceOrder source) :
    Faithful tags source detached := by
  induction tags generalizing source detached with
  | nil =>
    obtain ⟨rfl, rfl⟩ := h
    exact ⟨List.forall_mem_nil _, List.forall_mem_nil _, fun _ => rfl, .nil, fun _ => .nil,
      fun _ => rfl⟩
  | cons tag tags ih =>
    obtain ⟨old, moved, hgathered, rfl⟩ := h
    exact (hgathered.gathering (fun _ _ h => ih h) hcovers hsource).faithful hcovers

/-! ### All gaps -/

variable {gap : Gap} {rows : List Row}

/-- The symbols in the gaps between active ones. -/
def shown (rows : List Row) : List Symbol := rows.flatMap fun r => r.1 :: r.2.detached

theorem head?_sourceOf (rows : List Row) : (sourceOf rows).head? = rows.head?.map Prod.fst := by
  cases rows <;> rfl

/-- What stands behind the first active symbol is in the order of the source if it was removed in
order, and only then, and then neighbours are joined and nothing else. -/
theorem rows_faithful (hkept : ∀ r ∈ rows, r.1.tag ∉ tags)
    (hfaithful : ∀ r ∈ rows, Faithful tags r.2.source r.2.detached) :
    (InSourceOrder (shown rows) → RemovedInOrder tags.reverse (sourceOf rows)) ∧
      (RemovedInOrder tags.reverse (sourceOf rows) →
        shown rows = joinRuns (fun t => decide (t ∈ tags)) (sourceOf rows)) := by
  induction rows with
  | nil => exact ⟨fun _ => .nil, fun _ => rfl⟩
  | cons r rows ih =>
    obtain ⟨hr, hkept⟩ := List.forall_mem_cons.mp hkept
    obtain ⟨hf, hfaithful⟩ := List.forall_mem_cons.mp hfaithful
    obtain ⟨hordered, hjoins⟩ := ih hkept hfaithful
    have hnext : ∀ b ∈ (sourceOf rows).head?, b.tag ∉ tags := by
      intro b hb
      rw [head?_sourceOf] at hb
      obtain ⟨r, hr, rfl⟩ := Option.map_eq_some_iff.mp hb
      exact hkept r (List.mem_of_mem_head? hr)
    have hiff : RemovedInOrder tags.reverse (sourceOf (r :: rows)) ↔
        RemovedInOrder tags.reverse r.2.source ∧ RemovedInOrder tags.reverse (sourceOf rows) := by
      show List.IsChain _ (r.1 :: (r.2.source ++ sourceOf rows)) ↔ _
      rw [List.isChain_cons, List.isChain_append]
      refine ⟨fun h => ⟨h.2.1, h.2.2.1⟩, fun h => ⟨fun b _ ha => ?_, h.1, h.2, ?_⟩⟩
      · exact absurd (List.mem_reverse.mp ha) hr
      · intro a ha b hb _
        rw [List.idxOf_eq_length (mt List.mem_reverse.mp (hnext b hb))]
        exact List.idxOf_le_length
    constructor
    · intro hin
      have hin : InSourceOrder (r.1 :: (r.2.detached ++ shown rows)) := hin
      obtain ⟨-, hin⟩ := List.pairwise_cons.mp hin
      obtain ⟨hgap, hrest, -⟩ := List.pairwise_append.mp hin
      exact hiff.mpr ⟨hf.ordered hgap, hordered hrest⟩
    · intro hin
      obtain ⟨hgap, hrest⟩ := hiff.mp hin
      let p : Tag → Bool := fun t => decide (t ∈ tags)
      have hgap' : joinRuns p r.2.source = r.2.detached := by
        rw [hf.joins hgap]
        exact joinRuns_congr fun a ha => decide_eq_true (hf.removed a ha)
      have hbehind : joinRuns p (r.2.source ++ sourceOf rows) =
          joinRuns p r.2.source ++ joinRuns p (sourceOf rows) := by
        refine joinRuns_append fun a ha b hb hsame => ?_
        exact absurd (hsame ▸ hf.removed a ha) (hnext b hb)
      have hactive : joinRuns p ([r.1] ++ (r.2.source ++ sourceOf rows)) =
          [r.1] ++ joinRuns p (r.2.source ++ sourceOf rows) := by
        refine joinRuns_append fun a ha _ _ _ => ?_
        obtain rfl := List.mem_singleton.mp ha
        exact decide_eq_false hr
      show r.1 :: (r.2.detached ++ shown rows) = joinRuns p ([r.1] ++ (r.2.source ++ sourceOf rows))
      rw [hactive, hbehind, hgap', hjoins hrest]
      rfl

/-- Of the source, the rows hold all from the first symbol on that has not been removed. -/
theorem Laid.sourceOf_eq (h : Laid tags source gap rows)
    (hremoved : ∀ a ∈ gap.source, a.tag ∈ tags) :
    sourceOf rows = source.dropWhile fun a => decide (a.tag ∈ tags) := by
  rw [← h.source_eq, List.dropWhile_append_of_pos fun a ha => decide_eq_true (hremoved a ha)]
  cases rows with
  | nil => rfl
  | cons r rows =>
    have hr : ¬ decide (r.1.tag ∈ tags) = true := fun hr =>
      h.kept r List.mem_cons_self (of_decide_eq_true hr)
    exact (List.dropWhile_cons_of_neg (p := fun a : Symbol => decide (a.tag ∈ tags)) hr).symm

theorem Laid.faithful (h : Laid tags source gap rows)
    (hcovers : ∀ a ∈ source, a.span.start < a.span.stop) (hsource : InSourceOrder source) :
    Faithful tags gap.source gap.detached ∧
      ∀ r ∈ rows, Faithful tags r.2.source r.2.detached := by
  rw [← h.source_eq] at hcovers hsource
  have hpart : ∀ part : List Symbol, part.Sublist (gap.source ++ sourceOf rows) →
      (∀ a ∈ part, a.span.start < a.span.stop) ∧ InSourceOrder part := fun part hpart =>
    ⟨fun a ha => hcovers a (hpart.subset ha), hsource.sublist hpart⟩
  constructor
  · obtain ⟨hcovers, hsource⟩ := hpart gap.source (List.sublist_append_left _ _)
    exact h.gap_piled.faithful hcovers hsource
  · intro r hr
    have hrow : (r.1 :: r.2.source).Sublist (sourceOf rows) := by
      rw [sourceOf, List.flatMap_def]
      exact List.sublist_flatten_of_mem (List.mem_map_of_mem hr)
    obtain ⟨hcovers, hsource⟩ := hpart r.2.source
      ((List.sublist_cons_self _ _).trans (hrow.trans (List.sublist_append_right _ _)))
    exact (h.piled r hr).faithful hcovers hsource

/-- Symbols in the order of the source, from which tags are removed and that are listed then. -/
theorem listed_faithful {symbols : List Symbol}
    (hcovers : ∀ a ∈ symbols, a.span.start < a.span.stop) (hsource : InSourceOrder symbols)
    {included : List Tag} (hincluded : ∀ t ∈ tags, t ∈ included) :
    let visible := symbols.dropWhile fun a => decide (a.tag ∈ tags)
    let listed := (tags.foldl Stream.remove (ofSymbols symbols)).listed included
    (InSourceOrder listed ↔ RemovedInOrder tags visible) ∧
      (RemovedInOrder tags visible → listed = joinRuns (fun t => decide (t ∈ tags)) visible) := by
  intro visible listed
  obtain ⟨gap, rows, hs, hlaid⟩ := exists_laid tags symbols
  obtain ⟨hgap, hrows⟩ := hlaid.faithful hcovers hsource
  have hmem : (fun t => decide (t ∈ tags.reverse)) = fun t => decide (t ∈ tags) :=
    funext fun t => decide_eq_decide.mpr List.mem_reverse
  have hvisible : sourceOf rows = visible := by
    rw [hlaid.sourceOf_eq hgap.removed]
    exact congrArg (fun p : Tag → Bool => symbols.dropWhile fun a => p a.tag) hmem
  have hlisted : listed = shown rows := by
    show (tags.foldl Stream.remove (ofSymbols symbols)).listed included = _
    rw [hs, listed_ofRows]
    refine List.flatMap_congr fun r hr => congrArg (r.1 :: ·) ?_
    refine List.filter_eq_self.mpr fun c hc => List.contains_iff_mem.mpr (hincluded _ ?_)
    obtain ⟨a, ha, htag, -⟩ := (hrows r hr).origin c hc
    exact htag ▸ List.mem_reverse.mp ((hrows r hr).removed a ha)
  obtain ⟨hordered, hjoins⟩ := rows_faithful hlaid.kept hrows
  rw [List.reverse_reverse, hvisible, hmem] at hjoins
  rw [List.reverse_reverse, hvisible] at hordered
  rw [hlisted]
  refine ⟨⟨hordered, fun hin => ?_⟩, hjoins⟩
  rw [hjoins hin]
  exact pairwise_joinRuns (hsource.sublist (List.dropWhile_sublist _))

/-! ### The tokens of a source -/

theorem ordered_of_tokenize {text : String} {tokens : List Token}
    (h : Lexer.standard.tokenize text = .ok tokens) :
    (∀ a ∈ tokens.map Symbol.ofToken, a.span.start < a.span.stop) ∧
      InSourceOrder (tokens.map Symbol.ofToken) := by
  obtain ⟨hcovers, hapart⟩ := Lexer.spans_of_tokenize h
  exact ⟨List.forall_mem_map.mpr hcovers, List.pairwise_map.mpr hapart⟩

/-- Remove tags from the tokens of a source, and list the active symbols with the removed ones.  The
list is in the order of the source if and only if no token behind the first active one stands right
before another whose tag was removed earlier.  Then it has the tokens of the source from the first
active one on, with neighbours of one removed tag joined. -/
theorem listed_in_order_iff {text : String} {tokens : List Token}
    (h : Lexer.standard.tokenize text = .ok tokens) {tags included : List Tag}
    (hincluded : ∀ t ∈ tags, t ∈ included) :
    let symbols := tokens.map Symbol.ofToken
    let visible := symbols.dropWhile fun a => decide (a.tag ∈ tags)
    let listed := (tags.foldl Stream.remove (ofSymbols symbols)).listed included
    (InSourceOrder listed ↔ RemovedInOrder tags visible) ∧
      (RemovedInOrder tags visible →
        listed = joinRuns (fun t => decide (t ∈ tags)) visible) := by
  obtain ⟨hcovers, hsource⟩ := ordered_of_tokenize h
  exact listed_faithful hcovers hsource hincluded

/-- The tokens of two names on two lines, with a blank behind the first. -/
def twoLines : List Token := [⟨.name, "a", 1, ⟨0, 1⟩⟩, ⟨.blank, " ", 1, ⟨1, 2⟩⟩,
  ⟨.newline, "\n", 1, ⟨2, 3⟩⟩, ⟨.name, "b", 2, ⟨3, 4⟩⟩]

theorem tokenize_twoLines : Lexer.standard.tokenize "a \nb" = .ok twoLines := by
  have hscan : (Lexer.standard.scanSource "a \nb").tokens = twoLines ∧
      (Lexer.standard.scanSource "a \nb").failure = none := by decide +kernel
  exact Lexer.tokenize_of_scanSource hscan.1 hscan.2

/-- The blank is removed before the line break behind it. -/
theorem listed_in_order_iff_two_lines :
    let tags : List Tag := [.blank, .newline]
    let symbols := twoLines.map Symbol.ofToken
    Lexer.standard.tokenize "a \nb" = .ok twoLines ∧ (∀ t ∈ tags, t ∈ tags) ∧
      (tags.foldl Stream.remove (ofSymbols symbols)).listed tags = symbols := by
  intro tags symbols
  refine ⟨tokenize_twoLines, fun _ h => h, ?_⟩
  refine ((listed_in_order_iff tokenize_twoLines fun _ h => h).2 ?_).trans rfl
  unfold RemovedInOrder
  decide

/-- If the line break is removed before the blank, it is listed before the blank. -/
theorem removal_order_is_listed :
    let tags : List Tag := [.newline, .blank]
    let symbols := twoLines.map Symbol.ofToken
    Lexer.standard.tokenize "a \nb" = .ok twoLines ∧
      ¬ InSourceOrder ((tags.foldl Stream.remove (ofSymbols symbols)).listed tags) := by
  intro tags symbols
  obtain ⟨hcovers, hsource⟩ := ordered_of_tokenize tokenize_twoLines
  refine ⟨tokenize_twoLines, fun hin => ?_⟩
  have hremoved : ¬ RemovedInOrder tags (symbols.dropWhile fun a => decide (a.tag ∈ tags)) := by
    unfold RemovedInOrder
    decide
  exact hremoved ((listed_faithful hcovers hsource fun _ h => h).1.mp hin)

end Stream

end StackScript
