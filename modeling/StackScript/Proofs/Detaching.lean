import StackScript.Proofs.Matching
import StackScript.Proofs.SymbolRuns

/-!
# StackScript.Proofs.Detaching — where detached symbols go

A stream from which tags have been removed is a row of active symbols with a gap behind each, in
which the detached ones stand (`Stream.Laid`).  When one more tag is removed, gaps with an active
symbol of this tag between them become one gap.  What was detached in them comes first, and then
come the symbols of the tag (`Gathered`), so that the contents of a gap tell in which order the tags
were removed (`Piled`).
-/

namespace StackScript

namespace Stream

variable {a : Symbol} {as bs : List Symbol}

/-! ### Detached symbols by gaps -/

/-- Symbols that stand detached before the active one of this number. -/
def detachedAt (k : Nat) (as : List Symbol) : List Detached := as.map (⟨k, ·⟩)

variable {k : Nat} {ds es : List Detached}

theorem position_of_mem_detachedAt {d : Detached} (h : d ∈ detachedAt k as) : d.position = k := by
  obtain ⟨a, -, rfl⟩ := List.mem_map.mp h
  rfl

theorem detachedAt_append (k : Nat) (as bs : List Symbol) :
    detachedAt k (as ++ bs) = detachedAt k as ++ detachedAt k bs := List.map_append

theorem foldInto_detachedAt (h : ∀ d ∈ ds, k < d.position) :
    foldInto ⟨k, a⟩ (detachedAt k as ++ ds) =
      detachedAt k (joinInto (fun _ => true) a as) ++ foldNeighbours ds := by
  induction as generalizing a with
  | nil =>
    cases ds with
    | nil => rfl
    | cons d ds =>
      have hd := h d List.mem_cons_self
      show foldInto _ (d :: ds) = _
      rw [foldInto, if_neg fun hsame => Nat.ne_of_lt hd hsame.1]
      rfl
  | cons b bs ih =>
    show foldInto _ (⟨k, b⟩ :: (detachedAt k bs ++ ds)) = _
    rw [foldInto, joinInto]
    by_cases hsame : a.tag = b.tag
    · rw [if_pos ⟨rfl, hsame⟩, if_pos ⟨hsame, rfl⟩]
      exact ih
    · rw [if_neg fun h => hsame h.2, if_neg fun h => hsame h.1, ih]
      rfl

/-- Symbols are joined gap by gap. -/
theorem foldNeighbours_detachedAt (h : ∀ d ∈ ds, k < d.position) :
    foldNeighbours (detachedAt k as ++ ds) = detachedAt k (joined as) ++ foldNeighbours ds := by
  cases as with
  | nil => rfl
  | cons => exact foldInto_detachedAt h

/-- The order in which detached symbols are merged. -/
def orderly (d e : Detached) : Bool := decide (d.position ≤ e.position)

/-- Symbols of a later gap wait for those of this one. -/
theorem merge_later (hds : ∀ d ∈ ds, k < d.position) :
    List.merge ds (detachedAt k bs ++ es) orderly =
      detachedAt k bs ++ List.merge ds es orderly := by
  induction bs with
  | nil => rfl
  | cons b bs ih =>
    show List.merge ds (⟨k, b⟩ :: (detachedAt k bs ++ es)) _ = ⟨k, b⟩ :: (detachedAt k bs ++ _)
    rw [← ih]
    cases ds with
    | nil => rw [List.nil_merge, List.nil_merge]
    | cons d ds =>
      refine List.cons_merge_cons_neg _ _ _ ?_
      rw [orderly, decide_eq_true_eq, Nat.not_le]
      exact hds d List.mem_cons_self

/-- Symbols are merged gap by gap, and in a gap those of the first list come first. -/
theorem merge_detachedAt (hds : ∀ d ∈ ds, k < d.position) (hes : ∀ e ∈ es, k < e.position) :
    List.merge (detachedAt k as ++ ds) (detachedAt k bs ++ es) orderly =
      detachedAt k as ++ (detachedAt k bs ++ List.merge ds es orderly) := by
  have hright : ∀ e ∈ detachedAt k bs ++ es, k ≤ e.position := by
    intro e he
    rcases List.mem_append.mp he with he | he
    · exact Nat.le_of_eq (position_of_mem_detachedAt he).symm
    · exact Nat.le_of_lt (hes e he)
  rw [← merge_later hds]
  generalize detachedAt k bs ++ es = right at hright
  induction as with
  | nil => rfl
  | cons a as ih =>
    show List.merge (⟨k, a⟩ :: (detachedAt k as ++ ds)) right _ = ⟨k, a⟩ :: (detachedAt k as ++ _)
    rw [← ih]
    cases right with
    | nil => rw [List.merge_right, List.merge_right]
    | cons e right =>
      exact List.cons_merge_cons_pos _ _ _ (decide_eq_true (hright e List.mem_cons_self))

/-! ### Rows -/

/-- What stands between two active symbols. -/
structure Gap where
  /-- the symbols that the source has there -/
  source : List Symbol
  detached : List Symbol

/-- An active symbol and the gap behind it. -/
abbrev Row := Symbol × Gap

/-- The symbols of the source from the first active one on. -/
def sourceOf (rows : List Row) : List Symbol := rows.flatMap fun r => r.1 :: r.2.source

/-- The symbols that stand detached behind active ones, the first of which has the number `k`. -/
def behind (k : Nat) : List Row → List Detached
  | [] => []
  | r :: rows => detachedAt (k + 1) r.2.detached ++ behind (k + 1) rows

/-- Active symbols with a gap behind each, and with a gap before the first. -/
def ofRows (gap : Gap) (rows : List Row) : Stream :=
  ⟨rows.map Prod.fst, detachedAt 0 gap.detached ++ behind 0 rows⟩

variable {tag : Tag} {rows : List Row} {gap : Gap}

/-- What a rule sees that asks for the included tags. -/
def listed (s : Stream) (included : List Tag) : List Symbol :=
  s.collect ((s.entries included).map Prod.snd)

theorem position_of_mem_behind {d : Detached} (h : d ∈ behind k rows) : k < d.position := by
  induction rows generalizing k with
  | nil => cases h
  | cons r rows ih =>
    rcases List.mem_append.mp h with h | h
    · rw [position_of_mem_detachedAt h]
      exact Nat.lt_succ_self k
    · exact Nat.lt_of_succ_lt (ih h)

theorem pairwise_detachedAt (h : ds.Pairwise fun d e => d.position ≤ e.position)
    (hds : ∀ d ∈ ds, k < d.position) :
    (detachedAt k as ++ ds).Pairwise fun d e => d.position ≤ e.position := by
  refine List.pairwise_append.mpr ⟨List.pairwise_of_forall_mem_list fun d hd e he => ?_, h,
    fun d hd e he => ?_⟩
  · rw [position_of_mem_detachedAt hd, position_of_mem_detachedAt he]
  · rw [position_of_mem_detachedAt hd]
    exact Nat.le_of_lt (hds e he)

theorem pairwise_behind (k : Nat) (rows : List Row) :
    (behind k rows).Pairwise fun d e => d.position ≤ e.position := by
  induction rows generalizing k with
  | nil => exact .nil
  | cons r rows ih => exact pairwise_detachedAt (ih (k + 1)) fun _ hd => position_of_mem_behind hd

theorem filter_detachedAt (h : ∀ d ∈ ds, k < d.position) :
    (detachedAt k as ++ ds).filter (fun d => decide (d.position = k)) = detachedAt k as := by
  have hnone : ds.filter (fun d => decide (d.position = k)) = [] :=
    List.filter_eq_nil_iff.mpr fun d hd hk => Nat.ne_of_gt (h d hd) (of_decide_eq_true hk)
  have hall : (detachedAt k as).filter (fun d => decide (d.position = k)) = detachedAt k as :=
    List.filter_eq_self.mpr fun d hd => decide_eq_true (position_of_mem_detachedAt hd)
  rw [List.filter_append, hnone, hall, List.append_nil]

theorem filter_detachedAt_of_lt {j : Nat} (h : j < k) :
    (detachedAt j as ++ ds).filter (fun d => decide (d.position = k)) =
      ds.filter fun d => decide (d.position = k) := by
  have hnone : (detachedAt j as).filter (fun d => decide (d.position = k)) = [] :=
    List.filter_eq_nil_iff.mpr fun d hd hk =>
      Nat.ne_of_lt h ((position_of_mem_detachedAt hd).symm.trans (of_decide_eq_true hk))
  rw [List.filter_append, hnone, List.nil_append]

/-- The symbols of a gap that a rule sees. -/
theorem collect_gap (s : Stream) (included : List Tag) (k : Nat) :
    s.collect ((s.gap included k).map Prod.snd) =
      ((s.detached.filter fun d => decide (d.position = k)).map (·.symbol)).filter fun a =>
        included.contains a.tag := by
  have hcollect : ∀ shown : List (Detached × Nat), (∀ d ∈ shown, s.detached[d.2]? = some d.1) →
      s.collect ((shown.map fun d => (d.1.symbol.tag, Entry.detached d.2)).map Prod.snd) =
        shown.map (·.1.symbol) := by
    intro shown hshown
    rw [collect, List.map_map, List.filterMap_map, ← List.filterMap_eq_map]
    refine List.filterMap_congr fun d hd => ?_
    show (s.detached[d.2]?).map _ = _
    rw [hshown d hd]
    rfl
  rw [gap, hcollect _ fun d hd => List.mem_zipIdx_iff_getElem?.mp (List.mem_of_mem_filter hd)]
  conv_rhs => rw [← List.zipIdx_map_fst 0 s.detached]
  rw [List.filter_map, List.filter_map, List.filter_map, List.map_map, List.filter_filter]
  refine congrArg _ (List.filter_congr fun d _ => ?_)
  exact Bool.and_comm _ _

/-- What a rule sees from the first of some rows on, which has the number `i`. -/
theorem collect_seen {s : Stream} {included : List Tag} {i : Nat} {leaves : List Leaf}
    (hactive : s.active.drop i = rows.map Prod.fst)
    (hdetached : ∀ k, i < k → s.detached.filter (fun d => decide (d.position = k)) =
      (behind i rows).filter fun d => decide (d.position = k))
    (hleaves : leaves.map Leaf.symbol = rows.map Prod.fst) :
    s.collect ((s.seen included i leaves).map Prod.snd) =
      rows.flatMap fun r => r.1 :: r.2.detached.filter fun a => included.contains a.tag := by
  induction rows generalizing i leaves with
  | nil =>
    obtain rfl := List.map_eq_nil_iff.mp hleaves
    rfl
  | cons r rows ih =>
    obtain ⟨l, leaves, rfl, hl, hleaves⟩ := List.map_eq_cons_iff.mp hleaves
    have hhere : s.symbolAt? (.active i) = some r.1 := by
      rw [symbolAt?, ← Nat.add_zero i, ← List.getElem?_drop, hactive]
      rfl
    have hgap : s.detached.filter (fun d => decide (d.position = i + 1)) =
        detachedAt (i + 1) r.2.detached := by
      rw [hdetached (i + 1) (Nat.lt_succ_self i)]
      exact filter_detachedAt fun _ hd => position_of_mem_behind hd
    have hsymbols : (detachedAt (i + 1) r.2.detached).map (·.symbol) = r.2.detached := by
      rw [detachedAt, List.map_map]
      exact List.map_id _
    have hactive : s.active.drop (i + 1) = rows.map Prod.fst := by
      rw [← List.drop_drop, hactive]
      rfl
    have hrest := ih hactive (fun k hk => ?_) hleaves
    · rw [collect] at hrest
      rw [seen, List.map_cons, List.map_append, collect, List.filterMap_cons_some hhere,
        List.filterMap_append, ← collect, collect_gap, hgap, hsymbols, hrest]
      rfl
    · rw [hdetached k (Nat.lt_of_succ_lt hk)]
      exact filter_detachedAt_of_lt hk

/-- What a rule sees are the active symbols, with the included ones of the gap behind each. -/
theorem listed_ofRows (gap : Gap) (rows : List Row) (included : List Tag) :
    (ofRows gap rows).listed included =
      rows.flatMap fun r => r.1 :: r.2.detached.filter fun a => included.contains a.tag := by
  have hsorted : (ofRows gap rows).detached.Pairwise fun d e => d.position ≤ e.position :=
    pairwise_detachedAt (pairwise_behind 0 rows) fun _ hd => position_of_mem_behind hd
  rw [listed, entries_eq hsorted]
  exact collect_seen rfl (fun _ hk => filter_detachedAt_of_lt hk) (map_symbol_leaves _)

/-! ### Removing a tag -/

/-- How many of these symbols stay when the tag is removed. -/
def others (tag : Tag) (as : List Symbol) : Nat := as.length - as.countP (·.tag = tag)

theorem others_concat (tag : Tag) (as : List Symbol) (a : Symbol) :
    others tag (as ++ [a]) = if a.tag = tag then others tag as else others tag as + 1 := by
  have hle := List.countP_le_length (p := fun b : Symbol => decide (b.tag = tag)) (l := as)
  rw [others, others, List.length_append, List.countP_append, List.length_singleton,
    List.countP_singleton]
  by_cases ha : a.tag = tag
  · rw [if_pos ha, if_pos (decide_eq_true ha)]
    omega
  · rw [if_neg ha, if_neg (by simpa using ha)]
    omega

theorem countBefore_append (tag : Tag) (pre post : List Symbol) (ds : List Detached) :
    countBefore ⟨pre ++ post, ds⟩ tag pre.length = pre.countP (·.tag = tag) := by
  rw [countBefore, List.take_left' rfl]

/-- The symbols that stand detached behind active ones, the first of which has the number `k`, when
the active ones of the tag are gone. -/
def behindOthers (tag : Tag) (k : Nat) : List Row → List Detached
  | [] => []
  | r :: rows =>
    let next := if r.1.tag = tag then k else k + 1
    detachedAt next r.2.detached ++ behindOthers tag next rows

/-- The symbols of the tag, with the numbers of the others that they stand before. -/
def amongOthers (tag : Tag) (k : Nat) : List Symbol → List Detached
  | [] => []
  | a :: as => if a.tag = tag then ⟨k, a⟩ :: amongOthers tag k as else amongOthers tag (k + 1) as

theorem renumbered_detachedAt (pre post : List Symbol) :
    renumbered ⟨pre ++ post, es⟩ tag (detachedAt pre.length as) =
      detachedAt (others tag pre) as := by
  rw [renumbered, detachedAt, List.map_map, detachedAt]
  refine List.map_congr_left fun a _ => ?_
  show Detached.mk (pre.length - countBefore _ tag pre.length) a = _
  rw [countBefore_append]
  rfl

theorem renumbered_behind (pre : List Symbol) (rows : List Row) :
    renumbered ⟨pre ++ rows.map Prod.fst, es⟩ tag (behind pre.length rows) =
      behindOthers tag (others tag pre) rows := by
  induction rows generalizing pre with
  | nil => rfl
  | cons r rows ih =>
    have hpre : pre ++ (r :: rows).map Prod.fst = pre ++ [r.1] ++ rows.map Prod.fst := by
      rw [List.append_assoc]
      rfl
    have hlength : pre.length + 1 = (pre ++ [r.1]).length := by
      rw [List.length_append, List.length_singleton]
    have hrest := ih (pre ++ [r.1])
    rw [others_concat] at hrest
    rw [behind, hpre, hlength, renumbered, List.map_append, ← renumbered, ← renumbered,
      renumbered_detachedAt, hrest, others_concat]
    rfl

theorem moved_eq_amongOthers (tag : Tag) (es : List Detached) (pre as : List Symbol) :
    ((as.zipIdx pre.length).filter (·.1.tag = tag)).map (fun p =>
      (⟨p.2 - countBefore ⟨pre ++ as, es⟩ tag p.2, p.1⟩ : Detached)) =
      amongOthers tag (others tag pre) as := by
  induction as generalizing pre with
  | nil => rfl
  | cons a as ih =>
    have hrest := ih (pre ++ [a])
    rw [List.append_assoc, List.singleton_append, List.length_append, List.length_singleton,
      others_concat] at hrest
    rw [List.zipIdx_cons, amongOthers]
    by_cases ha : a.tag = tag
    · rw [List.filter_cons_of_pos (by simpa using ha), List.map_cons, if_pos ha, countBefore_append]
      rw [if_pos ha] at hrest
      rw [hrest]
      rfl
    · rw [List.filter_cons_of_neg (by simpa using ha), if_neg ha]
      rw [if_neg ha] at hrest
      exact hrest

/-- Removing a tag, with what was detached and what is moved. -/
theorem remove_ofRows (tag : Tag) (gap : Gap) (rows : List Row) :
    (ofRows gap rows).remove tag = ⟨(rows.map Prod.fst).filter (·.tag ≠ tag),
      foldNeighbours (List.merge (detachedAt 0 gap.detached ++ behindOthers tag 0 rows)
        (amongOthers tag 0 (rows.map Prod.fst)) orderly)⟩ := by
  have hrenumbered : renumbered (ofRows gap rows) tag (ofRows gap rows).detached =
      detachedAt 0 gap.detached ++ behindOthers tag 0 rows := by
    have hgap : renumbered (ofRows gap rows) tag (detachedAt 0 gap.detached) =
        detachedAt 0 gap.detached := renumbered_detachedAt [] _
    have hbehind : renumbered (ofRows gap rows) tag (behind 0 rows) = behindOthers tag 0 rows :=
      renumbered_behind [] rows
    rw [← hbehind]
    conv_rhs => rw [← hgap]
    exact List.map_append
  have hmoved := moved_eq_amongOthers tag (ofRows gap rows).detached [] (rows.map Prod.fst)
  rw [remove, hrenumbered]
  exact congrArg (fun moved => Stream.mk _ (foldNeighbours (List.merge _ moved orderly))) hmoved

/-! ### What removing leaves in the gaps -/

variable {tags : List Tag}

/-- Gaps, and between them active symbols of a tag that no tag before was: the symbols that the
source has there, what is detached in the gaps, and the symbols of the tag. -/
inductive Gathered (tags : List Tag) (P : List Symbol → List Symbol → Prop) (tag : Tag) :
    List Symbol → List Symbol → List Symbol → Prop
  | gap {source detached : List Symbol} (h : P source detached) :
      Gathered tags P tag source detached []
  | snoc {source old moved source' detached : List Symbol} {a : Symbol}
      (h : Gathered tags P tag source old moved) (ha : a.tag = tag) (hkept : tag ∉ tags)
      (hgap : P source' detached) :
      Gathered tags P tag (source ++ a :: source') (old ++ detached) (moved ++ [a])

/-- The symbols that the source has in a gap, and what is detached there when the tags have been
removed, the last of them first. -/
def Piled : List Tag → List Symbol → List Symbol → Prop
  | [], source, detached => source = [] ∧ detached = []
  | tag :: tags, source, detached => ∃ old moved,
    Gathered tags (Piled tags) tag source old moved ∧ detached = joined (old ++ moved)

/-- The rows are left of the source when the tags have been removed, the last of them first. -/
structure Laid (tags : List Tag) (source : List Symbol) (gap : Gap) (rows : List Row) : Prop where
  source_eq : gap.source ++ sourceOf rows = source
  gap_piled : Piled tags gap.source gap.detached
  kept : ∀ r ∈ rows, r.1.tag ∉ tags
  piled : ∀ r ∈ rows, Piled tags r.2.source r.2.detached

theorem position_of_mem_behindOthers {d : Detached} (h : d ∈ behindOthers tag k rows) :
    k ≤ d.position := by
  induction rows generalizing k with
  | nil => cases h
  | cons r rows ih =>
    have hnext : k ≤ if r.1.tag = tag then k else k + 1 := by split <;> omega
    rcases List.mem_append.mp h with h | h
    · rw [position_of_mem_detachedAt h]
      exact hnext
    · exact Nat.le_trans hnext (ih h)

theorem position_of_mem_amongOthers {d : Detached} (h : d ∈ amongOthers tag k as) :
    k ≤ d.position := by
  fun_induction amongOthers tag k as with
  | case1 => cases h
  | case2 k a as _ ih =>
    rcases List.mem_cons.mp h with rfl | h
    · exact Nat.le_refl _
    · exact ih h
  | case3 k a as _ ih => exact Nat.le_of_succ_le (ih h)

/-- Removing a tag from the first of some rows on.  `source`, `old` and `moved` have been gathered
of the gap before them. -/
theorem exists_rows {source old moved : List Symbol}
    (hgathered : Gathered tags (Piled tags) tag source old moved)
    (hkept : ∀ r ∈ rows, r.1.tag ∉ tags)
    (hpiled : ∀ r ∈ rows, Piled tags r.2.source r.2.detached) (k : Nat) :
    ∃ gap rows', Laid (tag :: tags) (source ++ sourceOf rows) gap rows' ∧
      (rows.map Prod.fst).filter (·.tag ≠ tag) = rows'.map Prod.fst ∧
      foldNeighbours (List.merge (detachedAt k old ++ behindOthers tag k rows)
        (detachedAt k moved ++ amongOthers tag k (rows.map Prod.fst)) orderly) =
        detachedAt k gap.detached ++ behind k rows' := by
  induction rows generalizing k source old moved with
  | nil =>
    refine ⟨⟨source, joined (old ++ moved)⟩, [], ⟨rfl, ⟨old, moved, hgathered, rfl⟩,
      List.forall_mem_nil _, List.forall_mem_nil _⟩, rfl, ?_⟩
    show foldNeighbours (List.merge (detachedAt k old ++ []) (detachedAt k moved ++ []) orderly) = _
    rw [merge_detachedAt (List.forall_mem_nil _) (List.forall_mem_nil _), ← List.append_assoc,
      ← detachedAt_append, List.merge_right, foldNeighbours_detachedAt (List.forall_mem_nil _)]
    rfl
  | cons r rows ih =>
    obtain ⟨hr, hkept⟩ := List.forall_mem_cons.mp hkept
    obtain ⟨hgap, hpiled⟩ := List.forall_mem_cons.mp hpiled
    by_cases ha : r.1.tag = tag
    · obtain ⟨gap, rows', hlaid, hactive, hdetached⟩ :=
        ih (hgathered.snoc ha (ha ▸ hr) hgap) hkept hpiled k
      refine ⟨gap, rows', ?_, ?_, ?_⟩
      · rwa [List.append_assoc] at hlaid
      · rw [List.map_cons, List.filter_cons_of_neg (by simpa using ha), hactive]
      · rw [detachedAt_append, detachedAt_append, List.append_assoc, List.append_assoc] at hdetached
        rw [List.map_cons, behindOthers, amongOthers, if_pos ha, if_pos ha]
        exact hdetached
    · obtain ⟨gap, rows', hlaid, hactive, hdetached⟩ := ih (.gap hgap) hkept hpiled (k + 1)
      refine ⟨⟨source, joined (old ++ moved)⟩, (r.1, gap) :: rows', ?_, ?_, ?_⟩
      · refine ⟨?_, ⟨old, moved, hgathered, rfl⟩, List.forall_mem_cons.mpr ⟨?_, hlaid.kept⟩,
          List.forall_mem_cons.mpr ⟨hlaid.gap_piled, hlaid.piled⟩⟩
        · exact congrArg (fun rest => source ++ r.1 :: rest) hlaid.source_eq
        · exact List.not_mem_cons_of_ne_of_not_mem ha hr
      · rw [List.map_cons, List.filter_cons_of_pos (by simpa using ha), hactive]
        rfl
      · have hold : ∀ d ∈ detachedAt (k + 1) r.2.detached ++ behindOthers tag (k + 1) rows,
            k < d.position := by
          intro d hd
          rcases List.mem_append.mp hd with hd | hd
          · rw [position_of_mem_detachedAt hd]
            exact Nat.lt_succ_self k
          · exact position_of_mem_behindOthers hd
        have hmoved : ∀ d ∈ amongOthers tag (k + 1) (rows.map Prod.fst), k < d.position :=
          fun d hd => position_of_mem_amongOthers hd
        rw [List.map_cons, behindOthers, amongOthers, if_neg ha, if_neg ha]
        dsimp only
        rw [merge_detachedAt hold hmoved, ← List.append_assoc, ← detachedAt_append,
          foldNeighbours_detachedAt fun d hd => (List.mem_merge.mp hd).elim (hold d) (hmoved d)]
        exact congrArg _ hdetached

/-- Removing one more tag. -/
theorem Laid.remove {source : List Symbol} (h : Laid tags source gap rows) (tag : Tag) :
    ∃ gap' rows', (ofRows gap rows).remove tag = ofRows gap' rows' ∧
      Laid (tag :: tags) source gap' rows' := by
  have hgathered : Gathered tags (Piled tags) tag gap.source gap.detached [] := .gap h.gap_piled
  obtain ⟨gap', rows', hlaid, hactive, hdetached⟩ := exists_rows hgathered h.kept h.piled 0
  rw [h.source_eq] at hlaid
  refine ⟨gap', rows', ?_, hlaid⟩
  rw [remove_ofRows, hactive]
  exact congrArg (Stream.mk _) hdetached

/-- Before any tag is removed, all gaps are empty. -/
theorem laid_ofSymbols (source : List Symbol) :
    ∃ gap rows, ofSymbols source = ofRows gap rows ∧ Laid [] source gap rows := by
  let rows : List Row := source.map fun a => (a, ⟨[], []⟩)
  have hactive : rows.map Prod.fst = source := by
    rw [List.map_map]
    exact List.map_id _
  have hbehind : ∀ k, behind k rows = [] := by
    unfold rows
    clear hactive rows
    induction source with
    | nil => exact fun _ => rfl
    | cons a source ih => exact fun k => ih (k + 1)
  have hsource : sourceOf rows = source := by
    rw [sourceOf, List.flatMap_map]
    exact List.flatMap_singleton' source
  refine ⟨⟨[], []⟩, rows, ?_, hsource, ⟨rfl, rfl⟩, fun _ _ => List.not_mem_nil, fun r hr => ?_⟩
  · rw [ofRows, hactive, hbehind]
    rfl
  · obtain ⟨a, -, rfl⟩ := List.mem_map.mp hr
    exact ⟨rfl, rfl⟩

/-- Removing tags, one after the other. -/
theorem exists_laid (tags : List Tag) (source : List Symbol) :
    ∃ gap rows, tags.foldl Stream.remove (ofSymbols source) = ofRows gap rows ∧
      Laid tags.reverse source gap rows := by
  induction tags using List.reverseRecOn with
  | nil => exact laid_ofSymbols source
  | append_singleton tags tag ih =>
    obtain ⟨gap, rows, heq, hlaid⟩ := ih
    obtain ⟨gap', rows', heq', hlaid'⟩ := hlaid.remove tag
    refine ⟨gap', rows', ?_, ?_⟩
    · rw [List.foldl_append, heq]
      exact heq'
    · rwa [List.reverse_append]

end Stream

end StackScript
