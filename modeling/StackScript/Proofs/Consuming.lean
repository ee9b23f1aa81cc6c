import Mathlib.Data.List.TakeWhile
import StackScript.Proofs.AdmittedMatches
import StackScript.Proofs.Weighing

/-!
# StackScript.Proofs.Consuming — what a reduction takes out of a stream

Nothing is assumed of the stream here: any symbols may be active, any may be detached, in any order.
A match is a run of neighbours among the active symbols, with detached ones between them if the rule
asks for their tag, and a reduction puts one symbol in the place of the run (`Parsing.Reduction`).
-/

namespace StackScript

namespace Stream

variable {s : Stream} {included : List Tag}

/-! ### What a rule sees -/

/-- The entry stands for a symbol of this tag; a detached one has an included tag. -/
def Points (s : Stream) (included : List Tag) : Tag × Entry → Prop
  | (t, .active i) => ∃ a, s.active[i]? = some a ∧ a.tag = t
  | (t, .detached j) => (∃ d, s.detached[j]? = some d ∧ d.symbol.tag = t) ∧ t ∈ included

theorem mem_weave {i : Nat} {as : List Symbol} {ds : List (Detached × Nat)} {e : Tag × Entry}
    (h : e ∈ weave included i as ds) :
    (∃ k a, as[k]? = some a ∧ e = (a.tag, .active (i + k))) ∨
      ∃ d ∈ ds, e = (d.1.symbol.tag, .detached d.2) ∧ d.1.symbol.tag ∈ included := by
  induction as generalizing i ds with
  | nil => cases h
  | cons a as ih =>
    rw [weave, List.cons_append, List.mem_cons, List.mem_append] at h
    rcases h with rfl | h | h
    · exact .inl ⟨0, a, rfl, rfl⟩
    · obtain ⟨d, hd, rfl⟩ := List.mem_map.mp h
      obtain ⟨hgap, hshown⟩ := List.mem_filter.mp hd
      rw [Bool.and_eq_true, List.contains_iff_mem] at hshown
      exact .inr ⟨d, (List.takeWhile_sublist _).subset hgap, rfl, hshown.2⟩
    · rcases ih h with ⟨k, b, hb, rfl⟩ | ⟨d, hd, rfl, hincluded⟩
      · exact .inl ⟨k + 1, b, hb, by rw [Nat.add_assoc, Nat.add_comm 1]⟩
      · exact .inr ⟨d, (List.dropWhile_sublist _).subset hd, rfl, hincluded⟩

/-- Every entry that a rule sees stands for a symbol. -/
theorem points_of_mem_entries {e : Tag × Entry} (h : e ∈ s.entries included) :
    s.Points included e := by
  rcases mem_weave h with ⟨k, a, ha, rfl⟩ | ⟨d, hd, rfl, hincluded⟩
  · refine ⟨a, ?_, rfl⟩
    rwa [Nat.zero_add]
  · exact ⟨⟨d.1, List.mem_zipIdx_iff_getElem?.mp hd, rfl⟩, hincluded⟩

theorem activeIndices_append (run run' : List Entry) :
    activeIndices (run ++ run') = activeIndices run ++ activeIndices run' :=
  List.filterMap_append

theorem activeIndices_weave (i : Nat) (as : List Symbol) (ds : List (Detached × Nat)) :
    activeIndices ((weave included i as ds).map Prod.snd) = List.range' i as.length := by
  induction as generalizing i ds with
  | nil => rfl
  | cons a as ih =>
    have hshown : ∀ es : List (Detached × Nat), activeIndices
        ((es.map fun d => (d.1.symbol.tag, Entry.detached d.2)).map Prod.snd) = [] := by
      intro es
      rw [activeIndices, List.filterMap_eq_nil_iff]
      intro e he
      obtain ⟨p, hp, rfl⟩ := List.mem_map.mp he
      obtain ⟨d, -, rfl⟩ := List.mem_map.mp hp
      rfl
    rw [weave, List.cons_append, List.map_cons, List.map_append]
    have hcons : ∀ run : List Entry, activeIndices (.active i :: run) = i :: activeIndices run :=
      fun _ => rfl
    rw [hcons, activeIndices_append, hshown, ih, List.nil_append, List.length_cons,
      List.range'_succ]

/-- The active symbols are seen in their order. -/
theorem activeIndices_entries (s : Stream) (included : List Tag) :
    activeIndices ((s.entries included).map Prod.snd) = List.range' 0 s.active.length :=
  activeIndices_weave _ _ _

/-! ### What a search finds -/

/-- A match that a rule accepts is a run of what the rule sees. -/
theorem findIn_eq_some {r : Rule} {es : List (Tag × Entry)} {f : Found}
    (h : s.findIn r (es.map Prod.fst) (es.map Prod.snd) = some f) :
    ∃ pre run post, es = pre ++ (run ++ post) ∧ f.run = run.map Prod.snd ∧
      r.pattern.rest? ((run ++ post).map Prod.fst) = some (post.map Prod.fst) ∧
      (activeIndices f.run).head? = some f.site.start := by
  induction es with
  | nil => cases h
  | cons e es ih =>
    rw [List.map_cons, List.map_cons, findIn] at h
    split at h
    case h_1 g hmatch =>
      obtain rfl := Option.some.inj h
      obtain ⟨n, hn, hmatch⟩ := Option.bind_eq_some_iff.mp hmatch
      obtain ⟨start, hstart, hmatch⟩ := Option.bind_eq_some_iff.mp hmatch
      dsimp only at hmatch
      split at hmatch
      case isFalse => cases hmatch
      obtain rfl := Option.some.inj hmatch
      obtain ⟨ts, hts, rfl⟩ := Option.map_eq_some_iff.mp hn
      obtain ⟨us, hus⟩ := Pattern.rest?_suffix hts
      rw [← List.map_cons (f := Prod.fst)] at hus hts
      obtain ⟨run, post, hes, rfl, rfl⟩ := List.map_eq_append_iff.mp hus.symm
      have htake : (e.2 :: es.map Prod.snd).take
          ((e.1 :: es.map Prod.fst).length - (post.map Prod.fst).length) = run.map Prod.snd := by
        rw [← List.map_cons (f := Prod.snd), ← List.map_cons (f := Prod.fst), hes]
        simp
      refine ⟨[], run, post, hes, htake, ?_, hstart⟩
      rw [← hes]
      exact hts
    case h_2 =>
      obtain ⟨pre, run, post, rfl, hrun⟩ := ih h
      exact ⟨e :: pre, run, post, rfl, hrun⟩

theorem find_eq_some {r : Rule} {f : Found} (h : s.find r = some f) :
    ∃ pre run post, s.entries r.included = pre ++ (run ++ post) ∧ f.run = run.map Prod.snd ∧
      r.pattern.rest? ((run ++ post).map Prod.fst) = some (post.map Prod.fst) ∧
      (activeIndices f.run).head? = some f.site.start := findIn_eq_some h

/-! ### The symbols of a match -/

/-- The active symbols at neighbouring indices. -/
theorem filterMap_range' (before run after : List Symbol) :
    (List.range' before.length run.length).filterMap (fun i => (before ++ (run ++ after))[i]?) =
      run := by
  induction run generalizing before with
  | nil => rfl
  | cons a run ih =>
    have hrest := ih (before ++ [a])
    rw [List.length_append, List.length_singleton, List.append_assoc, List.singleton_append,
      ← List.cons_append] at hrest
    rw [List.length_cons, List.range'_succ, List.filterMap_cons, hrest,
      List.getElem?_append_right (Nat.le_refl _), Nat.sub_self]
    rfl

/-- Without line breaks, the symbols of a run of entries are the active ones. -/
theorem filter_collect {run : List Entry}
    (h : ∀ j d, .detached j ∈ run → s.detached[j]? = some d → d.symbol.tag = .newline) :
    (s.collect run).filter (·.tag.isInk) =
      ((activeIndices run).filterMap (s.active[·]?)).filter (·.tag.isInk) := by
  induction run with
  | nil => rfl
  | cons e run ih =>
    have ih := ih fun j d hj hd => h j d (List.mem_cons_of_mem _ hj) hd
    cases e with
    | active i =>
      have hcollect : s.collect (.active i :: run) = (s.active[i]?).toList ++ s.collect run := by
        rw [collect, List.filterMap_cons, symbolAt?]
        cases s.active[i]? <;> rfl
      have hindices : (activeIndices (.active i :: run)).filterMap (s.active[·]?) =
          (s.active[i]?).toList ++ (activeIndices run).filterMap (s.active[·]?) := by
        rw [activeIndices, List.filterMap_cons, List.filterMap_cons]
        cases s.active[i]? <;> rfl
      rw [hcollect, hindices, List.filter_append, List.filter_append, ih]
    | detached j =>
      have hindices : activeIndices (.detached j :: run) = activeIndices run := rfl
      rw [hindices, ← ih, collect, List.filterMap_cons, symbolAt?]
      cases hd : s.detached[j]? with
      | none => rfl
      | some d =>
        have hink : d.symbol.tag.isInk = false := by
          rw [h j d List.mem_cons_self hd]
          rfl
        rw [Option.map_some, List.filter_cons, hink]
        rfl

/-- The symbols of a run have the tags that the rule sees. -/
theorem map_tag_collect {run : List (Tag × Entry)} (h : ∀ e ∈ run, s.Points included e) :
    (s.collect (run.map Prod.snd)).map (·.tag) = run.map Prod.fst := by
  induction run with
  | nil => rfl
  | cons e run ih =>
    have ih := ih fun e' he => h e' (List.mem_cons_of_mem _ he)
    rw [collect] at ih
    rw [List.map_cons, collect, List.filterMap_cons]
    obtain ⟨t, i | j⟩ := e
    · obtain ⟨a, ha, rfl⟩ := h _ List.mem_cons_self
      rw [symbolAt?, ha]
      exact congrArg (a.tag :: ·) ih
    · obtain ⟨⟨d, hd, rfl⟩, -⟩ := h _ List.mem_cons_self
      rw [symbolAt?, hd]
      exact congrArg (d.symbol.tag :: ·) ih

/-- Where nothing detached is included, the symbols of a run of entries are the active ones. -/
theorem collect_eq {run : List Entry} (h : ∀ j, .detached j ∉ run) :
    s.collect run = (activeIndices run).filterMap (s.active[·]?) := by
  induction run with
  | nil => rfl
  | cons e run ih =>
    have ih := ih fun j hj => h j (List.mem_cons_of_mem _ hj)
    cases e with
    | active i =>
      rw [collect] at ih
      rw [collect, activeIndices, List.filterMap_cons, List.filterMap_cons, List.filterMap_cons, ih]
      rfl
    | detached j => exact absurd List.mem_cons_self (h j)

/-- Detached symbols only get other places. -/
theorem mem_detached_splice {run : List Entry} {first last : Nat} {symbol : Symbol} {d : Detached}
    (h : d ∈ (s.splice run first last symbol).detached) :
    ∃ d' ∈ s.detached, d.symbol = d'.symbol := by
  obtain ⟨e, he, rfl⟩ := List.mem_map.mp h
  have hmem : e.1 ∈ s.detached :=
    List.mem_of_getElem? (List.mem_zipIdx_iff_getElem?.mp (List.mem_of_mem_filter he))
  refine ⟨e.1, hmem, ?_⟩
  split <;> rfl

end Stream

/-! ### One reduction -/

/-- A reduction by a rule: its match, and the active symbols before the match, in it and after it. -/
structure Parsing.Reduction (r : Rule) (p q : Parsing) where
  found : Found
  before : List Symbol
  run : List Symbol
  after : List Symbol
  line : Nat
  span : Span
  find_eq : p.stream.find r = some found
  active_eq : p.stream.active = before ++ (run ++ after)
  run_ne_nil : run ≠ []
  indices_eq : Stream.activeIndices found.run = List.range' before.length run.length
  detached_mem : ∀ j, .detached j ∈ found.run →
    ∃ d, p.stream.detached[j]? = some d ∧ d.symbol.tag ∈ r.included
  pattern_eq : ∃ ts, r.pattern.rest?
    ((p.stream.collect found.run).map (·.tag) ++ ts) = some ts
  line_eq : (p.stream.collect found.run).head?.map (·.line) = some line
  result_active : q.stream.active = before ++ Symbol.reduced r.result line span
    ((r.build (p.stream.collect found.run)).run p.record).1 :: after
  result_detached : ∀ d ∈ q.stream.detached, ∃ d' ∈ p.stream.detached, d.symbol = d'.symbol
  result_record : q.record = ((r.build (p.stream.collect found.run)).run p.record).2

namespace Parsing

variable {p q : Parsing} {r : Rule}

/-- What a rule reduces is a match of neighbours. -/
theorem reduction_of_reduceOnce (h : p.reduceOnce r = some q) : Nonempty (Reduction r p q) := by
  rw [reduceOnce] at h
  obtain ⟨found, hfind, h⟩ := Option.bind_eq_some_iff.mp h
  obtain ⟨first, hfirst, h⟩ := Option.bind_eq_some_iff.mp h
  obtain ⟨last, -, h⟩ := Option.bind_eq_some_iff.mp h
  obtain ⟨stream, hreplace, h⟩ := Option.bind_eq_some_iff.mp h
  obtain rfl := Option.some.inj h
  obtain ⟨pre, run, post, hentries, hrun, hpattern, hstart⟩ := Stream.find_eq_some hfind
  -- the match has neighbouring indices, as all that the rule sees has
  have hindices := p.stream.activeIndices_entries r.included
  rw [hentries, List.map_append, List.map_append, Stream.activeIndices_append,
    Stream.activeIndices_append, ← hrun] at hindices
  obtain ⟨k, hk, -, hrest⟩ := List.range'_eq_append_iff.mp hindices.symm
  obtain ⟨n, hn, hrun', -⟩ := List.range'_eq_append_iff.mp hrest.symm
  rw [Nat.zero_add, Nat.mul_one] at hrun'
  cases n with
  | zero =>
    rw [hrun'] at hstart
    cases hstart
  | succ n =>
    have hactive : p.stream.active = p.stream.active.take k ++
        ((p.stream.active.drop k).take (n + 1) ++ p.stream.active.drop (k + (n + 1))) := by
      rw [← List.drop_drop, List.take_append_drop, List.take_append_drop]
    have hbefore : (p.stream.active.take k).length = k := List.length_take_of_le hk
    have hlength : ((p.stream.active.drop k).take (n + 1)).length = n + 1 :=
      List.length_take_of_le (by rw [List.length_drop]; exact hn)
    have hsplice : stream = p.stream.splice found.run k (k + n) (Symbol.reduced r.result first.line
        ⟨first.span.start, last.span.stop⟩
        ((r.build (p.stream.collect found.run)).run p.record).1) := by
      have hlast : (List.range' k (n + 1)).getLast? = some (k + n) := by
        rw [List.range'_concat, List.getLast?_concat, Nat.one_mul]
      rw [Stream.replace, hrun', hlast] at hreplace
      exact (Option.some.inj hreplace).symm
    have hpoints : ∀ e ∈ run, p.stream.Points r.included e := by
      intro e he
      refine Stream.points_of_mem_entries ?_
      rw [hentries]
      exact List.mem_append_right _ (List.mem_append_left _ he)
    refine ⟨{
      found
      before := p.stream.active.take k
      run := (p.stream.active.drop k).take (n + 1)
      after := p.stream.active.drop (k + (n + 1))
      line := first.line
      span := ⟨first.span.start, last.span.stop⟩
      find_eq := hfind
      active_eq := hactive
      run_ne_nil := ?_
      indices_eq := by rw [hbefore, hlength, hrun']
      detached_mem := ?_
      pattern_eq := ⟨post.map Prod.fst, ?_⟩
      line_eq := by rw [hfirst]; rfl
      result_active := by rw [hsplice]; rfl
      result_detached := fun d hd => Stream.mem_detached_splice (hsplice ▸ hd)
      result_record := rfl }⟩
    · intro hnil
      rw [hnil] at hlength
      cases hlength
    · intro j hj
      rw [hrun] at hj
      obtain ⟨⟨t, e⟩, he, rfl⟩ := List.mem_map.mp hj
      obtain ⟨⟨d, hd, rfl⟩, hincluded⟩ := hpoints _ he
      exact ⟨d, hd, hincluded⟩
    · rw [hrun, Stream.map_tag_collect hpoints, ← List.map_append]
      exact hpattern

namespace Reduction

/-- Line breaks apart, a rule reduces the neighbours of the run. -/
theorem filter_collect (e : Reduction r p q) :
    (p.stream.collect e.found.run).filter (·.tag.isInk) = e.run.filter (·.tag.isInk) := by
  rw [Stream.filter_collect, e.indices_eq, e.active_eq, Stream.filterMap_range']
  intro j d hj hd
  obtain ⟨d', hd', hincluded⟩ := e.detached_mem j hj
  obtain rfl := Option.some.inj (hd.symm.trans hd')
  exact Rule.tag_of_included hincluded

/-- A rule that asks for no detached symbols reduces the neighbours of the run. -/
theorem collect_eq (e : Reduction r p q) (hr : r.included = []) :
    p.stream.collect e.found.run = e.run := by
  rw [Stream.collect_eq, e.indices_eq, e.active_eq, Stream.filterMap_range']
  intro j hj
  obtain ⟨d, -, hincluded⟩ := e.detached_mem j hj
  rw [hr] at hincluded
  cases hincluded

/-- A reduction puts the tag of its result for those of the run. -/
theorem tags_eq (e : Reduction r p q) :
    q.tags = e.before.map (·.tag) ++ r.result :: e.after.map (·.tag) := by
  rw [tags, e.result_active, List.map_append, List.map_cons]
  rfl

/-- A reduction makes the symbols lighter. -/
theorem weight_lt (e : Reduction r p q) : q.stream.weight < p.stream.weight := by
  obtain ⟨ts, hpattern⟩ := e.pattern_eq
  have hrun := Rule.result_lt_of_rest? hpattern
  have hfilter : ((p.stream.collect e.found.run).map (·.tag)).filter Tag.isInk =
      (e.run.map (·.tag)).filter Tag.isInk := by
    rw [List.filter_map, List.filter_map]
    exact congrArg _ e.filter_collect
  rw [hfilter] at hrun
  have hle := Tag.total_filter_le Tag.isInk (e.run.map (·.tag))
  have hresult : ∀ line span f, (Symbol.reduced r.result line span f).tag = r.result :=
    fun _ _ _ => rfl
  rw [Stream.weight_eq, Stream.weight_eq, e.result_active, e.active_eq]
  simp only [List.map_append, List.map_cons, Tag.total_append, Tag.total_cons, hresult]
  omega

end Reduction

end Parsing

end StackScript
