import StackScript.Proofs.Lossless
import StackScript.Proofs.Made
import StackScript.Proofs.Replacing

/-!
# StackScript.Proofs.LineBreaks — detached line breaks stay where they were

A detached line break has no place in the source any more, only the number of an active symbol.  All
through a parse this number is right (`Stream.Anchored`): a line break stands before an active symbol
if and only if the source has one between this symbol and the one before it.  The tokens of a source
stand in order, so this holds at the start; and a reduction moves the numbers behind its match by as
much as the active symbols move.
-/

namespace StackScript

namespace Stream

/-! ### Gaps between active symbols -/

/-- Where the active symbol before the index ends. -/
def endBefore? (s : Stream) : Nat → Option Nat
  | 0 => none
  | i + 1 => s.active[i]?.map (·.span.stop)

/-- Where the active symbol at the index begins. -/
def startAt? (s : Stream) (i : Nat) : Option Nat := s.active[i]?.map (·.span.start)

/-- The span lies between the active symbol before the index, or the start of the source, and the
active symbol at the index, or the end of the source. -/
structure InGap (s : Stream) (i : Nat) (span : Span) : Prop where
  behind : ∀ n ∈ s.endBefore? i, n ≤ span.start
  before : ∀ n ∈ s.startAt? i, span.stop ≤ n

/-- The detached symbols stand in order and before active symbols or the end, the active ones cover
pieces of the source one after the other, and a line break stands before an active symbol, or the
end, just where there is one in the source. -/
structure Anchored (tokens : List Token) (s : Stream) : Prop where
  sorted : s.detached.Pairwise fun d e => d.position ≤ e.position
  within : ∀ d ∈ s.detached, d.position ≤ s.active.length
  covers : ∀ a ∈ s.active, a.span.start < a.span.stop
  apart : s.active.Pairwise fun a b => a.span.stop ≤ b.span.start
  broken_iff : ∀ i, s.lineBreakBefore i = true ↔
    i ≤ s.active.length ∧ ∃ t ∈ tokens, t.tag = .newline ∧ s.InGap i t.span

variable {s : Stream} {tokens : List Token} {span : Span} {i : Nat}

/-- Between symbols before it and symbols behind it a span lies in one gap alone. -/
theorem inGap_iff {ys zs : List Symbol} {ds : List Detached} (hspan : span.start < span.stop)
    (hys : ∀ a ∈ ys, a.span.start < a.span.stop ∧ a.span.stop ≤ span.start)
    (hzs : ∀ a ∈ zs, a.span.start < a.span.stop ∧ span.stop ≤ a.span.start) :
    (i ≤ (ys ++ zs).length ∧ InGap ⟨ys ++ zs, ds⟩ i span) ↔ i = ys.length := by
  constructor
  · rintro ⟨hi, hbehind, hbefore⟩
    rcases Nat.lt_trichotomy i ys.length with hlt | heq | hlt
    · have := hys _ (List.getElem_mem hlt)
      have := hbefore (ys[i].span.start) (by
        rw [startAt?, List.getElem?_append_left hlt, List.getElem?_eq_getElem hlt]
        rfl)
      omega
    · exact heq
    · obtain ⟨j, rfl⟩ : ∃ j, i = ys.length + j + 1 := ⟨i - ys.length - 1, by omega⟩
      have hj : j < zs.length := by
        rw [List.length_append] at hi
        omega
      have := hzs _ (List.getElem_mem hj)
      have := hbehind (zs[j].span.stop) (by
        rw [endBefore?, List.getElem?_append_right (Nat.le_add_right _ _), Nat.add_sub_cancel_left,
          List.getElem?_eq_getElem hj]
        rfl)
      omega
  · rintro rfl
    refine ⟨by simp, ⟨fun n hn => ?_, fun n hn => ?_⟩⟩
    · cases hlength : ys.length with
      | zero =>
        rw [hlength] at hn
        cases hn
      | succ j =>
        rw [hlength, endBefore?, List.getElem?_append_left (by omega)] at hn
        obtain ⟨a, ha, rfl⟩ := Option.map_eq_some_iff.mp hn
        exact (hys a (List.mem_of_getElem? ha)).2
    · rw [startAt?, List.getElem?_append_right (Nat.le_refl _)] at hn
      obtain ⟨a, ha, rfl⟩ := Option.map_eq_some_iff.mp hn
      exact (hzs a (List.mem_of_getElem? ha)).2

/-! ### The start of a parse -/

/-- A line break among symbols is detached with the number of other symbols before it. -/
theorem mem_breaks_iff {k : Nat} {as : List Symbol} {d : Detached} :
    d ∈ breaks k as ↔ ∃ pre post, as = pre ++ d.symbol :: post ∧ d.symbol.tag = .newline ∧
      d.position = k + (pre.filter (·.tag ≠ .newline)).length := by
  fun_induction breaks k as with
  | case1 => simp
  | case2 k a as ha ih =>
    rw [List.mem_cons, ih]
    constructor
    · rintro (rfl | ⟨pre, post, rfl, htag, hposition⟩)
      · exact ⟨[], as, rfl, ha, rfl⟩
      · exact ⟨a :: pre, post, rfl, htag, by simpa [ha] using hposition⟩
    · rintro ⟨- | ⟨b, pre⟩, post, heq, htag, hposition⟩
      · obtain ⟨rfl, rfl⟩ := List.cons.inj heq
        exact .inl (by cases d; simpa using hposition)
      · obtain ⟨rfl, rfl⟩ := List.cons.inj heq
        exact .inr ⟨pre, post, rfl, htag, by simpa [ha] using hposition⟩
  | case3 k a as ha ih =>
    have hlength : ∀ pre : List Symbol, ((a :: pre).filter (·.tag ≠ .newline)).length =
        (pre.filter (·.tag ≠ .newline)).length + 1 := fun pre => by
      rw [List.filter_cons_of_pos (by simpa using ha), List.length_cons]
    rw [ih]
    constructor
    · rintro ⟨pre, post, has, htag, hposition⟩
      refine ⟨a :: pre, post, congrArg (a :: ·) has, htag, ?_⟩
      rw [hlength, hposition, Nat.add_assoc, Nat.add_comm 1]
    · rintro ⟨- | ⟨b, pre⟩, post, heq, htag, hposition⟩
      · obtain ⟨rfl, -⟩ := List.cons.inj heq
        exact absurd htag ha
      · obtain ⟨rfl, has⟩ := List.cons.inj heq
        refine ⟨pre, post, has, htag, ?_⟩
        rw [hposition, hlength, Nat.add_assoc, Nat.add_comm 1]

/-- Among symbols in order, line breaks are detached in the gaps where they are. -/
theorem any_breaks_iff {as : List Symbol} (ds : List Detached)
    (hcovers : ∀ a ∈ as, a.span.start < a.span.stop)
    (hapart : as.Pairwise fun a b => a.span.stop ≤ b.span.start) :
    ((breaks 0 as).any fun d => decide (d.position = i)) = true ↔
      i ≤ (as.filter (·.tag ≠ .newline)).length ∧ ∃ a ∈ as, a.tag = .newline ∧
        InGap ⟨as.filter (·.tag ≠ .newline), ds⟩ i a.span := by
  -- where a line break splits the symbols, it lies in the gap after those before it
  have hgap : ∀ pre a post, as = pre ++ a :: post → a.tag = .newline →
      ((i ≤ (as.filter (·.tag ≠ .newline)).length ∧
        InGap ⟨as.filter (·.tag ≠ .newline), ds⟩ i a.span) ↔
          i = (pre.filter (·.tag ≠ .newline)).length) := by
    rintro pre a post rfl ha
    obtain ⟨-, hpost, hpre⟩ := List.pairwise_append.mp hapart
    have hfilter : (pre ++ a :: post).filter (·.tag ≠ .newline) =
        pre.filter (·.tag ≠ .newline) ++ post.filter (·.tag ≠ .newline) := by
      simp [ha]
    rw [hfilter]
    refine inGap_iff (hcovers a (by simp)) (fun b hb => ?_) fun b hb => ?_
    · have hb := List.mem_of_mem_filter hb
      exact ⟨hcovers b (List.mem_append_left _ hb), hpre b hb a List.mem_cons_self⟩
    · have hb := List.mem_of_mem_filter hb
      exact ⟨hcovers b (by simp [hb]), (List.pairwise_cons.mp hpost).1 b hb⟩
  rw [List.any_eq_true]
  constructor
  · rintro ⟨d, hd, hposition⟩
    obtain ⟨pre, post, has, htag, hd⟩ := mem_breaks_iff.mp hd
    have hi : i = (pre.filter (·.tag ≠ .newline)).length := by
      rw [← of_decide_eq_true hposition, hd, Nat.zero_add]
    obtain ⟨hle, hin⟩ := (hgap pre _ post has htag).mpr hi
    exact ⟨hle, d.symbol, by rw [has]; simp, htag, hin⟩
  · rintro ⟨hle, a, ha, htag, hin⟩
    obtain ⟨pre, post, has⟩ := List.append_of_mem ha
    have hi := (hgap pre a post has htag).mp ⟨hle, hin⟩
    refine ⟨⟨i, a⟩, mem_breaks_iff.mpr ⟨pre, post, has, htag, ?_⟩, by simp⟩
    rw [Nat.zero_add]
    exact hi

/-- A stream of ordered tokens is anchored in them. -/
theorem anchored_prepare (hcovers : ∀ t ∈ tokens, t.span.start < t.span.stop)
    (hapart : tokens.Pairwise fun t u => t.span.stop ≤ u.span.start) :
    (prepare tokens).Anchored tokens := by
  obtain ⟨hbreaks, hsorted, hany⟩ := foldNeighbours_breaks isBreak_of_mem_breaks
    (breaks_sorted 0 (inked tokens))
  have hinked : ∀ a ∈ inked tokens, ∃ t ∈ tokens, a = .ofToken t := by
    intro a ha
    obtain ⟨t, ht, rfl⟩ := List.mem_map.mp (List.mem_of_mem_filter (List.mem_of_mem_filter ha))
    exact ⟨t, ht, rfl⟩
  have hcovers' : ∀ a ∈ inked tokens, a.span.start < a.span.stop := by
    intro a ha
    obtain ⟨t, ht, rfl⟩ := hinked a ha
    exact hcovers t ht
  have hapart' : (inked tokens).Pairwise fun a b => a.span.stop ≤ b.span.start :=
    ((List.pairwise_map.mpr hapart).filter _).filter _
  have hbroken : ∀ i, (prepare tokens).lineBreakBefore i =
      (breaks 0 (inked tokens)).any fun d => decide (d.position = i) := by
    intro i
    rw [← hany i, prepare_eq_inked, lineBreakBefore, Bool.eq_iff_iff, List.any_eq_true,
      List.any_eq_true]
    refine exists_congr fun d => and_congr_right fun hd => ?_
    simp [(hbreaks d hd).1]
  have hiff : ∀ i, (prepare tokens).lineBreakBefore i = true ↔
      i ≤ (prepare tokens).active.length ∧
        ∃ t ∈ tokens, t.tag = .newline ∧ (prepare tokens).InGap i t.span := by
    intro i
    rw [hbroken, any_breaks_iff (prepare tokens).detached hcovers' hapart']
    rw [prepare_eq_inked]
    refine and_congr_right fun _ => ⟨?_, ?_⟩
    · rintro ⟨a, ha, htag, hin⟩
      obtain ⟨t, ht, rfl⟩ := hinked a ha
      exact ⟨t, ht, htag, hin⟩
    · rintro ⟨t, ht, htag, hin⟩
      refine ⟨.ofToken t, ?_, htag, hin⟩
      have hnewline : (Symbol.ofToken t).tag = .newline := htag
      simp only [inked, List.mem_filter, hnewline]
      exact ⟨⟨List.mem_map_of_mem ht, rfl⟩, rfl⟩
  refine ⟨?_, fun d hd => ?_, fun a ha => ?_, ?_, hiff⟩
  · rw [prepare_eq_inked]
    exact hsorted
  · have hd' := hd
    rw [prepare_eq_inked] at hd'
    refine ((hiff d.position).mp (List.any_eq_true.mpr ⟨d, hd, ?_⟩)).1
    simp [(hbreaks d hd').1]
  · obtain ⟨t, ht, rfl⟩ := mem_active_prepare ha
    exact hcovers t ht
  · rw [prepare_eq_inked]
    exact hapart'.filter _

/-! ### One reduction -/

/-- A symbol with the span of a run lies between the neighbours of the run. -/
theorem inGap_replaced {before xs after : List Symbol} {a b symbol : Symbol} {ds es : List Detached}
    (hb : (a :: xs).getLast? = some b) (hsymbol : symbol.span = ⟨a.span.start, b.span.stop⟩) :
    InGap ⟨before ++ symbol :: after, ds⟩ i span ↔
      InGap ⟨before ++ (a :: xs ++ after), es⟩
        (if i ≤ before.length then i else i + xs.length) span := by
  have hlast : (a :: xs)[xs.length]? = some b := by
    rw [← hb, List.getLast?_eq_getElem?, List.length_cons, Nat.add_sub_cancel]
  have hafter : ∀ m, (a :: xs ++ after)[m + 1 + xs.length]? = after[m]? := by
    intro m
    have hindex : m + 1 + xs.length = (a :: xs).length + m := by
      rw [List.length_cons]
      omega
    rw [hindex, List.getElem?_append_right (Nat.le_add_right _ _), Nat.add_sub_cancel_left]
  have hend : endBefore? ⟨before ++ symbol :: after, ds⟩ i = endBefore?
      ⟨before ++ (a :: xs ++ after), es⟩ (if i ≤ before.length then i else i + xs.length) := by
    rcases Nat.lt_or_ge before.length i with hlt | hle
    · obtain ⟨m, rfl⟩ : ∃ m, i = before.length + m + 1 := ⟨i - before.length - 1, by omega⟩
      have hindex : before.length + m + 1 + xs.length = before.length + (m + xs.length) + 1 := by
        omega
      rw [if_neg (by omega), hindex, endBefore?, endBefore?,
        List.getElem?_append_right (Nat.le_add_right _ _),
        List.getElem?_append_right (Nat.le_add_right _ _), Nat.add_sub_cancel_left,
        Nat.add_sub_cancel_left]
      cases m with
      | zero =>
        rw [Nat.zero_add, List.getElem?_append_left (by simp), hlast, List.getElem?_cons_zero,
          Option.map_some, Option.map_some, hsymbol]
      | succ m =>
        rw [hafter, List.getElem?_cons_succ]
    · rw [if_pos hle]
      cases i with
      | zero => rfl
      | succ j =>
        rw [endBefore?, endBefore?, List.getElem?_append_left hle, List.getElem?_append_left hle]
  have hstart : startAt? ⟨before ++ symbol :: after, ds⟩ i = startAt?
      ⟨before ++ (a :: xs ++ after), es⟩ (if i ≤ before.length then i else i + xs.length) := by
    rw [startAt?, startAt?]
    rcases Nat.lt_trichotomy i before.length with hlt | rfl | hlt
    · rw [if_pos (Nat.le_of_lt hlt), List.getElem?_append_left hlt, List.getElem?_append_left hlt]
    · rw [if_pos (Nat.le_refl _), List.getElem?_append_right (Nat.le_refl _),
        List.getElem?_append_right (Nat.le_refl _), Nat.sub_self, List.getElem?_cons_zero,
        List.cons_append, List.getElem?_cons_zero, Option.map_some, Option.map_some, hsymbol]
    · obtain ⟨m, rfl⟩ : ∃ m, i = before.length + (m + 1) := ⟨i - before.length - 1, by omega⟩
      rw [if_neg (by omega), Nat.add_assoc, List.getElem?_append_right (Nat.le_add_right _ _),
        List.getElem?_append_right (Nat.le_add_right _ _), Nat.add_sub_cancel_left,
        Nat.add_sub_cancel_left, List.getElem?_cons_succ, hafter]
  constructor
  · rintro ⟨hbehind, hbefore⟩
    exact ⟨hend ▸ hbehind, hstart ▸ hbefore⟩
  · rintro ⟨hbehind, hbefore⟩
    exact ⟨hend.symm ▸ hbehind, hstart.symm ▸ hbefore⟩

/-- Putting one symbol for a run of neighbours keeps the stream anchored. -/
theorem Anchored.replaced (h : s.Anchored tokens) {before xs after : List Symbol} {a b symbol : Symbol}
    (hactive : s.active = before ++ (a :: xs ++ after)) (hb : (a :: xs).getLast? = some b)
    (hsymbol : symbol.span = ⟨a.span.start, b.span.stop⟩) :
    Anchored tokens ⟨before ++ symbol :: after,
      shifted before.length (before.length + xs.length) s.detached⟩ := by
  have hle : before.length ≤ before.length + xs.length := Nat.le_add_right _ _
  have hlength : s.active.length = before.length + (xs.length + 1) + after.length := by
    rw [hactive]
    simp
    omega
  have hcovers := h.covers
  have hapart := h.apart
  rw [hactive] at hcovers hapart
  obtain ⟨hbeforeApart, hrestApart, hbeforeRest⟩ := List.pairwise_append.mp hapart
  obtain ⟨hrunApart, hafterApart, hrunAfter⟩ := List.pairwise_append.mp hrestApart
  have hmemLast : b ∈ a :: xs := List.mem_of_getLast? hb
  have hspan : a.span.start < b.span.stop := by
    have ha := hcovers a (by simp)
    rcases List.mem_cons.mp hmemLast with rfl | hmem
    · exact ha
    · have := (List.pairwise_cons.mp hrunApart).1 b hmem
      have := hcovers b (by simp [hmem])
      omega
  refine ⟨shifted_sorted hle h.sorted, fun d hd => ?_, fun c hc => ?_, ?_, fun i => ?_⟩
  · obtain ⟨e, he, rfl⟩ := List.mem_map.mp hd
    obtain ⟨hmem, hkept⟩ := List.mem_filter.mp he
    have := h.within e hmem
    simp only [Bool.or_eq_true, decide_eq_true_eq] at hkept
    simp only [List.length_append, List.length_cons]
    split <;> (try dsimp only) <;> omega
  · rcases List.mem_append.mp hc with hc | hc
    · exact hcovers c (List.mem_append_left _ hc)
    rcases List.mem_cons.mp hc with rfl | hc
    · rw [hsymbol]
      exact hspan
    · exact hcovers c (by simp [hc])
  · refine List.pairwise_append.mpr ⟨hbeforeApart, List.pairwise_cons.mpr ⟨fun c hc => ?_,
      hafterApart⟩, fun c hc d hd => ?_⟩
    · rw [hsymbol]
      exact hrunAfter b hmemLast c hc
    · rcases List.mem_cons.mp hd with rfl | hd
      · rw [hsymbol]
        exact hbeforeRest c hc a (by simp)
      · exact hbeforeRest c hc d (by simp [hd])
  · have hbroken : lineBreakBefore ⟨before ++ symbol :: after,
        shifted before.length (before.length + xs.length) s.detached⟩ i =
          s.lineBreakBefore (if i ≤ before.length then i else i + xs.length) := by
      rw [lineBreakBefore, any_shifted hle, Nat.add_sub_cancel_left]
      rfl
    rw [hbroken, h.broken_iff, hlength]
    refine and_congr ?_ (exists_congr fun t => and_congr_right fun _ => and_congr_right fun _ => ?_)
    · simp only [List.length_append, List.length_cons]
      split <;> omega
    · have hs : s = ⟨before ++ (a :: xs ++ after), s.detached⟩ := by
        cases s
        rw [← hactive]
      rw [hs]
      exact (inGap_replaced hb hsymbol).symm

/-- A reduction keeps the stream anchored. -/
theorem Anchored.reduceOnce {p q : Parsing} {r : Rule} (hp : p.stream.Anchored tokens)
    (h : p.reduceOnce r = some q) : q.stream.Anchored tokens := by
  obtain ⟨e⟩ := Parsing.reduction_of_reduceOnce h
  obtain ⟨a, xs, b, hrun, hb, hstream⟩ := e.spliced h
  have hactive := e.active_eq
  have hinside : ∀ j d, .detached j ∈ e.found.run → p.stream.detached[j]? = some d →
      e.before.length < d.position ∧ d.position ≤ e.before.length + xs.length := by
    intro j d hj hd
    have := e.inside hj hd
    rwa [hrun, List.length_cons, Nat.add_sub_cancel] at this
  rw [hrun] at hactive
  have htake : p.stream.active.take e.before.length = e.before := by rw [hactive, List.take_left]
  have hdrop : p.stream.active.drop (e.before.length + xs.length + 1) = e.after := by
    rw [hactive, ← List.append_assoc]
    exact List.drop_left' (by simp [Nat.add_assoc])
  rw [hstream, splice_eq hinside, htake, hdrop]
  exact hp.replaced hactive hb rfl

/-- A leaf has a line break before it just where the source has one behind the leaf before. -/
theorem Anchored.broken_iff_between (h : s.Anchored tokens) {pre post : List Leaf} {a o : Leaf}
    (hs : s.leaves = pre ++ a :: o :: post) :
    o.broken = true ↔ ∃ t ∈ tokens, t.tag = .newline ∧ a.symbol.span.stop ≤ t.span.start ∧
      t.span.stop ≤ o.symbol.span.start := by
  have ho : s.leaves = (pre ++ [a]) ++ o :: post := by rw [hs]; simp
  have hlength : (pre ++ [a]).length = pre.length + 1 := by simp
  have hle : (pre ++ [a]).length ≤ s.active.length :=
    Nat.le_of_lt (List.getElem?_eq_some_iff.mp (active_of_leaves ho)).1
  have hend : s.endBefore? (pre ++ [a]).length = some a.symbol.span.stop := by
    rw [hlength, endBefore?, active_of_leaves hs]
    rfl
  have hstart : s.startAt? (pre ++ [a]).length = some o.symbol.span.start := by
    rw [startAt?, active_of_leaves ho]
    rfl
  rw [← lineBreakBefore_of_leaves ho, h.broken_iff, and_iff_right hle]
  refine exists_congr fun t => and_congr_right fun _ => and_congr_right fun _ => ⟨?_, ?_⟩
  · exact fun hin => ⟨hin.behind _ hend, hin.before _ hstart⟩
  · rintro ⟨hbehind, hbefore⟩
    refine ⟨fun n hn => ?_, fun n hn => ?_⟩
    · rwa [← Option.some.inj (hend.symm.trans hn)]
    · rwa [← Option.some.inj (hstart.symm.trans hn)]

end Stream

/-! ### A whole parse -/

namespace Lexer

open Text

/-- Neighbours in a source stand in its order. -/
theorem Contiguous.apart {offset : Nat} {tokens : List Token} (h : Contiguous offset tokens)
    (hcovers : ∀ t ∈ tokens, t.span.start < t.span.stop) :
    (∀ t ∈ tokens, offset ≤ t.span.start) ∧
      tokens.Pairwise fun t u => t.span.stop ≤ u.span.start := by
  induction tokens generalizing offset with
  | nil => exact ⟨fun t ht => absurd ht List.not_mem_nil, .nil⟩
  | cons t tokens ih =>
    obtain ⟨rfl, h⟩ := h
    obtain ⟨ht, hcovers⟩ := List.forall_mem_cons.mp hcovers
    obtain ⟨hle, hapart⟩ := ih h hcovers
    refine ⟨List.forall_mem_cons.mpr ⟨Nat.le_refl _, fun u hu => ?_⟩, .cons hle hapart⟩
    exact Nat.le_trans (Nat.le_of_lt ht) (hle u hu)

/-- The tokens of a source are pieces of it that stand in its order. -/
theorem spans_of_tokenize {source : String} {tokens : List Token}
    (h : standard.tokenize source = .ok tokens) :
    (∀ t ∈ tokens, t.span.start < t.span.stop) ∧
      tokens.Pairwise fun t u => t.span.stop ≤ u.span.start := by
  have hlexed : standard.scan (byteLength []) (1 + [].count '\n') source.toList = ⟨tokens, none⟩ :=
    scanSource_of_tokenize h
  obtain ⟨hcarries, hcontiguous, -⟩ := scan_spec standard_within [] source.toList
  rw [hlexed] at hcarries hcontiguous
  have hcovers : ∀ t ∈ tokens, t.span.start < t.span.stop := by
    intro t ht
    obtain ⟨hnonempty, hstop, -⟩ := hcarries t ht
    obtain ⟨c, cs, hcs⟩ := List.exists_cons_of_ne_nil
      fun hnil => hnonempty (String.toList_eq_nil_iff.mp hnil)
    have hlength : (bytes t.text).length = byteLength (c :: cs) := by
      rw [length_bytes, hcs]
    rw [hstop, hlength, byteLength_cons]
    have := c.utf8Size_pos
    omega
  exact ⟨hcovers, (hcontiguous.apart hcovers).2⟩

end Lexer

open Parsing Relation

/-- Reductions keep a stream anchored. -/
theorem Stream.Anchored.steps {tokens : List Token} {p q : Parsing} (h : ReflTransGen Steps p q)
    (hp : p.stream.Anchored tokens) : q.stream.Anchored tokens := by
  induction h with
  | refl => exact hp
  | tail _ hstep ih =>
    obtain ⟨r, hr⟩ := hstep
    exact ih.reduceOnce hr

/-- Detached line breaks stay where they were, whatever reductions are made of the tokens of a
source. -/
theorem line_breaks_stay {source : String} {tokens : List Token} {p : Parsing}
    (h : Lexer.standard.tokenize source = .ok tokens)
    (hp : ReflTransGen Steps (.start tokens) p) : p.stream.Anchored tokens := by
  obtain ⟨hcovers, hapart⟩ := Lexer.spans_of_tokenize h
  exact (Stream.anchored_prepare hcovers hapart).steps hp

/-- The names on two lines become expressions, and the second one keeps its line break. -/
theorem line_breaks_stay_two_lines : ∃ tokens p, Lexer.standard.tokenize "a\nb" = .ok tokens ∧
    ReflTransGen Steps (.start tokens) p ∧ p.tags = [.expression, .expression] ∧
    p.stream.Anchored tokens ∧ p.stream.lineBreakBefore 1 = true := by
  let tokens : List Token := [⟨.name, "a", 1, ⟨0, 1⟩⟩, ⟨.newline, "\n", 1, ⟨1, 2⟩⟩,
    ⟨.name, "b", 2, ⟨2, 3⟩⟩]
  have hscan : (Lexer.standard.scanSource "a\nb").tokens = tokens ∧
      (Lexer.standard.scanSource "a\nb").failure = none := by decide +kernel
  have hlexed : Lexer.standard.tokenize "a\nb" = .ok tokens :=
    Lexer.tokenize_of_scanSource hscan.1 hscan.2
  have hsteps : ReflTransGen Steps (.start tokens) ((start tokens).apply .variable).1 :=
    Grammar.reduces_steps ((start tokens).apply_reduces .variable).1
  refine ⟨tokens, _, hlexed, hsteps, ?_, line_breaks_stay hlexed hsteps, ?_⟩ <;>
    rw [start, Stream.prepare_eq_inked] <;> decide

end StackScript
