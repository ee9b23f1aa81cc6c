import Mathlib.Algebra.Order.BigOperators.Group.List
import StackScript.Proofs.Branches
import StackScript.Proofs.Uses

/-!
# StackScript.Proofs.Tracing — the tokens that lines come from

A reduction gives its symbol the line of the first symbol that it takes, and a node of a tree the
line of one of the symbols.  So each line goes back to a token: that of a symbol to the first token
of what it stands for, that of a read or an assignment to the name that was reduced to it, and that
of a report to the keyword that was refused.  `Parsing.Traced` says so of the symbols of a parse,
and every reduction keeps it (`Parsing.Traced.step`).
-/

namespace StackScript

open Parsing Relation

/-! ### Tokens in a parse -/

/-- The symbol is the token, or what it stands for begins with the token. -/
structure Symbol.BeginsWith (s : Symbol) (t : Token) : Prop where
  line_eq : s.line = t.line
  start_eq : s.span.start = t.span.start
  eq_of_fragment : s.fragment = none → s = .ofToken t

/-- In a parse of the tokens, the name `t` is reduced to this read, or with the sign behind it to
the head of this assignment. -/
inductive Token.Used (tokens : List Token) (t : Token) : Occurrence → Prop
  | read {p q : Parsing} {before after : List Symbol} {s : Symbol} (htag : t.tag = .name)
    (hp : ReflTransGen Steps (.start tokens) p) (hq : p.reduceOnce .variable = some q)
    (htaken : p.stream.active = before ++ .ofToken t :: after)
    (hgiven : q.stream.active = before ++ s :: after)
    (hs : s.fragment = some (.value (.variable t.line t.text none))) :
    Used tokens t (.read t.text t.line none)
  | write {p q : Parsing} {before after : List Symbol} {o s : Symbol} (htag : t.tag = .name)
    (hp : ReflTransGen Steps (.start tokens) p) (hq : p.reduceOnce .assignmentHead = some q)
    (htaken : p.stream.active = before ++ .ofToken t :: o :: after) (ho : o.tag = .equals)
    (hgiven : q.stream.active = before ++ s :: after)
    (hs : s.fragment = some (.assignmentHead t.line false none t.text)) :
    Used tokens t (.write t.text t.line none)

theorem Token.Used.eq_or_eq {tokens : List Token} {t : Token} {o : Occurrence}
    (h : t.Used tokens o) : o = .read t.text t.line none ∨ o = .write t.text t.line none := by
  cases h with
  | read => exact .inl rfl
  | write => exact .inr rfl

/-- In a parse of the tokens, a rule takes the keyword `t` right behind a program, and this is
reported. -/
inductive Token.Refused (tokens : List Token) (t : Token) (d : Diagnostic) : Prop
  | intro {r : Rule} {p q : Parsing} {before run after : List Symbol} {a s : Symbol}
    (hp : ReflTransGen Steps (.start tokens) p) (hq : p.reduceOnce r = some q)
    (hkeyword : r.keyword? = some t.tag) (ha : a.tag = .program)
    (htaken : p.stream.active = before ++ (a :: .ofToken t :: run ++ after))
    (hgiven : q.stream.active = before ++ s :: after)
    (hreport : q.record.diagnostics = p.record.diagnostics ++ [d])
    (hd : d = .danglingElse t.line ∨ t.tag = .elseIfWord ∧ d = .elseIfAfterElse t.line)

/-! ### Lines of uses -/

/-- The line of a use; nothing else has one. -/
def Occurrence.line : Occurrence → Nat
  | read _ line _ => line
  | write _ line _ => line
  | enter _ | leave | declare .. => 0

/-- The lines of the uses that a symbol has, or can be reduced to. -/
def Symbol.useLines (s : Symbol) : Multiset Nat :=
  match s.fragment with
  | some f => f.uses.map Occurrence.line
  | none => if s.tag = .name then {s.line} else 0

/-- The lines of the uses of symbols. -/
def Symbol.useLinesAll (ms : List Symbol) : Multiset Nat := (ms.map useLines).sum

namespace Symbol

variable {s : Symbol} {ms ms' : List Symbol} {f : Fragment}

@[simp] theorem useLinesAll_cons (s : Symbol) (ms : List Symbol) :
    useLinesAll (s :: ms) = s.useLines + useLinesAll ms := List.sum_cons

theorem useLinesAll_append (ms ms' : List Symbol) :
    useLinesAll (ms ++ ms') = useLinesAll ms + useLinesAll ms' := by
  rw [useLinesAll, List.map_append, List.sum_append]
  rfl

theorem useLinesAll_le (h : ms.Sublist ms') : useLinesAll ms ≤ useLinesAll ms' :=
  (h.map useLines).sum_le_sum fun _ _ => zero_le

theorem Is.useLines_name (h : s.Is .name) : s.useLines = {s.line} := by
  rw [useLines, h.fragment_eq]
  exact if_pos h.tag_eq

theorem map_line_uses_le (s : Symbol) : s.uses.map Occurrence.line ≤ s.useLines := by
  rw [useLines, uses]
  cases s.fragment with
  | none => exact zero_le
  | some f => exact le_refl _

theorem map_line_usesAll_le (ms : List Symbol) :
    (usesAll ms).map Occurrence.line ≤ useLinesAll ms := by
  induction ms with
  | nil => exact le_refl _
  | cons s ms ih =>
    rw [usesAll_cons, Multiset.map_add, useLinesAll_cons]
    exact add_le_add s.map_line_uses_le ih

/-- Line breaks are never used. -/
theorem useLinesAll_ink (h : ∀ s ∈ ms, s.Sound) :
    useLinesAll (ms.filter (·.tag.isInk)) = useLinesAll ms := by
  induction ms with
  | nil => rfl
  | cons s ms ih =>
    obtain ⟨hs, hms⟩ := List.forall_mem_cons.mp h
    rw [List.filter_cons, useLinesAll_cons, ← ih hms]
    cases hink : s.tag.isInk with
    | true => rw [if_pos rfl, useLinesAll_cons]
    | false =>
      have htag : s.tag = .newline := by simpa [Tag.isInk] using hink
      have hnone : s.useLines = 0 := by
        rw [useLines, hs.fragment_eq (htag ▸ by decide), htag]
        rfl
      rw [if_neg Bool.false_ne_true, hnone, zero_add]

theorem mem_usesAll {o : Occurrence} : o ∈ usesAll ms ↔ ∃ s ∈ ms, o ∈ s.uses := by
  induction ms with
  | nil => simp
  | cons s ms ih => simp [ih]

end Symbol

namespace Rule

open StackScript.Symbol

variable {r : Rule} {ms : List Symbol} {f : Fragment} {n : Nat} {ds : List Diagnostic}

/-- A rule makes a new use of a name alone: a read, or the head of an assignment. -/
theorem Makes.newUses_cases (h : r.Makes ms f n ds) : r.newUses ms = 0 ∨
    (∃ x, r = .variable ∧ ms = [x] ∧ x.Is .name ∧ f = .value (.variable x.line x.text none)) ∨
    ∃ x s, r = .assignmentHead ∧ ms = [x, s] ∧ x.Is .name ∧ s.Is .equals ∧
      f = .assignmentHead x.line false none x.text := by
  cases h with
  | «variable» hx => exact .inr (.inl ⟨_, rfl, rfl, hx, rfl⟩)
  | assignmentHead hx hs => exact .inr (.inr ⟨_, _, rfl, rfl, hx, hs, rfl⟩)
  | @binary _ p _ o _ _ _ _ ho hr =>
    subst hr
    generalize o.tag = t at ho
    cases t <;> cases ho <;> exact .inl rfl
  | stray hr | late hr | closeEmpty hr | close hr => rcases hr with rfl | rfl <;> exact .inl rfl
  | _ => exact .inl rfl

/-- What a rule makes has the lines of its match. -/
theorem Makes.map_line_uses_le (h : r.Makes ms f n ds) :
    f.uses.map Occurrence.line ≤ useLinesAll ms := by
  rcases h.newUses_cases with hnone | ⟨x, -, rfl, hx, rfl⟩ | ⟨x, s, -, rfl, hx, -, rfl⟩
  · have huses := h.uses_le
    rw [hnone, add_zero] at huses
    exact (Multiset.map_le_map huses).trans (map_line_usesAll_le ms)
  · rw [useLinesAll_cons, hx.useLines_name]
    exact le_self_add
  · rw [useLinesAll_cons, hx.useLines_name]
    exact le_self_add

end Rule

/-- What a rule reports is about the second symbol of its match. -/
theorem Rule.Makes.report_cases {r : Rule} {a o : Symbol} {ms : List Symbol} {f : Fragment}
    {n : Nat} {ds : List Diagnostic} (h : r.Makes (a :: o :: ms) f n ds) : ds = [] ∨
      ds = [.danglingElse o.line] ∨ r = .elseIf ∧ ds = [.elseIfAfterElse o.line] := by
  cases h with
  | stray => exact .inr (.inl rfl)
  | late hr =>
    rcases hr with rfl | rfl
    · exact .inr (.inr ⟨rfl, rfl⟩)
    · exact .inr (.inl rfl)
  | _ => exact .inl rfl

/-! ### Reductions -/

/-- The lines of the names among tokens. -/
def Token.nameLines (tokens : List Token) : List Nat := (tokens.filter (·.tag = .name)).map (·.line)

theorem Token.useLinesAll_ofToken (tokens : List Token) :
    Symbol.useLinesAll (tokens.map Symbol.ofToken) = nameLines tokens := by
  induction tokens with
  | nil => rfl
  | cons t tokens ih =>
    have htoken : (Symbol.ofToken t).useLines = if t.tag = .name then {t.line} else 0 := rfl
    rw [List.map_cons, Symbol.useLinesAll_cons, ih, htoken, nameLines, nameLines, List.filter_cons]
    by_cases htag : t.tag = .name
    · rw [if_pos htag, if_pos (decide_eq_true htag)]
      rfl
    · rw [if_neg htag, if_neg (by simpa using htag), zero_add]

namespace Parsing

variable {tokens : List Token} {p q : Parsing} {r : Rule}

/-- Each line in the parsing is that of one of the tokens. -/
structure Traced (tokens : List Token) (p : Parsing) : Prop where
  begins : ∀ s ∈ p.stream.active, ∃ t ∈ tokens, s.BeginsWith t
  uses : ∀ s ∈ p.stream.active, ∀ o ∈ s.uses, ∃ t ∈ tokens, t.Used tokens o
  /-- a name is used once at most -/
  useLines : Symbol.useLinesAll p.stream.active ≤ (Token.nameLines tokens : Multiset Nat)
  reports : ∀ d ∈ p.record.diagnostics, ∃ t ∈ tokens, t.Refused tokens d

namespace Reduction

theorem mem_active (e : Reduction r p q) {s : Symbol} (h : s ∈ e.run) : s ∈ p.stream.active := by
  rw [e.active_eq]
  exact List.mem_append_right _ (List.mem_append_left _ h)

/-- The new symbol is on the line of the first symbol of the run, and begins where that begins. -/
theorem exists_first (e : Reduction r p q) (h : p.reduceOnce r = some q) :
    ∃ a ∈ e.run, e.line = a.line ∧ e.span.start = a.span.start := by
  obtain ⟨a, xs, b, hrun, -, hstream⟩ := e.spliced h
  have hactive : e.before ++ Symbol.reduced r.result e.line e.span
        ((r.build (p.stream.collect e.found.run)).run p.record).1 :: e.after =
      p.stream.active.take e.before.length ++ Symbol.reduced r.result a.line
        ⟨a.span.start, b.span.stop⟩ ((r.build (p.stream.collect e.found.run)).run p.record).1 ::
        p.stream.active.drop (e.before.length + xs.length + 1) := by
    rw [← e.result_active, hstream]
    rfl
  have htake : p.stream.active.take e.before.length = e.before := by
    rw [e.active_eq, List.take_left]
  rw [htake] at hactive
  obtain ⟨hsymbol, -⟩ := List.cons.inj (List.append_cancel_left hactive)
  refine ⟨a, hrun ▸ List.mem_cons_self, congrArg (·.line) hsymbol, ?_⟩
  exact congrArg (fun s : Symbol => s.span.start) hsymbol

/-- A token of the parse is a token of the lexer. -/
theorem eq_ofToken (e : Reduction r p q) (h : p.Traced tokens) {s : Symbol} (hs : s ∈ e.run)
    (hnone : s.fragment = none) : ∃ t ∈ tokens, s = .ofToken t := by
  obtain ⟨t, ht, hbegins⟩ := h.begins s (e.mem_active hs)
  exact ⟨t, ht, hbegins.eq_of_fragment hnone⟩

section

variable {f : Fragment} {n : Nat} {ds : List Diagnostic}

/-- The new symbol has the uses of the match, and of a name if that is reduced to one. -/
theorem traced_uses (e : Reduction r p q) (h : p.Traced tokens)
    (hp : ReflTransGen Steps (.start tokens) p) (hsound : p.stream.Sound)
    (hq : p.reduceOnce r = some q) (hmakes : Makes r p q e f n ds) {o : Occurrence}
    (ho : o ∈ f.uses) : ∃ t ∈ tokens, t.Used tokens o := by
  have hactive := e.active_eq
  rcases hmakes.makes.newUses_cases with
    hnone | ⟨x, rfl, hcollect, hx, rfl⟩ | ⟨x, s, rfl, hcollect, hx, hs, rfl⟩
  · have hold := Multiset.mem_of_le hmakes.makes.uses_le ho
    rw [hnone, add_zero, Symbol.mem_usesAll] at hold
    obtain ⟨s, hs, ho⟩ := hold
    obtain ⟨entry, -, hentry⟩ := List.mem_filterMap.mp hs
    cases entry with
    | active i => exact h.uses s (List.mem_of_getElem? hentry) o ho
    | detached j =>
      -- a line break has no uses
      obtain ⟨d, hd, rfl⟩ := Option.map_eq_some_iff.mp hentry
      rw [Symbol.uses_eq_zero (hsound.detached d (List.mem_of_getElem? hd)).2] at ho
      cases ho
  · rw [e.collect_eq rfl] at hcollect
    rw [hcollect] at hactive
    obtain ⟨t, ht, rfl⟩ := e.eq_ofToken h (hcollect ▸ List.mem_cons_self) hx.fragment_eq
    obtain rfl := Multiset.mem_singleton.mp ho
    exact ⟨t, ht, .read hx.tag_eq hp hq hactive hmakes.active_eq rfl⟩
  · rw [e.collect_eq rfl] at hcollect
    rw [hcollect] at hactive
    obtain ⟨t, ht, rfl⟩ := e.eq_ofToken h (hcollect ▸ List.mem_cons_self) hx.fragment_eq
    obtain rfl := Multiset.mem_singleton.mp ho
    exact ⟨t, ht, .write hx.tag_eq hp hq hactive hs.tag_eq hmakes.active_eq rfl⟩

/-- What is reported is that a keyword was refused. -/
theorem traced_reports (e : Reduction r p q) (h : p.Traced tokens)
    (hp : ReflTransGen Steps (.start tokens) p) (hsound : p.stream.Sound)
    (hq : p.reduceOnce r = some q) (hmakes : Makes r p q e f n ds) {d : Diagnostic}
    (hd : d ∈ ds) : ∃ t ∈ tokens, t.Refused tokens d := by
  have hms := hmakes.makes
  cases hkeyword : r.keyword? with
  | none =>
    rw [hms.silent hkeyword] at hd
    cases hd
  | some k =>
    obtain ⟨a, o, ms, hcollect, hrun, ha, rfl⟩ := e.run_of_keyword hkeyword
    have ho : o ∈ e.run := by simp [hrun]
    have hfragment : o.fragment = none := by
      refine (hsound.active o (e.mem_active ho)).fragment_eq ?_
      generalize o.tag = k at hkeyword
      cases r <;> cases hkeyword <;> decide
    obtain ⟨t, ht, rfl⟩ := e.eq_ofToken h ho hfragment
    rw [hcollect] at hms
    have hreport := hmakes.diagnostics_eq
    have htaken : p.stream.active = e.before ++ (a :: .ofToken t :: ms ++ e.after) := by
      rw [e.active_eq, hrun]
    rcases hms.report_cases with rfl | rfl | ⟨rfl, rfl⟩
    · cases hd
    · obtain rfl := List.mem_singleton.mp hd
      exact ⟨t, ht, .intro hp hq hkeyword ha htaken hmakes.active_eq hreport (.inl rfl)⟩
    · obtain rfl := List.mem_singleton.mp hd
      have htag : t.tag = .elseIfWord := (Option.some.inj hkeyword).symm
      exact ⟨t, ht, .intro hp hq hkeyword ha htaken hmakes.active_eq hreport (.inr ⟨htag, rfl⟩)⟩

/-- The new symbol has no other lines than the match. -/
theorem useLinesAll_le (e : Reduction r p q) (hsound : p.stream.Sound)
    (hmakes : Makes r p q e f n ds) :
    Symbol.useLinesAll q.stream.active ≤ Symbol.useLinesAll p.stream.active := by
  have hcollect : Symbol.useLinesAll (p.stream.collect e.found.run) = Symbol.useLinesAll e.run := by
    rw [← Symbol.useLinesAll_ink hsound.collect, e.filter_collect,
      Symbol.useLinesAll_ink fun s hs => hsound.active s (e.mem_active hs)]
  have hnew : (Symbol.reduced r.result e.line e.span (some f)).useLines ≤
      Symbol.useLinesAll e.run := hcollect ▸ hmakes.makes.map_line_uses_le
  rw [hmakes.active_eq, e.active_eq, Symbol.useLinesAll_append, Symbol.useLinesAll_append,
    Symbol.useLinesAll_append, Symbol.useLinesAll_cons]
  exact add_le_add_right (add_le_add_left hnew _) _

end

end Reduction

/-- A reduction copies lines and makes none. -/
theorem Traced.step (h : p.Traced tokens) (hp : ReflTransGen Steps (.start tokens) p)
    (hsound : p.stream.Sound) (hq : p.reduceOnce r = some q) : q.Traced tokens := by
  obtain ⟨e⟩ := reduction_of_reduceOnce hq
  obtain ⟨f, n, ds, hmakes⟩ := e.makes hsound
  have hactive : ∀ s ∈ q.stream.active, s ∈ p.stream.active ∨
      s = Symbol.reduced r.result e.line e.span (some f) := by
    intro s hs
    rw [hmakes.active_eq, List.mem_append, List.mem_cons] at hs
    rw [e.active_eq]
    rcases hs with hs | hs | hs
    · exact .inl (List.mem_append_left _ hs)
    · exact .inr hs
    · exact .inl (List.mem_append_right _ (List.mem_append_right _ hs))
  constructor
  case begins =>
    intro s hs
    rcases hactive s hs with hs | rfl
    · exact h.begins s hs
    · obtain ⟨a, ha, hline, hstart⟩ := e.exists_first hq
      obtain ⟨t, ht, hbegins⟩ := h.begins a (e.mem_active ha)
      exact ⟨t, ht, hline.trans hbegins.line_eq, hstart.trans hbegins.start_eq, nofun⟩
  case uses =>
    intro s hs o ho
    rcases hactive s hs with hs | rfl
    · exact h.uses s hs o ho
    · exact e.traced_uses h hp hsound hq hmakes ho
  case useLines => exact (e.useLinesAll_le hsound hmakes).trans h.useLines
  case reports =>
    intro d hd
    rw [hmakes.diagnostics_eq, List.mem_append] at hd
    rcases hd with hd | hd
    · exact h.reports d hd
    · exact e.traced_reports h hp hsound hq hmakes hd

/-- At the start the symbols are tokens. -/
theorem traced_start (tokens : List Token) : (start tokens).Traced tokens := by
  have hbegins : ∀ s ∈ (start tokens).stream.active, ∃ t ∈ tokens, s = .ofToken t :=
    fun s hs => Stream.mem_active_prepare hs
  constructor
  case begins =>
    intro s hs
    obtain ⟨t, ht, rfl⟩ := hbegins s hs
    exact ⟨t, ht, rfl, rfl, fun _ => rfl⟩
  case uses =>
    intro s hs o ho
    obtain ⟨t, -, rfl⟩ := hbegins s hs
    cases ho
  case useLines =>
    have hsublist : (start tokens).stream.active.Sublist (tokens.map Symbol.ofToken) := by
      rw [start, Stream.prepare_eq_inked]
      exact List.filter_sublist.trans (List.filter_sublist.trans List.filter_sublist)
    exact (Symbol.useLinesAll_le hsublist).trans (le_of_eq (Token.useLinesAll_ofToken tokens))
  case reports => exact fun d hd => absurd hd List.not_mem_nil

/-- Every line of a parse goes back to a token. -/
theorem traced_of_steps (h : ∀ t ∈ tokens, t.Lexical) (hp : ReflTransGen Steps (.start tokens) p) :
    p.Traced tokens := by
  induction hp with
  | refl => exact traced_start tokens
  | tail hsteps hstep ih =>
    obtain ⟨r, hr⟩ := hstep
    exact ih.step hsteps (sound_of_steps hsteps (Stream.sound_prepare h)) hr

end Parsing

end StackScript
