import StackScript.Proofs.Occurrences
import StackScript.Proofs.Relining

/-!
# StackScript.Proofs.LineBlind — no rule looks at a line

What a rule sees, where it matches and whether it accepts a match hangs on tags, texts and line
breaks, which are symbols.  So the same tokens on other lines are reduced in the same way, and what
comes of it is the same on other lines: a parse and a change of lines commute
(`Grammar.parse_relined`), and so do the resolution of names and a change of lines
(`Occurrence.resolveAll_relined`).
-/

namespace StackScript

variable {f : Nat → Nat}

/-! ### Where a rule matches -/

namespace Stream

variable (s : Stream)

@[simp] theorem tagAt?_relined (i : Nat) : (s.relined f).tagAt? i = s.tagAt? i := by
  rw [tagAt?, relined, List.getElem?_map, Option.map_map]
  rfl

@[simp] theorem tagBefore?_relined (i : Nat) : (s.relined f).tagBefore? i = s.tagBefore? i := by
  cases i with
  | zero => rfl
  | succ i => exact s.tagAt?_relined i

@[simp] theorem lineBreakBefore_relined (i : Nat) :
    (s.relined f).lineBreakBefore i = s.lineBreakBefore i := by
  rw [lineBreakBefore, relined, List.any_map]
  rfl

@[simp] theorem isPrefixMinus_relined (i : Nat) :
    (s.relined f).isPrefixMinus i = s.isPrefixMinus i := by
  have hactive : (s.relined f).active[i]? = s.active[i]?.map (Symbol.relined f) := List.getElem?_map
  rw [isPrefixMinus, isPrefixMinus, hactive, Option.any_map, tagBefore?_relined,
    lineBreakBefore_relined]
  rfl

@[simp] theorem continues_relined (i : Nat) : (s.relined f).continues i = s.continues i := by
  simp only [continues, tagAt?_relined, lineBreakBefore_relined]

@[simp] theorem binaryFits_relined (m : Site) (level : Nat) (rightAssociative : Bool) :
    (s.relined f).binaryFits m level rightAssociative = s.binaryFits m level rightAssociative := by
  simp only [binaryFits, tagAt?_relined, isPrefixMinus_relined]

@[simp] theorem statementStarts_relined (m : Site) :
    (s.relined f).statementStarts m = s.statementStarts m := by
  simp only [statementStarts, tagBefore?_relined]

end Stream

/-- A rule accepts the same matches. -/
@[simp] theorem Rule.accepts_relined (r : Rule) (s : Stream) (m : Site) :
    r.accepts (s.relined f) m = r.accepts s m := by
  cases r <;> simp only [accepts, Stream.tagAt?_relined, Stream.tagBefore?_relined,
    Stream.isPrefixMinus_relined, Stream.continues_relined, Stream.binaryFits_relined,
    Stream.statementStarts_relined, Stream.lineBreakBefore_relined]

namespace Stream

theorem weave_relined (included : List Tag) (i : Nat) (as : List Symbol)
    (ds : List (Detached × Nat)) :
    weave included i (as.map (Symbol.relined f)) (ds.map (Prod.map (Detached.relined f) id)) =
      weave included i as ds := by
  induction as generalizing i ds with
  | nil => rfl
  | cons a as ih =>
    rw [List.map_cons, weave, weave, List.takeWhile_map, List.dropWhile_map, List.filter_map,
      List.map_map, ← ih]
    rfl

variable (s : Stream)

/-- A rule sees the same. -/
theorem entries_relined (included : List Tag) :
    (s.relined f).entries included = s.entries included := by
  rw [entries, relined, List.zipIdx_map]
  exact weave_relined included 0 s.active s.detached.zipIdx

theorem matchAt_relined (r : Rule) (tags : List Tag) (seen : List Entry) :
    (s.relined f).matchAt r tags seen = s.matchAt r tags seen := by
  simp only [matchAt, Rule.accepts_relined]

theorem findIn_relined (r : Rule) (tags : List Tag) (seen : List Entry) :
    (s.relined f).findIn r tags seen = s.findIn r tags seen := by
  induction tags generalizing seen with
  | nil => rfl
  | cons t tags ih =>
    cases seen with
    | nil => rfl
    | cons e seen => simp only [findIn, matchAt_relined, ih]

/-- A rule matches in the same place. -/
theorem find_relined (r : Rule) : (s.relined f).find r = s.find r := by
  rw [find, find, entries_relined, findIn_relined]

/-! ### What a reduction takes and leaves -/

theorem symbolAt?_relined (e : Entry) :
    (s.relined f).symbolAt? e = (s.symbolAt? e).map (Symbol.relined f) := by
  cases e with
  | active i => exact List.getElem?_map
  | detached i =>
    rw [symbolAt?, relined, List.getElem?_map, symbolAt?, Option.map_map, Option.map_map]
    rfl

theorem collect_relined (run : List Entry) :
    (s.relined f).collect run = (s.collect run).map (Symbol.relined f) := by
  rw [collect, collect, List.map_filterMap]
  exact List.filterMap_congr fun e _ => s.symbolAt?_relined e

theorem splice_relined (run : List Entry) (first last : Nat) (symbol : Symbol) :
    (s.relined f).splice run first last (symbol.relined f) =
      (s.splice run first last symbol).relined f := by
  have hmoved : ∀ d : Detached × Nat,
      (if last < (d.1.relined f).position then
        { d.1.relined f with position := (d.1.relined f).position - (last - first) }
        else d.1.relined f) =
      (if last < d.1.position then { d.1 with position := d.1.position - (last - first) }
        else d.1).relined f := by
    intro d
    change (if last < d.1.position then _ else _) = _
    split <;> rfl
  rw [splice, splice, relined, relined, List.zipIdx_map, List.filter_map, List.map_map]
  simp only [List.map_append, List.map_cons, List.map_take, List.map_drop, List.map_map]
  congr 1
  exact List.map_congr_left fun d _ => hmoved d

theorem replace_relined (run : List Entry) (symbol : Symbol) :
    (s.relined f).replace run (symbol.relined f) =
      (s.replace run symbol).map (Stream.relined f) := by
  simp only [replace, splice_relined]
  cases (activeIndices run).head? <;> cases (activeIndices run).getLast? <;> rfl

theorem weight_relined : (s.relined f).weight = s.weight := by
  rw [weight, relined, List.foldr_map]
  rfl

end Stream

/-! ### A parse -/

namespace Parsing

section

variable (hf : f 1 = 1)
include hf

/-- A reduction on other lines is the same reduction. -/
theorem reduceOnce_relined (r : Rule) (p : Parsing) :
    (p.relined f).reduceOnce r = (p.reduceOnce r).map (Parsing.relined f) := by
  rw [reduceOnce, reduceOnce, relined, Stream.find_relined]
  cases p.stream.find r with
  | none => rfl
  | some found =>
    simp only [Option.bind_eq_bind, Option.bind_some, Stream.collect_relined]
    generalize hms : p.stream.collect found.run = ms
    rw [List.head?_map, List.getLast?_map]
    cases ms.head? with
    | none => rfl
    | some first =>
      cases ms.getLast? with
      | none => rfl
      | some last =>
        have hbuild : ((r.build (ms.map (Symbol.relined f))).run (p.record.relined f)) =
            (((r.build ms).run p.record).1.map (Fragment.relined f),
              ((r.build ms).run p.record).2.relined f) := r.build_relined hf ms p.record
        generalize (r.build ms).run p.record = built at hbuild ⊢
        obtain ⟨fragment, record⟩ := built
        simp only [Option.map_some, Option.bind_some, hbuild]
        have hsymbol :
            Symbol.reduced r.result (first.relined f).line
              ⟨(first.relined f).span.start, (last.relined f).span.stop⟩
              (fragment.map (Fragment.relined f)) =
            (Symbol.reduced r.result first.line ⟨first.span.start, last.span.stop⟩
              fragment).relined f := rfl
        rw [hsymbol, Stream.replace_relined]
        cases p.stream.replace found.run _ <;> rfl

theorem applyFor_relined (r : Rule) (fuel : Nat) (p : Parsing) :
    applyFor r fuel (p.relined f) = Prod.map (Parsing.relined f) id (applyFor r fuel p) := by
  induction fuel generalizing p with
  | zero => rfl
  | succ fuel ih =>
    rw [applyFor, applyFor, reduceOnce_relined hf]
    cases p.reduceOnce r with
    | none => rfl
    | some q =>
      simp only [Option.map_some, ih q]
      rfl

theorem applyAll_relined (rules : List Rule) (p : Parsing) :
    (p.relined f).applyAll rules = Prod.map (Parsing.relined f) id (p.applyAll rules) := by
  induction rules generalizing p with
  | nil => rfl
  | cons r rules ih =>
    have happly : (p.relined f).apply r = Prod.map (Parsing.relined f) id (p.apply r) := by
      rw [apply, apply, ← applyFor_relined hf]
      exact congrArg (applyFor r · _) p.stream.weight_relined
    rw [applyAll, applyAll, happly, Prod.map_fst, ih]
    rfl

omit hf in
theorem tags_relined (p : Parsing) : (p.relined f).tags = p.tags := by
  rw [tags, tags, relined, Stream.relined, List.map_map]
  rfl

theorem passes_relined (rules : List Rule) (limit : Nat) (p : Parsing) :
    passes rules limit (p.relined f) = Prod.map (Parsing.relined f) id (passes rules limit p) := by
  induction limit generalizing p with
  | zero => rfl
  | succ limit ih =>
    simp only [passes, applyAll_relined hf, Prod.map_fst, tags_relined]
    split
    · rfl
    · rw [ih]
      rfl

end

end Parsing

namespace Stream

theorem foldInto_relined (d : Detached) (ds : List Detached) :
    foldInto (d.relined f) (ds.map (Detached.relined f)) =
      (foldInto d ds).map (Detached.relined f) := by
  induction ds generalizing d with
  | nil => rfl
  | cons e ds ih =>
    rw [List.map_cons, foldInto, foldInto]
    change (if d.position = e.position ∧ d.symbol.tag = e.symbol.tag then _ else _) = _
    split
    · exact ih ⟨d.position,
        { d.symbol with
          text := d.symbol.text ++ e.symbol.text
          span := ⟨d.symbol.span.start, max d.symbol.span.stop e.symbol.span.stop⟩ }⟩
    · rw [ih]
      rfl

theorem foldNeighbours_relined (ds : List Detached) :
    foldNeighbours (ds.map (Detached.relined f)) =
      (foldNeighbours ds).map (Detached.relined f) := by
  cases ds with
  | nil => rfl
  | cons d ds => exact foldInto_relined d ds

variable (s : Stream)

theorem countBefore_relined (t : Tag) (n : Nat) :
    (s.relined f).countBefore t n = s.countBefore t n := by
  rw [countBefore, countBefore, relined, ← List.map_take, List.countP_map]
  rfl

theorem renumbered_relined (t : Tag) (ds : List Detached) :
    (s.relined f).renumbered t (ds.map (Detached.relined f)) =
      (s.renumbered t ds).map (Detached.relined f) := by
  rw [renumbered, renumbered, List.map_map, List.map_map]
  refine List.map_congr_left fun d _ => ?_
  rw [Function.comp_apply, countBefore_relined]
  rfl

theorem purge_relined (t : Tag) : (s.relined f).purge t = (s.purge t).relined f := by
  have hkept : (s.relined f).detached.filter (·.symbol.tag ≠ t) =
      (s.detached.filter (·.symbol.tag ≠ t)).map (Detached.relined f) := List.filter_map
  rw [purge, hkept, renumbered_relined, foldNeighbours_relined]
  exact congrArg (Stream.mk · _) List.filter_map

theorem remove_relined (t : Tag) : (s.relined f).remove t = (s.remove t).relined f := by
  have hmoved : ((s.relined f).active.zipIdx.filter (·.1.tag = t)).map (fun p =>
        (⟨p.2 - (s.relined f).countBefore t p.2, p.1⟩ : Detached)) =
      ((s.active.zipIdx.filter (·.1.tag = t)).map fun p =>
        (⟨p.2 - s.countBefore t p.2, p.1⟩ : Detached)).map (Detached.relined f) := by
    simp only [countBefore_relined]
    rw [relined, List.zipIdx_map, List.filter_map, List.map_map, List.map_map]
    rfl
  have hrenumbered : (s.relined f).renumbered t (s.relined f).detached =
      (s.renumbered t s.detached).map (Detached.relined f) := s.renumbered_relined t s.detached
  rw [remove, remove, hmoved, hrenumbered,
    ← List.map_merge (f := Detached.relined f) fun _ _ _ _ => rfl, foldNeighbours_relined]
  exact congrArg (Stream.mk · _) List.filter_map

/-- The tokens are made ready for the rules in the same way. -/
theorem prepare_relined (tokens : List Token) :
    prepare (tokens.map (Token.relined f)) = (prepare tokens).relined f := by
  have hsymbols : ofSymbols ((tokens.map (Token.relined f)).map Symbol.ofToken) =
      (ofSymbols (tokens.map Symbol.ofToken)).relined f := by
    rw [List.map_map, ofSymbols, ofSymbols, relined, List.map_map]
    rfl
  rw [prepare, hsymbols, purge_relined, purge_relined, remove_relined]
  rfl

end Stream

theorem leftovers_relined (symbols : List Symbol) :
    leftovers (symbols.map (Symbol.relined f)) =
      (leftovers symbols).map (Diagnostic.relined f) := by
  have hall : (symbols.map (Symbol.relined f)).all (·.tag = .program) =
      symbols.all (·.tag = .program) := List.all_map
  have hstray : (symbols.map (Symbol.relined f)).filter
        (fun s => s.tag = .elseWord || s.tag = .elseIfWord) =
      (symbols.filter fun s => s.tag = .elseWord || s.tag = .elseIfWord).map (Symbol.relined f) :=
    List.filter_map
  have hhead : (symbols.map (Symbol.relined f)).head?.map (·.tag) =
      symbols.head?.map (·.tag) := by
    rw [List.head?_map, Option.map_map]
    rfl
  rw [leftovers, leftovers, List.length_map, hall, hstray, hhead]
  split
  · rfl
  simp only [List.isEmpty_map]
  split
  · have hrest : (if symbols.head?.map (·.tag) = some .program
          then (symbols.map (Symbol.relined f)).drop 1 else symbols.map (Symbol.relined f)) =
        (if symbols.head?.map (·.tag) = some .program then symbols.drop 1
          else symbols).map (Symbol.relined f) := by
      split
      · rw [List.map_drop]
      · rfl
    rw [hrest, List.head?_map]
    cases List.head? _ <;> rfl
  · rw [List.map_map, List.map_map]
    rfl

/-- A parse of the same tokens on other lines is the same parse on other lines. -/
theorem Grammar.parse_relined (hf : f 1 = 1) (g : Grammar) (tokens : List Token) :
    g.parse (tokens.map (Token.relined f)) = (g.parse tokens).relined f := by
  have hreduce : (g.reduce (Parsing.start (tokens.map (Token.relined f)))).1 =
      (g.reduce (Parsing.start tokens)).1.relined f := by
    have hstart : Parsing.start (tokens.map (Token.relined f)) =
        (Parsing.start tokens).relined f := by
      rw [Parsing.start, Stream.prepare_relined]
      rfl
    rw [reduce, hstart, Parsing.passes_relined hf]
    rfl
  rw [parse, parse, hreduce]
  generalize (g.reduce (Parsing.start tokens)).1 = p
  obtain ⟨⟨active, detached⟩, record⟩ := p
  have hrecord : (record.relined f).diagnostics ++ leftovers (active.map (Symbol.relined f)) =
      (record.diagnostics ++ leftovers active).map (Diagnostic.relined f) := by
    rw [leftovers_relined, List.map_append]
    rfl
  have hprograms : ((active.map (Symbol.relined f)).filter (·.tag = .program)).filterMap
        (·.program?) =
      ((active.filter (·.tag = .program)).filterMap (·.program?)).map (Program.relined f) := by
    have hfilter : (active.map (Symbol.relined f)).filter (·.tag = .program) =
        (active.filter (·.tag = .program)).map (Symbol.relined f) := List.filter_map
    rw [hfilter]
    exact Matched.programs_relined _
  have hline : ((active.map (Symbol.relined f)).head?.map (·.line)).getD 1 =
      f ((active.head?.map (·.line)).getD 1) := Matched.line_relined active hf
  simp only [Parsing.relined, Stream.relined, hrecord, hprograms, hline]
  cases (active.filter (·.tag = .program)).filterMap (·.program?) with
  | nil => rfl
  | cons p ps =>
    cases ps with
    | nil =>
      simp only [List.map_cons, List.map_nil, Program.toBlock_relined, Program.wrappers_relined]
      rfl
    | cons p' ps =>
      have hstatements := Program.flatMap_statements_relined (f := f) (p :: p' :: ps)
      rw [List.map_cons, List.map_cons] at hstatements
      simp only [List.map_cons, hstatements, ← Stmt.relinedAll_eq_map]
      rfl

/-! ### The resolution of names -/

/-- The occurrence on another line. -/
def Occurrence.relined (f : Nat → Nat) : Occurrence → Occurrence
  | read name line binding => .read name (f line) binding
  | write name line binding => .write name (f line) binding
  | declare name binding => .declare name binding
  | enter params => .enter params
  | leave => .leave

/-- What is known of names, with the problems on other lines. -/
def Scope.relined (f : Nat → Nat) (s : Scope) : Scope :=
  { s with diagnostics := s.diagnostics.map (Diagnostic.relined f) }

mutual

theorem Expr.occurrences_relined : (e : Expr) →
    (e.relined f).occurrences = e.occurrences.map (Occurrence.relined f)
  | .list _ items | .call _ _ items | .create _ _ items => Expr.occurrencesAll_relined items
  | .map _ entries => Expr.occurrencesPairs_relined entries
  | .field _ receiver _ => receiver.occurrences_relined
  | .binary _ _ left right _ => by
    rw [relined, occurrences, left.occurrences_relined, right.occurrences_relined, occurrences,
      List.map_append]
  | .unary _ _ operand => operand.occurrences_relined
  | .method _ receiver _ args => by
    rw [relined, occurrences, Expr.occurrencesAll_relined args, receiver.occurrences_relined,
      occurrences, List.map_append]
  | .variable .. | .number .. | .text .. | .boolean .. | .null .. | .this .. | .super .. => rfl

theorem Expr.occurrencesAll_relined : (es : List Expr) →
    Expr.occurrencesAll (Expr.relinedAll f es) =
      (Expr.occurrencesAll es).map (Occurrence.relined f)
  | [] => rfl
  | e :: es => by
    rw [relinedAll, occurrencesAll, e.occurrences_relined, Expr.occurrencesAll_relined es,
      occurrencesAll, List.map_append]

theorem Expr.occurrencesPairs_relined : (es : List (Expr × Expr)) →
    Expr.occurrencesPairs (Expr.relinedPairs f es) =
      (Expr.occurrencesPairs es).map (Occurrence.relined f)
  | [] => rfl
  | (k, v) :: es => by
    rw [relinedPairs, occurrencesPairs, k.occurrences_relined, v.occurrences_relined,
      Expr.occurrencesPairs_relined es, occurrencesPairs, List.map_append, List.map_append]

end

theorem Expr.occurrencesOption_relined (e : Option Expr) :
    Expr.occurrencesOption (e.map (relined f)) =
      (Expr.occurrencesOption e).map (Occurrence.relined f) := by
  cases e with
  | none => rfl
  | some e => exact e.occurrences_relined

mutual

theorem Stmt.occurrences_relined (isMember : Bool) : (s : Stmt) →
    (s.relined f).occurrences isMember = (s.occurrences isMember).map (Occurrence.relined f)
  | .value e | .print _ e => e.occurrences_relined
  | .declare _ _ init _ => by
    rw [Stmt.relined, Stmt.occurrences, Expr.occurrencesOption_relined, Stmt.occurrences,
      List.map_append]
    cases isMember <;> rfl
  | .assign _ _ value _ => by
    rw [Stmt.relined, Stmt.occurrences, value.occurrences_relined, Stmt.occurrences,
      List.map_append]
    rfl
  | .setField _ receiver _ value => by
    rw [Stmt.relined, Stmt.occurrences, receiver.occurrences_relined, value.occurrences_relined,
      Stmt.occurrences, List.map_append]
  | .branch _ condition body rest => by
    rw [Stmt.relined, Stmt.occurrences, condition.occurrences_relined, body.occurrencesBody_relined,
      rest.occurrences_relined, Stmt.occurrences, List.map_append, List.map_append]
  | .loop _ condition body => by
    rw [Stmt.relined, Stmt.occurrences, condition.occurrences_relined, body.occurrencesBody_relined,
      Stmt.occurrences, List.map_append]
  | .function _ _ params body => body.occurrencesBody_relined params
  | .classDecl _ _ _ members => members.occurrences_relined true
  | .returns _ value => Expr.occurrencesOption_relined value
  | .continues _ | .breaks _ | .free .. => rfl

theorem Rest.occurrences_relined : (r : Rest) →
    (r.relined f).occurrences = r.occurrences.map (Occurrence.relined f)
  | .nothing => rfl
  | .elseIf _ condition body rest => by
    rw [Rest.relined, Rest.occurrences, condition.occurrences_relined, body.occurrencesBody_relined,
      rest.occurrences_relined, Rest.occurrences, List.map_append, List.map_append]
  | .otherwise body => body.occurrencesBody_relined []

theorem Block.occurrencesBody_relined : (b : Block) → (params : List String) →
    (b.relined f).occurrencesBody params =
      (b.occurrencesBody params).map (Occurrence.relined f)
  | .mk _ statements, params => by
    rw [Block.relined, Block.occurrencesBody, Stmt.occurrencesAll_relined, Block.occurrencesBody,
      List.map_cons, List.map_append]
    rfl

theorem Block.occurrences_relined : (b : Block) → (isMember : Bool) →
    (b.relined f).occurrences isMember = (b.occurrences isMember).map (Occurrence.relined f)
  | .mk _ statements, isMember => Stmt.occurrencesAll_relined isMember statements

theorem Stmt.occurrencesAll_relined (isMember : Bool) : (ss : List Stmt) →
    Stmt.occurrencesAll isMember (Stmt.relinedAll f ss) =
      (Stmt.occurrencesAll isMember ss).map (Occurrence.relined f)
  | [] => rfl
  | s :: ss => by
    rw [Stmt.relinedAll, Stmt.occurrencesAll, s.occurrences_relined isMember,
      Stmt.occurrencesAll_relined isMember ss, Stmt.occurrencesAll, List.map_append]

end

namespace Resolve

theorem use_relined (name : String) (problem : Diagnostic) (s : Scope) :
    use name (problem.relined f) (s.relined f) =
      ((use name problem s).1, (use name problem s).2.relined f) := by
  have hlookup : (s.relined f).lookup name = s.lookup name := rfl
  rw [use, hlookup, use]
  cases s.lookup name with
  | some b => rfl
  | none =>
    have hreport : (s.relined f).report (problem.relined f) = (s.report problem).relined f := by
      rw [Scope.report, Scope.relined, Scope.relined, Scope.report, List.map_append]
      rfl
    exact congrArg _ hreport

theorem declare_relined (name : String) (s : Scope) :
    declare name (s.relined f) = ((declare name s).1, (declare name s).2.relined f) := by
  have hdeclare : (s.relined f).declare name =
      ((s.declare name).1, (s.declare name).2.relined f) := by
    obtain ⟨frames, globals, pool, reuses, diagnostics, bound, added⟩ := s
    rcases frames with _ | ⟨frame, frames⟩
    · rfl
    · simp only [Scope.declare, Scope.relined]
      cases frame.declared.lookup name <;> rfl
  rw [declare, hdeclare]
  rfl

end Resolve

namespace Occurrence

theorem resolve_relined (o : Occurrence) (s : Scope) :
    (o.relined f).resolve (s.relined f) =
      ((o.resolve s).1.relined f, (o.resolve s).2.relined f) := by
  cases o with
  | enter params => rfl
  | leave =>
    have hpop : (s.relined f).pop.2 = s.pop.2.relined f := by
      obtain ⟨frames, globals, pool, reuses, diagnostics, bound, added⟩ := s
      cases frames <;> rfl
    exact congrArg _ hpop
  | read name line binding =>
    have huse := Resolve.use_relined (f := f) name (.undefinedRead name line) s
    exact congrArg (fun x => (read name (f line) x.1, x.2)) huse
  | write name line binding =>
    have huse := Resolve.use_relined (f := f) name (.undefinedWrite name line) s
    exact congrArg (fun x => (write name (f line) x.1, x.2)) huse
  | declare name binding =>
    have hdeclare := Resolve.declare_relined (f := f) name s
    exact congrArg (fun x => (declare name x.1, x.2)) hdeclare

/-- Names are resolved in the same way on other lines. -/
theorem resolveAll_relined (os : List Occurrence) (s : Scope) :
    resolveAll (os.map (relined f)) (s.relined f) =
      ((resolveAll os s).1.map (relined f), (resolveAll os s).2.relined f) := by
  induction os generalizing s with
  | nil => rfl
  | cons o os ih =>
    rw [List.map_cons, resolveAll_cons, resolve_relined, ih, resolveAll_cons, List.map_cons]

end Occurrence

end StackScript
