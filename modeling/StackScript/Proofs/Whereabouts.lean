import StackScript.Compilation
import StackScript.Proofs.LineBlind
import StackScript.Proofs.Resolution
import StackScript.Proofs.Tracing

/-!
# StackScript.Proofs.Whereabouts — problems are reported on the lines they are on

Two tokens can stand on one line, so a line alone does not tell which token a problem is about.
Numbers do: a compilation goes the same way if the tokens are numbered and each number stands for a
line, and then every problem comes with the number of its token.  `Grammar.Blames` says which token
that is, and the line that is reported in its place is the line that the token starts on
(`Compiler.diagnostics_stand_on_their_lines`).
-/

namespace StackScript

open Occurrence Relation

/-! ### The problems of tokens -/

namespace Grammar

variable (g : Grammar) (globals : List String)

/-- The problems of parsing tokens and of resolving the names of what was parsed. -/
def problems (tokens : List Token) : List Diagnostic :=
  (g.parse tokens).record.diagnostics ++
    (((g.parse tokens).root.resolve false).run (.start globals)).2.diagnostics

/-- The occurrences of names in the tree of the tokens, with their bindings. -/
def occurrences (tokens : List Token) : List Occurrence :=
  (((g.parse tokens).root.resolve false).run (.start globals)).1.occurrences false

theorem occurrences_eq (tokens : List Token) : g.occurrences globals tokens =
    (resolveAll ((g.parse tokens).root.occurrences false) (.start globals)).1 :=
  (congrArg Prod.fst ((g.parse tokens).root.resolve_follows false (.start globals))).symm

theorem problems_eq (tokens : List Token) : g.problems globals tokens =
    (g.parse tokens).record.diagnostics ++ (g.occurrences globals tokens).filterMap problem? := by
  have hscope := congrArg Prod.snd ((g.parse tokens).root.resolve_follows false (.start globals))
  rw [problems, occurrences_eq, ← List.nil_append (List.filterMap _ _)]
  exact congrArg _ ((congrArg Scope.diagnostics hscope).symm.trans (diagnostics_resolveAll _ _))

/-- On other lines the problems are the same, on other lines. -/
theorem problems_relined {f : Nat → Nat} (hf : f 1 = 1) (tokens : List Token) :
    g.problems globals (tokens.map (Token.relined f)) =
      (g.problems globals tokens).map (Diagnostic.relined f) := by
  have hoccurrences : g.occurrences globals (tokens.map (Token.relined f)) =
      (g.occurrences globals tokens).map (Occurrence.relined f) := by
    have hroot : (g.parse (tokens.map (Token.relined f))).root =
        (g.parse tokens).root.relined f := by
      rw [g.parse_relined hf]
      rfl
    rw [occurrences_eq, occurrences_eq, hroot, Block.occurrences_relined]
    exact congrArg Prod.fst (resolveAll_relined (f := f) _ (.start globals))
  have hproblem : ∀ o : Occurrence,
      (o.relined f).problem? = o.problem?.map (Diagnostic.relined f) := by
    intro o
    cases o with
    | read name line binding | write name line binding => cases binding <;> rfl
    | _ => rfl
  rw [problems_eq, problems_eq, hoccurrences, g.parse_relined hf, List.map_append,
    List.filterMap_map, List.map_filterMap]
  exact congrArg _ (List.filterMap_congr fun o _ => hproblem o)

end Grammar

/-! ### The token that a problem is about -/

/-- The first symbol that did not fold into a program: the first of all, or behind a program the
second. -/
def Unfolded (symbols : List Symbol) (s : Symbol) : Prop :=
  (∃ rest, symbols = s :: rest ∧ s.tag ≠ .program) ∨
    ∃ a rest, symbols = a :: s :: rest ∧ a.tag = .program

/-- What is reported of the symbols that remain. -/
theorem mem_leftovers {symbols : List Symbol} {d : Diagnostic} (h : d ∈ leftovers symbols) :
    (∃ s ∈ symbols, s.tag.isElse = true ∧ d = .danglingElse s.line) ∨
      ∃ s, Unfolded symbols s ∧
        d = .unexpected (if s.text = "" then s.tag.toText else s.text) s.line := by
  rw [leftovers] at h
  split at h
  case isTrue => cases h
  dsimp only at h
  split at h
  case isTrue =>
    refine .inr ?_
    rcases symbols with _ | ⟨a, rest⟩
    · cases h
    by_cases ha : a.tag = .program
    · rw [List.head?_cons, Option.map_some, if_pos (congrArg some ha)] at h
      rcases rest with _ | ⟨s, rest⟩
      · cases h
      · exact ⟨s, .inr ⟨a, rest, rfl, ha⟩, List.mem_singleton.mp h⟩
    · rw [List.head?_cons, Option.map_some, if_neg fun h => ha (Option.some.inj h)] at h
      exact ⟨a, .inl ⟨rest, rfl, ha⟩, List.mem_singleton.mp h⟩
  case isFalse =>
    obtain ⟨s, hs, rfl⟩ := List.mem_map.mp h
    obtain ⟨hmem, htag⟩ := List.mem_filter.mp hs
    refine .inl ⟨s, hmem, ?_, rfl⟩
    rw [Bool.or_eq_true, decide_eq_true_eq, decide_eq_true_eq] at htag
    rcases htag with htag | htag <;> rw [htag] <;> rfl

namespace Grammar

/-- A problem of the tokens is about the token `t` and on its line. -/
inductive Blames (g : Grammar) (globals : List String) (tokens : List Token) :
    Diagnostic → Token → Prop
  /-- a keyword that a reduction refused -/
  | refused {d : Diagnostic} {t : Token} (h : t.Refused tokens d) : Blames g globals tokens d t
  /-- a keyword that nothing took -/
  | leftElse {t : Token} (hmem : .ofToken t ∈ (g.parse tokens).remaining)
    (htag : t.tag.isElse = true) : Blames g globals tokens (.danglingElse t.line) t
  /-- the first token of what did not fold into the program -/
  | leftOver {s : Symbol} {t : Token} (hs : Unfolded (g.parse tokens).remaining s)
    (hbegins : s.BeginsWith t) : Blames g globals tokens
      (.unexpected (if s.text = "" then s.tag.toText else s.text) t.line) t
  /-- the name that was reduced to a read of no variable -/
  | read {past rest : List Occurrence} {t : Token}
    (hused : t.Used tokens (.read t.text t.line none))
    (hsplit : g.occurrences globals tokens = past ++ .read t.text t.line none :: rest)
    (hunbound : Refers globals past t.text none) :
    Blames g globals tokens (.undefinedRead t.text t.line) t
  /-- the name that was reduced to an assignment to no variable -/
  | write {past rest : List Occurrence} {t : Token}
    (hused : t.Used tokens (.write t.text t.line none))
    (hsplit : g.occurrences globals tokens = past ++ .write t.text t.line none :: rest)
    (hunbound : Refers globals past t.text none) :
    Blames g globals tokens (.undefinedWrite t.text t.line) t

variable {g : Grammar} {globals : List String} {tokens : List Token} {d : Diagnostic}

theorem Blames.line_eq {t : Token} (h : g.Blames globals tokens d t) : d.line = t.line := by
  cases h with
  | refused h =>
    obtain ⟨-, -, -, -, -, -, -, rfl | ⟨-, rfl⟩⟩ := h <;> rfl
  | _ => rfl

theorem remaining_parse (g : Grammar) (tokens : List Token) :
    (g.parse tokens).remaining = (g.reduce (.start tokens)).1.stream.active := by
  rw [parse]
  dsimp only
  split <;> rfl

/-- The tree has no other uses than the symbols that remain. -/
theorem uses_parse_le (g : Grammar) (tokens : List Token) :
    (g.parse tokens).root.uses ≤ Symbol.usesAll (g.parse tokens).remaining := by
  have hprograms : ∀ symbols : List Symbol, Stmt.usesAll
      (((symbols.filter (·.tag = .program)).filterMap (·.program?)).flatMap Program.statements) ≤
        Symbol.usesAll symbols := fun symbols =>
    (Symbol.usesAll_programs_le _).trans
      ((List.filter_sublist.map Symbol.uses).sum_le_sum fun _ _ => zero_le)
  rw [remaining_parse, parse]
  generalize (g.reduce (.start tokens)).1.stream.active = symbols
  have hle := hprograms symbols
  dsimp only
  split
  case h_1 p hp =>
    rw [hp, List.flatMap_singleton] at hle
    rwa [Program.usesAll_toBlock]
  case h_2 => exact hle

theorem traced_parse (g : Grammar) (h : ∀ t ∈ tokens, t.Lexical) :
    (g.reduce (.start tokens)).1.Traced tokens :=
  Parsing.traced_of_steps h (g.reduce_steps _)

/-- A use in the tree of tokens is that of a name among them. -/
theorem exists_used (h : ∀ t ∈ tokens, t.Lexical) {o : Occurrence}
    (ho : o ∈ (g.parse tokens).root.occurrences false) (huse : o.isUse = true) :
    ∃ t ∈ tokens, t.Used tokens o := by
  have hroot : o ∈ (g.parse tokens).root.uses := by
    rw [← Block.usesOf_occurrences false]
    exact mem_usesOf.mpr ⟨ho, huse⟩
  obtain ⟨s, hs, ho⟩ := Symbol.mem_usesAll.mp (Multiset.mem_of_le (g.uses_parse_le tokens) hroot)
  rw [remaining_parse] at hs
  exact (g.traced_parse h).uses s hs o ho

/-- No two uses in the tree are of one name. -/
theorem map_line_uses_parse_le (h : ∀ t ∈ tokens, t.Lexical) :
    (g.parse tokens).root.uses.map Occurrence.line ≤ Token.nameLines tokens := by
  have hremaining := (g.traced_parse h).useLines
  rw [← remaining_parse] at hremaining
  exact (Multiset.map_le_map (g.uses_parse_le tokens)).trans
    ((Symbol.map_line_usesAll_le _).trans hremaining)

/-- Each occurrence has the binding that fits what came before it. -/
theorem occurrences_fit {past rest : List Occurrence} {o : Occurrence}
    (h : g.occurrences globals tokens = past ++ o :: rest) : Fits globals past o := by
  have hopen : ∀ us vs, (g.parse tokens).root.occurrences false = us ++ vs →
      0 ≤ rise [] + rise us := by
    intro us vs heq
    have hstays := ((g.parse tokens).root.paired false).stays us vs heq
    rwa [rise_nil, Int.zero_add]
  rw [occurrences_eq] at h
  exact (resolveAll_fits (Scope.Follows.start globals) hopen).1 past o rest h

/-- What is reported of the symbols that remain is about their first tokens. -/
theorem blamed_of_leftovers (h : ∀ t ∈ tokens, t.Lexical)
    (hd : d ∈ leftovers (g.parse tokens).remaining) :
    ∃ t ∈ tokens, g.Blames globals tokens d t := by
  have hbegins := (g.traced_parse h).begins
  have hsound :=
    (Parsing.sound_of_steps (g.reduce_steps (.start tokens)) (Stream.sound_prepare h)).active
  rw [← remaining_parse] at hbegins hsound
  rcases mem_leftovers hd with ⟨s, hs, htag, rfl⟩ | ⟨s, hs, rfl⟩
  · have hnone : s.fragment = none := by
      refine (hsound s hs).fragment_eq fun hresult => ?_
      generalize s.tag = k at htag hresult
      cases k <;> first | cases htag; done | exact absurd hresult (by decide)
    obtain ⟨t, ht, hst⟩ := hbegins s hs
    obtain rfl := hst.eq_of_fragment hnone
    exact ⟨t, ht, .leftElse hs htag⟩
  · have hmem : s ∈ (g.parse tokens).remaining := by
      rcases hs with ⟨rest, heq, -⟩ | ⟨a, rest, heq, -⟩ <;> simp [heq]
    obtain ⟨t, ht, hst⟩ := hbegins s hmem
    rw [hst.line_eq]
    exact ⟨t, ht, .leftOver hs hst⟩

/-- What is reported of a name without a binding is about the name. -/
theorem blamed_of_occurrence (h : ∀ t ∈ tokens, t.Lexical)
    (hd : d ∈ (g.occurrences globals tokens).filterMap problem?) :
    ∃ t ∈ tokens, g.Blames globals tokens d t := by
  obtain ⟨o, ho, hproblem⟩ := List.mem_filterMap.mp hd
  obtain ⟨past, rest, hsplit⟩ := List.append_of_mem ho
  have hfits := occurrences_fit hsplit
  -- the occurrence stands in the tree, where it has no binding yet
  have hbare : o.bare ∈ ((g.parse tokens).root.occurrences false).map bare := by
    rw [← map_bare_resolveAll _ (.start globals), ← occurrences_eq]
    exact List.mem_map_of_mem ho
  obtain ⟨o', ho', hbare⟩ := List.mem_map.mp hbare
  cases o with
  | read name line binding =>
    cases binding with
    | some b => cases hproblem
    | none =>
      obtain rfl := Option.some.inj hproblem
      cases o' <;> cases hbare
      obtain ⟨t, ht, hused⟩ := exists_used h ho' rfl
      rcases hused.eq_or_eq with heq | heq <;> cases heq
      exact ⟨t, ht, .read hused hsplit ((hfits none).mpr rfl)⟩
  | write name line binding =>
    cases binding with
    | some b => cases hproblem
    | none =>
      obtain rfl := Option.some.inj hproblem
      cases o' <;> cases hbare
      obtain ⟨t, ht, hused⟩ := exists_used h ho' rfl
      rcases hused.eq_or_eq with heq | heq <;> cases heq
      exact ⟨t, ht, .write hused hsplit ((hfits none).mpr rfl)⟩
  | _ => cases hproblem

/-- Every problem of tokens is about one of them. -/
theorem exists_blamed (h : ∀ t ∈ tokens, t.Lexical) (hd : d ∈ g.problems globals tokens) :
    ∃ t ∈ tokens, g.Blames globals tokens d t := by
  rw [problems_eq, diagnostics_parse, List.mem_append, List.mem_append, ← remaining_parse] at hd
  rcases hd with (hd | hd) | hd
  · obtain ⟨t, ht, hrefused⟩ := (g.traced_parse h).reports d hd
    exact ⟨t, ht, .refused hrefused⟩
  · exact blamed_of_leftovers h hd
  · exact blamed_of_occurrence h hd

end Grammar

/-! ### Numbered tokens -/

namespace Token

/-- The tokens with their numbers, from one on, for lines. -/
def numbered (tokens : List Token) : List Token :=
  (tokens.zipIdx 1).map fun p => { p.1 with line := p.2 }

/-- The line of the token with a number. -/
def lineOf (tokens : List Token) (number : Nat) : Nat :=
  (tokens[number - 1]?.map (·.line)).getD 1

variable {tokens : List Token} {t : Token}

/-- A token behind its number. -/
theorem mem_numbered (h : t ∈ numbered tokens) :
    ∃ u ∈ tokens, u.line = lineOf tokens t.line ∧ t = { u with line := t.line } := by
  obtain ⟨⟨u, n⟩, hu, rfl⟩ := List.mem_map.mp h
  rw [List.mk_mem_zipIdx_iff_le_and_getElem?_sub] at hu
  obtain ⟨-, hu⟩ := hu
  refine ⟨u, List.mem_of_getElem? hu, ?_, rfl⟩
  rw [lineOf, hu]
  rfl

/-- On the lines of their tokens, the numbered tokens are the tokens. -/
theorem map_relined_numbered (tokens : List Token) :
    (numbered tokens).map (relined (lineOf tokens)) = tokens := by
  refine List.ext_getElem? fun i => ?_
  rw [numbered, List.map_map, List.getElem?_map, List.getElem?_zipIdx]
  cases hi : tokens[i]? with
  | none => rfl
  | some t =>
    have hline : lineOf tokens (1 + i) = t.line := by
      rw [lineOf, Nat.add_sub_cancel_left, hi]
      rfl
    exact congrArg (fun line => some { t with line := line }) hline

/-- No two tokens have one number. -/
theorem nodup_nameLines_numbered (tokens : List Token) : (nameLines (numbered tokens)).Nodup := by
  have hlines : (numbered tokens).map (·.line) = List.range' 1 tokens.length := by
    rw [numbered, List.map_map]
    exact List.zipIdx_map_snd 1 tokens
  refine List.Nodup.sublist (List.filter_sublist.map _) ?_
  rw [hlines]
  exact List.nodup_range'

end Token

theorem Diagnostic.relined_eq {f f' : Nat → Nat} {d : Diagnostic} (h : f d.line = f' d.line) :
    d.relined f = d.relined f' := by
  cases d <;> simpa [relined, line] using h

namespace Lexer

/-- The lexer of the language gives tokens on their lines, the first on the first line. -/
theorem line_of_tokenize {source : String} {tokens : List Token}
    (h : standard.tokenize source = .ok tokens) :
    (∀ t ∈ tokens, t.line = Text.lineAt source t.span.start) ∧ Token.lineOf tokens 1 = 1 := by
  obtain ⟨hcarries, hcontiguous, -⟩ := scan_spec standard_within [] source.toList
  have hscan : standard.scan (Text.byteLength []) (1 + [].count '\n') source.toList =
      ⟨tokens, none⟩ := scanSource_of_tokenize h
  rw [List.nil_append, String.ofList_toList, hscan] at hcarries
  rw [hscan] at hcontiguous
  refine ⟨fun t ht => (hcarries t ht).line_eq, ?_⟩
  cases tokens with
  | nil => rfl
  | cons t tokens =>
    have hline := (hcarries t List.mem_cons_self).line_eq
    rw [hcontiguous.1] at hline
    exact hline

/-- The number of a token stands for the line that the token starts on. -/
theorem lineOf_numbered {source : String} {tokens : List Token} {t : Token}
    (h : standard.tokenize source = .ok tokens) (ht : t ∈ Token.numbered tokens) :
    Token.lineOf tokens t.line = Text.lineAt source t.span.start := by
  obtain ⟨u, hu, hline, heq⟩ := Token.mem_numbered ht
  rw [← hline, (line_of_tokenize h).1 u hu, heq]

end Lexer

namespace Compiler

/-- Every problem is reported on the line that its token starts on.  The problems of a source are,
one for one, those that the same parse comes upon if its tokens are numbered, each on the line of the
token with the number: one more than the line feeds of the source before the token.  A keyword is
blamed that was refused or left, the first token of the symbol that did not fold into the program,
or the name that was reduced to the read or assignment without a variable; no name is reduced to
two. -/
theorem diagnostics_stand_on_their_lines (g : Grammar) (discard : Code) (globals : List String)
    {source : String} {tokens : List Token} (h : Lexer.standard.tokenize source = .ok tokens) :
    let numbered := Token.numbered tokens
    List.Forall₂ (fun d m => ∃ t ∈ numbered, g.Blames globals numbered m t ∧
        d = m.relined fun _ => Text.lineAt source t.span.start)
      (compile ⟨.standard, g, discard⟩ globals source).diagnostics
      (g.problems globals numbered) ∧
    g.parse tokens = (g.parse numbered).relined (Token.lineOf tokens) ∧
    ((((g.parse numbered).root.occurrences false).filter isUse).map Occurrence.line).Nodup := by
  intro numbered
  have hone := (Lexer.line_of_tokenize h).2
  have hlexical : ∀ t ∈ numbered, t.Lexical := by
    intro t ht
    obtain ⟨u, hu, -, heq⟩ := Token.mem_numbered ht
    have hlexical := Lexer.lexical_of_tokenize h u hu
    rw [heq]
    exact ⟨hlexical.not_result, hlexical.readable⟩
  have hrelined : numbered.map (Token.relined (Token.lineOf tokens)) = tokens :=
    Token.map_relined_numbered tokens
  refine ⟨?_, ?_, ?_⟩
  · have hdiagnostics : (compile ⟨.standard, g, discard⟩ globals source).diagnostics =
        (g.problems globals numbered).map (Diagnostic.relined (Token.lineOf tokens)) := by
      rw [← g.problems_relined globals hone, hrelined, compile]
      dsimp only
      rw [h]
      rfl
    rw [hdiagnostics, List.forall₂_map_left_iff, List.forall₂_same]
    intro m hm
    obtain ⟨t, ht, hblames⟩ := Grammar.exists_blamed hlexical hm
    refine ⟨t, ht, hblames, Diagnostic.relined_eq ?_⟩
    rw [hblames.line_eq, Lexer.lineOf_numbered h ht]
  · rw [← g.parse_relined hone, hrelined]
  · have hle := Grammar.map_line_uses_parse_le (g := g) hlexical
    rw [← Block.usesOf_occurrences false] at hle
    exact Multiset.coe_nodup.mp
      (Multiset.nodup_of_le hle (Multiset.coe_nodup.mpr (Token.nodup_nameLines_numbered tokens)))

/-- A chain goes on after its `else`, on two lines; an `else` follows a text of two lines. -/
theorem diagnostics_stand_on_their_lines_five :
    let source := "if true \x7b \x7d else \x7b \x7d else\n if false \x7b \x7d\nprint \"a\nb\"" ++
      "\nelse \x7b \x7d\nz = y )"
    let tokens := (Lexer.standard.scanSource source).tokens
    Lexer.standard.tokenize source = .ok tokens ∧
    Grammar.standard.problems [] (Token.numbered tokens) =
      [.danglingElse 27, .elseIfAfterElse 15, .unexpected ")" 39, .undefinedRead "y" 37,
        .undefinedWrite "z" 33] ∧
    (compile standard [] source).diagnostics =
      [.danglingElse 5, .elseIfAfterElse 1, .unexpected ")" 6, .undefinedRead "y" 6,
        .undefinedWrite "z" 6] := by
  intro source tokens
  -- decided together, since each part goes through the lexer
  have hall : (Lexer.standard.scanSource source).failure = none ∧
      Grammar.standard.problems [] (Token.numbered tokens) =
        [.danglingElse 27, .elseIfAfterElse 15, .unexpected ")" 39, .undefinedRead "y" 37,
          .undefinedWrite "z" 33] ∧
      [27, 15, 39, 37, 33].map (Token.lineOf tokens) = [5, 1, 6, 6, 6] := by
    simp only [source, tokens]
    rw [Grammar.problems, Grammar.parse, Parsing.start, Stream.prepare_eq_inked]
    decide +kernel
  obtain ⟨hfailure, hproblems, hlines⟩ := hall
  have hlexed : Lexer.standard.tokenize source = .ok tokens :=
    Lexer.tokenize_of_scanSource rfl hfailure
  obtain ⟨hforall, -⟩ := diagnostics_stand_on_their_lines .standard dropValue [] hlexed
  have hdiagnostics : (compile standard [] source).diagnostics =
      (Grammar.standard.problems [] (Token.numbered tokens)).map fun m =>
        m.relined fun _ => Token.lineOf tokens m.line := by
    rw [← List.forall₂_eq_eq_eq, List.forall₂_map_right_iff]
    refine hforall.imp fun d m hdm => ?_
    obtain ⟨t, ht, hblames, rfl⟩ := hdm
    rw [hblames.line_eq, Lexer.lineOf_numbered hlexed ht]
  refine ⟨hlexed, hproblems, ?_⟩
  simp only [List.map_cons, List.map_nil, List.cons.injEq, and_true] at hlines
  obtain ⟨h27, h15, h39, h37, h33⟩ := hlines
  rw [hdiagnostics, hproblems]
  simp only [List.map_cons, List.map_nil, Diagnostic.relined, Diagnostic.line, h27, h15, h39, h37,
    h33]

end Compiler

end StackScript
