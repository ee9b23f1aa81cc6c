import StackScript.Proofs.Meaning
import StackScript.Proofs.Outcome

/-!
# StackScript.Proofs.CodeMeaning — code means what its tree does

The code that is generated for a program, without marks, has the outcome of the direct evaluation of
its tree, as long as no call passes another number of arguments than the callee takes, and a normal
end leaves no value on the stack.
-/

namespace StackScript

open EStateM (Result)
open Machine

/-! ### Programs that are never given up -/

/-- The evaluation of a program is never given up. -/
def NeverGivenUp (p : Runs Block) (s : Machine Block) : Prop :=
  ∀ n t, p n s ≠ .error .abandoned t

/-- A program that ends is never given up. -/
theorem NeverGivenUp.of_ok {A : Bounded (Machine Block) Unit} {s t : Machine Block} {n : Nat}
    (h : A.run n s = .ok () t) : NeverGivenUp A.run s := A.ne_abandoned_of_ok h

theorem finish_lockstep {exempt : Stop → Prop} {P E : Machine Block → Machine Block → Prop}
    (h : ∀ m t, P m t → E m t) (flow : Flow) :
    Lockstep exempt P (Both P) E (finish flow) (finish flow) := by
  cases flow with
  | done => exact .both_pure ()
  | _ => exact .throw h

theorem Near.visible_eq {m t : Machine Block} (h : Near m t) : m.visible = t.visible := by
  obtain ⟨st, rs, rfl⟩ := h
  exact (View.visible_see _ m).symm

theorem alike_visible {Q : Unit → Machine Block → Unit → Machine Block → Prop}
    {E : Machine Block → Machine Block → Prop} {r r' : Result Stop (Machine Block) Unit}
    (h : Alike GivenUp Q E r r') (hr : ∀ t, r ≠ .error .abandoned t)
    (hQ : ∀ m t, Q () m () t → m.visible = t.visible) (hE : ∀ m t, E m t → m.visible = t.visible) :
    mapState visible r = mapState visible r' := by
  cases h with
  | exempt he =>
    cases he
    exact absurd rfl (hr _)
  | ok hq => exact congrArg (Result.ok ()) (hQ _ _ hq)
  | error he => exact congrArg (Result.error _) (hE _ _ he)

/-! ### Evaluation and execution on the stack -/

/-- The evaluation of a program by its tree. -/
def Block.evaluation (watched : Bool) (root : Block) : Bounded (Machine Block) Unit :=
  executionProgram (direct_rising watched) root

/-- The results of a program by evaluation and on the stack are alike. -/
theorem evaluation_lockstep (keeps : Bool) {watched : Bool} {marking : Marking}
    (hm : marking.Watched watched) (root : Block) (n : Nat) :
    Lockstep GivenUp (At [] []) (Both (Above keeps [] [])) Near ((root.evaluation watched).run n)
      ((executionProgram (onStack_rising keeps marking) root).run n) :=
  (executing_agrees hm n root [] []).both_bind fun flow =>
    finish_lockstep (fun _ _ h => h.near) flow

theorem at_start (maxDepth : Nat) : At [] [] (.start maxDepth) (.start maxDepth) := by
  simp [At, View.see, beside, Machine.start, Heap.mapBodies, Heap.empty]

theorem see_start (keeps : Bool) (marking : Marking) (maxDepth : Nat) :
    (compiled keeps marking).see (.start maxDepth) = .start maxDepth := by
  simp [View.see, compiled, Machine.start, Heap.mapBodies, Heap.empty]

/-- The code of a tree without marks has the outcome of the evaluation of the tree. -/
theorem Block.code_outcome (root : Block) (maxDepth : Nat)
    (h : NeverGivenUp (root.evaluation false).run (.start maxDepth)) :
    SameOutcome (fun n => runFor n (root.unmarked.generate dropValue)) (.start maxDepth)
      (root.evaluation false).run (.start maxDepth) := by
  have hcode := program_outcome false .empty root (.start maxDepth)
  rw [see_start] at hcode
  refine hcode.trans (SameOutcome.of_alike fun n => ?_).symm
  have hn := evaluation_lockstep false (Marking.empty_watched false) root n _ _ (at_start maxDepth)
  exact alike_visible hn (h n) (fun _ _ hq => hq.2.near.visible_eq) fun _ _ he => he.visible_eq

/-- At a normal end of the code nothing is left on the stack. -/
theorem Block.code_stack_nil (root : Block) (maxDepth : Nat)
    (h : NeverGivenUp (root.evaluation false).run (.start maxDepth)) {m : Machine}
    (hm : Ends (fun n => runFor n (root.unmarked.generate dropValue)) (.start maxDepth)
      (.ok () m)) : m.stack = [] := by
  have hm' : Ends (programOf (root.unmarked.generate dropValue)).run
      ((compiled false .empty).see (.start maxDepth)) (.ok () m) := by
    rwa [see_start]
  obtain ⟨r, ⟨⟨n, hr⟩, -⟩, hmr⟩ := (Tracks.ends_iff (program_tracks false .empty root)).mp hm'
  have hn := evaluation_lockstep false (Marking.empty_watched false) root n _ _ (at_start maxDepth)
  rw [hr] at hn
  cases r with
  | error e t => cases hmr
  | ok a t =>
    obtain rfl : m = (compiled false .empty).see t := by
      cases hmr
      rfl
    generalize hv : (root.evaluation false).run n (.start maxDepth) = v at hn
    cases hn with
    | exempt he =>
      cases he
      exact absurd hv (h n _)
    | ok hq =>
      obtain ⟨-, kept, hkept, rfl⟩ := hq
      rw [hkept rfl]
      rfl

/-- For every source, the code that is generated of its tree without marks prints the same, leaves
the same globals and ends in the same way as the evaluation of the tree, or neither ends, if no call
passes another number of arguments than the callee takes; a normal end leaves the stack empty. -/
theorem unmarked_code_evaluates (globals : List String) (source : String) (maxDepth : Nat)
    {code : Code} (hcode : Compiler.standard.generate
      { Compiler.standard.compile globals source with
        root := (Compiler.standard.compile globals source).root.unmarked } = .ok code)
    (hcalls : NeverGivenUp ((Compiler.standard.compile globals source).root.evaluation false).run
      (.start maxDepth)) :
    SameOutcome (fun n => runFor n code) (.start maxDepth)
        ((Compiler.standard.compile globals source).root.evaluation false).run (.start maxDepth) ∧
      ∀ m, Ends (fun n => runFor n code) (.start maxDepth) (.ok () m) → m.stack = [] := by
  let root := (Compiler.standard.compile globals source).root
  have hroot : code = root.unmarked.generate dropValue := by
    unfold Compiler.generate at hcode
    split at hcode
    · exact (Except.ok.inj hcode).symm
    · cases hcode
  rw [hroot]
  exact ⟨root.code_outcome maxDepth hcalls, fun m hm => root.code_stack_nil maxDepth hcalls hm⟩

/-! ### Programs at hand

A source is parsed by reductions that `decide` can follow, once the merge of its line breaks with no
others is left out.  What is compiled in this way is a definition of its own, so that the rewriting
stops there and the parse is followed only once. -/

theorem Stream.prepare_eq (tokens : List Token) :
    Stream.prepare tokens =
      let s := ((Stream.ofSymbols (tokens.map Symbol.ofToken)).purge .blank).purge .comment
      ⟨s.active.filter (·.tag ≠ .newline), Stream.foldNeighbours
        ((s.active.zipIdx.filter (·.1.tag = .newline)).map fun p =>
          (⟨p.2 - s.countBefore .newline p.2, p.1⟩ : Detached))⟩ := by
  simp [Stream.prepare, Stream.remove, Stream.purge, Stream.ofSymbols, Stream.renumbered,
    Stream.foldNeighbours]

/-- What tokens are parsed to, without the merge. -/
def Grammar.parsed (g : Grammar) (tokens : List Token) : Parsed :=
  let s := ((Stream.ofSymbols (tokens.map Symbol.ofToken)).purge .blank).purge .comment
  let breaks := (s.active.zipIdx.filter (·.1.tag = .newline)).map fun p =>
    (⟨p.2 - s.countBefore .newline p.2, p.1⟩ : Detached)
  let prepared : Stream := ⟨s.active.filter (·.tag ≠ .newline), Stream.foldNeighbours breaks⟩
  let p := (g.reduce { Parsing.start tokens with stream := prepared }).1
  let symbols := p.stream.active
  let record := { p.record with diagnostics := p.record.diagnostics ++ leftovers symbols }
  let line := (symbols.head?.map (·.line)).getD 1
  match (symbols.filter (·.tag = .program)).filterMap (·.program?) with
  | [single] => ⟨single.toBlock, { record with nodes := record.nodes + single.wrappers }, symbols⟩
  | programs =>
    ⟨.mk line (programs.flatMap Program.statements), { record with nodes := record.nodes + 1 },
      symbols⟩

theorem Grammar.parse_eq (g : Grammar) (tokens : List Token) :
    g.parse tokens = g.parsed tokens := by
  unfold parse Parsing.start
  rw [Stream.prepare_eq]
  rfl

/-- What a source is compiled to, without the merge. -/
def Compiler.compiled (c : Compiler) (globals : List String) (source : String) : Compilation :=
  match c.lexer.tokenize source with
  | .error problem => ⟨.mk 1 [], [problem], [], 1, 0⟩
  | .ok tokens =>
    let parsed := c.grammar.parsed tokens
    let (root, scope) := (parsed.root.resolve false).run (.start globals)
    ⟨root.markInPlace, parsed.record.diagnostics ++ scope.diagnostics, scope.globals,
      parsed.record.nodes + scope.added, scope.bound⟩

theorem Compiler.compile_eq (c : Compiler) (globals : List String) (source : String) :
    c.compile globals source = c.compiled globals source := by
  unfold compile
  simp only [Grammar.parse_eq]
  rfl

/-- What a program has printed at its normal end. -/
def printed? {β : Type} : Result Stop (Machine β) Unit → Option String
  | .ok () m => some m.output
  | .error _ _ => none

theorem ok_of_printed? {β : Type} {r : Result Stop (Machine β) Unit} {s : String}
    (h : printed? r = some s) : ∃ m, r = .ok () m ∧ m.output = s := by
  cases r with
  | ok a m => exact ⟨m, rfl, Option.some.inj h⟩
  | error e m => cases h

theorem Compiler.generate_of_eq_nil {c : Compiler} {compilation : Compilation}
    (h : compilation.diagnostics = []) :
    c.generate compilation = .ok (compilation.root.generate c.discard) := by
  rw [Compiler.generate, h]

/-- Code is generated from another root all the same. -/
theorem Compiler.generate_withRoot {c : Compiler} {compilation : Compilation}
    (h : compilation.diagnostics = []) (b : Block) :
    c.generate { compilation with root := b } = .ok (b.generate c.discard) :=
  Compiler.generate_of_eq_nil h

/-- A function is called and its value printed. -/
theorem unmarked_code_evaluates_call :
    let source := "func f(n) \x7b\nreturn n + 1\n\x7d\nprint f(2)"
    let compilation := Compiler.standard.compile [] source
    let code := compilation.root.unmarked.generate dropValue
    Compiler.standard.generate { compilation with root := compilation.root.unmarked } = .ok code ∧
      NeverGivenUp (compilation.root.evaluation false).run (.start 8) ∧
      SameOutcome (fun n => runFor n code) (.start 8) (compilation.root.evaluation false).run
        (.start 8) := by
  intro source compilation code
  have hboth : compilation.diagnostics = [] ∧
      printed? ((compilation.root.evaluation false).run 12 (.start 8)) = some "3\n" := by
    simp only [compilation, Compiler.compile_eq]
    decide +kernel
  obtain ⟨hdiagnostics, hprinted⟩ := hboth
  have hcode : Compiler.standard.generate
      { compilation with root := compilation.root.unmarked } = .ok code :=
    Compiler.generate_withRoot hdiagnostics _
  obtain ⟨m, hm, -⟩ := ok_of_printed? hprinted
  have hcalls := NeverGivenUp.of_ok hm
  exact ⟨hcode, hcalls, (unmarked_code_evaluates [] source 8 hcode hcalls).1⟩

-- a value that is left on the stack is not printed
example : printed? (runFor 2 [⟨.put, some (.text "a")⟩] (.start 8)) = some "" := by decide +kernel

/-- A call with an argument too many ends normally and leaves the argument on the stack. -/
theorem miscounted_call_leaves_its_argument :
    let compilation := Compiler.standard.compile [] "func f() \x7b\x7d\nf(1)"
    let code := compilation.root.unmarked.generate dropValue
    Compiler.standard.generate { compilation with root := compilation.root.unmarked } = .ok code ∧
      ∃ m, Ends (fun n => runFor n code) (.start defaultMaxDepth) (.ok () m) ∧
        m.stack = [.number 1.0] := by
  intro compilation code
  have hboth : compilation.diagnostics = [] ∧
      (match runFor 20 code (.start defaultMaxDepth) with
      | .ok _ m => decide (m.stack = [.number 1.0])
      | .error _ _ => false) = true := by
    simp only [code, compilation, Compiler.compile_eq]
    decide +kernel
  obtain ⟨hdiagnostics, hstack⟩ := hboth
  refine ⟨Compiler.generate_withRoot hdiagnostics _, ?_⟩
  split at hstack
  · rename_i m hm
    exact ⟨m, ⟨⟨20, hm⟩, not_exhausted_ok⟩, of_decide_eq_true hstack⟩
  · cases hstack

end StackScript
