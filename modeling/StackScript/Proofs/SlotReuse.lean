import StackScript.Proofs.AlignedRuns
import StackScript.Proofs.AlignedTrees
import StackScript.Proofs.InPlaceMeaning
import StackScript.Proofs.Parameters
import StackScript.Proofs.Unfreed

/-!
# StackScript.Proofs.SlotReuse — local variables that share a slot

When a body ends, its slots are handed out again.  A resolver may also keep them, so that every
local variable of a program has a slot of its own.  This makes no difference to a program in which no
function names a local variable from outside of it (`slot_reuse_is_invisible`).  One that does may
find in its slot the variable of a function that is running by then.
-/

namespace StackScript

open EStateM (Result)
open Machine

/-! ### What can be seen besides slots -/

/-- A machine without its local variables, the bodies of functions and their slots. -/
def Machine.surface {β : Type} (m : Machine β) : Machine Unit :=
  { m with
    locals := []
    recordings := []
    heap := m.heap.mapFunctions fun f => ⟨f.name, f.arity, [], ()⟩ }

/-- The program ends, with a result that has this surface. -/
def Surfaces {β : Type} (p : Runs β) (s : Machine β) (r : Result Stop (Machine Unit) Unit) : Prop :=
  ∃ r', Ends p s r' ∧ mapState surface r' = r

/-- Two programs on two machines have results with the same surface, or none. -/
structure SameSurface {β γ : Type} (p : Runs β) (s : Machine β) (q : Runs γ) (t : Machine γ) :
    Prop where
  surfaces_iff : ∀ r, Surfaces p s r ↔ Surfaces q t r
  diverges_iff : Diverges p s ↔ Diverges q t

theorem Heap.mapFunctions_mapFunctions {β γ δ : Type} (φ : Function β → Function γ)
    (ψ : Function γ → Function δ) (h : Heap β) :
    (h.mapFunctions φ).mapFunctions ψ = h.mapFunctions fun f => ψ (φ f) := by
  unfold Heap.mapFunctions
  simp only [Array.map_map]
  rfl

/-- A guise that keeps the stack keeps the surface. -/
theorem Guise.surface_see {β γ : Type} [Body β] [Body γ] (v : Guise β γ) {m : Machine β}
    (h : v.stack m.stack = m.stack) : (v.see m).surface = m.surface := by
  unfold surface see
  rw [h, Heap.mapFunctions_mapFunctions]
  rfl

/-- A machine that starts is the same in a guise. -/
theorem Guise.see_start {β γ : Type} [Body β] [Body γ] (v : Guise β γ) {maxDepth : Nat}
    (hs : v.stack [] = []) (hl : v.locals [] = []) (hr : v.recordings [] = []) :
    v.see (.start maxDepth) = .start maxDepth := by
  simp [see, Machine.start, Heap.mapFunctions, Heap.empty, hs, hl, hr]

theorem Twins.surface_eq {keeps : Bool} {m t : Machine Block} (h : Twins keeps m t) :
    m.surface = t.surface := by
  obtain ⟨u, hm, ht⟩ := h
  rw [← hm, ← ht, Guise.surface_see _ rfl, Guise.surface_see _ rfl]

/-! ### Programs -/

/-- The resolved and marked tree of a program, with slots handed out again or not. -/
def Block.resolvedWith (reuses : Bool) (globals : List String) (root : Block) : Block :=
  ((root.resolve false).run { Scope.start globals with reuses }).1.markInPlace

/-- The tree of a source, with slots handed out again or not. -/
def Compiler.rootWith (c : Compiler) (reuses : Bool) (globals : List String) (source : String) :
    Block :=
  match c.lexer.tokenize source with
  | .error _ => .mk 1 []
  | .ok tokens => (c.grammar.parse tokens).root.resolvedWith reuses globals

/-- A compilation hands slots out again. -/
theorem Compiler.compile_root_eq (c : Compiler) (globals : List String) (source : String) :
    (c.compile globals source).root = c.rootWith true globals source := by
  unfold compile rootWith
  cases c.lexer.tokenize source with
  | error problem => rfl
  | ok tokens => rfl

/-- Aligned trees have results with the same surface at every limit. -/
theorem Block.Aligned.surface_eq {keeps : Bool} {b b' : Block} (h : Block.Aligned keeps [] b b')
    (maxDepth n : Nat) :
    mapState surface ((executionProgram (onStack_rising keeps .inPlace) b).run n (.start maxDepth)) =
      mapState surface
        ((executionProgram (onStack_rising keeps .inPlace) b').run n (.start maxDepth)) := by
  have hstart : Twins keeps (.start maxDepth) (.start maxDepth) :=
    ⟨.start maxDepth, Guise.see_start _ rfl rfl rfl, Guise.see_start _ rfl rfl rfl⟩
  have hrun := ((executing_abreast (fun _ => False) keeps n ⟨b, b', h⟩ [] []).both_bind
    (finish_lockstep fun _ _ h => h.twins)) (.start maxDepth) (.start maxDepth)
    ⟨hstart, List.forall_mem_nil _, ⟨Nat.le_refl _, fun _ _ _ => rfl⟩,
      ⟨Nat.le_refl _, fun _ _ _ => rfl⟩⟩
  show mapState surface ((executing _ n b >>= fun flow => finish flow) _) =
    mapState surface ((executing _ n b' >>= fun flow => finish flow) _)
  generalize (executing (onStack keeps .inPlace) n b >>= fun flow => finish flow) _ = r at hrun ⊢
  generalize (executing (onStack keeps .inPlace) n b' >>= fun flow => finish flow) _ = r' at hrun ⊢
  cases hrun with
  | exempt he => exact he.elim
  | ok hq => exact congrArg (Result.ok ()) hq.2.twins.surface_eq
  | error he => exact congrArg (Result.error _) he.surface_eq

/-- A tree whose functions name only local variables of their own gives the same, with slots handed
out again or not. -/
theorem Block.resolvedWith_surface (keeps : Bool) (globals : List String) {root : Block}
    (hfreed : root.freedSlots = []) {reuses : Bool}
    (hown : (root.resolvedWith reuses globals).namesOwn [] = true) (reuses' : Bool)
    (maxDepth : Nat) :
    SameSurface
      (fun n => runFor n ((root.resolvedWith reuses globals).generate (discarding keeps)))
      (.start maxDepth)
      (fun n => runFor n ((root.resolvedWith reuses' globals).generate (discarding keeps)))
      (.start maxDepth) := by
  let tree (reuses : Bool) := ((root.resolve false).run { Scope.start globals with reuses }).1
  have haligned : Block.Aligned keeps [] (tree reuses) (tree reuses') :=
    Block.resolve_aligned keeps reuses reuses' globals hfreed
      (by rwa [resolvedWith, markInPlace, Block.mark_namesOwn] at hown)
  have hrun := haligned.surface_eq maxDepth
  have hsurfaces : ∀ reuses r, Surfaces
      (fun n => runFor n ((root.resolvedWith reuses globals).generate (discarding keeps)))
      (.start maxDepth) r ↔
      Surfaces (executionProgram (onStack_rising keeps .inPlace) (tree reuses)).run
        (.start maxDepth) r := by
    intro reuses r
    have h := program_ends_iff keeps .inPlace (tree reuses) (.start maxDepth) (r := r)
      fun t => (compiled keeps .inPlace).guise.surface_see (m := t) rfl
    rwa [see_start] at h
  have hdiverges : ∀ reuses, Diverges
      (fun n => runFor n ((root.resolvedWith reuses globals).generate (discarding keeps)))
      (.start maxDepth) ↔
      Diverges (executionProgram (onStack_rising keeps .inPlace) (tree reuses)).run
        (.start maxDepth) := by
    intro reuses
    have h := Tracks.diverges_iff (program_tracks keeps .inPlace (tree reuses))
      (t := .start maxDepth)
    rwa [see_start] at h
  exact ⟨fun r => (hsurfaces reuses r).trans
      ((ends_iff_of_alike hrun).trans (hsurfaces reuses' r).symm),
    (hdiverges reuses).trans ((diverges_iff_of_alike hrun).trans (hdiverges reuses').symm)⟩

/-- For every source that compiles, the code with slots handed out again and the code with a slot for
each local variable print the same, leave the same globals, stack and heap and end in the same way,
or neither ends, if no function names a local variable from outside of it. -/
theorem slot_reuse_is_invisible (keeps : Bool) (globals : List String) (source : String)
    (maxDepth : Nat) {code : Code}
    (hcode : (Compiler.chosen keeps).generate
      ((Compiler.chosen keeps).compile globals source) = .ok code)
    (hown : ((Compiler.chosen keeps).compile globals source).root.namesOwn [] = true) :
    SameSurface (fun n => runFor n code) (.start maxDepth)
      (fun n => runFor n (((Compiler.chosen keeps).rootWith false globals source).generate
        (Compiler.chosen keeps).discard)) (.start maxDepth) := by
  have hlexer : (Compiler.chosen keeps).lexer = .standard := by cases keeps <;> rfl
  rw [Compiler.compile_root_eq] at hown
  rw [Compiler.eq_of_generate hcode, Compiler.compile_root_eq, Compiler.chosen_discard]
  unfold Compiler.rootWith at hown ⊢
  cases htokens : (Compiler.chosen keeps).lexer.tokenize source with
  | error problem => exact ⟨fun _ => Iff.rfl, Iff.rfl⟩
  | ok tokens =>
    rw [htokens] at hown
    rw [hlexer] at htokens
    exact Block.resolvedWith_surface keeps globals
      (Grammar.freedSlots_parse _ (Lexer.lexical_of_tokenize htokens)) hown false maxDepth

/-- A function and the program have a local variable each, in one slot. -/
theorem slot_reuse_is_invisible_two_variables :
    let source := "func g() \x7b\nvar y = 2\nreturn y\n\x7d\nif true \x7b\nvar x = 1\n" ++
      "print x + g()\n\x7d"
    let compilation := (Compiler.chosen false).compile [] source
    let code := compilation.root.generate dropValue
    (Compiler.chosen false).generate compilation = .ok code ∧ compilation.root.namesOwn [] = true ∧
      SameSurface (fun n => runFor n code) (.start 8)
        (fun n => runFor n (((Compiler.chosen false).rootWith false [] source).generate dropValue))
        (.start 8) := by
  intro source compilation code
  have hboth : compilation.diagnostics = [] ∧ compilation.root.namesOwn [] = true := by
    simp only [compilation, Compiler.compile_eq]
    decide +kernel
  obtain ⟨hdiagnostics, hown⟩ := hboth
  have hcode : (Compiler.chosen false).generate compilation = .ok code :=
    Compiler.generate_of_eq_nil hdiagnostics
  exact ⟨hcode, hown, slot_reuse_is_invisible false [] source 8 hcode hown⟩

theorem Compiler.rootWith_eq (c : Compiler) (reuses : Bool) (globals : List String)
    (source : String) : c.rootWith reuses globals source =
      match c.lexer.tokenize source with
      | .error _ => .mk 1 []
      | .ok tokens => (c.grammar.parsed tokens).root.resolvedWith reuses globals := by
  simp only [rootWith, Grammar.parse_eq]

/-- A function that reads a local variable of the block around it is called while the slot belongs to
a variable of the caller. -/
theorem shared_slot_is_seen :
    let source := "func g() \x7b\nvar y = 2\nreturn f()\n\x7d\nif true \x7b\nvar x = 1\n" ++
      "func f() \x7b\nreturn x\n\x7d\nprint g()\n\x7d"
    let code (reuses : Bool) := (Compiler.standard.rootWith reuses [] source).generate dropValue
    Compiler.standard.generate (Compiler.standard.compile [] source) = .ok (code true) ∧
      (∃ m, Ends (fun n => runFor n (code true)) (.start defaultMaxDepth) (.ok () m) ∧
        m.output = "2\n") ∧
      ∃ m, Ends (fun n => runFor n (code false)) (.start defaultMaxDepth) (.ok () m) ∧
        m.output = "1\n" := by
  intro source code
  have hall : (Compiler.standard.compile [] source).diagnostics = [] ∧
      printed? (runFor 60 (code true) (.start defaultMaxDepth)) = some "2\n" ∧
      printed? (runFor 60 (code false) (.start defaultMaxDepth)) = some "1\n" := by
    simp only [code, source, Compiler.rootWith_eq, Compiler.compile_eq]
    decide +kernel
  obtain ⟨hdiagnostics, hshared, hapart⟩ := hall
  obtain ⟨m, hm, hmo⟩ := ok_of_printed? hshared
  obtain ⟨t, ht, hto⟩ := ok_of_printed? hapart
  refine ⟨?_, ⟨m, ⟨⟨60, hm⟩, not_exhausted_ok⟩, hmo⟩, t, ⟨⟨60, ht⟩, not_exhausted_ok⟩, hto⟩
  rw [Compiler.generate_of_eq_nil hdiagnostics, Compiler.compile_root_eq]
  rfl

end StackScript
