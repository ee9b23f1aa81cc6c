import StackScript.Proofs.CodeMeaning

/-!
# StackScript.Proofs.InPlaceMeaning — what marks change

The code of an assignment `x = x op e` reads `x` before it evaluates `e`, and the code of a marked
one after it.  A watched execution does all by the instructions without marks, but evaluates each
such update by itself: it is given up where `x` cannot be read before `e` or has another value after
it, or where a call in `e` passes another number of arguments than the callee takes.  If a program
is never given up then its code has the same outcome with marks and without them.
-/

namespace StackScript

open EStateM (Result)
open Machine

/-! ### Updates beside the stack -/

/-- The effect on all but the stack and the recordings, which stay as they are. -/
def Machine.aside (x : Effect Block Unit) : Effect Block Unit := fun m =>
  mapState (beside m.stack m.recordings).see (x m)

theorem Machine.aside_below {x y : Effect Block Unit} (h : Below x y) :
    Below (aside x) (aside y) := by
  intro m
  unfold aside
  rcases h m with ⟨m', h'⟩ | h'
  · exact .inl ⟨_, by rw [h']; rfl⟩
  · exact .inr (by rw [h'])

theorem At.self (m : Machine Block) : At m.stack m.recordings m m := by
  have hbody : m.heap.functions.map (Function.mapBody id) = m.heap.functions := by
    show m.heap.functions.map id = _
    exact Array.map_id _
  unfold At View.see beside Heap.mapBodies
  rw [hbody]

/-- Nothing can be seen of a difference between two machines. -/
def Indistinct (m t : Machine Block) : Prop := m.visible = t.visible

theorem indistinct_tolerant : Tolerant Indistinct where
  refl _ := rfl
  leave m t base saved h := by
    have hleave : ∀ w : Machine Block, (w.leave base saved).visible = w.visible.leave 0 saved :=
      fun _ => rfl
    show (m.leave base saved).visible = (t.leave base saved).visible
    rw [hleave, hleave, h]

/-- What agrees beside every stack agrees beside the stack that is there. -/
theorem Lockstep.aside {x y : Effect Block Unit}
    (h : ∀ st rs, Lockstep GivenUp (At st rs) (Both (At st rs)) Near x y) :
    Lockstep GivenUp Eq (Both Eq) Indistinct (Machine.aside x) y := by
  rintro m _ rfl
  have h' := h m.stack m.recordings m m (At.self m)
  unfold Machine.aside
  generalize x m = r at h' ⊢
  generalize y m = r' at h' ⊢
  cases h' with
  | exempt he => exact .exempt he
  | ok hq => exact .ok ⟨hq.1, hq.2.symm⟩
  | error he => exact .error ((View.visible_see _ _).trans he.visible_eq)

/-! ### Watched execution -/

/-- The variable that a statement updates, with the update. -/
def Stmt.update? : Stmt → Option (String × Update)
  | .assign _ name e binding => (e.update? name binding).map fun u => (name, u)
  | _ => none

-- `x = x + e` updates `x`, and `x = e + x` does not
example :
    let b := some Binding.global
    let x := Expr.variable 1 "x" b
    let e := Expr.text 1 "a"
    (Stmt.assign 1 "x" (.binary 1 .add x e none) b).update?.isSome = true ∧
      (Stmt.assign 1 "x" (.binary 1 .add e x none) b).update?.isSome = false := by
  decide +kernel

/-- The effect of a statement that leads to the next one; updates are evaluated, with `evaluated`
for the bodies of functions. -/
def Stmt.watch (keeps : Bool) (evaluated run : Block → Effect Block Flow) (s : Stmt) :
    Effect Block Unit :=
  match s.update? with
  | some (name, u) => aside (u.evaluate evaluated name)
  | none => s.perform keeps .empty run

/-- The basis of the execution by instructions that watches updates. -/
def watching (keeps : Bool) (n : Nat) (run : Block → Effect Block Flow) : Basis Block where
  effect := Stmt.watch keeps (executing (direct true) n) run
  test := (onStack keeps .empty n run).test
  result := (onStack keeps .empty n run).result

theorem watching_rising (keeps : Bool) : Rising (watching keeps) := by
  intro n run run' h
  have hstep := onStack_rising keeps .empty n run run' h
  refine ⟨fun s => ?_, hstep.test, hstep.result, hstep.ends⟩
  show Lockstep _ _ _ _ (s.watch _ _ _) (s.watch _ _ _)
  unfold Stmt.watch
  cases s.update? with
  | some u =>
    have hrises := executing_rises (direct_rising true) n
    exact below_iff_lockstep.mp (aside_below (u.2.evaluate_below hrises u.1))
  | none => exact hstep.effect s

section
variable {keeps : Bool} {marking : Marking}

/-- A statement that updates nothing has no marks. -/
theorem Stmt.perform_eq_of_update? {s : Stmt} (hs : s.update? = none) {watched : Bool}
    (hm : marking.Watched watched) (run : Block → Effect Block Flow) :
    s.perform keeps marking run = s.perform keeps .empty run := by
  cases s with
  | assign line name e binding =>
    have hmark : marking name binding e = none := by
      cases ht : marking name binding e with
      | none => rfl
      | some target =>
        obtain ⟨-, u, hu, -⟩ := hm name binding e target ht
        rw [Stmt.update?, hu] at hs
        cases hs
    simp only [Stmt.perform, hmark, Marking.empty]
  | _ => rfl

/-- An update that is evaluated agrees with the instructions of its assignment. -/
theorem Stmt.update_agrees {run run' : Block → Effect Block Flow}
    (H : BodiesAgree keeps run run') {s : Stmt} {name : String} {u : Update}
    (hs : s.update? = some (name, u)) (hm : marking.Watched true) (st : List Value)
    (rs : List Block) :
    Lockstep GivenUp (At st rs) (Both (At st rs)) Near (u.evaluate run name)
      (s.perform keeps marking run') := by
  cases s with
  | assign line name' e binding =>
    obtain ⟨u', hu, heq⟩ := Option.map_eq_some_iff.mp hs
    cases heq
    have hassign : Lockstep GivenUp (At st rs) (Both (At st rs)) Near _ _ :=
      assign_agrees H hm line name e binding
    simp only [Stmt.evaluate, hu] at hassign
    exact hassign
  | _ => cases hs

theorem watching_inStep (hm : marking.Watched true) (n : Nat) {run : Block → Effect Block Flow}
    (h : ∀ b, Lockstep GivenUp Eq (Both Eq) Indistinct (run b)
      (executing (onStack keeps marking) n b)) :
    Basis.InStep GivenUp Eq Indistinct (watching keeps n run)
      (onStack keeps marking n (executing (onStack keeps marking) n)) := by
  have hstep := onStack_inStep indistinct_tolerant h keeps .empty n n
  refine ⟨fun s => ?_, hstep.test, hstep.result, hstep.ends⟩
  show Lockstep _ _ _ _ (s.watch _ _ _) (s.perform _ _ _)
  unfold Stmt.watch
  cases hs : s.update? with
  | some u => exact .aside (s.update_agrees (executing_agrees hm n) hs hm)
  | none =>
    rw [Stmt.perform_eq_of_update? hs hm]
    exact hstep.effect s

/-- Watched execution agrees with the execution of marked blocks until it is given up. -/
theorem watching_agrees (hm : marking.Watched true) (n : Nat) (b : Block) :
    Lockstep GivenUp Eq (Both Eq) Indistinct (executing (watching keeps) n b)
      (executing (onStack keeps marking) n b) := by
  induction n generalizing b with
  | zero => exact .throw fun m _ h => congrArg visible h
  | succ n ih => exact b.execute_lockstep (watching_inStep hm n ih) (.inl rfl)

end

/-! ### Programs -/

/-- The watched execution of a program. -/
def Block.watched (keeps : Bool) (root : Block) : Bounded (Machine Block) Unit :=
  executionProgram (watching_rising keeps) root

/-- If the watched execution of a tree is never given up, then the code of the tree has its outcome
whatever is marked. -/
theorem Block.marked_outcome (keeps : Bool) {marking : Marking} (hm : marking.Watched true)
    (root : Block) (maxDepth : Nat)
    (h : NeverGivenUp (root.watched keeps).run (.start maxDepth)) :
    SameOutcome (fun n => runFor n ((root.mark marking).generate (discarding keeps)))
      (.start maxDepth) (root.watched keeps).run (.start maxDepth) := by
  have hcode := program_outcome keeps marking root (.start maxDepth)
  rw [see_start] at hcode
  refine hcode.trans (SameOutcome.of_alike fun n => ?_).symm
  have hn : Lockstep GivenUp Eq (Both Eq) Indistinct ((root.watched keeps).run n)
      ((executionProgram (onStack_rising keeps marking) root).run n) :=
    (watching_agrees hm n root).both_bind
      (finish_lockstep fun m _ h => congrArg visible h)
  exact alike_visible (hn _ _ rfl) (h n) (fun _ _ hq => congrArg visible hq.2) fun _ _ he => he

/-- The compiler of the language, or that of a shell, which keeps the values of statements. -/
def Compiler.chosen (keeps : Bool) : Compiler := if keeps then keepingValues else standard

theorem Compiler.chosen_discard (keeps : Bool) : (chosen keeps).discard = discarding keeps := by
  cases keeps <;> rfl

theorem Compiler.eq_of_generate {c : Compiler} {compilation : Compilation} {code : Code}
    (h : c.generate compilation = .ok code) : code = compilation.root.generate c.discard := by
  unfold generate at h
  split at h
  · exact (Except.ok.inj h).symm
  · cases h

/-- A compilation has marked what is to be marked. -/
theorem Compiler.compile_root_mark (c : Compiler) (globals : List String) (source : String) :
    (c.compile globals source).root.mark .inPlace = (c.compile globals source).root := by
  unfold compile
  split
  · rfl
  · exact Block.mark_mark _ Marking.inPlace_blind _

/-- For every source, the code that is generated of its tree as it is marked and the code that is
generated of the tree without marks have the same outcome, if the watched execution of the program is
never given up: where an update is executed, its variable can be read before and after the right
operand is evaluated and has the same value, and no call in the operand passes another number of
arguments than the callee takes. -/
theorem marks_keep_outcome (keeps : Bool) (globals : List String) (source : String)
    (maxDepth : Nat) {marked plain : Code}
    (hmarked : (Compiler.chosen keeps).generate
      ((Compiler.chosen keeps).compile globals source) = .ok marked)
    (hplain : (Compiler.chosen keeps).generate
      { (Compiler.chosen keeps).compile globals source with
        root := ((Compiler.chosen keeps).compile globals source).root.unmarked } = .ok plain)
    (hwatched : NeverGivenUp
      (((Compiler.chosen keeps).compile globals source).root.watched keeps).run
      (.start maxDepth)) :
    SameOutcome (fun n => runFor n marked) (.start maxDepth) (fun n => runFor n plain)
      (.start maxDepth) := by
  let root := ((Compiler.chosen keeps).compile globals source).root
  have hcode : marked = (root.mark .inPlace).generate (discarding keeps) := by
    rw [Compiler.eq_of_generate hmarked, Compiler.chosen_discard, Compiler.compile_root_mark]
  have hcode' : plain = (root.mark .empty).generate (discarding keeps) := by
    rw [Compiler.eq_of_generate hplain, Compiler.chosen_discard]
    rfl
  rw [hcode, hcode']
  exact (root.marked_outcome keeps Marking.inPlace_watched maxDepth hwatched).trans
    (root.marked_outcome keeps (Marking.empty_watched true) maxDepth hwatched).symm

/-- A variable is updated and printed. -/
theorem marks_keep_outcome_update :
    let compilation := (Compiler.chosen false).compile [] "var x = 1\nx = x + 2\nprint x"
    let marked := compilation.root.generate dropValue
    let plain := compilation.root.unmarked.generate dropValue
    (Compiler.chosen false).generate compilation = .ok marked ∧
      (Compiler.chosen false).generate { compilation with root := compilation.root.unmarked } =
        .ok plain ∧
      NeverGivenUp (compilation.root.watched false).run (.start 8) ∧
      SameOutcome (fun n => runFor n marked) (.start 8) (fun n => runFor n plain) (.start 8) := by
  intro compilation marked plain
  have hboth : compilation.diagnostics = [] ∧
      printed? ((compilation.root.watched false).run 12 (.start 8)) = some "3\n" := by
    simp only [compilation, Compiler.compile_eq]
    decide +kernel
  obtain ⟨hdiagnostics, hprinted⟩ := hboth
  have hmarked : (Compiler.chosen false).generate compilation = .ok marked :=
    Compiler.generate_of_eq_nil hdiagnostics
  have hplain : (Compiler.chosen false).generate
      { compilation with root := compilation.root.unmarked } = .ok plain :=
    Compiler.generate_withRoot hdiagnostics _
  obtain ⟨m, hm, -⟩ := ok_of_printed? hprinted
  have hwatched := NeverGivenUp.of_ok hm
  exact ⟨hmarked, hplain, hwatched, marks_keep_outcome false [] _ 8 hmarked hplain hwatched⟩

/-- A program that ends has the outcome of its end. -/
theorem shows_of_printed? {code : Code} {n : Nat} {m : Machine} {output : String}
    (h : printed? (runFor n code m) = some output) :
    ∃ t : Machine Unit, Shows (fun n => runFor n code) m (.ok () t) ∧ t.output = output := by
  obtain ⟨m', hm, ho⟩ := ok_of_printed? h
  exact ⟨m'.visible, ⟨_, ⟨⟨n, hm⟩, not_exhausted_ok⟩, rfl⟩, ho⟩

example :
    let code : Code := [⟨.put, some (.text "a")⟩, ⟨.call, none⟩]
    ∃ t : Machine Unit, Shows (fun n => runFor n code) (.start 8) (.ok () t) ∧ t.output = "a\n" :=
  shows_of_printed? (n := 3) (by decide +kernel)

/-- An update whose right operand sets the variable loses the value from before, with marks only. -/
theorem marks_miss_a_change_of_the_variable :
    let source := "var x = 1\nfunc f() \x7b\nx = 10\nreturn 5\n\x7d\nx = x + f()\nprint x"
    let compilation := (Compiler.chosen false).compile [] source
    let marked := compilation.root.generate dropValue
    let plain := compilation.root.unmarked.generate dropValue
    (Compiler.chosen false).generate compilation = .ok marked ∧
      (Compiler.chosen false).generate { compilation with root := compilation.root.unmarked } =
        .ok plain ∧
      ¬ SameOutcome (fun n => runFor n marked) (.start defaultMaxDepth) (fun n => runFor n plain)
        (.start defaultMaxDepth) := by
  intro source compilation marked plain
  have hall : compilation.diagnostics = [] ∧
      printed? (runFor 30 marked (.start defaultMaxDepth)) = some "15\n" ∧
      printed? (runFor 30 plain (.start defaultMaxDepth)) = some "6\n" := by
    simp only [marked, plain, compilation, Compiler.compile_eq]
    decide +kernel
  obtain ⟨hdiagnostics, hmarked, hplain⟩ := hall
  refine ⟨Compiler.generate_of_eq_nil hdiagnostics, Compiler.generate_withRoot hdiagnostics _,
    fun h => ?_⟩
  obtain ⟨t, ht, hto⟩ := shows_of_printed? hmarked
  obtain ⟨w, hw, hwo⟩ := shows_of_printed? hplain
  have heq := shows_unique (programOf plain) ((h.shows_iff _).mp ht) hw
  cases heq
  rw [hto] at hwo
  exact absurd hwo (by decide)

end StackScript
