import StackScript.Proofs.InPlaceMeaning
import StackScript.Proofs.KnownGlobals
import StackScript.Session

/-!
# StackScript.Proofs.SessionGlobals — a session keeps its globals

The globals of a session are those that its compiler takes as declared.  Each of them has a value in
the machine, whatever has been fed to the session and however it ended: a source makes its globals
known to the session only when all its declarations have been executed.  A source that stops early
may leave functions and globals behind that the session does not know; these functions address
globals that had a value when they were made, and no run takes a value away.
-/

namespace StackScript

open EStateM (Result)
open Instruction Code Machine

/-! ### The code of a program -/

section
variable {known : Set String} {s : Scope}

/-- A global that is declared is known after it. -/
theorem Scope.Knows.declare (h : s.Knows known) (hframes : s.frames = []) (name : String) :
    (s.declare name).2.counted.Knows (insert name known) := by
  rw [declare_outside name hframes]
  refine ⟨fun other hother => ?_, h.frames⟩
  have hother : other ∈ if s.globals.contains name then s.globals else s.globals ++ [name] := hother
  split at hother
  · exact Set.mem_insert_of_mem _ (h.globals other hother)
  · rcases List.mem_append.mp hother with hother | hother
    · exact Set.mem_insert_of_mem _ (h.globals other hother)
    · exact .inl (List.mem_singleton.mp hother)

/-- A statement outside of bodies, if no problem comes up. -/
theorem Stmt.resolve_learns (keeps : Bool) (st : Stmt) (h : s.Knows known)
    (hframes : s.frames = []) :
    (st.resolve false s).2.frames = [] ∧
      s.diagnostics <+: (st.resolve false s).2.diagnostics ∧
      ∃ more, (st.resolve false s).2.Knows more ∧ ((st.resolve false s).2.diagnostics = [] →
        ∀ {d : Code} {known' : Set String}, Learns more d known' → Learns known
          (((st.resolve false s).1.mark .inPlace).code (discarding keeps) .instructions ++ d)
          known') := by
  cases hname : st.localName? with
  | none =>
    obtain ⟨hknows, -, hlength, hkept, hpieces⟩ := st.resolve_sees.2.2 hname s h False.elim
    have hframes' : (st.resolve false s).2.frames = [] :=
      List.eq_nil_of_length_eq_zero (hlength.trans (congrArg List.length hframes))
    refine ⟨hframes', hkept, known, hknows, fun hnone d known' hd => ?_⟩
    have hall := Stmt.code_all keeps (globalsIn_ofVariables known) .instructions _ (hpieces hnone)
    have hshaped := Stmt.code_shaped (P := fun _ => True) (discarding_acts keeps)
      ((st.resolve false s).1.mark .inPlace) fun _ _ => trivial
    exact .statement (hshaped.all (List.forall_mem_nil _) hall) hall hd
  | some name =>
    obtain ⟨line, init, b, rfl⟩ : ∃ line init b, st = .declare line name init b := by
      cases st with
      | declare line other init b =>
        obtain rfl := Option.some.inj hname
        exact ⟨line, init, b, rfl⟩
      | _ => cases hname
    obtain ⟨hknows, -, hlength, hkept, hcode⟩ := Expr.resolveOption_sees init s h False.elim
    have hframes' : (Expr.resolveOption init s).2.frames = [] :=
      List.eq_nil_of_length_eq_zero (hlength.trans (congrArg List.length hframes))
    have hrun : (Stmt.declare line name init b).resolve false s =
        (.declare line name (Expr.resolveOption init s).1
          (some ((Expr.resolveOption init s).2.declare name).1),
          ((Expr.resolveOption init s).2.declare name).2.counted) := rfl
    have hdeclared := hknows.declare hframes' name
    rw [hrun]
    rw [Scope.declare_outside name hframes'] at hdeclared ⊢
    refine ⟨hframes', hkept, insert name known, hdeclared, fun hnone d known' hd => ?_⟩
    show Learns known (Expr.codeOrNull _ ++ [⟨.store, some (.text name)⟩] ++ d) known'
    rw [List.append_assoc]
    have hshaped := Shaped.of_acts (P := fun _ => True)
      (Expr.codeOrNull_acts (Expr.resolveOption init s).1)
    exact .statement (hshaped.all (List.forall_mem_nil _) (hcode hnone)) (hcode hnone)
      (.declaration name hd)

/-- The statements of a program, if no problem comes up. -/
theorem Stmt.resolveAll_learns (keeps : Bool) (ss : List Stmt) (h : s.Knows known)
    (hframes : s.frames = []) :
    s.diagnostics <+: (Stmt.resolveAll false ss s).2.diagnostics ∧
      ((Stmt.resolveAll false ss s).2.diagnostics = [] → ∃ known',
        Learns known (Stmt.codeAll (discarding keeps) .instructions
          (Stmt.markAll .inPlace (Stmt.resolveAll false ss s).1)) known' ∧
        (Stmt.resolveAll false ss s).2.Knows known') := by
  induction ss generalizing known s with
  | nil => exact ⟨List.prefix_refl _, fun _ => ⟨known, .nil known, h⟩⟩
  | cons st ss ih =>
    obtain ⟨hframes', hkept, more, hknows, hlearns⟩ := st.resolve_learns keeps h hframes
    obtain ⟨hkept', hrest⟩ := ih hknows hframes'
    refine ⟨hkept.trans hkept', fun hnone => ?_⟩
    obtain ⟨known', hd, hknows'⟩ := hrest hnone
    have hnone' : (st.resolve false s).2.diagnostics = [] :=
      List.prefix_nil.mp (hnone ▸ hkept')
    exact ⟨known', hlearns hnone' hd, hknows'⟩

end

theorem Compiler.diagnostics_of_generate {c : Compiler} {compilation : Compilation} {code : Code}
    (h : c.generate compilation = .ok code) : compilation.diagnostics = [] := by
  unfold generate at h
  split at h
  · assumption
  · cases h

/-- The code of a source learns the globals that the source declares. -/
theorem Compiler.code_learns {keeps : Bool} {globals : List String} {source : String} {code : Code}
    (hcode : (chosen keeps).generate ((chosen keeps).compile globals source) = .ok code)
    {known : Set String} (hknown : ∀ name ∈ globals, name ∈ known) :
    ∃ known', Learns known code known' ∧
      ∀ name ∈ ((chosen keeps).compile globals source).globals, name ∈ known' := by
  rw [eq_of_generate hcode, chosen_discard]
  have hnone := diagnostics_of_generate hcode
  unfold compile at hnone ⊢
  cases htokens : (chosen keeps).lexer.tokenize source with
  | error problem =>
    rw [htokens] at hnone
    cases hnone
  | ok tokens =>
    rw [htokens] at hnone
    dsimp only at hnone ⊢
    have hnone := (List.append_eq_nil_iff.mp hnone).2
    cases hroot : ((chosen keeps).grammar.parse tokens).root with
    | mk line ss =>
      rw [hroot] at hnone
      obtain ⟨-, hlearns⟩ := Stmt.resolveAll_learns keeps ss (Scope.Knows.start hknown) rfl
      obtain ⟨known', hcode, hknows⟩ := hlearns hnone
      exact ⟨known', hcode, hknows.globals⟩

/-! ### Runs -/

namespace Machine

variable {known known' : Set String} {code : Code} {m : Machine}

theorem runFor_learns (h : Learns known code known') (n : Nat) :
    Ensures (Knows known) (runFor n code) (fun _ => Knows known')
      fun e m => e.Defined ∧ m.Grown known := by
  have hstands : Stands known known' code 0 [] [] code :=
    ⟨⟨⟨[], rfl, rfl⟩, .nil⟩, List.forall_mem_nil _, List.forall_mem_nil _, h⟩
  refine Ensures.bind (runFrom_learns n hstands) fun flow => ?_
  cases flow with
  | done => exact .pure fun m hm => hm.1 rfl
  | _ => exact .throw fun m hm => ⟨nofun, hm.2⟩

/-- A run that is done knows all globals that its code learns.  One that stops early knows those
that it began with, and does not stop for a variable that is not defined. -/
theorem run_learns (h : Learns known code known') (hm : m.Knows known) (fuel : Nat) :
    match m.run fuel code with
    | (none, t) => t.Knows known'
    | (some e, t) => e.Defined ∧ t.Grown known := by
  have hrun := runFor_learns h fuel m hm
  unfold run
  generalize runFor fuel code m = r at hrun ⊢
  cases r <;> exact hrun

theorem Knows.recover (h : m.Knows known) (depth : Nat) : (m.recover depth).Knows known :=
  ⟨⟨h.1.functions, [], rfl, List.forall_mem_nil _⟩, h.2⟩

theorem Knows.pop (h : m.Knows known) : m.pop.2.Knows known := by
  unfold Machine.pop
  split
  · exact h
  · exact ⟨h.1.congr rfl rfl, h.2⟩

theorem Knows.takeOutput (h : m.Knows known) : m.takeOutput.2.Knows known :=
  ⟨h.1.congr rfl rfl, h.2⟩

theorem knows_start (maxDepth : Nat) : (Machine.start maxDepth).Knows ∅ :=
  ⟨⟨fun f hf => absurd hf (Array.not_mem_empty f), [], rfl, List.forall_mem_nil _⟩, fun _ => nofun⟩

end Machine

/-! ### Sessions -/

namespace Session

/-- What is done to a session: a source is fed to it and may take some steps, or its machine is used
between two sources. -/
inductive Event where
  | feed (fuel : Nat) (source : String)
  | recover (depth : Nat)
  | pop
  | takeOutput

/-- The session after an event. -/
def handle (s : Session) : Event → Session
  | .feed fuel source => (s.feed fuel source).2
  | .recover depth => { s with machine := s.machine.recover depth }
  | .pop => { s with machine := s.machine.pop.2 }
  | .takeOutput => { s with machine := s.machine.takeOutput.2 }

/-- The session after some events. -/
def handleAll (s : Session) (events : List Event) : Session := events.foldl handle s

/-- The machine knows all globals that the session knows, and maybe more. -/
structure Sound (keeps : Bool) (s : Session) : Prop where
  compiler : s.compiler = .chosen keeps
  machine : s.machine.Grown {name | name ∈ s.globals}

variable {keeps : Bool} {s : Session}

theorem Sound.has (h : s.Sound keeps) {name : String} (hname : name ∈ s.globals) :
    (s.machine.globals.find? name).isSome := by
  obtain ⟨known, hsub, hknows⟩ := h.machine
  exact hknows.2 name (hsub hname)

theorem sound_start (keeps : Bool) (maxDepth : Nat) :
    (start (.chosen keeps) maxDepth).Sound keeps :=
  ⟨rfl, ∅, fun _ => nofun, knows_start maxDepth⟩

/-- A source that is fed leaves a sound session, and does not stop for a variable that is not
defined, however many steps it may take. -/
theorem Sound.feed (h : s.Sound keeps) (fuel : Nat) (source : String) :
    (s.feed fuel source).2.Sound keeps ∧
      ∀ code e, (s.feed fuel source).1 = .ran code (some e) → e.Defined := by
  obtain ⟨compiler, machine, globals⟩ := s
  obtain ⟨rfl, known, hsub, hknows⟩ := h
  unfold Session.feed
  dsimp only
  split
  · exact ⟨⟨rfl, known, hsub, hknows⟩, fun _ _ => nofun⟩
  · rename_i code hcode
    obtain ⟨known', hlearns, hglobals⟩ := Compiler.code_learns hcode fun name hname => hsub hname
    have hrun := run_learns hlearns hknows fuel
    generalize machine.run fuel code = r at hrun ⊢
    obtain ⟨_ | e, t⟩ := r
    · exact ⟨⟨rfl, known', hglobals, hrun⟩, fun _ _ => nofun⟩
    · obtain ⟨hdefined, more, hmore, ht⟩ := hrun
      refine ⟨⟨rfl, more, Set.Subset.trans hsub hmore, ht⟩, fun _ e' heq => ?_⟩
      cases heq
      exact hdefined

theorem Sound.handle (h : s.Sound keeps) (event : Event) : (s.handle event).Sound keeps := by
  obtain ⟨known, hsub, hknows⟩ := h.machine
  cases event with
  | feed fuel source => exact (h.feed fuel source).1
  | recover depth => exact ⟨h.compiler, known, hsub, hknows.recover depth⟩
  | pop => exact ⟨h.compiler, known, hsub, hknows.pop⟩
  | takeOutput => exact ⟨h.compiler, known, hsub, hknows.takeOutput⟩

theorem Sound.handleAll (h : s.Sound keeps) (events : List Event) :
    (s.handleAll events).Sound keeps := by
  induction events generalizing s with
  | nil => exact h
  | cons event events ih => exact ih (h.handle event)

/-- Whatever has been done to a session, each global that it knows has a value in its machine, and
no source that is fed to it stops for a variable that is not defined, however many steps it may
take. -/
theorem globals_have_values (keeps : Bool) (maxDepth : Nat) (events : List Event) :
    (∀ name ∈ ((start (.chosen keeps) maxDepth).handleAll events).globals,
      ((((start (.chosen keeps) maxDepth).handleAll events).machine).globals.find? name).isSome) ∧
    ∀ fuel source code stop,
      (((start (.chosen keeps) maxDepth).handleAll events).feed fuel source).1 =
        .ran code (some stop) → ∀ name, stop ≠ .fault (.undefinedVariable name) := by
  have hsound := (sound_start keeps maxDepth).handleAll events
  exact ⟨fun name hname => hsound.has hname, fun fuel source => (hsound.feed fuel source).2⟩

end Session

end StackScript
