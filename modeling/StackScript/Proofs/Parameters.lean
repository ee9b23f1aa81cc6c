import StackScript.Proofs.CallStack
import StackScript.Proofs.Resolution

/-!
# StackScript.Proofs.Parameters — which parameter a name means

A name is looked for in the bodies around it, so that the parameter that it refers to may be one of
an outer function.  The machine addresses a parameter by its ordinal alone, in the call that is
running.  The two agree where the parameter is one of the innermost function.
-/

namespace StackScript

open EStateM (Result)
open Occurrence Machine

namespace Occurrence

/-- A name with a binding is read or assigned. -/
def Uses (o : Occurrence) (name : String) (binding : Option Binding) : Prop :=
  ∃ line, o = .read name line binding ∨ o = .write name line binding

theorem Fits.refers {globals : List String} {past : List Occurrence} {o : Occurrence}
    {name : String} {binding : Option Binding} (h : Fits globals past o)
    (ho : o.Uses name binding) : Refers globals past name binding := by
  obtain ⟨line, rfl | rfl⟩ := ho
  · exact (h binding).mpr rfl
  · exact (h binding).mpr rfl

/-- The name is the last parameter of this name, and the one with this ordinal, which counts from
one. -/
structure IsParam (params : List String) (ordinal : Nat) (name : String) : Prop where
  pos : 0 < ordinal
  get : params[ordinal - 1]? = some name
  last : ∀ later, ordinal ≤ later → params[later]? ≠ some name

/-- A body with a parameter of the name has something of this name. -/
theorem exists_inBody {params : List String} {name : String} (h : name ∈ params)
    (since : List Occurrence) : ∃ binding, InBody params since name binding := by
  by_cases hd : ∃ binding, Declares since name binding
  · obtain ⟨binding, hd⟩ := hd
    exact ⟨binding, .declared hd⟩
  have hlast : ∃ ordinal : Nat, params[ordinal]? = some name ∧
      ∀ later, ordinal < later → params[later]? ≠ some name := by
    clear hd
    induction params using List.reverseRecOn with
    | nil => cases h
    | append_singleton params param ih =>
      have hafter : ∀ later, params.length < later → (params ++ [param])[later]? = none := by
        intro later hlater
        rw [List.getElem?_eq_none_iff, List.length_append, List.length_singleton]
        exact hlater
      by_cases hname : param = name
      · subst hname
        refine ⟨params.length, List.getElem?_concat_length, fun later hlater => ?_⟩
        rw [hafter later hlater]
        exact (Option.some_ne_none _).symm
      · obtain ⟨ordinal, hget, hlast⟩ := ih (by
          rcases List.mem_append.mp h with h | h
          · exact h
          · exact absurd (List.mem_singleton.mp h).symm hname)
        have hlt : ordinal < params.length := (List.getElem?_eq_some_iff.mp hget).1
        refine ⟨ordinal, (List.getElem?_append_left hlt).trans hget, fun later hlater heq => ?_⟩
        rcases Nat.lt_trichotomy later params.length with hl | rfl | hl
        · rw [List.getElem?_append_left hl] at heq
          exact hlast later hlater heq
        · rw [List.getElem?_concat_length] at heq
          exact hname (Option.some.inj heq)
        · rw [hafter later hl] at heq
          cases heq
  obtain ⟨ordinal, hget, hlast⟩ := hlast
  exact ⟨_, .param (fun binding hb => hd ⟨binding, hb⟩) hget hlast⟩

section
variable {globals : List String} {os past rest : List Occurrence}
  (hfits : ∀ past o rest, os = past ++ o :: rest → Fits globals past o)

include hfits

/-- What is declared in an open body has a slot. -/
theorem slot_of_declares (hpast : os = past ++ rest) {before since : List Occurrence}
    {params : List String} (h : Encloses past before params since) {name : String}
    {binding : Option Binding} (hd : Declares since name binding) :
    ∃ slot, binding = some (.slot slot) := by
  obtain ⟨us, vs, rfl, hus⟩ := hd
  obtain ⟨rfl, -⟩ := h
  have hfit := hfits (before ++ .enter params :: us) (.declare name binding) (vs ++ rest)
    (by rw [hpast]; simp)
  refine (hfit.1 before params us ⟨rfl, hus.stays⟩ fun before' params' since' h' => ?_).1
  rcases (encloses_append_enter hus).mp h' with ⟨rfl, -, -⟩ | ⟨us', ⟨rfl, -⟩, -⟩
  · exact Nat.le_refl _
  · rw [List.length_append]
    exact Nat.le_add_right _ _

/-- A name that refers to a parameter refers to one of the innermost body with a parameter of this
name. -/
theorem Refers.param (hpast : os = past ++ rest) {name : String} {ordinal : Nat}
    (h : Refers globals past name (some (.param ordinal))) :
    ∃ before params since, Encloses past before params since ∧ IsParam params ordinal name ∧
      ∀ before' params' since', Encloses past before' params' since' → name ∈ params' →
        before'.length ≤ before.length := by
  cases h with
  | @inner before since params _ hencloses hbody innermost =>
    refine ⟨before, params, since, hencloses, ?_, fun before' params' since' h' hmem => ?_⟩
    · cases hbody with
      | declared hd =>
        obtain ⟨slot, heq⟩ := slot_of_declares hfits hpast hencloses hd
        cases heq
      | param hnot hget hlast => exact ⟨Nat.succ_pos _, hget, fun later => hlast later⟩
    · refine Nat.le_of_not_lt fun hlt => ?_
      obtain ⟨binding, hb⟩ := exists_inBody hmem since'
      exact innermost before' params' since' h' hlt binding hb

end

end Occurrence

/-- The occurrences in a resolved tree have the bindings that fit them. -/
theorem Block.resolve_fits (globals : List String) (root : Block) :
    ∀ past o rest, ((root.resolve false).run (.start globals)).1.occurrences false =
      past ++ o :: rest → Fits globals past o := by
  have hfollows := root.resolve_follows false (.start globals)
  have hos : ((root.resolve false).run (.start globals)).1.occurrences false =
      (resolveAll (root.occurrences false) (.start globals)).1 :=
    (congrArg Prod.fst hfollows).symm
  rw [hos]
  refine (resolveAll_fits (Scope.Follows.start globals) fun us vs heq => ?_).1
  have := (root.paired false).stays us vs heq
  rwa [rise_nil, Int.zero_add]

/-- A parameter is one of the nearest function around the name that has a parameter of this name,
and there the last of this name.  So where the innermost function has a parameter of the name, the
ordinal is that of this parameter. -/
theorem parameter_is_of_the_nearest_function (globals : List String) (root : Block)
    {past rest : List Occurrence} {o : Occurrence} {name : String} {ordinal : Nat}
    (h : ((root.resolve false).run (.start globals)).1.occurrences false = past ++ o :: rest)
    (ho : o.Uses name (some (.param ordinal))) :
    ∃ before params since, Encloses past before params since ∧ IsParam params ordinal name ∧
      ∀ before' params' since', Encloses past before' params' since' → name ∈ params' →
        before'.length ≤ before.length :=
  Refers.param (root.resolve_fits globals) h ((root.resolve_fits globals past o rest h).refers ho)

/-- The parameter of a function in a function that has another one. -/
theorem parameter_is_of_the_nearest_function_inner :
    let inner := Stmt.function 2 "g" ["b"] (.mk 3 [.returns 3 (some (.variable 3 "b" none))])
    let root := Block.mk 1 [.function 1 "f" ["a"] (.mk 2 [inner])]
    let past := [Occurrence.enter ["a"], .enter ["b"]]
    ((root.resolve false).run (.start [])).1.occurrences false =
        past ++ .read "b" 3 (some (.param 1)) :: [.leave, .leave] ∧
      ∃ before params since, Encloses past before params since ∧ IsParam params 1 "b" ∧
        ∀ before' params' since', Encloses past before' params' since' → "b" ∈ params' →
          before'.length ≤ before.length := by
  intro inner root past
  have h : ((root.resolve false).run (.start [])).1.occurrences false =
      past ++ .read "b" 3 (some (.param 1)) :: [.leave, .leave] := by decide
  exact ⟨h, parameter_is_of_the_nearest_function [] root h ⟨3, .inl rfl⟩⟩

/-- The parameter of an outer function is named in an inner one, whose own parameter is read. -/
theorem outer_parameter_reads_the_inner_argument :
    let source := "func f(a) \x7b\nfunc g(b) \x7b\nreturn a\n\x7d\nreturn g(2)\n\x7d\nprint f(1)"
    let compilation := Compiler.standard.compile [] source
    let code := compilation.root.generate dropValue
    Compiler.standard.generate compilation = .ok code ∧
      compilation.root.occurrences false = [.enter ["a"], .enter ["b"],
        .read "a" 3 (some (.param 1)), .leave, .leave] ∧
      ∃ m, Ends (fun n => runFor n code) (.start defaultMaxDepth) (.ok () m) ∧
        m.output = "2\n" := by
  intro source compilation code
  have hall : compilation.diagnostics = [] ∧
      compilation.root.occurrences false = [.enter ["a"], .enter ["b"],
        .read "a" 3 (some (.param 1)), .leave, .leave] ∧
      printed? (runFor 40 code (.start defaultMaxDepth)) = some "2\n" := by
    simp only [code, compilation, Compiler.compile_eq]
    decide +kernel
  obtain ⟨hdiagnostics, hoccurrences, hprinted⟩ := hall
  obtain ⟨m, hm, houtput⟩ := ok_of_printed? hprinted
  exact ⟨Compiler.generate_of_eq_nil hdiagnostics, hoccurrences, m,
    ⟨⟨40, hm⟩, not_exhausted_ok⟩, houtput⟩

end StackScript
