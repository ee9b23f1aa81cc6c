import Mathlib.Data.Set.Insert
import StackScript.Proofs.Balance
import StackScript.Proofs.Pieces

/-!
# StackScript.Proofs.GlobalNames — the globals that the code of a tree addresses

Resolving gives a name the binding of a global only if the global is declared by then, and reports a
name that is not declared at all.  So if no problem comes up, the code of a statement addresses only
globals that were declared before it (`Stmt.resolve_sees`).
-/

namespace StackScript

open Instruction Code

/-! ### Instructions -/

/-- The global that an instruction addresses. -/
def Instruction.global? (i : Instruction) : Option String :=
  match i.opcode.addresses, i.operand with
  | true, some (.text name) => some name
  | _, _ => none

/-- If the instruction addresses a global, it is one of these. -/
def Instruction.GlobalsIn (known : Set String) (i : Instruction) : Prop :=
  ∀ name, i.global? = some name → name ∈ known

namespace Instruction

variable {known : Set String} {i : Instruction}

theorem globalsIn_of_global? (h : i.global? = none) : i.GlobalsIn known := by
  intro name hname
  rw [h] at hname
  cases hname

theorem GlobalsIn.mono {known' : Set String} (h : i.GlobalsIn known) (hsub : known ⊆ known') :
    i.GlobalsIn known' := fun name hname => hsub (h name hname)

theorem global?_of_apart (h : i.Apart) : i.global? = none := by
  unfold global?
  rw [h.1]

theorem globalsIn_ofVariables (known : Set String) : OfVariables (GlobalsIn known) where
  apart _ h := globalsIn_of_global? (global?_of_apart h)
  update := by
    intro op o operand ho hstore name hname
    refine hstore name ?_
    rw [← hname]
    unfold global?
    rw [Opcode.addresses_of_update? ho]
    rfl

end Instruction

/-! ### Resolving -/

/-- The globals of the scope are among these, and what is declared in frames is no global. -/
structure Scope.Knows (known : Set String) (s : Scope) : Prop where
  globals : ∀ name ∈ s.globals, name ∈ known
  frames : ∀ f ∈ s.frames, ∀ p ∈ f.names, p.2 ≠ .global

namespace Scope.Knows

variable {known : Set String} {s : Scope}

theorem start {globals : List String} (h : ∀ name ∈ globals, name ∈ known) :
    (Scope.start globals).Knows known :=
  ⟨fun name hname => h name (List.mem_eraseDups.mp hname), fun _ hf => nomatch hf⟩

theorem of_eq (h : s.Knows known) {s' : Scope} (hg : s'.globals = s.globals)
    (hf : s'.frames = s.frames) : s'.Knows known := ⟨hg ▸ h.globals, hf ▸ h.frames⟩

/-- A name that refers to a global refers to one of these. -/
theorem mem_of_lookup (h : s.Knows known) {name : String} (hname : s.lookup name = some .global) :
    name ∈ known := by
  unfold Scope.lookup at hname
  cases hf : s.frames.findSome? (·.names.lookup name) with
  | some b =>
    rw [hf] at hname
    obtain ⟨f, hmem, hlook⟩ := List.exists_of_findSome?_eq_some hf
    exact absurd (Option.some.inj hname) (h.frames f hmem _ (mem_of_lookup_eq_some hlook))
  | none =>
    rw [hf] at hname
    dsimp only at hname
    split at hname
    · rename_i hcontains
      exact h.globals name (List.contains_iff_mem.mp hcontains)
    · cases hname

theorem push (h : s.Knows known) (params : List String) : (s.push params).Knows known := by
  refine ⟨h.globals, fun f hf => ?_⟩
  rcases List.mem_cons.mp hf with rfl | hf
  · intro p hp
    rw [List.mem_reverse, List.mem_map] at hp
    obtain ⟨q, -, rfl⟩ := hp
    exact nofun
  · exact h.frames f hf

theorem pop (h : s.Knows known) : s.pop.2.Knows known ∧ s.pop.2.globals = s.globals ∧
    s.pop.2.frames.length = s.frames.length - 1 ∧ s.pop.2.diagnostics = s.diagnostics := by
  unfold Scope.pop
  cases hfs : s.frames with
  | nil => exact ⟨h, rfl, congrArg List.length hfs, rfl⟩
  | cons f fs =>
    exact ⟨⟨h.globals, fun g hg => h.frames g (hfs ▸ List.mem_cons_of_mem _ hg)⟩, rfl, rfl, rfl⟩

end Scope.Knows

/-- In a scope with these globals, and where frames are open if they must be, resolving declares no
global, and it gives something with a property unless a problem comes up. -/
def Resolve.Sees {α : Type} (known : Set String) (inside : Prop) (x : Resolve α) (P : α → Prop) :
    Prop :=
  ∀ s : Scope, s.Knows known → (inside → 0 < s.frames.length) →
    (x s).2.Knows known ∧ (x s).2.globals = s.globals ∧
      (x s).2.frames.length = s.frames.length ∧
      s.diagnostics <+: (x s).2.diagnostics ∧ ((x s).2.diagnostics = [] → P (x s).1)

namespace Resolve

variable {α γ : Type} {known : Set String} {inside : Prop} {P P' : α → Prop} {Q : γ → Prop}

theorem Sees.pure {a : α} (h : P a) : Sees known inside (Pure.pure a) P :=
  fun _ hs _ => ⟨hs, rfl, rfl, List.prefix_refl _, fun _ => h⟩

theorem Sees.bind {x : Resolve α} {f : α → Resolve γ} (h : Sees known inside x P)
    (hf : ∀ a, Sees known inside (f a) fun c => P a → Q c) : Sees known inside (x >>= f) Q := by
  intro s hs hopen
  obtain ⟨hknows, hglobals, hlength, hkept, hp⟩ := h s hs hopen
  obtain ⟨hknows', hglobals', hlength', hkept', hq⟩ := hf (x s).1 (x s).2 hknows (hlength ▸ hopen)
  refine ⟨hknows', hglobals'.trans hglobals, hlength'.trans hlength, hkept.trans hkept',
    fun hnone => ?_⟩
  have hnone' : (x s).2.diagnostics = [] := List.prefix_nil.mp (hnone ▸ hkept')
  exact hq hnone (hp hnone')

/-- What needs no frame does the same in one. -/
theorem Sees.weaken {x : Resolve α} (h : Sees known False x P) (hp : ∀ a, P a → P' a) :
    Sees known inside x P' := by
  intro s hs _
  obtain ⟨hknows, hglobals, hlength, hkept, hgives⟩ := h s hs False.elim
  exact ⟨hknows, hglobals, hlength, hkept, fun hnone => hp _ (hgives hnone)⟩

/-- The binding of a name that is used: none of a global that is not known. -/
def Bound (known : Set String) (name : String) (b : Option Binding) : Prop :=
  ∃ b', b = some b' ∧ (b' = .global → name ∈ known)

theorem use_sees (name : String) (problem : Diagnostic) :
    Sees known False (use name problem) (Bound known name) := by
  intro s hs _
  unfold use
  cases hlookup : s.lookup name with
  | none =>
    refine ⟨hs.of_eq rfl rfl, rfl, rfl, List.prefix_append _ _, fun hnone => ?_⟩
    exact absurd hnone (List.append_ne_nil_of_right_ne_nil _ (List.cons_ne_nil _ _))
  | some b =>
    refine ⟨hs.of_eq rfl rfl, rfl, rfl, List.prefix_refl _, fun _ => ⟨b, rfl, ?_⟩⟩
    rintro rfl
    exact hs.mem_of_lookup hlookup

/-- A name that is declared in a frame. -/
theorem declare_sees (name : String) : Sees known True (declare name) (Bound known name) := by
  intro s hs hopen
  have hrun : declare name s = (some (s.declare name).1, (s.declare name).2.counted) := rfl
  rw [hrun]
  cases hfs : s.frames with
  | nil =>
    have hlt := hopen trivial
    rw [hfs] at hlt
    cases hlt
  | cons f fs =>
    cases hd : f.declared.lookup name with
    | some slot =>
      rw [Scope.declare_again hfs hd]
      exact ⟨hs.of_eq rfl rfl, rfl, congrArg List.length hfs, List.prefix_refl _,
        fun _ => ⟨_, rfl, nofun⟩⟩
    | none =>
      rw [Scope.declare_new hfs hd]
      refine ⟨⟨hs.globals, fun g hg => ?_⟩, rfl, rfl, List.prefix_refl _,
        fun _ => ⟨_, rfl, nofun⟩⟩
      rcases List.mem_cons.mp hg with rfl | hg
      · intro p hp
        rcases List.mem_cons.mp hp with rfl | hp
        · exact nofun
        · exact hs.frames f (hfs ▸ List.mem_cons_self) p hp
      · exact hs.frames g (hfs ▸ List.mem_cons_of_mem _ hg)

end Resolve

namespace Resolve.Bound

variable {known : Set String} {name : String} {binding : Option Binding}

theorem names_load (h : Bound known name binding) :
    (loadVariable name binding).GlobalsIn known := by
  obtain ⟨b, rfl, hglobal⟩ := h
  cases b with
  | global =>
    intro other hother
    obtain rfl : name = other := Option.some.inj hother
    exact hglobal rfl
  | _ => exact globalsIn_of_global? rfl

theorem names_store (h : Bound known name binding) :
    GlobalsIn known ⟨.store, some (targetOperand name binding)⟩ := by
  obtain ⟨b, rfl, hglobal⟩ := h
  cases b with
  | global =>
    intro other hother
    obtain rfl : name = other := Option.some.inj hother
    exact hglobal rfl
  | _ => exact globalsIn_of_global? rfl

end Resolve.Bound

/-! ### Expressions -/

/-- All globals that the code addresses are among these. -/
abbrev Code.GlobalsIn (known : Set String) (c : Code) : Prop := ∀ i ∈ c, i.GlobalsIn known

section
variable {known : Set String}

theorem Code.globalsIn_append {c d : Code} (hc : c.GlobalsIn known) (hd : d.GlobalsIn known) :
    (c ++ d).GlobalsIn known := List.forall_mem_append.mpr ⟨hc, hd⟩

theorem Code.globalsIn_single {i : Instruction} (h : i.global? = none) :
    Code.GlobalsIn known [i] := List.forall_mem_singleton.mpr (globalsIn_of_global? h)

open Resolve in
mutual

theorem Expr.resolve_sees : (e : Expr) →
    Sees known False e.resolve fun e => e.code.GlobalsIn known
  | .number _ _ | .text _ _ | .boolean _ _ | .null _ | .this _ => .pure (globalsIn_single rfl)
  | .super _ => .pure (List.forall_mem_cons.mpr ⟨globalsIn_of_global? rfl,
      globalsIn_append (globalsIn_single (i := putConstant (.boolean true)) rfl)
        (globalsIn_single rfl)⟩)
  | .list _ items => (Expr.resolveAll_sees items).bind fun _ =>
      .pure fun h => globalsIn_append h.2 (globalsIn_single rfl)
  | .map _ entries => (Expr.resolvePairs_sees entries).bind fun _ =>
      .pure fun h => globalsIn_append h (globalsIn_single rfl)
  | .variable _ name _ => (use_sees name _).bind fun _ =>
      .pure fun h => List.forall_mem_singleton.mpr h.names_load
  | .field _ receiver name => receiver.resolve_sees.bind fun _ =>
      .pure fun h => globalsIn_append h (globalsIn_append
        (globalsIn_single (i := putText name) rfl) (globalsIn_single (i := plain .getMember) rfl))
  | .binary _ op left right _ => left.resolve_sees.bind fun _ => right.resolve_sees.bind fun _ =>
      .pure fun hright hleft => by
        refine globalsIn_append (globalsIn_append hleft hright) ?_
        cases op <;> exact globalsIn_single rfl
  | .unary _ op operand => operand.resolve_sees.bind fun _ =>
      .pure fun h => by
        refine globalsIn_append h ?_
        cases op <;> exact globalsIn_single rfl
  | .call _ _ args => (Expr.resolveAll_sees args).bind fun _ =>
      .pure fun h => globalsIn_append h.1 (globalsIn_single rfl)
  | .method _ receiver _ args => (Expr.resolveAll_sees args).bind fun _ =>
      receiver.resolve_sees.bind fun _ => .pure fun hreceiver hargs =>
        globalsIn_append (globalsIn_append hargs.1 hreceiver) (globalsIn_single rfl)
  | .create _ _ args => (Expr.resolveAll_sees args).bind fun _ =>
      .pure fun h => globalsIn_append h.1 (globalsIn_single rfl)

theorem Expr.resolveAll_sees : (es : List Expr) → Sees known False (Expr.resolveAll es) fun es =>
    Code.GlobalsIn known (Expr.codeAll es) ∧ Code.GlobalsIn known (Expr.codeBackwards es)
  | [] => .pure ⟨List.forall_mem_nil _, List.forall_mem_nil _⟩
  | e :: es => e.resolve_sees.bind fun _ => (Expr.resolveAll_sees es).bind fun _ =>
      .pure fun hes he => ⟨globalsIn_append he hes.1, globalsIn_append hes.2 he⟩

theorem Expr.resolvePairs_sees : (es : List (Expr × Expr)) →
    Sees known False (Expr.resolvePairs es) fun es => Code.GlobalsIn known (Expr.codePairs es)
  | [] => .pure (List.forall_mem_nil _)
  | (key, e) :: es => key.resolve_sees.bind fun _ => e.resolve_sees.bind fun _ =>
      (Expr.resolvePairs_sees es).bind fun _ =>
        .pure fun hes he hkey => globalsIn_append (globalsIn_append hkey he) hes

end

theorem Expr.resolveOption_sees (e : Option Expr) : Resolve.Sees known False
    (Expr.resolveOption e) fun e => Code.GlobalsIn known (Expr.codeOrNull e) := by
  cases e with
  | none => exact .pure (globalsIn_single rfl)
  | some e => exact e.resolve_sees.bind fun _ => .pure fun h => h

/-! ### Statements -/

theorem Stmt.allPieces_append {A : Instruction → Prop} {ss ts : List Stmt} :
    AllPieces A (ss ++ ts) ↔ AllPieces A ss ∧ AllPieces A ts := by
  induction ss with
  | nil => exact (and_iff_right trivial).symm
  | cons s ss ih => rw [List.cons_append, AllPieces, ih, AllPieces, and_assoc]

theorem Stmt.allPieces_frees (line : Nat) (locals : List (String × Nat)) :
    AllPieces (Instruction.GlobalsIn known) (locals.map fun d => .free line d.1 d.2) := by
  induction locals with
  | nil => trivial
  | cons d locals ih => exact ⟨globalsIn_of_global? rfl, ih⟩

/-- A statement as a member of a class. -/
theorem Stmt.eachPieces_cons {A : Instruction → Prop} {s : Stmt} {ss : List Stmt}
    (hs : EachPieces A [s]) (hss : EachPieces A ss) : EachPieces A (s :: ss) := by
  cases s <;> first | exact hss | exact ⟨hs.1, hss⟩

theorem Stmt.Pieces.member {A : Instruction → Prop} {s : Stmt} (h : s.Pieces A) :
    EachPieces A [s] := by
  cases s with
  | declare | assign => exact ⟨h.1, trivial⟩
  | setField => exact ⟨h.2, trivial⟩
  | function => exact ⟨h, trivial⟩
  | _ => trivial

/-- A body in a frame of its own. -/
theorem Resolve.inFrame_sees {x : Resolve (List Stmt)}
    (h : Sees known True x (Stmt.AllPieces (Instruction.GlobalsIn known))) (params : List String)
    (line : Nat) :
    Sees known False (inFrame params line x) (Block.Pieces (Instruction.GlobalsIn known)) := by
  intro s hs _
  obtain ⟨hknows, hglobals, hlength, hkept, hss⟩ :=
    h (s.push params) (hs.push params) fun _ => Nat.zero_lt_succ _
  obtain ⟨hknows', hglobals', hlength', hdiagnostics⟩ := hknows.pop
  refine ⟨hknows', hglobals'.trans hglobals, ?_, hdiagnostics ▸ hkept, fun hnone => ?_⟩
  · show (x (s.push params)).2.pop.2.frames.length = _
    rw [hlength', hlength]
    rfl
  · exact Stmt.allPieces_append.mpr ⟨hss (hdiagnostics.symm.trans hnone), Stmt.allPieces_frees _ _⟩

/-- A statement that declares nothing, as a member and otherwise. -/
theorem Resolve.Sees.everywhere {x : Resolve Stmt} {name : Option String}
    (h : Sees known False x (Stmt.Pieces (Instruction.GlobalsIn known))) :
    Sees known False x (fun s => Stmt.EachPieces (Instruction.GlobalsIn known) [s]) ∧
      Sees known True x (Stmt.Pieces (Instruction.GlobalsIn known)) ∧
      (name = none → Sees known False x (Stmt.Pieces (Instruction.GlobalsIn known))) :=
  ⟨h.weaken fun _ h => h.member, h.weaken fun _ h => h, fun _ => h⟩

open Resolve in
mutual

/-- A statement as a member of a class, in a body, and outside of bodies if it declares nothing. -/
theorem Stmt.resolve_sees : (s : Stmt) →
    Sees known False (s.resolve true)
        (fun s => Stmt.EachPieces (Instruction.GlobalsIn known) [s]) ∧
      Sees known True (s.resolve false) (Stmt.Pieces (Instruction.GlobalsIn known)) ∧
      (s.localName? = none →
        Sees known False (s.resolve false) (Stmt.Pieces (Instruction.GlobalsIn known)))
  | .declare _ name init _ =>
    ⟨(Expr.resolveOption_sees init).bind fun _ => .pure fun h => ⟨h, trivial⟩,
      ((Expr.resolveOption_sees init).weaken fun _ h => h).bind fun _ =>
        (declare_sees name).bind fun _ => .pure fun hb h => ⟨h, hb.names_store⟩, nofun⟩
  | .value e => (e.resolve_sees.bind fun _ => .pure fun h => h).everywhere
  | .assign _ name e _ =>
    (e.resolve_sees.bind fun _ => (use_sees name _).bind fun _ =>
      .pure fun hb h => ⟨h, hb.names_store⟩).everywhere
  | .setField _ receiver _ e =>
    (receiver.resolve_sees.bind fun _ => e.resolve_sees.bind fun _ =>
      .pure fun he hreceiver => ⟨hreceiver, he⟩).everywhere
  | .print _ e => (e.resolve_sees.bind fun _ => .pure fun h => h).everywhere
  | .branch _ condition body rest =>
    (condition.resolve_sees.bind fun _ => (body.resolveBody_sees []).bind fun _ =>
      rest.resolve_sees.bind fun _ =>
        .pure fun hrest hbody hcondition => ⟨hcondition, hbody, hrest⟩).everywhere
  | .loop _ condition body =>
    (condition.resolve_sees.bind fun _ => (body.resolveBody_sees []).bind fun _ =>
      .pure fun hbody hcondition => ⟨hcondition, hbody⟩).everywhere
  | .function _ _ params body =>
    ((body.resolveBody_sees params).bind fun _ => .pure fun h => h).everywhere
  | .classDecl _ _ _ members =>
    (members.resolveMembers_sees.bind fun _ => .pure fun h => h).everywhere
  | .returns _ e => ((Expr.resolveOption_sees e).bind fun _ => .pure fun h => h).everywhere
  | .continues _ | .breaks _ => (Sees.pure trivial).everywhere
  | .free _ _ _ => (Sees.pure (globalsIn_of_global? rfl)).everywhere

theorem Rest.resolve_sees : (r : Rest) →
    Sees known False r.resolve (Rest.Pieces (Instruction.GlobalsIn known))
  | .nothing => .pure trivial
  | .elseIf _ condition body rest =>
    condition.resolve_sees.bind fun _ => (body.resolveBody_sees []).bind fun _ =>
      rest.resolve_sees.bind fun _ =>
        .pure fun hrest hbody hcondition => ⟨hcondition, hbody, hrest⟩
  | .otherwise body => (body.resolveBody_sees []).bind fun _ => .pure fun h => h

theorem Block.resolveBody_sees (params : List String) : (b : Block) →
    Sees known False (b.resolveBody params) (Block.Pieces (Instruction.GlobalsIn known))
  | .mk line ss => inFrame_sees (Stmt.resolveAll_sees ss) params line

theorem Block.resolveMembers_sees : (b : Block) →
    Sees known False (b.resolve true) (Block.MemberPieces (Instruction.GlobalsIn known))
  | .mk _ ss => (Stmt.resolveEach_sees ss).bind fun _ => .pure fun h => h

theorem Stmt.resolveAll_sees : (ss : List Stmt) →
    Sees known True (Stmt.resolveAll false ss) (Stmt.AllPieces (Instruction.GlobalsIn known))
  | [] => .pure trivial
  | s :: ss => s.resolve_sees.2.1.bind fun _ => (Stmt.resolveAll_sees ss).bind fun _ =>
      .pure fun hss hs => ⟨hs, hss⟩

theorem Stmt.resolveEach_sees : (ss : List Stmt) →
    Sees known False (Stmt.resolveAll true ss) (Stmt.EachPieces (Instruction.GlobalsIn known))
  | [] => .pure trivial
  | s :: ss => s.resolve_sees.1.bind fun _ => (Stmt.resolveEach_sees ss).bind fun _ =>
      .pure fun hss hs => Stmt.eachPieces_cons hs hss

end

end

end StackScript
