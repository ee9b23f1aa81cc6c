import StackScript.Proofs.Meaning
import StackScript.Proofs.OwnNames
import StackScript.Proofs.Resolution

/-!
# StackScript.Proofs.Aligning — resolving with and without giving slots back

A tree is resolved in two ways, which differ in the pools that slots come from.  The open frames have
the same names all the time, each with the slots of one variable (`Scope.Beside`): a declaration
adds a pair of slots that are new on both sides, and a body that ends takes its pairs with it.  So
the two trees are aligned, if functions name only local variables of their own.
-/

namespace StackScript

open Instruction (withNumber withName plain)

/-! ### Bindings -/

/-- Bindings of one variable. -/
inductive Binding.Alike (ps : Pairs) : Option Binding → Option Binding → Prop
  | slot {a b : Nat} (h : (a, b) ∈ ps) : Alike ps (some (.slot a)) (some (.slot b))
  | param (ordinal : Nat) : Alike ps (some (.param (ordinal + 1))) (some (.param (ordinal + 1)))
  | global : Alike ps (some .global) (some .global)
  | unbound : Alike ps none none

namespace Binding.Alike

variable {ps qs : Pairs} {b b' c c' : Option Binding}

theorem mono (h : Alike ps b b') (hps : ps ⊆ qs) : Alike qs b b' := by
  cases h with
  | slot h => exact .slot (hps h)
  | param ordinal => exact .param ordinal
  | global => exact .global
  | unbound => exact .unbound

/-- Variables are the same on both sides or on none. -/
theorem eq_iff (hp : ps.Apart) (h : Alike ps b b') (h' : Alike ps c c') : b = c ↔ b' = c' := by
  cases h with
  | slot h =>
    cases h' with
    | slot h' => rcases hp.eq_or h h' with heq | ⟨hne, hne'⟩ <;> simp_all
    | _ => simp
  | _ => cases h' <;> simp

theorem none_or_some (h : Alike ps b b') :
    b = none ∧ b' = none ∨ ∃ t t', b = some t ∧ b' = some t' := by
  cases h with
  | unbound => exact .inl ⟨rfl, rfl⟩
  | _ => exact .inr ⟨_, _, rfl, rfl⟩

/-- Reading a variable. -/
theorem load (h : Alike ps b b') (name : String) :
    Code.Aligned ps [loadVariable name b] [loadVariable name b'] := by
  cases h with
  | slot h => exact .single (.moved h rfl)
  | _ => exact .single (.same rfl)

/-- Addressing a variable. -/
theorem target (h : Alike ps b b') (name : String) {o : Opcode} (ho : o.addresses = true) :
    Code.Aligned ps [⟨o, some (targetOperand name b)⟩] [⟨o, some (targetOperand name b')⟩] := by
  have hsame : ∀ {operand : Operand}, Operand.slot? (some operand) = none →
      Instruction.slot? ⟨o, some operand⟩ = none := by
    intro operand hoperand
    cases o <;> first | exact hoperand | cases ho
  cases h with
  | slot h => exact .single (.moved h ho)
  | _ => exact .single (.same (hsame rfl))

end Binding.Alike

/-! ### Expressions -/

/-- Expressions with aligned code. -/
abbrev Expr.Alike (ps : Pairs) (e e' : Expr) : Prop := Code.Aligned ps e.code e'.code

theorem Instruction.slot?_plain (o : Opcode) : (plain o).slot? = none := by cases o <;> rfl

section
variable {ps : Pairs} {es es' : List Expr}

theorem Expr.codeAll_aligned (h : List.Forall₂ (Expr.Alike ps) es es') :
    Code.Aligned ps (Expr.codeAll es) (Expr.codeAll es') := by
  induction h with
  | nil => exact .nil
  | cons h _ ih => exact h.append ih

theorem Expr.codeBackwards_aligned (h : List.Forall₂ (Expr.Alike ps) es es') :
    Code.Aligned ps (Expr.codeBackwards es) (Expr.codeBackwards es') := by
  induction h with
  | nil => exact .nil
  | cons h _ ih => exact ih.append h

theorem Expr.codePairs_aligned {es es' : List (Expr × Expr)}
    (h : List.Forall₂ (fun p q => Expr.Alike ps p.1 q.1 ∧ Expr.Alike ps p.2 q.2) es es') :
    Code.Aligned ps (Expr.codePairs es) (Expr.codePairs es') := by
  induction h with
  | nil => exact .nil
  | cons h _ ih => exact (h.1.append h.2).append ih

end

/-! ### Frames -/

/-- A frame with two slots for each local variable. -/
structure TwinFrame where
  params : List (String × Binding)
  /-- the local variables with their slots, the latest first -/
  locals : List (String × Nat × Nat)
  /-- the frame is that of a function -/
  ofFunction : Bool
  isParam : ∀ p ∈ params, ∃ ordinal, p.2 = .param (ordinal + 1)

namespace TwinFrame

/-- The frame of a body that begins. -/
def opened (params : List String) (ofFunction : Bool) : TwinFrame where
  params := ((params.zipIdx 1).map fun p => (p.1, Binding.param p.2)).reverse
  locals := []
  ofFunction := ofFunction
  isParam p hp := by
    rw [List.mem_reverse, List.mem_map] at hp
    obtain ⟨q, hq, rfl⟩ := hp
    have hle : 1 ≤ q.2 := List.le_snd_of_mem_zipIdx hq
    exact ⟨q.2 - 1, congrArg Binding.param (by omega)⟩

/-- The slots of the local variables. -/
def pairs (f : TwinFrame) : Pairs := f.locals.map Prod.snd

/-- The frame on one side. -/
def seen (side : Nat × Nat → Nat) (f : TwinFrame) : Frame :=
  ⟨f.locals.map (fun d => (d.1, .slot (side d.2))) ++ f.params,
    (f.locals.map fun d => (d.1, side d.2)).reverse⟩

/-- The slots of all open frames. -/
def allPairs (fs : List TwinFrame) : Pairs := fs.flatMap pairs

/-- The slots that belong to the innermost function. -/
def reach : List TwinFrame → Pairs
  | [] => []
  | f :: fs => f.pairs ++ if f.ofFunction then [] else reach fs

/-- Frames with more local variables in the innermost one. -/
def extend (ls : List (String × Nat × Nat)) : List TwinFrame → List TwinFrame
  | [] => []
  | f :: fs => { f with locals := ls ++ f.locals } :: fs

theorem reach_subset (fs : List TwinFrame) : reach fs ⊆ allPairs fs := by
  induction fs with
  | nil => exact List.Subset.refl _
  | cons f fs ih =>
    rw [reach, allPairs, List.flatMap_cons]
    refine List.append_subset.mpr ⟨List.subset_append_left _ _, ?_⟩
    split
    · exact List.nil_subset _
    · exact List.subset_append_of_subset_right _ ih

theorem extend_nil (fs : List TwinFrame) : extend [] fs = fs := by cases fs <;> rfl

theorem extend_extend (ls ls' : List (String × Nat × Nat)) (fs : List TwinFrame) :
    extend ls (extend ls' fs) = extend (ls ++ ls') fs := by
  cases fs with
  | nil => rfl
  | cons f fs => rw [extend, extend, extend, List.append_assoc]

theorem reach_extend_cons (ls : List (String × Nat × Nat)) (f : TwinFrame) (fs : List TwinFrame) :
    reach (extend ls (f :: fs)) = ls.map Prod.snd ++ reach (f :: fs) := by
  rw [extend, reach, reach, pairs, pairs, List.map_append, List.append_assoc]

theorem map_seen_extend (side : Nat × Nat → Nat) (name : String) (p : Nat × Nat) (f : TwinFrame)
    (fs : List TwinFrame) : (extend [(name, p)] (f :: fs)).map (seen side) =
      ⟨(name, .slot (side p)) :: (f.seen side).names, (f.seen side).declared ++ [(name, side p)]⟩ ::
        fs.map (seen side) := by
  simp [extend, seen]

theorem lookup_map {α γ : Type} (g : α → γ) (l : List (String × α)) (name : String) :
    (l.map fun d => (d.1, g d.2)).lookup name = (l.lookup name).map g := by
  induction l with
  | nil => rfl
  | cons d l ih =>
    rw [List.map_cons, List.lookup_cons, List.lookup_cons, ih]
    split <;> rfl

/-- A name has the slots of one variable. -/
theorem lookup_alike (f : TwinFrame) (name : String) :
    Binding.Alike f.pairs ((f.seen Prod.fst).names.lookup name)
      ((f.seen Prod.snd).names.lookup name) := by
  have hside : ∀ side : Nat × Nat → Nat, (f.seen side).names.lookup name =
      ((f.locals.lookup name).map fun p => Binding.slot (side p)).or (f.params.lookup name) := by
    intro side
    rw [seen, List.lookup_append, lookup_map (fun p : Nat × Nat => Binding.slot (side p))]
  rw [hside, hside]
  cases hlocal : f.locals.lookup name with
  | some p => exact .slot (List.mem_map_of_mem (mem_of_lookup_eq_some hlocal))
  | none =>
    rw [Option.map_none, Option.map_none, Option.none_or]
    cases hparam : f.params.lookup name with
    | none => exact .unbound
    | some b =>
      obtain ⟨ordinal, rfl⟩ := f.isParam _ (mem_of_lookup_eq_some hparam)
      exact .param ordinal

theorem findSome?_alike (fs : List TwinFrame) (name : String) :
    Binding.Alike (allPairs fs) ((fs.map (seen Prod.fst)).findSome? (·.names.lookup name))
      ((fs.map (seen Prod.snd)).findSome? (·.names.lookup name)) := by
  induction fs with
  | nil => exact .unbound
  | cons f fs ih =>
    have hf : f.pairs ⊆ allPairs (f :: fs) := List.subset_append_left _ _
    have hfs : allPairs fs ⊆ allPairs (f :: fs) := List.subset_append_right _ _
    have hlookup := f.lookup_alike name
    rw [List.map_cons, List.map_cons, List.findSome?_cons, List.findSome?_cons]
    generalize (f.seen Prod.fst).names.lookup name = b at hlookup ⊢
    generalize (f.seen Prod.snd).names.lookup name = b' at hlookup ⊢
    cases hlookup with
    | slot h => exact .slot (hf h)
    | param ordinal => exact .param ordinal
    | global => exact .global
    | unbound => exact ih.mono hfs

end TwinFrame

/-! ### Scopes -/

open TwinFrame

/-- A scope has the frames of one side. -/
structure Scope.Shows (side : Nat × Nat → Nat) (fs : List TwinFrame) (s : Scope) : Prop where
  frames : s.frames = fs.map (seen side)
  holds : s.pool.Holds ((allPairs fs).map side)

namespace Scope.Shows

variable {side : Nat × Nat → Nat} {f : TwinFrame} {fs : List TwinFrame} {s : Scope}

theorem of_eq (h : s.Shows side fs) {s' : Scope} (hf : s'.frames = s.frames)
    (hp : s'.pool = s.pool) : s'.Shows side fs := ⟨hf.trans h.frames, hp ▸ h.holds⟩

/-- A body begins. -/
theorem push (h : s.Shows side fs) (params : List String) (ofFunction : Bool) :
    (s.push params).Shows side (opened params ofFunction :: fs) :=
  ⟨congrArg (_ :: ·) h.frames, h.holds⟩

/-- A body ends, whether its slots are given back or not. -/
theorem pop (h : s.Shows side (f :: fs)) :
    s.pop.1 = (f.locals.map fun d => (d.1, side d.2)).reverse ∧ s.pop.2.Shows side fs := by
  obtain ⟨frames, gs, pool, reuses, diagnostics, bound, added⟩ := s
  obtain ⟨rfl, holds⟩ := h
  refine ⟨rfl, rfl, ?_⟩
  have hdeclared : ((f.locals.map fun d => (d.1, side d.2)).reverse.map Prod.snd).Perm
      (f.pairs.map side) := by
    rw [List.map_reverse, List.map_map, pairs, List.map_map]
    exact List.reverse_perm _
  have hpool : pool.Holds ((f.locals.map fun d => (d.1, side d.2)).reverse.map Prod.snd ++
      (allPairs fs).map side) := by
    refine holds.perm ?_
    rw [allPairs, List.flatMap_cons, List.map_append]
    exact hdeclared.symm.append_right _
  show SlotPool.Holds (if reuses then _ else pool) _
  split
  · exact hpool.releaseAll
  · exact hpool.right

/-- A variable is declared again. -/
theorem redeclare (h : s.Shows side (f :: fs)) {name : String} {p : Nat × Nat}
    (hp : f.locals.reverse.lookup name = some p) : s.declare name = (.slot (side p), s) := by
  have hlookup : (f.seen side).declared.lookup name = some (side p) := by
    rw [seen, ← List.map_reverse, lookup_map, hp]
    rfl
  unfold Scope.declare
  rw [h.frames, List.map_cons]
  dsimp only
  rw [hlookup]

/-- A new variable is declared. -/
theorem declare (h : s.Shows side (f :: fs)) {name : String}
    (hnone : f.locals.reverse.lookup name = none) {p : Nat × Nat}
    (hp : side p = s.pool.allocate.1) :
    (s.declare name).1 = .slot (side p) ∧
      (s.declare name).2.Shows side (extend [(name, p)] (f :: fs)) ∧
      (s.declare name).2.globals = s.globals := by
  have hlookup : (f.seen side).declared.lookup name = none := by
    rw [seen, ← List.map_reverse, lookup_map, hnone]
    rfl
  have hdeclare : s.declare name = (.slot (side p), { s with
      frames := (extend [(name, p)] (f :: fs)).map (seen side), pool := s.pool.allocate.2 }) := by
    unfold Scope.declare
    rw [h.frames, List.map_cons]
    dsimp only
    rw [hlookup]
    dsimp only
    rw [← hp, map_seen_extend]
  rw [hdeclare]
  refine ⟨rfl, ⟨rfl, ?_⟩, rfl⟩
  show s.pool.allocate.2.Holds (side p :: (allPairs (f :: fs)).map side)
  rw [hp]
  exact h.holds.allocate

end Scope.Shows

/-- Two scopes have the same frames and globals. -/
structure Scope.Beside (fs : List TwinFrame) (s s' : Scope) : Prop where
  left : s.Shows Prod.fst fs
  right : s'.Shows Prod.snd fs
  globals : s.globals = s'.globals

namespace Scope.Beside

variable {f : TwinFrame} {fs : List TwinFrame} {s s' : Scope}

/-- Nothing is declared, whether slots are handed out again or not. -/
theorem start (globals : List String) (reuses reuses' : Bool) :
    Beside [] { Scope.start globals with reuses } { Scope.start globals with reuses := reuses' } :=
  ⟨⟨rfl, SlotPool.holds_empty⟩, ⟨rfl, SlotPool.holds_empty⟩, rfl⟩

theorem apart (h : Beside fs s s') : (allPairs fs).Apart :=
  ⟨h.left.holds.nodup, h.right.holds.nodup⟩

theorem counted (h : Beside fs s s') : Beside fs s.counted s'.counted :=
  ⟨h.left.of_eq rfl rfl, h.right.of_eq rfl rfl, h.globals⟩

theorem report (h : Beside fs s s') (problem : Diagnostic) :
    Beside fs (s.report problem) (s'.report problem) :=
  ⟨h.left.of_eq rfl rfl, h.right.of_eq rfl rfl, h.globals⟩

theorem lookup (h : Beside fs s s') (name : String) :
    Binding.Alike (allPairs fs) (s.lookup name) (s'.lookup name) := by
  have hfind := findSome?_alike fs name
  unfold Scope.lookup
  rw [h.left.frames, h.right.frames, h.globals]
  generalize (fs.map (seen Prod.fst)).findSome? _ = b at hfind ⊢
  generalize (fs.map (seen Prod.snd)).findSome? _ = b' at hfind ⊢
  cases hfind with
  | slot h => exact .slot h
  | param ordinal => exact .param ordinal
  | global => exact .global
  | unbound =>
    dsimp only
    split
    · exact .global
    · exact .unbound

end Scope.Beside

/-! ### Resolving -/

namespace Resolve

variable {α γ : Type} {fs : List TwinFrame}

/-- Two ways of resolving give results that are related, and keep the frames. -/
def Relates (fs : List TwinFrame) (x y : Resolve α) (Q : α → α → Prop) : Prop :=
  ∀ s s' : Scope, Scope.Beside fs s s' → Q (x s).1 (y s').1 ∧ Scope.Beside fs (x s).2 (y s').2

theorem Relates.pure {a b : α} {Q : α → α → Prop} (h : Q a b) :
    Relates fs (Pure.pure a) (Pure.pure b) Q := fun _ _ hs => ⟨h, hs⟩

theorem Relates.bind {x y : Resolve α} {f g : α → Resolve γ} {P : α → α → Prop} {Q : γ → γ → Prop}
    (h : Relates fs x y P) (hf : ∀ a b, P a b → Relates fs (f a) (g b) Q) :
    Relates fs (x >>= f) (y >>= g) Q := by
  intro s s' hs
  obtain ⟨hp, hs⟩ := h s s' hs
  exact hf _ _ hp _ _ hs

theorem Relates.imp {x y : Resolve α} {P Q : α → α → Prop} (h : Relates fs x y P)
    (hpq : ∀ a b, P a b → Q a b) : Relates fs x y Q :=
  fun s s' hs => ⟨hpq _ _ (h s s' hs).1, (h s s' hs).2⟩

/-- While something is resolved, variables have different slots. -/
theorem Relates.of_apart {x y : Resolve α} {Q : α → α → Prop}
    (h : (allPairs fs).Apart → Relates fs x y Q) : Relates fs x y Q :=
  fun s s' hs => h hs.apart s s' hs

/-- A name is used. -/
theorem use_relates (fs : List TwinFrame) (name : String) (problem : Diagnostic) :
    Relates fs (use name problem) (use name problem) (Binding.Alike (allPairs fs)) := by
  intro s s' hs
  have hlookup := hs.lookup name
  unfold use
  generalize s.lookup name = b at hlookup ⊢
  generalize s'.lookup name = b' at hlookup ⊢
  cases hlookup with
  | slot h => exact ⟨.slot h, hs.counted⟩
  | param ordinal => exact ⟨.param ordinal, hs.counted⟩
  | global => exact ⟨.global, hs.counted⟩
  | unbound => exact ⟨.unbound, hs.report problem⟩

end Resolve

open Resolve

mutual

theorem Expr.resolve_relates (fs : List TwinFrame) :
    (e : Expr) → Relates fs e.resolve e.resolve (Expr.Alike (allPairs fs))
  | .list _ items =>
    (Expr.resolveAll_relates fs items).bind fun es es' h => .pure <| by
      rw [Expr.Alike, Expr.code, Expr.code, h.length_eq]
      exact (Expr.codeBackwards_aligned h).append (.single (.same rfl))
  | .map _ entries =>
    (Expr.resolvePairs_relates fs entries).bind fun es es' h => .pure <| by
      rw [Expr.Alike, Expr.code, Expr.code, h.length_eq]
      exact (Expr.codePairs_aligned h).append (.single (.same rfl))
  | .variable _ name _ => (use_relates fs name _).bind fun _ _ h => .pure (h.load name)
  | .field _ receiver _ =>
    (receiver.resolve_relates fs).bind fun _ _ h =>
      .pure (h.append (.cons (.same rfl) (.cons (.same rfl) .nil)))
  | .binary _ op left right _ =>
    (left.resolve_relates fs).bind fun _ _ h => (right.resolve_relates fs).bind fun _ _ h' =>
      .pure ((h.append h').append (.single (.same (Instruction.slot?_plain _))))
  | .unary _ op operand =>
    (operand.resolve_relates fs).bind fun _ _ h =>
      .pure (h.append (.single (.same (Instruction.slot?_plain _))))
  | .call _ _ args =>
    (Expr.resolveAll_relates fs args).bind fun _ _ h =>
      .pure ((Expr.codeAll_aligned h).append (.single (.same rfl)))
  | .method _ receiver _ args =>
    (Expr.resolveAll_relates fs args).bind fun _ _ h =>
      (receiver.resolve_relates fs).bind fun _ _ h' =>
        .pure (((Expr.codeAll_aligned h).append h').append (.single (.same rfl)))
  | .create _ _ args =>
    (Expr.resolveAll_relates fs args).bind fun _ _ h =>
      .pure ((Expr.codeAll_aligned h).append (.single (.same rfl)))
  | .number _ _ | .text _ _ | .boolean _ _ | .null _ | .this _ => .pure (.single (.same rfl))
  | .super _ => .pure (.cons (.same rfl) (.cons (.same rfl) (.cons (.same rfl) .nil)))

theorem Expr.resolveAll_relates (fs : List TwinFrame) :
    (es : List Expr) → Relates fs (Expr.resolveAll es) (Expr.resolveAll es)
      (List.Forall₂ (Expr.Alike (allPairs fs)))
  | [] => .pure .nil
  | e :: es =>
    (e.resolve_relates fs).bind fun _ _ h =>
      (Expr.resolveAll_relates fs es).bind fun _ _ h' => .pure (.cons h h')

theorem Expr.resolvePairs_relates (fs : List TwinFrame) :
    (es : List (Expr × Expr)) → Relates fs (Expr.resolvePairs es) (Expr.resolvePairs es)
      (List.Forall₂ fun p q =>
        Expr.Alike (allPairs fs) p.1 q.1 ∧ Expr.Alike (allPairs fs) p.2 q.2)
  | [] => .pure .nil
  | (key, e) :: es =>
    (key.resolve_relates fs).bind fun _ _ h => (e.resolve_relates fs).bind fun _ _ h' =>
      (Expr.resolvePairs_relates fs es).bind fun _ _ h'' => .pure (.cons ⟨h, h'⟩ h'')

end

theorem Expr.resolveOption_relates (fs : List TwinFrame) (e : Option Expr) :
    Relates fs (Expr.resolveOption e) (Expr.resolveOption e) fun e₁ e₂ =>
      Code.Aligned (allPairs fs) (Expr.codeOrNull e₁) (Expr.codeOrNull e₂) := by
  cases e with
  | none => exact .pure (.single (.same rfl))
  | some e => exact (e.resolve_relates fs).bind fun _ _ h => .pure h

end StackScript
