import StackScript.Proofs.Isolation

/-!
# StackScript.Proofs.OwnBodies — bodies that refer to their own local variables

A body of a balanced tree ends each local variable that it declares.  If it refers to no local
variable declared outside of it, its code addresses only local variables that it ends: it is
contained (`Block.code_contained`).  If this is so of all bodies in a tree, all code that the tree
records for functions is contained.
-/

namespace StackScript

open Instruction Code

/-- If the instruction addresses a local variable, it is one of these. -/
def Instruction.Within (slots : List Nat) (i : Instruction) : Prop :=
  ∀ slot, i.slot? = some slot → slot ∈ slots

theorem Instruction.within_ofVariables (slots : List Nat) : OfVariables (Within slots) where
  apart := by
    rintro ⟨o, operand⟩ ⟨haddresses, hparam⟩ slot hslot
    cases o <;> first | exact absurd rfl hparam | cases hslot | cases haddresses
  update := by
    intro op o operand ho hstore slot hslot
    refine hstore slot ?_
    cases op <;> cases ho <;> exact hslot

variable {k : Nat} {outer held : Finset Nat} {own slots : List Nat}

theorem Stmt.mem_holding {s : Stmt} {slot : Nat} (hslot : slot ∈ held) (hs : slot ∉ s.freedSlots) :
    slot ∈ s.holding held := by
  unfold holding
  split
  · exact Finset.mem_insert_of_mem hslot
  · exact Finset.mem_erase.mpr ⟨fun h => hs (h ▸ List.mem_cons_self), hslot⟩
  · exact hslot

/-- What is held before statements and not ended by them is held behind them. -/
theorem Stmt.mem_foldl_holding {ss : List Stmt} {slot : Nat} (hslot : slot ∈ held)
    (hfreed : slot ∉ freedSlotsAll ss) : slot ∈ ss.foldl holding held := by
  induction ss generalizing held with
  | nil => exact hslot
  | cons s ss ih =>
    exact ih (mem_holding hslot fun h => hfreed (List.mem_append_left _ h))
      fun h => hfreed (List.mem_append_right _ h)

/-- Statements that hold nothing in the end have ended what they have declared. -/
theorem Stmt.declared_subset {s : Stmt} {ss : List Stmt}
    (h : (s :: ss).foldl holding held = ∅) : s.declared ⊆ freedSlotsAll ss := by
  intro slot hslot
  by_contra hfreed
  have hheld : slot ∈ s.holding held := by
    unfold declared at hslot
    split at hslot
    · rw [holding, List.mem_singleton.mp hslot]
      exact Finset.mem_insert_self _ _
    · cases hslot
  have hmem : slot ∈ ss.foldl holding (s.holding held) := mem_foldl_holding hheld hfreed
  rw [show ss.foldl holding (s.holding held) = ∅ from h] at hmem
  cases hmem

theorem within_of_namesOwn {c : Code} (h : c.namesOwn own = true) (hown : own ⊆ slots) :
    ∀ i ∈ c, i.Within slots :=
  fun i hi slot hslot => hown (Code.namesOwn_iff.mp h i hi slot hslot)

theorem within_of_declared {line : Nat} {name : String} {init : Option Expr}
    {binding : Option Binding} (hbelow : ∀ b ∈ binding, b.SetBelow k)
    (h : (Stmt.declare line name init binding).declared ⊆ slots) :
    Within slots ⟨.store, some (targetOperand name binding)⟩ := by
  intro slot hslot
  rcases binding with _ | binding
  · cases hslot
  cases binding with
  | slot id =>
    obtain rfl := Option.some.inj hslot
    exact h List.mem_cons_self
  | param ordinal =>
    obtain ⟨n, rfl⟩ := Nat.exists_eq_succ_of_ne_zero (Nat.pos_iff_ne_zero.mp (hbelow _ rfl))
    cases hslot
  | global => cases hslot

/-! ### Code that is contained -/

mutual

/-- Whatever addresses a local variable in the code of a statement addresses one of those that the
statement may name, or one that it declares or ends. -/
theorem Stmt.pieces_within : (s : Stmt) → ∀ {own : List Nat} {outer held : Finset Nat},
    s.Balanced k outer held → s.namesOwn own = true → own ⊆ slots → s.declared ⊆ slots →
      s.freedSlots ⊆ slots → s.Pieces (Within slots)
  | .value _, _, _, _, _, h, hown, _, _ => within_of_namesOwn h hown
  | .declare _ _ _ _, _, _, _, hb, h, hown, hdeclared, _ =>
    ⟨within_of_namesOwn h hown, within_of_declared (fun b hmem => (hb.2 b hmem).1) hdeclared⟩
  | .assign _ _ _ _, _, _, _, _, h, hown, _, _ =>
    have h := Code.namesOwn_append.mp h
    ⟨within_of_namesOwn h.1 hown,
      List.forall_mem_singleton.mp (within_of_namesOwn h.2 hown)⟩
  | .setField _ _ _ _, _, _, _, _, h, hown, _, _ =>
    have h := (Bool.and_eq_true _ _).mp h
    ⟨within_of_namesOwn h.1 hown, within_of_namesOwn h.2 hown⟩
  | .print _ _, _, _, _, _, h, hown, _, _ => within_of_namesOwn h hown
  | .branch _ _ body rest, _, _, _, hb, h, hown, _, hfreed =>
    have ⟨hcondition, h⟩ := (Bool.and_eq_true _ _).mp h
    have ⟨hbody, hrest⟩ := (Bool.and_eq_true _ _).mp h
    have ⟨hfbody, hfrest⟩ := List.append_subset.mp hfreed
    ⟨within_of_namesOwn hcondition hown, body.pieces_within hb.2.1 hbody hown hfbody,
      rest.pieces_within hb.2.2 hrest hown hfrest⟩
  | .loop _ _ body, _, _, _, hb, h, hown, _, hfreed =>
    have ⟨hcondition, hbody⟩ := (Bool.and_eq_true _ _).mp h
    ⟨within_of_namesOwn hcondition hown, body.pieces_within hb.2 hbody hown hfreed⟩
  | .function _ _ _ body, _, _, _, hb, h, _, _, hfreed =>
    body.pieces_within hb h (List.nil_subset _) hfreed
  | .classDecl _ _ _ members, _, _, _, hb, h, hown, _, hfreed =>
    members.memberPieces_within hb h hown hfreed
  | .returns _ _, _, _, _, _, h, hown, _, _ => within_of_namesOwn h hown
  | .continues _, _, _, _, _, _, _, _, _ => trivial
  | .breaks _, _, _, _, _, _, _, _, _ => trivial
  | .free _ _ _, _, _, _, _, _, _, _, hfreed => fun slot hslot => by
    obtain rfl := Option.some.inj hslot
    exact hfreed List.mem_cons_self

theorem Rest.pieces_within : (r : Rest) → ∀ {own : List Nat} {outer : Finset Nat},
    r.Balanced k outer → r.namesOwn own = true → own ⊆ slots → r.freedSlots ⊆ slots →
      r.Pieces (Within slots)
  | .nothing, _, _, _, _, _, _ => trivial
  | .elseIf _ _ body rest, _, _, hb, h, hown, hfreed =>
    have ⟨hcondition, h⟩ := (Bool.and_eq_true _ _).mp h
    have ⟨hbody, hrest⟩ := (Bool.and_eq_true _ _).mp h
    have ⟨hfbody, hfrest⟩ := List.append_subset.mp hfreed
    ⟨within_of_namesOwn hcondition hown, body.pieces_within hb.2.1 hbody hown hfbody,
      rest.pieces_within hb.2.2 hrest hown hfrest⟩
  | .otherwise body, _, _, hb, h, hown, hfreed => body.pieces_within hb h hown hfreed

theorem Block.pieces_within : (b : Block) → ∀ {own : List Nat} {outer : Finset Nat},
    b.Balanced k outer → b.namesOwn own = true → own ⊆ slots → b.freedSlots ⊆ slots →
      b.Pieces (Within slots)
  | .mk _ ss, _, _, hb, h, hown, hfreed => Stmt.allPieces_within ss hb.1 hb.2 h hown hfreed

theorem Stmt.allPieces_within : (ss : List Stmt) → ∀ {own : List Nat} {outer held : Finset Nat},
    Stmt.AllBalanced k outer held ss → ss.foldl Stmt.holding held = ∅ →
      Stmt.allNameOwn own ss = true → own ⊆ slots → Stmt.freedSlotsAll ss ⊆ slots →
        Stmt.AllPieces (Within slots) ss
  | [], _, _, _, _, _, _, _, _ => trivial
  | s :: ss, _, _, _, hb, hempty, h, hown, hfreed =>
    have ⟨hs, hss⟩ := (Bool.and_eq_true _ _).mp h
    have ⟨hfs, hfss⟩ := List.append_subset.mp hfreed
    have hdeclared := List.Subset.trans (Stmt.declared_subset hempty) hfss
    ⟨s.pieces_within hb.1 hs hown hdeclared hfs, Stmt.allPieces_within ss hb.2 hempty hss
      (List.append_subset.mpr ⟨hdeclared, hown⟩) hfss⟩

theorem Block.memberPieces_within : (b : Block) → ∀ {own : List Nat} {outer : Finset Nat},
    b.MembersBalanced k outer → b.membersNameOwn own = true → own ⊆ slots →
      b.memberSlots ⊆ slots → b.MemberPieces (Within slots)
  | .mk _ ss, _, _, hb, h, hown, hfreed => Stmt.eachPieces_within ss hb h hown hfreed

theorem Stmt.eachPieces_within : (ss : List Stmt) → ∀ {own : List Nat} {outer : Finset Nat},
    Stmt.EachBalanced k outer ss → Stmt.eachNamesOwn own ss = true → own ⊆ slots →
      Stmt.memberSlotsAll ss ⊆ slots → Stmt.EachPieces (Within slots) ss
  | [], _, _, _, _, _, _ => trivial
  | .declare _ _ _ _ :: ss, _, _, hb, h, hown, hfreed =>
    have ⟨hs, hss⟩ := (Bool.and_eq_true _ _).mp h
    ⟨within_of_namesOwn hs hown, Stmt.eachPieces_within ss hb.2 hss hown hfreed⟩
  | .assign _ _ _ _ :: ss, _, _, hb, h, hown, hfreed =>
    have ⟨hs, hss⟩ := (Bool.and_eq_true _ _).mp h
    ⟨within_of_namesOwn (Code.namesOwn_append.mp hs).1 hown,
      Stmt.eachPieces_within ss hb.2 hss hown hfreed⟩
  | .setField _ _ _ _ :: ss, _, _, hb, h, hown, hfreed =>
    have ⟨hs, hss⟩ := (Bool.and_eq_true _ _).mp h
    ⟨within_of_namesOwn ((Bool.and_eq_true _ _).mp hs).2 hown,
      Stmt.eachPieces_within ss hb.2 hss hown hfreed⟩
  | .function _ _ _ body :: ss, _, _, hb, h, hown, hfreed =>
    have ⟨hs, hss⟩ := (Bool.and_eq_true _ _).mp h
    have ⟨hfbody, hfss⟩ := List.append_subset.mp hfreed
    ⟨body.pieces_within hb.1 hs (List.nil_subset _) hfbody,
      Stmt.eachPieces_within ss hb.2 hss hown hfss⟩
  | .value _ :: ss, _, _, hb, h, hown, hfreed | .print _ _ :: ss, _, _, hb, h, hown, hfreed
  | .branch _ _ _ _ :: ss, _, _, hb, h, hown, hfreed
  | .loop _ _ _ :: ss, _, _, hb, h, hown, hfreed
  | .classDecl _ _ _ _ :: ss, _, _, hb, h, hown, hfreed
  | .returns _ _ :: ss, _, _, hb, h, hown, hfreed | .continues _ :: ss, _, _, hb, h, hown, hfreed
  | .breaks _ :: ss, _, _, hb, h, hown, hfreed | .free _ _ _ :: ss, _, _, hb, h, hown, hfreed =>
    have ⟨_, hss⟩ := (Bool.and_eq_true _ _).mp h
    Stmt.eachPieces_within ss hb.2 hss hown hfreed

end

/-- A body that refers to its own local variables has contained code. -/
theorem Block.code_contained (keeps : Bool) {b : Block} (hb : b.Balanced k outer)
    (h : b.namesOwn [] = true) :
    ((b.mark .inPlace).code (discarding keeps) .slots).Contained := by
  have hpieces : b.Pieces (Within b.freedSlots) :=
    b.pieces_within hb h (List.nil_subset _) (List.Subset.refl _)
  refine Code.namesOwn_iff.mpr fun i hi slot hslot => ?_
  rw [b.freedSlots_code]
  exact b.code_all keeps (within_ofVariables _) .slots hpieces i hi slot hslot

/-! ### The bodies of a balanced tree -/

/-- The block is a marked one that is balanced somewhere. -/
def Block.IsBody (k : Nat) (f : Block) : Prop :=
  ∃ (b : Block) (outer : Finset Nat), f = b.mark .inPlace ∧ b.Balanced k outer

mutual

theorem Stmt.bodies_balanced : (s : Stmt) → ∀ {outer held : Finset Nat}, s.Balanced k outer held →
    ∀ f ∈ (s.mark .inPlace).bodies, f.IsBody k
  | .branch _ _ body rest, _, _, hb =>
    List.forall_mem_append.mpr ⟨body.bodies_balanced hb.2.1, rest.bodies_balanced hb.2.2⟩
  | .loop _ _ body, _, _, hb => body.bodies_balanced hb.2
  | .function _ _ _ body, _, _, hb =>
    List.forall_mem_cons.mpr ⟨⟨body, _, rfl, hb⟩, body.bodies_balanced hb⟩
  | .classDecl _ _ _ members, _, _, hb => members.memberBodies_balanced hb
  | .value _, _, _, _ | .declare _ _ _ _, _, _, _ | .assign _ _ _ _, _, _, _
  | .setField _ _ _ _, _, _, _ | .print _ _, _, _, _ | .returns _ _, _, _, _
  | .continues _, _, _, _ | .breaks _, _, _, _ | .free _ _ _, _, _, _ => List.forall_mem_nil _

theorem Rest.bodies_balanced : (r : Rest) → ∀ {outer : Finset Nat}, r.Balanced k outer →
    ∀ f ∈ (r.mark .inPlace).bodies, f.IsBody k
  | .nothing, _, _ => List.forall_mem_nil _
  | .elseIf _ _ body rest, _, hb =>
    List.forall_mem_append.mpr ⟨body.bodies_balanced hb.2.1, rest.bodies_balanced hb.2.2⟩
  | .otherwise body, _, hb => body.bodies_balanced hb

/-- The bodies in a balanced tree are balanced. -/
theorem Block.bodies_balanced : (b : Block) → ∀ {outer : Finset Nat}, b.Balanced k outer →
    ∀ f ∈ (b.mark .inPlace).bodies, f.IsBody k
  | .mk _ ss, _, hb => Stmt.bodiesAll_balanced ss hb.1

theorem Stmt.bodiesAll_balanced : (ss : List Stmt) → ∀ {outer held : Finset Nat},
    Stmt.AllBalanced k outer held ss →
      ∀ f ∈ Stmt.bodiesAll (Stmt.markAll .inPlace ss), f.IsBody k
  | [], _, _, _ => List.forall_mem_nil _
  | s :: ss, _, _, hb =>
    List.forall_mem_append.mpr ⟨s.bodies_balanced hb.1, Stmt.bodiesAll_balanced ss hb.2⟩

theorem Block.memberBodies_balanced : (b : Block) → ∀ {outer : Finset Nat},
    b.MembersBalanced k outer → ∀ f ∈ (b.mark .inPlace).memberBodies, f.IsBody k
  | .mk _ ss, _, hb => Stmt.memberBodiesAll_balanced ss hb

theorem Stmt.memberBodiesAll_balanced : (ss : List Stmt) → ∀ {outer : Finset Nat},
    Stmt.EachBalanced k outer ss →
      ∀ f ∈ Stmt.memberBodiesAll (Stmt.markAll .inPlace ss), f.IsBody k
  | [], _, _ => List.forall_mem_nil _
  | .function _ _ _ body :: ss, _, hb =>
    List.forall_mem_cons.mpr ⟨⟨body, _, rfl, hb.1⟩, List.forall_mem_append.mpr
      ⟨body.bodies_balanced hb.1, Stmt.memberBodiesAll_balanced ss hb.2⟩⟩
  | .declare _ _ _ _ :: ss, _, hb | .assign _ _ _ _ :: ss, _, hb
  | .setField _ _ _ _ :: ss, _, hb | .value _ :: ss, _, hb | .print _ _ :: ss, _, hb
  | .branch _ _ _ _ :: ss, _, hb | .loop _ _ _ :: ss, _, hb | .classDecl _ _ _ _ :: ss, _, hb
  | .returns _ _ :: ss, _, hb | .continues _ :: ss, _, hb | .breaks _ :: ss, _, hb
  | .free _ _ _ :: ss, _, hb => Stmt.memberBodiesAll_balanced ss hb.2

end

/-- The code of a program whose functions refer to their own local variables. -/
theorem Compiler.code_shaped_contained {keeps : Bool} {globals : List String} {source : String}
    {code : Code}
    (hcode : (chosen keeps).generate ((chosen keeps).compile globals source) = .ok code)
    (hown : ∀ b ∈ ((chosen keeps).compile globals source).root.bodies, b.namesOwn [] = true) :
    code.Shaped Code.Contained [] := by
  obtain ⟨root, hroot, hbalanced⟩ := compile_root_balanced keeps globals source
  rw [hroot] at hown
  rw [eq_of_generate hcode, chosen_discard, hroot]
  refine Block.code_shaped (discarding_acts keeps) _ fun f hf => ?_
  obtain ⟨b, outer, rfl, hb⟩ := root.bodies_balanced hbalanced f hf
  exact b.code_contained keeps hb ((b.mark_namesOwn .inPlace []).symm.trans (hown _ hf))

end StackScript
