import StackScript.Proofs.Aligned
import StackScript.Proofs.Marked

/-!
# StackScript.Proofs.OwnNames — functions that name only local variables of their own

`Block.namesOwn` says of a resolved tree that the code of a function, and that of the program
outside of functions, addresses only local variables that it has declared before.  Code that is
aligned for all variables is aligned then for those alone (`Code.Aligned.restrict`).
-/

namespace StackScript

variable {own : List Nat}

/-! ### Code -/

/-- Every local variable that the code addresses is one of these. -/
def Code.namesOwn (own : List Nat) (c : Code) : Bool := c.all fun i => i.slot?.all own.contains

theorem Code.namesOwn_iff {c : Code} :
    c.namesOwn own = true ↔ ∀ i ∈ c, ∀ slot, i.slot? = some slot → slot ∈ own := by
  simp [namesOwn, Option.all_eq_true]

-- a global is addressed by its name
example : Code.namesOwn [0] [⟨.load, some (.text "x")⟩, ⟨.store, some (.integer 0)⟩] = true ∧
    Code.namesOwn [0] [⟨.load, some (.integer 1)⟩] = false := by decide +kernel

theorem Code.namesOwn_append {c d : Code} :
    namesOwn own (c ++ d) = true ↔ c.namesOwn own = true ∧ d.namesOwn own = true := by
  rw [namesOwn, List.all_append, Bool.and_eq_true]
  rfl

/-- Fewer pairs of slots are enough for code that addresses only variables in them. -/
theorem Code.Aligned.restrict {ps qs : Pairs} {c c' : Code} (h : Code.Aligned qs c c')
    (hq : qs.Apart) (hps : ps ⊆ qs) (hown : own ⊆ ps.map Prod.fst) (hc : c.namesOwn own = true) :
    Code.Aligned ps c c' := by
  induction h with
  | nil => exact .nil
  | cons hi _ ih =>
    rw [Code.namesOwn_iff, List.forall_mem_cons] at hc
    refine .cons ?_ (ih (Code.namesOwn_iff.mpr hc.2))
    cases hi with
    | same hi => exact .same hi
    | @moved o a b hab ho =>
      have hslot : (Instruction.withNumber o a).slot? = some a := by
        cases o <;> first | rfl | cases ho
      obtain ⟨p, hp, rfl⟩ := List.mem_map.mp (hown (hc.1 a hslot))
      -- the pair in `ps` with this slot is the pair in `qs` with this slot
      rcases hq.eq_or (hps hp) hab with heq | ⟨hne, -⟩
      · exact .moved (heq ▸ hp) ho
      · exact absurd rfl hne

/-! ### Trees -/

/-- The slot of the local variable that a statement declares. -/
def Stmt.declared : Stmt → List Nat
  | .declare _ _ _ (some (.slot id)) => [id]
  | _ => []

mutual

/-- The local variables that a statement names are among these, and its functions name only local
variables of their own. -/
def Stmt.namesOwn (own : List Nat) : Stmt → Bool
  | .value e => e.code.namesOwn own
  | .declare _ _ init _ => (Expr.codeOrNull init).namesOwn own
  | .assign _ name e binding =>
    Code.namesOwn own (e.code ++ [⟨.store, some (targetOperand name binding)⟩])
  | .setField _ receiver _ e => receiver.code.namesOwn own && e.code.namesOwn own
  | .print _ e => e.code.namesOwn own
  | .branch _ e body rest => e.code.namesOwn own && (body.namesOwn own && rest.namesOwn own)
  | .loop _ e body => e.code.namesOwn own && body.namesOwn own
  | .function _ _ _ body => body.namesOwn []
  | .classDecl _ _ _ members => members.membersNameOwn own
  | .returns _ e => (Expr.codeOrNull e).namesOwn own
  | .continues _ | .breaks _ | .free _ _ _ => true

/-- What follows the body of an `if` names only these local variables. -/
def Rest.namesOwn (own : List Nat) : Rest → Bool
  | .nothing => true
  | .elseIf _ e body rest => e.code.namesOwn own && (body.namesOwn own && rest.namesOwn own)
  | .otherwise body => body.namesOwn own

/-- A block names only these local variables and those that it declares. -/
def Block.namesOwn (own : List Nat) : Block → Bool
  | .mk _ ss => Stmt.allNameOwn own ss

/-- The members of a class name only these local variables. -/
def Block.membersNameOwn (own : List Nat) : Block → Bool
  | .mk _ ss => Stmt.eachNamesOwn own ss

/-- Each statement names only these local variables and those declared before it. -/
def Stmt.allNameOwn (own : List Nat) : List Stmt → Bool
  | [] => true
  | s :: ss => s.namesOwn own && Stmt.allNameOwn (s.declared ++ own) ss

/-- Each statement names only these local variables. -/
def Stmt.eachNamesOwn (own : List Nat) : List Stmt → Bool
  | [] => true
  | s :: ss => s.namesOwn own && Stmt.eachNamesOwn own ss

end

theorem Stmt.allNameOwn_of_append {ss ss' : List Stmt} (h : allNameOwn own (ss ++ ss') = true) :
    allNameOwn own ss = true := by
  induction ss generalizing own with
  | nil => rfl
  | cons s ss ih =>
    rw [List.cons_append, allNameOwn, Bool.and_eq_true] at h
    rw [allNameOwn, Bool.and_eq_true]
    exact ⟨h.1, ih h.2⟩

theorem Stmt.mark_declared (marking : Marking) (s : Stmt) :
    (s.mark marking).declared = s.declared := by
  cases s <;> rfl

mutual

/-- Marks name nothing. -/
theorem Stmt.mark_namesOwn (marking : Marking) (own : List Nat) :
    (s : Stmt) → (s.mark marking).namesOwn own = s.namesOwn own
  | .assign _ _ e _ => by
    rw [Stmt.mark, Stmt.namesOwn, Stmt.namesOwn, e.withTarget_code]
  | .branch _ _ body rest => by
    rw [Stmt.mark, Stmt.namesOwn, Stmt.namesOwn, body.mark_namesOwn marking own,
      rest.mark_namesOwn marking own]
  | .loop _ _ body => by
    rw [Stmt.mark, Stmt.namesOwn, Stmt.namesOwn, body.mark_namesOwn marking own]
  | .function _ _ _ body => by
    rw [Stmt.mark, Stmt.namesOwn, Stmt.namesOwn, body.mark_namesOwn marking []]
  | .classDecl _ _ _ members => by
    rw [Stmt.mark, Stmt.namesOwn, Stmt.namesOwn, members.mark_membersNameOwn marking own]
  | .value _ | .declare _ _ _ _ | .setField _ _ _ _ | .print _ _ | .returns _ _ | .continues _
  | .breaks _ | .free _ _ _ => rfl

theorem Rest.mark_namesOwn (marking : Marking) (own : List Nat) :
    (r : Rest) → (r.mark marking).namesOwn own = r.namesOwn own
  | .nothing => rfl
  | .elseIf _ _ body rest => by
    rw [Rest.mark, Rest.namesOwn, Rest.namesOwn, body.mark_namesOwn marking own,
      rest.mark_namesOwn marking own]
  | .otherwise body => by
    rw [Rest.mark, Rest.namesOwn, Rest.namesOwn, body.mark_namesOwn marking own]

theorem Block.mark_namesOwn (marking : Marking) (own : List Nat) :
    (b : Block) → (b.mark marking).namesOwn own = b.namesOwn own
  | .mk _ ss => by
    rw [Block.mark, Block.namesOwn, Block.namesOwn, Stmt.mark_allNameOwn marking own ss]

theorem Block.mark_membersNameOwn (marking : Marking) (own : List Nat) :
    (b : Block) → (b.mark marking).membersNameOwn own = b.membersNameOwn own
  | .mk _ ss => by
    rw [Block.mark, Block.membersNameOwn, Block.membersNameOwn,
      Stmt.mark_eachNamesOwn marking own ss]

theorem Stmt.mark_allNameOwn (marking : Marking) (own : List Nat) :
    (ss : List Stmt) → Stmt.allNameOwn own (Stmt.markAll marking ss) = Stmt.allNameOwn own ss
  | [] => rfl
  | s :: ss => by
    rw [Stmt.markAll, Stmt.allNameOwn, Stmt.allNameOwn, s.mark_namesOwn marking own,
      s.mark_declared marking,
      Stmt.mark_allNameOwn marking _ ss]

theorem Stmt.mark_eachNamesOwn (marking : Marking) (own : List Nat) :
    (ss : List Stmt) → Stmt.eachNamesOwn own (Stmt.markAll marking ss) = Stmt.eachNamesOwn own ss
  | [] => rfl
  | s :: ss => by
    rw [Stmt.markAll, Stmt.eachNamesOwn, Stmt.eachNamesOwn, s.mark_namesOwn marking own,
      Stmt.mark_eachNamesOwn marking own ss]

end

end StackScript
