import StackScript.Proofs.Views
import StackScript.Tree

/-!
# StackScript.Proofs.Execution — the control of statements

`Stmt.execute` runs statements by their structure: branches, loops, jumps and returns.  What they
are made of is left to a `Basis`, so that a tree can be run by instructions on the stack as well as
by evaluation without one, with the same control.  Two bases in lockstep give two executions in
lockstep.

The bodies of functions are blocks here; `executing` runs them by the same execution, with one step
less for each call.
-/

namespace StackScript

open EStateM (Result)

/-! ### Bodies that are blocks -/

mutual

/-- The local variables that a statement ends, in the order of its code. -/
def Stmt.freedSlots : Stmt → List Nat
  | .branch _ _ body rest => body.freedSlots ++ rest.freedSlots
  | .loop _ _ body => body.freedSlots
  | .function _ _ _ body => body.freedSlots
  | .classDecl _ _ _ members => members.memberSlots
  | .free _ _ slot => [slot]
  | .value _ | .declare _ _ _ _ | .assign _ _ _ _ | .setField _ _ _ _ | .print _ _ | .returns _ _
  | .continues _ | .breaks _ => []

/-- The local variables that end in what follows the body of an `if`. -/
def Rest.freedSlots : Rest → List Nat
  | .nothing => []
  | .elseIf _ _ body rest => body.freedSlots ++ rest.freedSlots
  | .otherwise body => body.freedSlots

/-- The local variables that a block ends. -/
def Block.freedSlots : Block → List Nat
  | .mk _ statements => Stmt.freedSlotsAll statements

/-- The local variables that statements end. -/
def Stmt.freedSlotsAll : List Stmt → List Nat
  | [] => []
  | s :: ss => s.freedSlots ++ Stmt.freedSlotsAll ss

/-- The local variables that end in the methods of a class. -/
def Block.memberSlots : Block → List Nat
  | .mk _ statements => Stmt.memberSlotsAll statements

/-- The local variables that end in methods. -/
def Stmt.memberSlotsAll : List Stmt → List Nat
  | [] => []
  | .function _ _ _ body :: ss => body.freedSlots ++ Stmt.memberSlotsAll ss
  | _ :: ss => Stmt.memberSlotsAll ss

end

instance : Body Block where
  slots b := ascending b.freedSlots

/-! ### Control -/

/-- What the parts of statements do that are no control. -/
structure Basis (β : Type) where
  /-- a statement that leads to the next one -/
  effect : Stmt → Effect β Unit
  /-- a condition -/
  test : Expr → Effect β Bool
  /-- the value of a `return` -/
  result : Option Expr → Effect β Value

variable {β γ : Type}

/-- At most `n` rounds of a loop. -/
def Machine.repeating (test : Effect β Bool) (body : Effect β Flow) : Nat → Effect β Flow
  | 0 => throw .exhausted
  | n + 1 => do
    if ← test then
      match ← body with
      | .done | .next => repeating test body n
      | .leave => return .done
      | .gaveBack v => return .gaveBack v
    else return .done

mutual

/-- Runs a statement, with at most `n` rounds of each loop. -/
def Stmt.execute (w : Basis β) (n : Nat) : Stmt → Effect β Flow
  | .branch _ condition body rest => do
    if ← w.test condition then body.execute w n else rest.execute w n
  | .loop _ condition body => Machine.repeating (w.test condition) (body.execute w n) n
  | .returns _ value => do return .gaveBack (← w.result value)
  | .continues _ => return .next
  | .breaks _ => return .leave
  | .value e => do w.effect (.value e); return .done
  | .declare line name init binding => do w.effect (.declare line name init binding); return .done
  | .assign line name value binding => do w.effect (.assign line name value binding); return .done
  | .setField line receiver name value => do
    w.effect (.setField line receiver name value)
    return .done
  | .print line value => do w.effect (.print line value); return .done
  | .function line name params body => do
    w.effect (.function line name params body)
    return .done
  | .classDecl line name parent members => do
    w.effect (.classDecl line name parent members)
    return .done
  | .free line name slot => do w.effect (.free line name slot); return .done

/-- Runs what follows the body of an `if`. -/
def Rest.execute (w : Basis β) (n : Nat) : Rest → Effect β Flow
  | .nothing => return .done
  | .elseIf _ condition body rest => do
    if ← w.test condition then body.execute w n else rest.execute w n
  | .otherwise body => body.execute w n

/-- Runs a block. -/
def Block.execute (w : Basis β) (n : Nat) : Block → Effect β Flow
  | .mk _ statements => Stmt.executeAll w n statements

/-- Runs statements from first to last, as long as each of them is done. -/
def Stmt.executeAll (w : Basis β) (n : Nat) : List Stmt → Effect β Flow
  | [] => return .done
  | s :: ss => do
    match ← s.execute w n with
    | .done => Stmt.executeAll w n ss
    | flow => return flow

end

/-- Runs blocks with fewer than `n` calls within each other and rounds of a loop. -/
def executing (basis : Nat → (Block → Effect Block Flow) → Basis Block) :
    Nat → Block → Effect Block Flow
  | 0, _ => throw .exhausted
  | n + 1, b => b.execute (basis n (executing basis n)) n

/-! ### Lockstep -/

/-- Two bases whose parts are in lockstep. -/
structure Basis.InStep (exempt : Stop → Prop) (P E : Machine β → Machine γ → Prop) (w : Basis β)
    (w' : Basis γ) : Prop where
  effect : ∀ s, Lockstep exempt P (Both P) E (w.effect s) (w'.effect s)
  test : ∀ e, Lockstep exempt P (Both P) E (w.test e) (w'.test e)
  result : ∀ e, Lockstep exempt P (Both P) E (w.result e) (w'.result e)
  ends : ∀ s t, P s t → E s t

/-- A limit that is not higher; a lower one only if it may be used up. -/
def NoHigher (exempt : Stop → Prop) (n n' : Nat) : Prop := n = n' ∨ exempt .exhausted ∧ n ≤ n'

section
variable {exempt : Stop → Prop} {P E : Machine β → Machine γ → Prop}

theorem Lockstep.both_bind {α α' δ' : Type} {P' : Machine β → Machine γ → Prop} {x : Effect β α}
    {y : Effect γ α} {R : α' → Machine β → δ' → Machine γ → Prop} {f : α → Effect β α'}
    {g : α → Effect γ δ'} (h : Lockstep exempt P (Both P') E x y)
    (hf : ∀ a, Lockstep exempt P' R E (f a) (g a)) :
    Lockstep exempt P R E (x >>= f) (y >>= g) := by
  refine h.bind fun a b => ?_
  rintro s t ⟨rfl, hp⟩
  exact hf a s t hp

theorem Lockstep.both_pure {α : Type} (a : α) :
    Lockstep exempt P (Both P) E (Pure.pure a) (Pure.pure a) := .pure fun _ _ hp => ⟨rfl, hp⟩

theorem Machine.repeating_lockstep {test : Effect β Bool} {test' : Effect γ Bool}
    {body : Effect β Flow} {body' : Effect γ Flow} (he : ∀ s t, P s t → E s t)
    (ht : Lockstep exempt P (Both P) E test test') (hb : Lockstep exempt P (Both P) E body body')
    {n n' : Nat} (hn : NoHigher exempt n n') :
    Lockstep exempt P (Both P) E (repeating test body n) (repeating test' body' n') := by
  induction n generalizing n' with
  | zero =>
    rcases hn with rfl | ⟨hx, -⟩
    · exact .throw he
    · exact .of_exempt hx
  | succ n ih =>
    obtain ⟨n', rfl⟩ : ∃ k, n' = k + 1 := ⟨n' - 1, by
      rcases hn with h | ⟨-, h⟩ <;> omega⟩
    have hn' : NoHigher exempt n n' := by
      rcases hn with h | ⟨hx, h⟩
      · exact .inl (by omega)
      · exact .inr ⟨hx, by omega⟩
    refine ht.both_bind fun t => ?_
    cases t with
    | false => exact .both_pure _
    | true =>
      refine hb.both_bind fun flow => ?_
      cases flow with
      | done => exact ih hn'
      | next => exact ih hn'
      | leave => exact .both_pure _
      | gaveBack v => exact .both_pure _

variable {w : Basis β} {w' : Basis γ} {n n' : Nat}

mutual

theorem Stmt.execute_lockstep (hw : Basis.InStep exempt P E w w') (hn : NoHigher exempt n n') :
    (s : Stmt) → Lockstep exempt P (Both P) E (s.execute w n) (s.execute w' n')
  | .branch _ condition body rest => by
    refine (hw.test condition).both_bind fun t => ?_
    cases t with
    | true => exact body.execute_lockstep hw hn
    | false => exact rest.execute_lockstep hw hn
  | .loop _ condition body =>
    Machine.repeating_lockstep hw.ends (hw.test condition) (body.execute_lockstep hw hn) hn
  | .returns _ value => (hw.result value).both_bind fun _ => .both_pure _
  | .continues _ | .breaks _ => .both_pure _
  | .value _ | .declare _ _ _ _ | .assign _ _ _ _ | .setField _ _ _ _ | .print _ _
  | .function _ _ _ _ | .classDecl _ _ _ _ | .free _ _ _ =>
    (hw.effect _).both_bind fun _ => .both_pure _

theorem Rest.execute_lockstep (hw : Basis.InStep exempt P E w w') (hn : NoHigher exempt n n') :
    (r : Rest) → Lockstep exempt P (Both P) E (r.execute w n) (r.execute w' n')
  | .nothing => .both_pure _
  | .elseIf _ condition body rest => by
    refine (hw.test condition).both_bind fun t => ?_
    cases t with
    | true => exact body.execute_lockstep hw hn
    | false => exact rest.execute_lockstep hw hn
  | .otherwise body => body.execute_lockstep hw hn

theorem Block.execute_lockstep (hw : Basis.InStep exempt P E w w') (hn : NoHigher exempt n n') :
    (b : Block) → Lockstep exempt P (Both P) E (b.execute w n) (b.execute w' n')
  | .mk _ statements => Stmt.executeAll_lockstep hw hn statements

theorem Stmt.executeAll_lockstep (hw : Basis.InStep exempt P E w w') (hn : NoHigher exempt n n') :
    (ss : List Stmt) →
      Lockstep exempt P (Both P) E (Stmt.executeAll w n ss) (Stmt.executeAll w' n' ss)
  | [] => .both_pure _
  | s :: ss => by
    refine (s.execute_lockstep hw hn).both_bind fun flow => ?_
    cases flow with
    | done => exact Stmt.executeAll_lockstep hw hn ss
    | _ => exact .both_pure _

end

end

/-! ### More steps -/

/-- A basis that only does more when the bodies of functions do, and at higher limits. -/
def Rising (basis : Nat → (Block → Effect Block Flow) → Basis Block) : Prop :=
  ∀ n run run', (∀ b, Below (run b) (run' b)) →
    Basis.InStep UsedUp Eq Eq (basis n run) (basis (n + 1) run')

theorem executing_rises {basis : Nat → (Block → Effect Block Flow) → Basis Block}
    (h : Rising basis) (n : Nat) (b : Block) :
    Below (executing basis n b) (executing basis (n + 1) b) := by
  induction n generalizing b with
  | zero => exact .of_exhausted fun s => ⟨s, rfl⟩
  | succ n ih =>
    have hn : NoHigher UsedUp n (n + 1) := .inr ⟨rfl, Nat.le_succ n⟩
    exact below_iff_lockstep.mpr (b.execute_lockstep (h n _ _ ih) hn)

/-- The execution of a block. -/
def execution {basis : Nat → (Block → Effect Block Flow) → Basis Block} (h : Rising basis)
    (b : Block) : Bounded (Machine Block) Flow :=
  ⟨fun n => executing basis n b, fun n => executing_rises h n b⟩

end StackScript
