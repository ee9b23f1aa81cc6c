import Mathlib.Data.List.Forall2
import Mathlib.Data.List.Nodup
import StackScript.Proofs.OperationsCommute
import StackScript.Proofs.Structured

/-!
# StackScript.Proofs.Aligned — trees that differ in their slots

Two trees are aligned if they are the same up to the slots of local variables, and a name has the
slots of one variable in both.  The pairs of slots that are in reach say which: a declaration adds
one, a body takes those that it added out of reach again, and the body of a function begins with
none.
-/

namespace StackScript

open Instruction (withNumber plain)

/-- The two slots of each local variable in reach, the latest first. -/
abbrev Pairs := List (Nat × Nat)

namespace Pairs

/-- Different variables have different slots. -/
structure Apart (ps : Pairs) : Prop where
  left : (ps.map Prod.fst).Nodup
  right : (ps.map Prod.snd).Nodup

theorem Apart.nil : Apart [] := ⟨.nil, .nil⟩

theorem Apart.cons {ps : Pairs} (h : Apart ps) {a b : Nat} (ha : a ∉ ps.map Prod.fst)
    (hb : b ∉ ps.map Prod.snd) : Apart ((a, b) :: ps) :=
  ⟨List.nodup_cons.mpr ⟨ha, h.left⟩, List.nodup_cons.mpr ⟨hb, h.right⟩⟩

/-- A slot belongs to one pair only. -/
theorem Apart.eq_or {ps : Pairs} (h : Apart ps) {p q : Nat × Nat} (hp : p ∈ ps) (hq : q ∈ ps) :
    p = q ∨ p.1 ≠ q.1 ∧ p.2 ≠ q.2 := by
  by_cases hpq : p = q
  · exact .inl hpq
  · exact .inr ⟨fun heq => hpq (List.inj_on_of_nodup_map h.left hp hq heq),
      fun heq => hpq (List.inj_on_of_nodup_map h.right hp hq heq)⟩

end Pairs

/-! ### Code -/

/-- Instructions that are the same, or address the same variable. -/
inductive Instruction.Aligned (ps : Pairs) : Instruction → Instruction → Prop
  | same {i : Instruction} (h : i.slot? = none) : Aligned ps i i
  | moved {o : Opcode} {a b : Nat} (h : (a, b) ∈ ps) (ho : o.addresses = true) :
    Aligned ps (withNumber o a) (withNumber o b)

/-- Code with aligned instructions. -/
def Code.Aligned (ps : Pairs) (c c' : Code) : Prop := List.Forall₂ (Instruction.Aligned ps) c c'

namespace Code.Aligned

variable {ps : Pairs} {c c' d d' : Code}

theorem nil : Aligned ps [] [] := List.Forall₂.nil

theorem append (h : Aligned ps c c') (h' : Aligned ps d d') : Aligned ps (c ++ d) (c' ++ d') :=
  List.rel_append h h'

theorem single {i i' : Instruction} (h : i.Aligned ps i') : Aligned ps [i] [i'] := .cons h .nil

/-- Code that addresses no local variable is aligned with itself. -/
theorem of_slotless (h : ∀ i ∈ c, i.slot? = none) : Aligned ps c c :=
  List.forall₂_same.mpr fun i hi => .same (h i hi)

end Code.Aligned

/-! ### Trees -/

/-- The code of a statement that only acts. -/
def Stmt.acts? (keeps : Bool) : Stmt → Option Code
  | .value e => some (e.code ++ discarding keeps)
  | .declare _ name init binding =>
    some (Expr.codeOrNull init ++ [⟨.store, some (targetOperand name binding)⟩])
  | .assign _ name e binding =>
    some (assignCode name binding (e.withTarget (Marking.inPlace name binding e)))
  | .setField _ receiver name e =>
    some (receiver.code ++ [putText name] ++ e.code ++ [plain .setMember, plain .pop])
  | .print _ e => some (e.code ++ [plain .call])
  | .free _ _ slot => some [withNumber .clear slot]
  | _ => none

/-- The name and the code of a member of a class that is a field. -/
def Stmt.field? : Stmt → Option (String × Code)
  | .declare _ name init _ => some (name, Expr.codeOrNull init)
  | .assign _ name e _ => some (name, e.code)
  | .setField _ _ name e => some (name, e.code)
  | _ => none

/-- The statement is a method of the class that it stands in. -/
def Stmt.isMethod : Stmt → Bool
  | .function .. => true
  | _ => false

mutual

/-- Aligned statements; the pairs behind are those in reach of the next statement. -/
inductive Stmt.Aligned (keeps : Bool) : Pairs → Stmt → Stmt → Pairs → Prop
  | acts {ps : Pairs} {s s' : Stmt} {c c' : Code} (hs : s.acts? keeps = some c)
    (hs' : s'.acts? keeps = some c') (h : Code.Aligned ps c c') : Stmt.Aligned keeps ps s s' ps
  | declare {ps : Pairs} {line line' a b : Nat} {name name' : String} {init init' : Option Expr}
    (h : Code.Aligned ps (Expr.codeOrNull init) (Expr.codeOrNull init'))
    (ha : a ∉ ps.map Prod.fst) (hb : b ∉ ps.map Prod.snd) :
    Stmt.Aligned keeps ps (.declare line name init (some (.slot a)))
      (.declare line' name' init' (some (.slot b))) ((a, b) :: ps)
  | branch {ps : Pairs} {line line' : Nat} {e e' : Expr} {body body' : Block} {rest rest' : Rest}
    (h : Code.Aligned ps e.code e'.code) (hb : Block.Aligned keeps ps body body')
    (hr : Rest.Aligned keeps ps rest rest') :
    Stmt.Aligned keeps ps (.branch line e body rest) (.branch line' e' body' rest') ps
  | loop {ps : Pairs} {line line' : Nat} {e e' : Expr} {body body' : Block}
    (h : Code.Aligned ps e.code e'.code) (hb : Block.Aligned keeps ps body body') :
    Stmt.Aligned keeps ps (.loop line e body) (.loop line' e' body') ps
  | function {ps : Pairs} {line line' : Nat} {name : String} {params : List String}
    {body body' : Block} (h : Block.Aligned keeps [] body body') :
    Stmt.Aligned keeps ps (.function line name params body) (.function line' name params body') ps
  | classDecl {ps : Pairs} {line line' l l' : Nat} {name : String} {parent : Option String}
    {ss ss' : List Stmt} (h : Stmt.MembersAligned keeps ps ss ss') :
    Stmt.Aligned keeps ps (.classDecl line name parent (.mk l ss))
      (.classDecl line' name parent (.mk l' ss')) ps
  | returns {ps : Pairs} {line line' : Nat} {e e' : Option Expr}
    (h : Code.Aligned ps (Expr.codeOrNull e) (Expr.codeOrNull e')) :
    Stmt.Aligned keeps ps (.returns line e) (.returns line' e') ps
  | continues {ps : Pairs} {line line' : Nat} :
    Stmt.Aligned keeps ps (.continues line) (.continues line') ps
  | breaks {ps : Pairs} {line line' : Nat} : Stmt.Aligned keeps ps (.breaks line) (.breaks line') ps

/-- What follows the body of an `if`, aligned. -/
inductive Rest.Aligned (keeps : Bool) : Pairs → Rest → Rest → Prop
  | nothing {ps : Pairs} : Rest.Aligned keeps ps .nothing .nothing
  | elseIf {ps : Pairs} {line line' : Nat} {e e' : Expr} {body body' : Block} {rest rest' : Rest}
    (h : Code.Aligned ps e.code e'.code) (hb : Block.Aligned keeps ps body body')
    (hr : Rest.Aligned keeps ps rest rest') :
    Rest.Aligned keeps ps (.elseIf line e body rest) (.elseIf line' e' body' rest')
  | otherwise {ps : Pairs} {body body' : Block} (h : Block.Aligned keeps ps body body') :
    Rest.Aligned keeps ps (.otherwise body) (.otherwise body')

/-- Aligned blocks, which end the local variables that they declare. -/
inductive Block.Aligned (keeps : Bool) : Pairs → Block → Block → Prop
  | mk {ps qs : Pairs} {line line' : Nat} {ss ss' : List Stmt}
    (h : Stmt.AllAligned keeps ps ss ss' qs)
    (hq : ∀ q ∈ qs, q ∈ ps ∨ q.1 ∈ Stmt.freedSlotsAll ss ∧ q.2 ∈ Stmt.freedSlotsAll ss') :
    Block.Aligned keeps ps (.mk line ss) (.mk line' ss')

/-- Aligned statements in sequence. -/
inductive Stmt.AllAligned (keeps : Bool) : Pairs → List Stmt → List Stmt → Pairs → Prop
  | nil {ps : Pairs} : Stmt.AllAligned keeps ps [] [] ps
  | cons {ps qs rs : Pairs} {s s' : Stmt} {ss ss' : List Stmt} (h : Stmt.Aligned keeps ps s s' qs)
    (hs : Stmt.AllAligned keeps qs ss ss' rs) : Stmt.AllAligned keeps ps (s :: ss) (s' :: ss') rs

/-- Aligned members of a class. -/
inductive Stmt.MembersAligned (keeps : Bool) : Pairs → List Stmt → List Stmt → Prop
  | nil {ps : Pairs} : Stmt.MembersAligned keeps ps [] []
  | field {ps : Pairs} {s s' : Stmt} {ss ss' : List Stmt} {name : String} {c c' : Code}
    (hs : s.field? = some (name, c)) (hs' : s'.field? = some (name, c'))
    (h : Code.Aligned ps c c') (hss : Stmt.MembersAligned keeps ps ss ss') :
    Stmt.MembersAligned keeps ps (s :: ss) (s' :: ss')
  | method {ps : Pairs} {line line' : Nat} {name : String} {params : List String}
    {body body' : Block} {ss ss' : List Stmt} (h : Block.Aligned keeps [] body body')
    (hss : Stmt.MembersAligned keeps ps ss ss') :
    Stmt.MembersAligned keeps ps (.function line name params body :: ss)
      (.function line' name params body' :: ss')
  | other {ps : Pairs} {s s' : Stmt} {ss ss' : List Stmt} (hs : s.field? = none)
    (hm : s.isMethod = false) (hs' : s'.field? = none) (hm' : s'.isMethod = false)
    (hss : Stmt.MembersAligned keeps ps ss ss') : Stmt.MembersAligned keeps ps (s :: ss) (s' :: ss')

end

variable {keeps : Bool} {ps qs : Pairs}

/-- What is in reach stays in reach. -/
theorem Stmt.Aligned.subset {s s' : Stmt} (h : s.Aligned keeps ps s' qs) : ps ⊆ qs := by
  cases h with
  | declare => exact List.subset_cons_self _ _
  | _ => exact List.Subset.refl _

theorem Stmt.AllAligned.subset {ss ss' : List Stmt} (h : Stmt.AllAligned keeps ps ss ss' qs) :
    ps ⊆ qs := by
  induction ss generalizing ps ss' with
  | nil =>
    cases h
    exact List.Subset.refl _
  | cons s ss ih =>
    cases h with
    | cons h hs => exact List.Subset.trans h.subset (ih hs)

theorem Stmt.Aligned.apart {s s' : Stmt} (h : s.Aligned keeps ps s' qs) (hp : ps.Apart) :
    qs.Apart := by
  cases h with
  | declare _ ha hb => exact hp.cons ha hb
  | _ => exact hp

/-- The class has as many entries in both. -/
theorem Stmt.MembersAligned.length_eq {ss ss' : List Stmt} {className : String}
    (h : Stmt.MembersAligned keeps ps ss ss') :
    (Stmt.memberCodesAll [] className ss).length =
      (Stmt.memberCodesAll [] className ss').length := by
  have hfield : ∀ {s : Stmt} {name : String} {c : Code}, s.field? = some (name, c) →
      s.memberCode [] className = some (putText name :: c) := by
    intro s name c hs
    cases s <;> cases hs <;> rfl
  have hother : ∀ {s : Stmt}, s.field? = none → s.isMethod = false →
      s.memberCode [] className = none := by
    intro s hs hm
    cases s <;> first | rfl | (cases hs; done) | cases hm
  induction ss generalizing ss' with
  | nil =>
    cases h
    rfl
  | cons s ss ih =>
    cases h with
    | field hs hs' _ hss =>
      rw [memberCodesAll, memberCodesAll, hfield hs, hfield hs']
      exact congrArg (· + 1) (ih hss)
    | method _ hss => exact congrArg (· + 1) (ih hss)
    | other hs hm hs' hm' hss =>
      rw [memberCodesAll, memberCodesAll, hother hs hm, hother hs' hm']
      exact ih hss

end StackScript
