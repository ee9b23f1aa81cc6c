import StackScript.Proofs.Balance
import StackScript.Proofs.SlotReuse

/-!
# StackScript.Proofs.LiveSlots — the slots that are live in code

A slot is live in code from where it is stored to where it is cleared, in the order of the code and
without regard to jumps.  The code of a balanced tree clears only what is live then and leaves
nothing live, in every measure and whatever follows its expressions.
-/

namespace StackScript

open Instruction (withNumber withName plain)

/-! ### Scanning code -/

/-- The slots that are live behind an instruction. -/
def Instruction.liveAfter (live : Finset Nat) (i : Instruction) : Finset Nat :=
  match i.opcode, i.operand with
  | .store, some (.integer (.ofNat slot)) => insert slot live
  | .clear, some (.integer (.ofNat slot)) => live.erase slot
  | _, _ => live

namespace Code

/-- The slots that are live behind code. -/
def live (c : Code) : Finset Nat := c.foldl Instruction.liveAfter ∅

/-- Code takes the live slots from `live` to `live'` and clears only what is live.  All slots that
it names are below `k`. -/
inductive Sweeps (k : Nat) : Finset Nat → Code → Finset Nat → Prop
  | nil (live : Finset Nat) : Sweeps k live [] live
  | cons {live live' : Finset Nat} {i : Instruction} {c : Code}
      (clear : i.opcode = .clear → ∃ slot ∈ live, i = withNumber .clear slot)
      (below : ∀ slot, i.slot? = some slot → slot < k) (h : Sweeps k (i.liveAfter live) c live') :
      Sweeps k live (i :: c) live'

variable {k : Nat} {live live' live'' : Finset Nat} {c d : Code}

theorem Sweeps.append (h : Sweeps k live c live') (h' : Sweeps k live' d live'') :
    Sweeps k live (c ++ d) live'' := by
  induction h with
  | nil => exact h'
  | cons clear below _ ih => exact .cons clear below (ih h')

theorem Sweeps.slot_lt (h : Sweeps k live c live') {i : Instruction} (hi : i ∈ c) {slot : Nat}
    (hslot : i.slot? = some slot) : slot < k := by
  induction h with
  | nil => cases hi
  | cons _ below _ ih =>
    rcases List.mem_cons.mp hi with rfl | hi
    · exact below slot hslot
    · exact ih hi

theorem Sweeps.foldl_eq (h : Sweeps k live c live') :
    c.foldl Instruction.liveAfter live = live' := by
  induction h with
  | nil => rfl
  | cons _ _ _ ih => exact ih

/-- What is cleared is live there. -/
theorem Sweeps.clear_mem {pre post : Code} {i : Instruction}
    (h : Sweeps k live (pre ++ i :: post) live') (hi : i.opcode = .clear) :
    ∃ slot ∈ pre.foldl Instruction.liveAfter live, i = withNumber .clear slot := by
  induction pre generalizing live with
  | nil =>
    cases h with
    | cons clear _ _ => exact clear hi
  | cons j pre ih =>
    cases h with
    | cons _ _ h => exact ih h

/-- If only slots below a bound are live before, then only these are live anywhere. -/
theorem Sweeps.live_subset {pre post : Code} (h : Sweeps k live (pre ++ post) live')
    (hlive : live ⊆ Finset.range k) : pre.foldl Instruction.liveAfter live ⊆ Finset.range k := by
  induction pre generalizing live with
  | nil => exact hlive
  | cons i pre ih =>
    cases h with
    | cons _ below h =>
      refine ih h ?_
      unfold Instruction.liveAfter
      split
      case h_1 slot ho hoperand =>
        refine Finset.insert_subset (Finset.mem_range.mpr (below slot ?_)) hlive
        unfold Instruction.slot?
        rw [ho, hoperand]
        rfl
      case h_2 => exact (Finset.erase_subset _ _).trans hlive
      case h_3 => exact hlive

end Code

/-! ### Code that keeps what is live -/

/-- An instruction neither stores nor clears a slot, and what it names is below `k`. -/
structure Instruction.Idle (k : Nat) (i : Instruction) : Prop where
  ne_store : i.opcode ≠ .store
  ne_clear : i.opcode ≠ .clear
  below : ∀ slot, i.slot? = some slot → slot < k

theorem Instruction.Idle.liveAfter_eq {k : Nat} {i : Instruction} (h : i.Idle k)
    (live : Finset Nat) : i.liveAfter live = live := by
  have hs := h.ne_store
  have hc := h.ne_clear
  unfold liveAfter
  split
  · contradiction
  · contradiction
  · rfl

/-- Every instruction of the code is idle. -/
abbrev Code.Idle (k : Nat) (c : Code) : Prop := ∀ i ∈ c, i.Idle k

namespace Code

variable {k : Nat} {live live' : Finset Nat} {c d : Code} {i : Instruction}

theorem Idle.append (h : Idle k c) (h' : Idle k d) : Idle k (c ++ d) :=
  List.forall_mem_append.mpr ⟨h, h'⟩

theorem Idle.sweeps (h : Idle k c) (live : Finset Nat) : Sweeps k live c live := by
  induction c with
  | nil => exact .nil live
  | cons i c ih =>
    obtain ⟨hi, hc⟩ := List.forall_mem_cons.mp h
    refine .cons (fun hclear => absurd hclear hi.ne_clear) hi.below ?_
    rw [hi.liveAfter_eq]
    exact ih hc

/-- An instruction that names no slot. -/
theorem idle_single (hs : i.opcode ≠ .store) (hc : i.opcode ≠ .clear) (hi : i.slot? = none) :
    Idle k [i] := by
  refine List.forall_mem_singleton.mpr ⟨hs, hc, fun slot hslot => ?_⟩
  rw [hi] at hslot
  cases hslot

end Code

open Code

theorem loadVariable_idle {k : Nat} (name : String) {binding : Option Binding}
    (h : ∀ b ∈ binding, b.SetBelow k) : Idle k [loadVariable name binding] := by
  rcases binding with _ | binding
  · exact idle_single nofun nofun rfl
  have hb := h binding rfl
  cases binding with
  | slot id =>
    refine List.forall_mem_singleton.mpr ⟨nofun, nofun, fun slot hslot => ?_⟩
    obtain rfl : id = slot := Option.some.inj hslot
    exact hb
  | param ordinal =>
    obtain ⟨n, rfl⟩ := Nat.exists_eq_succ_of_ne_zero (Nat.pos_iff_ne_zero.mp hb)
    exact idle_single nofun nofun rfl
  | global => exact idle_single nofun nofun rfl

section
variable {k : Nat}

mutual

/-- The code of an expression stores nothing. -/
theorem Expr.code_idle : (e : Expr) → e.Scoped k → Idle k e.code
  | .number _ _, _ | .text _ _, _ | .boolean _ _, _ | .null _, _ | .this _, _ =>
    idle_single nofun nofun rfl
  | .super _, _ =>
    (idle_single (i := plain .this) nofun nofun rfl).append
      ((idle_single (i := putConstant (.boolean true)) nofun nofun rfl).append
        (idle_single (i := plain .getMember) nofun nofun rfl))
  | .list _ items, h =>
    (Expr.codeBackwards_idle items h).append (idle_single nofun nofun rfl)
  | .map _ entries, h => (Expr.codePairs_idle entries h).append (idle_single nofun nofun rfl)
  | .variable _ name _, h => loadVariable_idle name h
  | .field _ receiver name, h =>
    (receiver.code_idle h).append ((idle_single (i := putText name) nofun nofun rfl).append
      (idle_single (i := plain .getMember) nofun nofun rfl))
  | .binary _ op left right _, h => by
    refine ((left.code_idle h.1).append (right.code_idle h.2)).append ?_
    cases op <;> exact idle_single nofun nofun rfl
  | .unary _ op operand, h => by
    refine (operand.code_idle h).append ?_
    cases op <;> exact idle_single nofun nofun rfl
  | .call _ _ args, h => (Expr.codeAll_idle args h).append (idle_single nofun nofun rfl)
  | .method _ receiver _ args, h =>
    ((Expr.codeAll_idle args h.1).append (receiver.code_idle h.2)).append
      (idle_single nofun nofun rfl)
  | .create _ _ args, h => (Expr.codeAll_idle args h).append (idle_single nofun nofun rfl)

theorem Expr.codeAll_idle : (es : List Expr) → Expr.ScopedAll k es → Idle k (Expr.codeAll es)
  | [], _ => List.forall_mem_nil _
  | e :: es, h => (e.code_idle h.1).append (Expr.codeAll_idle es h.2)

theorem Expr.codeBackwards_idle :
    (es : List Expr) → Expr.ScopedAll k es → Idle k (Expr.codeBackwards es)
  | [], _ => List.forall_mem_nil _
  | e :: es, h => (Expr.codeBackwards_idle es h.2).append (e.code_idle h.1)

theorem Expr.codePairs_idle :
    (es : List (Expr × Expr)) → Expr.ScopedPairs k es → Idle k (Expr.codePairs es)
  | [], _ => List.forall_mem_nil _
  | (key, e) :: es, h =>
    ((key.code_idle h.1).append (e.code_idle h.2.1)).append (Expr.codePairs_idle es h.2.2)

end

theorem Expr.codeOrNull_idle {e : Option Expr} (h : Expr.ScopedOption k e) :
    Idle k (Expr.codeOrNull e) := by
  cases e with
  | none => exact idle_single nofun nofun rfl
  | some e => exact e.code_idle (h e rfl)

theorem discarding_idle (keeps : Bool) : Idle k (discarding keeps) := by
  cases keeps with
  | true => exact List.forall_mem_nil _
  | false => exact idle_single nofun nofun rfl

/-! ### Assignments -/

/-- Storing makes the slot of a local variable live. -/
theorem store_sweeps {binding : Option Binding} (h : ∀ b ∈ binding, b.SetBelow k)
    (name : String) (outer own : Finset Nat) (line : Nat) (init : Option Expr) :
    Sweeps k (outer ∪ own) [⟨.store, some (targetOperand name binding)⟩]
      (outer ∪ (Stmt.declare line name init binding).holding own) := by
  rcases binding with _ | binding
  · exact .cons nofun nofun (.nil _)
  have hb := h binding rfl
  cases binding with
  | slot id =>
    refine .cons nofun (fun slot hslot => ?_) ?_
    · obtain rfl : id = slot := Option.some.inj hslot
      exact hb
    · show Sweeps k (insert id (outer ∪ own)) [] (outer ∪ insert id own)
      rw [Finset.union_insert]
      exact .nil _
  | param ordinal =>
    obtain ⟨n, rfl⟩ := Nat.exists_eq_succ_of_ne_zero (Nat.pos_iff_ne_zero.mp hb)
    exact .cons nofun nofun (.nil _)
  | global => exact .cons nofun nofun (.nil _)

/-- Updating keeps what is live. -/
theorem update_idle {op : BinaryOp} {o : Opcode} (ho : Opcode.update? op = some o)
    {binding : Option Binding} (h : ∀ b ∈ binding, b.SetBelow k) (name : String) :
    Idle k [⟨o, some (targetOperand name binding)⟩] := by
  have hslot : ∀ {slot : Nat}, Operand.slot? (some (targetOperand name binding)) = some slot →
      slot < k := by
    intro slot hslot
    rcases binding with _ | binding
    · cases hslot
    have hb := h binding rfl
    cases binding with
    | slot id =>
      obtain rfl : id = slot := Option.some.inj hslot
      exact hb
    | param ordinal =>
      obtain ⟨n, rfl⟩ := Nat.exists_eq_succ_of_ne_zero (Nat.pos_iff_ne_zero.mp hb)
      cases hslot
    | global => cases hslot
  refine List.forall_mem_singleton.mpr ⟨?_, ?_, fun slot h => hslot ?_⟩
  · cases op <;> cases ho <;> exact nofun
  · cases op <;> cases ho <;> exact nofun
  · cases op <;> cases ho <;> exact h

/-- A marked assignment keeps what is live. -/
theorem Expr.assigned_sweeps {e : Expr} (he : e.Scoped k) {binding : Option Binding}
    {outer own : Finset Nat}
    (h : ∀ b ∈ binding, b.SetBelow k ∧ ∀ id, b = .slot id → id ∈ outer ∪ own) (name : String) :
    Sweeps k (outer ∪ own) (e.assigned name binding) (outer ∪ own) := by
  have hbelow : ∀ b ∈ binding, b.SetBelow k := fun b hb => (h b hb).1
  cases hu : e.update? name binding with
  | none =>
    have hheld : outer ∪ (Stmt.declare 0 name none binding).holding own = outer ∪ own := by
      unfold Stmt.holding
      split
      case h_1 heq =>
        cases heq
        rw [Finset.union_insert, Finset.insert_eq_of_mem ((h _ rfl).2 _ rfl)]
      case h_2 heq => cases heq
      case h_3 => rfl
    have hstore := store_sweeps hbelow name outer own 0 none
    rw [hheld] at hstore
    rw [Expr.assigned_plain hu]
    exact (e.code_idle he).sweeps _ |>.append hstore
  | some u =>
    obtain ⟨o, ho, hcode⟩ := Expr.assigned_update hu
    obtain ⟨line, line', target, rfl, -, -⟩ := Expr.update?_eq_some hu
    rw [hcode]
    exact ((u.right.code_idle he.2).append (update_idle ho hbelow name)).sweeps _

/-! ### Control -/

theorem jumpCode_idle (m : Measure) {o : Opcode} (ho : o = .next ∨ o = .leave) :
    Idle k [jumpCode m o] := by
  rcases ho with rfl | rfl <;> cases m <;> exact idle_single nofun nofun rfl

theorem skip_idle {o : Opcode} (ho : o = .skip ∨ o = .skipIf ∨ o = .skipUnless) (n : Int) :
    Idle k [withNumber o n] := by
  rcases ho with rfl | rfl | rfl <;> exact idle_single nofun nofun rfl

theorem recorded_sweeps {live live' : Finset Nat} {c : Code} (h : Sweeps k live c live') :
    Sweeps k live (recorded c) live' :=
  ((idle_single (i := plain .record) nofun nofun rfl).sweeps live).append
    (h.append ((idle_single (i := plain .endRecord) nofun nofun rfl).sweeps live'))

/-- The skips of a loop are put in place of other instructions that store nothing. -/
theorem resolveJumps_sweeps {live live' : Finset Nat} {c : Code} (h : Sweeps k live c live')
    (condition depth : Nat) : Sweeps k live (resolveJumps condition depth c) live' := by
  induction h generalizing depth with
  | nil live => exact .nil live
  | @cons live live' i c clear below h ih =>
    have hjump : ∀ {o : Opcode} (n : Int), i = jumpCode .slots o → o = .next ∨ o = .leave →
        Sweeps k live (withNumber .skip n :: resolveJumps condition depth c) live' := by
      intro o n hi ho
      have hidle : i.Idle k := hi ▸ List.forall_mem_singleton.mp (jumpCode_idle .slots ho)
      have hrest := ih depth
      rw [hidle.liveAfter_eq] at hrest
      exact .cons nofun nofun hrest
    unfold resolveJumps
    split
    · exact .cons clear below (ih _)
    split
    · exact .cons clear below (ih _)
    split
    · rename_i h
      exact hjump _ h.2 (.inl rfl)
    split
    · rename_i h
      exact hjump _ h.2 (.inr rfl)
    · exact .cons clear below (ih _)

variable {live : Finset Nat} {condition body : Code}

theorem branchCode_sweeps (m : Measure) (hc : Idle k condition) (hb : Sweeps k live body live)
    {rest : Option Code} (hr : ∀ c ∈ rest, Sweeps k live c live) :
    Sweeps k live (branchCode m condition body rest) live := by
  have htest : ∀ n : Int, Sweeps k live (condition ++ [withNumber .skipUnless n]) live := fun n =>
    (hc.append (skip_idle (.inr (.inr rfl)) n)).sweeps live
  cases rest with
  | none => exact (htest _).append hb
  | some rest =>
    have hpast := (skip_idle (k := k) (.inl rfl) (m.length rest)).sweeps live
    exact (((htest _).append hb).append hpast).append (hr rest rfl)

theorem skippingLoop_sweeps (hc : Idle k condition) (hb : Sweeps k live body live) :
    Sweeps k live (skippingLoop condition body) live := by
  have hloop (n : Int) : Sweeps k live (body ++ condition ++ [withNumber .skipIf n]) live :=
    (hb.append (hc.sweeps live)).append ((skip_idle (.inr (.inl rfl)) n).sweeps live)
  exact ((skip_idle (.inl rfl) _).sweeps live).append (resolveJumps_sweeps (hloop _) _ _)

theorem recordedLoop_sweeps (hc : Idle k condition) (hb : Sweeps k live body live) :
    Sweeps k live (recordedLoop condition body) live :=
  ((recorded_sweeps hb).append (recorded_sweeps (hc.sweeps live))).append
    ((idle_single (i := plain .loop) nofun nofun rfl).sweeps live)

theorem functionCode_sweeps (hb : Sweeps k live body live) (name : String) (arity : Nat) :
    Sweeps k live (functionCode name arity body) live :=
  (recorded_sweeps hb).append (((idle_single (i := putConstant (.integer arity)) nofun nofun
    rfl).append (idle_single (i := withName .makeFunction name) nofun nofun rfl)).sweeps live)

theorem classCode_sweeps (name : String) (parent : Option String) {members : List Code}
    (h : ∀ c ∈ members, Sweeps k live c live) :
    Sweeps k live (classCode name parent members) live := by
  have hmembers : Sweeps k live members.flatten live := by
    induction members with
    | nil => exact .nil live
    | cons c members ih =>
      obtain ⟨hc, hmembers⟩ := List.forall_mem_cons.mp h
      exact hc.append (ih hmembers)
  have hparent : Idle k (parentCode parent) := by
    cases parent with
    | none => exact List.forall_mem_nil _
    | some p =>
      exact (idle_single (i := putConstant (.boolean false)) nofun nofun rfl).append
        (idle_single (i := putText p) nofun nofun rfl)
  rw [classCode_eq]
  exact hmembers.append ((hparent.append ((idle_single (i := withNumber .makeMap _) nofun nofun
    rfl).append (idle_single (i := withName .makeClass name) nofun nofun rfl))).sweeps live)

/-! ### Trees -/

variable {outer own : Finset Nat} (keeps : Bool)

mutual

/-- The code of a balanced statement takes the live slots from those before to those behind it. -/
theorem Stmt.code_sweeps (m : Measure) : (s : Stmt) → ∀ {outer own : Finset Nat},
    s.Balanced k outer own →
      Sweeps k (outer ∪ own) ((s.mark .inPlace).code (discarding keeps) m) (outer ∪ s.holding own)
  | .value e, _, _, h => ((e.code_idle h).append (discarding_idle keeps)).sweeps _
  | .declare line name init _, outer, own, h =>
    ((Expr.codeOrNull_idle h.1).sweeps _).append
      (store_sweeps (fun b hb => (h.2 b hb).1) name outer own line init)
  | .assign _ name _ _, _, _, h => Expr.assigned_sweeps h.1 h.2 name
  | .setField _ receiver name e, _, _, h =>
    ((((receiver.code_idle h.1).append (idle_single (i := putText name) nofun nofun rfl)).append
      (e.code_idle h.2)).append ((idle_single (i := plain .setMember) nofun nofun rfl).append
        (idle_single (i := plain .pop) nofun nofun rfl))).sweeps _
  | .print _ e, _, _, h =>
    ((e.code_idle h).append (idle_single (i := plain .call) nofun nofun rfl)).sweeps _
  | .branch _ condition body rest, _, _, h =>
    branchCode_sweeps m (condition.code_idle h.1) (body.code_sweeps m h.2.1)
      (rest.code_sweeps m h.2.2)
  | .loop _ condition body, _, _, h =>
    match m with
    | .instructions => recordedLoop_sweeps (condition.code_idle h.1) (body.code_sweeps .slots h.2)
    | .slots => skippingLoop_sweeps (condition.code_idle h.1) (body.code_sweeps .slots h.2)
  | .function _ name params body, _, _, h =>
    functionCode_sweeps (body.code_sweeps .slots h) name params.length
  | .classDecl _ name parent members, _, _, h =>
    classCode_sweeps name parent (members.memberCodes_sweeps name h)
  | .returns _ e, _, _, h =>
    ((Expr.codeOrNull_idle h).append (idle_single (i := plain .giveBack) nofun nofun rfl)).sweeps _
  | .continues _, _, _, _ => (jumpCode_idle m (.inl rfl)).sweeps _
  | .breaks _, _, _, _ => (jumpCode_idle m (.inr rfl)).sweeps _
  | .free _ _ id, outer, own, ⟨hlt, hown, houter⟩ => by
    refine .cons (fun _ => ⟨id, Finset.mem_union_right _ hown, rfl⟩) (fun slot hslot => ?_) ?_
    · obtain rfl : id = slot := Option.some.inj hslot
      exact hlt
    · show Sweeps k ((outer ∪ own).erase id) [] (outer ∪ own.erase id)
      rw [Finset.erase_union_distrib, Finset.erase_eq_of_notMem houter]
      exact .nil _

theorem Rest.code_sweeps (m : Measure) : (r : Rest) → ∀ {live : Finset Nat}, r.Balanced k live →
    ∀ c ∈ (r.mark .inPlace).code (discarding keeps) m, Sweeps k live c live
  | .nothing, _, _, _, hc => nomatch hc
  | .elseIf _ condition body rest, _, h, _, hc => by
    obtain rfl := Option.some.inj hc
    exact branchCode_sweeps m (condition.code_idle h.1) (body.code_sweeps m h.2.1)
      (rest.code_sweeps m h.2.2)
  | .otherwise body, _, h, _, hc => by
    obtain rfl := Option.some.inj hc
    exact body.code_sweeps m h

theorem Block.code_sweeps (m : Measure) : (b : Block) → ∀ {live : Finset Nat},
    b.Balanced k live → Sweeps k live ((b.mark .inPlace).code (discarding keeps) m) live
  | .mk _ ss, live, ⟨hall, hnone⟩ => by
    have h := Stmt.codeAll_sweeps m ss hall
    rwa [hnone, Finset.union_empty] at h

theorem Stmt.codeAll_sweeps (m : Measure) : (ss : List Stmt) → ∀ {outer own : Finset Nat},
    Stmt.AllBalanced k outer own ss →
      Sweeps k (outer ∪ own) (Stmt.codeAll (discarding keeps) m (Stmt.markAll .inPlace ss))
        (outer ∪ ss.foldl Stmt.holding own)
  | [], _, _, _ => .nil _
  | s :: ss, _, _, h => (s.code_sweeps m h.1).append (Stmt.codeAll_sweeps m ss h.2)

theorem Block.memberCodes_sweeps (className : String) : (b : Block) → ∀ {live : Finset Nat},
    b.MembersBalanced k live →
      ∀ c ∈ (b.mark .inPlace).memberCodes (discarding keeps) className, Sweeps k live c live
  | .mk _ ss, _, h => Stmt.memberCodesAll_sweeps className ss h

theorem Stmt.memberCodesAll_sweeps (className : String) : (ss : List Stmt) →
    ∀ {live : Finset Nat}, Stmt.EachBalanced k live ss →
      ∀ c ∈ Stmt.memberCodesAll (discarding keeps) className (Stmt.markAll .inPlace ss),
        Sweeps k live c live
  | [], _, _ => List.forall_mem_nil _
  | s :: ss, live, h => by
    have hs : ∀ c ∈ (s.mark .inPlace).memberCode (discarding keeps) className,
        Sweeps k live c live := s.memberCode_sweeps className h.1
    have hss := Stmt.memberCodesAll_sweeps className ss h.2
    show ∀ c ∈ Stmt.memberCodesAll _ className (s.mark .inPlace :: Stmt.markAll .inPlace ss), _
    rw [Stmt.memberCodesAll]
    cases hcode : (s.mark .inPlace).memberCode (discarding keeps) className with
    | none => exact hss
    | some c => exact List.forall_mem_cons.mpr ⟨hs c hcode, hss⟩

theorem Stmt.memberCode_sweeps (className : String) : (s : Stmt) → ∀ {live : Finset Nat},
    s.MemberBalanced k live →
      ∀ c ∈ (s.mark .inPlace).memberCode (discarding keeps) className, Sweeps k live c live
  | .declare _ name init _, _, h, c, hc => by
    obtain rfl := Option.some.inj hc
    exact ((idle_single (i := putText name) nofun nofun rfl).append
      (Expr.codeOrNull_idle h)).sweeps _
  | .assign _ name e _, _, h, c, hc => by
    obtain rfl := Option.some.inj hc
    rw [Expr.withTarget_code]
    exact ((idle_single (i := putText name) nofun nofun rfl).append (e.code_idle h)).sweeps _
  | .setField _ _ name e, _, h, c, hc => by
    obtain rfl := Option.some.inj hc
    exact ((idle_single (i := putText name) nofun nofun rfl).append (e.code_idle h)).sweeps _
  | .function _ name params body, _, h, c, hc => by
    obtain rfl := Option.some.inj hc
    exact (functionCode_sweeps (body.code_sweeps .slots h) _ params.length).append
      (((idle_single (i := putText (methodKey name)) nofun nofun rfl).append
        (idle_single (i := plain .lastFunction) nofun nofun rfl)).sweeps _)
  | .value _, _, _, _, hc | .print _ _, _, _, _, hc | .branch _ _ _ _, _, _, _, hc
  | .loop _ _ _, _, _, _, hc | .classDecl _ _ _ _, _, _, _, hc | .returns _ _, _, _, _, hc
  | .continues _, _, _, _, hc | .breaks _, _, _, _, hc | .free _ _ _, _, _, _, hc => nomatch hc

end

end

/-! ### Sources -/

section
variable (marking : Marking)

theorem Stmt.markAll_names (ss : List Stmt) :
    (Stmt.markAll marking ss).filterMap localName? = ss.filterMap localName? := by
  induction ss with
  | nil => rfl
  | cons s ss ih =>
    have hs : (s.mark marking).localName? = s.localName? := by cases s <;> rfl
    rw [markAll, List.filterMap_cons, List.filterMap_cons, hs, ih]

mutual

/-- Marks declare nothing. -/
theorem Stmt.mark_mostLocals : (s : Stmt) → (s.mark marking).mostLocals = s.mostLocals
  | .branch _ _ body rest => congrArg₂ max body.mark_mostLocals rest.mark_mostLocals
  | .loop _ _ body => body.mark_mostLocals
  | .function _ _ _ body => body.mark_mostLocals
  | .classDecl _ _ _ members => members.mark_mostLocalsWithin
  | .value _ | .declare _ _ _ _ | .assign _ _ _ _ | .setField _ _ _ _ | .print _ _ | .returns _ _
  | .continues _ | .breaks _ | .free _ _ _ => rfl

theorem Rest.mark_mostLocals : (r : Rest) → (r.mark marking).mostLocals = r.mostLocals
  | .nothing => rfl
  | .elseIf _ _ body rest => congrArg₂ max body.mark_mostLocals rest.mark_mostLocals
  | .otherwise body => body.mark_mostLocals

theorem Block.mark_mostLocals : (b : Block) → (b.mark marking).mostLocals = b.mostLocals
  | .mk _ ss => by
    rw [Block.mark, Block.mostLocals, Block.mostLocals, Stmt.localNames, Stmt.markAll_names,
      Stmt.markAll_mostLocalsAll ss]
    rfl

theorem Block.mark_mostLocalsWithin :
    (b : Block) → (b.mark marking).mostLocalsWithin = b.mostLocalsWithin
  | .mk _ ss => Stmt.markAll_mostLocalsAll ss

theorem Stmt.markAll_mostLocalsAll :
    (ss : List Stmt) → Stmt.mostLocalsAll (Stmt.markAll marking ss) = Stmt.mostLocalsAll ss
  | [] => rfl
  | s :: ss => congrArg₂ max s.mark_mostLocals (Stmt.markAll_mostLocalsAll ss)

end

end

/-- The tree of a compilation is balanced, up to its marks. -/
theorem Compiler.compile_root_balanced (keeps : Bool) (globals : List String) (source : String) :
    ∃ root : Block, ((chosen keeps).compile globals source).root = root.mark .inPlace ∧
      root.Balanced root.mostLocalsWithin ∅ := by
  have hlexer : (chosen keeps).lexer = .standard := by cases keeps <;> rfl
  unfold compile
  cases htokens : (chosen keeps).lexer.tokenize source with
  | error problem => exact ⟨.mk 1 [], rfl, trivial, rfl⟩
  | ok tokens =>
    rw [hlexer] at htokens
    obtain ⟨hmost, hbalanced⟩ := Block.resolve_balanced _
      (Grammar.freedSlots_parse (chosen keeps).grammar (Lexer.lexical_of_tokenize htokens)) globals
    rw [← hmost] at hbalanced
    exact ⟨_, rfl, hbalanced⟩

/-- For every source that compiles, in its code from first to last: what is cleared is live there,
nothing is live at the end, and no more slots are live than locals are declared along one chain of
nested bodies.  Every slot is below that number. -/
theorem live_slots_within_locals (keeps : Bool) (globals : List String) (source : String)
    {code : Code} (hcode : (Compiler.chosen keeps).generate
      ((Compiler.chosen keeps).compile globals source) = .ok code) :
    let most := ((Compiler.chosen keeps).compile globals source).root.mostLocalsWithin
    (∀ pre i post, code = pre ++ i :: post → i.opcode = .clear →
        ∃ slot ∈ Code.live pre, i = withNumber .clear slot) ∧
      code.live = ∅ ∧
      (∀ pre post, code = pre ++ post → (Code.live pre).card ≤ most) ∧
      ∀ i ∈ code, ∀ slot, i.slot? = some slot → slot < most := by
  intro most
  obtain ⟨root, hroot, hbalanced⟩ := Compiler.compile_root_balanced keeps globals source
  have hmost : most = root.mostLocalsWithin := by
    rw [← root.mark_mostLocalsWithin .inPlace, ← hroot]
  have hsweeps : Code.Sweeps most ∅ code ∅ := by
    rw [Compiler.eq_of_generate hcode, Compiler.chosen_discard, hroot, hmost]
    exact root.code_sweeps keeps .instructions hbalanced
  refine ⟨?_, hsweeps.foldl_eq, ?_, fun i hi slot hslot => hsweeps.slot_lt hi hslot⟩
  · rintro pre i post rfl hi
    exact hsweeps.clear_mem hi
  · rintro pre post rfl
    have hle := Finset.card_le_card (hsweeps.live_subset (Finset.empty_subset _))
    rwa [Finset.card_range] at hle

/-- A function declares a variable, and one more in a loop. -/
theorem live_slots_within_locals_nested :
    let source := "func f() \x7b\nvar a = 3\nwhile a \x7b\nvar b = 1\n\x7d\n\x7d"
    let compilation := (Compiler.chosen false).compile [] source
    let code := compilation.root.generate dropValue
    (Compiler.chosen false).generate compilation = .ok code ∧
      compilation.root.mostLocalsWithin = 2 ∧ code.live = ∅ ∧
      ∀ pre post, code = pre ++ post → (Code.live pre).card ≤ 2 := by
  intro source compilation code
  have hboth : compilation.diagnostics = [] ∧ compilation.root.mostLocalsWithin = 2 := by
    simp only [compilation, Compiler.compile_eq]
    decide +kernel
  obtain ⟨hdiagnostics, hmost⟩ := hboth
  have hcode : (Compiler.chosen false).generate compilation = .ok code :=
    Compiler.generate_of_eq_nil hdiagnostics
  obtain ⟨-, hlive, hcard, -⟩ := live_slots_within_locals false [] source hcode
  rw [hmost] at hcard
  exact ⟨hcode, hmost, hlive, hcard⟩

end StackScript
