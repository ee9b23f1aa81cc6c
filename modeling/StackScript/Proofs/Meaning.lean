import StackScript.Proofs.Agreement

/-!
# StackScript.Proofs.Meaning — the meaning of statements

Statements evaluated directly are in lockstep with their instructions, the marked assignments
included if evaluation is watched, and by the common control so are whole trees.
-/

namespace StackScript

open EStateM (Result)
open Instruction Code Machine

variable {exempt : Stop → Prop} {st : List Value} {rs : List Block} {keeps : Bool}
  {run run' : Block → Effect Block Flow}

/-! ### Functions and classes -/

theorem Expr.evaluateOrNull_agrees (H : BodiesAgree keeps run run') (st : List Value)
    (rs : List Block) (e : Option Expr) :
    Lockstep GivenUp (At st rs) (Pushed st rs) Near (Expr.evaluateOrNull run e)
      (actAll run' (Expr.codeOrNull e)) := by
  cases e with
  | none => exact put_agrees (act_put run' _)
  | some e => exact e.evaluate_agrees H st rs

/-- A function is made of its recorded body and its arity. -/
theorem defineFunction_agrees (name : String) (params : List String) (body : Block) :
    Lockstep exempt (At st rs) (Both (At st rs)) Near
      (defineFunction name (arityOf params) body)
      (do
        keepRecording body
        actAll run' [putConstant (.integer params.length), withName .makeFunction name]) := by
  have hkeep : ∀ m t, At st rs m t → ∃ t', keepRecording body t = .ok () t' ∧
      At st (body :: rs) m t' := by
    rintro m _ rfl
    exact ⟨_, rfl, rfl⟩
  have htake : ∀ m t, At st (body :: rs) m t → ∃ t', takeRecording t = .ok body t' ∧
      At st rs m t' := by
    rintro m _ rfl
    exact ⟨_, rfl, rfl⟩
  refine .of_step hkeep ?_
  show Lockstep _ _ _ _ _ (actAll run' ([_] ++ [_]))
  rw [actAll_append, actAll_single, actAll_single, act_makeFunction]
  refine .of_step (putting (.number (Double.ofInt params.length)) (act_put run' _)) ?_
  refine .of_step (taking _) (.of_step (fun m t h => ⟨t, rfl, h⟩) ?_)
  exact .of_step htake (defineFunction_commutes _ name _ body).both

theorem Stmt.evaluateMember_agrees (H : BodiesAgree keeps run run') (st : List Value)
    (rs : List Block) (className : String) (s : Stmt) :
    Lockstep GivenUp (At st rs) (fun ps m _ t =>
      ps.length = (s.memberCode [] className).toList.length ∧ At (withPairs ps st) rs m t) Near
      (s.evaluateMember run className) (s.putMember run' className) := by
  have hvalue : ∀ (name : String) {x : Effect Block Value} {c : Code},
      Lockstep GivenUp (At (.text name :: st) rs) (Pushed (.text name :: st) rs) Near x
        (actAll run' c) →
      Lockstep GivenUp (At st rs) (fun ps m _ t =>
        ps.length = 1 ∧ At (withPairs ps st) rs m t) Near
        (x >>= fun v => pure [(.text name, v)]) (actAll run' (putText name :: c)) := by
    intro name x c h
    refine .of_step (putting (.text name) (act_put run' _)) ?_
    exact h.map_left fun v m _ t h => ⟨rfl, h⟩
  cases s with
  | declare line name init binding =>
    exact hvalue name (Expr.evaluateOrNull_agrees H _ rs init)
  | assign line name e binding => exact hvalue name (e.evaluate_agrees H _ rs)
  | setField line receiver name e => exact hvalue name (e.evaluate_agrees H _ rs)
  | function line name params body =>
    let putKey := putText (methodKey name)
    have hput : (Stmt.function line name params body).putMember run' className = (do
        (do
          keepRecording body
          actAll run' [putConstant (.integer params.length),
            withName .makeFunction (className ++ "#" ++ name)])
        act run' putKey
        act run' (plain .lastFunction)) := by
      rw [bind_assoc]
      show (keepRecording body >>= fun _ => actAll run' ([_, _] ++ ([putKey] ++ [_]))) = _
      rw [actAll_append, actAll_append, actAll_single, actAll_single]
    rw [hput, act_lastFunction]
    refine (defineFunction_agrees _ params body).both_bind fun _ => ?_
    refine .of_step (putting (.text (methodKey name)) (act_put run' _)) ?_
    exact (latestFunction_commutes _).pushed.map_left fun v m _ t h => ⟨rfl, h⟩
  | _ => exact .pure fun _ _ h => ⟨rfl, h⟩

theorem Stmt.evaluateMembers_agrees (H : BodiesAgree keeps run run') (st : List Value)
    (rs : List Block) (className : String) (ss : List Stmt) :
    Lockstep GivenUp (At st rs) (fun ps m _ t =>
      ps.length = (Stmt.memberCodesAll [] className ss).length ∧ At (withPairs ps st) rs m t) Near
      (Stmt.evaluateMembers run className ss) (Stmt.putMembers run' className ss) := by
  induction ss generalizing st with
  | nil => exact .pure fun _ _ h => ⟨rfl, h⟩
  | cons s ss ih =>
    refine (s.evaluateMember_agrees H st rs className).bind fun ps _ => ?_
    rintro m t ⟨hlen, ht⟩
    refine (ih (withPairs ps st)).map_left ?_ m t ht
    rintro qs m _ t ⟨hlen', ht⟩
    refine ⟨?_, by rwa [withPairs_append]⟩
    rw [List.length_append, hlen, hlen', Stmt.memberCodesAll]
    cases s.memberCode [] className with
    | none => exact Nat.zero_add _
    | some c => exact Nat.add_comm _ _

/-- The parent of a class is put as an entry. -/
theorem putting_parent (parent : Option String) (m t : Machine Block) (h : At st rs m t) :
    ∃ t', actAll run' (parentCode parent) t = .ok () t' ∧
      At (withPairs (parentEntry parent) st) rs m t' := by
  cases parent with
  | none => exact ⟨t, rfl, h⟩
  | some p =>
    obtain ⟨t₁, h₁, ht₁⟩ := putting (.boolean false) (act_put run' (some (.boolean false))) m t h
    obtain ⟨t₂, h₂, ht₂⟩ := putting (.text p) (act_put run' (some (.text p))) m t₁ ht₁
    refine ⟨t₂, ?_, ht₂⟩
    refine (bind_of_ok (f := fun _ => actAll run' [putText p]) h₁).trans ?_
    rw [actAll_single]
    exact h₂

theorem class_agrees (H : BodiesAgree keeps run run') (st : List Value) (rs : List Block)
    (line : Nat) (name : String) (parent : Option String) (members : Block) (watched : Bool)
    (marking : Marking) :
    Lockstep GivenUp (At st rs) (Both (At st rs)) Near
      ((Stmt.classDecl line name parent members).evaluate watched run)
      ((Stmt.classDecl line name parent members).perform keeps marking run') := by
  obtain ⟨l, ss⟩ := members
  refine (Stmt.evaluateMembers_agrees H st rs name ss).bind fun ps _ => ?_
  rintro m t ⟨hlen, ht⟩
  rw [actAll_append]
  show Alike _ _ _ _ ((actAll run' (parentCode parent) >>= fun _ => actAll run' ([_] ++ [_])) t)
  rw [actAll_append, actAll_single, actAll_single, act_map, act_makeClass]
  have hcount : entryCount name parent (.mk l ss) = (ps ++ parentEntry parent).length := by
    rw [List.length_append, hlen, entryCount]
    cases parent <;> rfl
  rw [hcount]
  refine Lockstep.of_step (putting_parent parent) ?_ m t ht
  rw [← withPairs_append]
  rw [bind_assoc]
  refine .of_step (takingPairs _) ?_
  refine ((newMap_commutes _ _).pushed).bind fun v _ => ?_
  exact .of_step (taking v) (defineClass_commutes _ name v).both

/-! ### Assignments -/

/-- Marks are put on updates only, and only if evaluation is watched. -/
def Marking.Watched (watched : Bool) (marking : Marking) : Prop :=
  ∀ name binding e target, marking name binding e = some target →
    watched = true ∧ ∃ u, e.update? name binding = some u ∧ u.target = target

theorem Marking.empty_watched (watched : Bool) : Marking.empty.Watched watched :=
  fun _ _ _ _ h => nomatch h

theorem Marking.inPlace_watched : Marking.inPlace.Watched true := by
  intro name binding e target h
  obtain ⟨u, hu, rfl⟩ := Option.map_eq_some_iff.mp h
  exact ⟨rfl, u, hu, rfl⟩

theorem Expr.update?_eq_some {name : String} {binding : Option Binding} {e : Expr} {u : Update}
    (h : e.update? name binding = some u) :
    ∃ line line' target, e = .binary line u.op (.variable line' name binding) u.right target ∧
      binding = some u.target ∧ u.op.updates := by
  unfold Expr.update? at h
  split at h
  · rename_i line op line' read bound right target
    by_cases hc : (op.updates && read == name && bound == binding) = true
    · rw [if_pos hc] at h
      simp only [Bool.and_eq_true, beq_iff_eq] at hc
      obtain ⟨⟨hop, rfl⟩, rfl⟩ := hc
      obtain ⟨b, rfl, rfl⟩ := Option.map_eq_some_iff.mp h
      exact ⟨line, line', target, rfl, rfl, hop⟩
    · rw [if_neg hc] at h
      cases h
  · cases h

theorem BinaryOp.update?_of_updates {op : BinaryOp} (h : op.updates) :
    ∃ o, Opcode.update? op = some o := by
  cases op <;> first | exact ⟨_, rfl⟩ | cases h

theorem assignCode_plain (name : String) (binding : Option Binding) (e : Expr) :
    assignCode name binding (e.withTarget none) =
      e.code ++ [⟨.store, some (targetOperand name binding)⟩] := by
  cases e <;> rfl

theorem Machine.read_keeps {place : Place} {m m' : Machine Block} {v : Value}
    (h : Machine.read place m = .ok v m') : m' = m := by
  unfold Machine.read at h
  have hget : (get : Effect Block (Machine Block)) m = .ok m m := rfl
  rw [bind_of_ok hget] at h
  cases place with
  | slot id =>
    dsimp only at h
    cases hl : m.locals[id]? <;> rw [hl] at h <;> cases h
    rfl
  | param index =>
    dsimp only at h
    cases hl : m.frame.params[index]? <;> rw [hl] at h <;> cases h
    rfl
  | global name =>
    dsimp only at h
    cases hl : m.named? name <;> rw [hl] at h <;> cases h
    rfl

/-- What can be read is read on the stack, too. -/
theorem readable_agrees (place : Place) :
    Lockstep GivenUp (At st rs) (Both (At st rs)) Near (readable place) (Machine.read place) := by
  rintro m _ rfl
  have hr := read_commutes (beside st rs) place m
  unfold readable
  cases hm : Machine.read place m with
  | ok v m' =>
    rw [hr, hm]
    exact .ok ⟨rfl, rfl⟩
  | error e m' => exact .exempt rfl

/-- To look whether a place can be read changes nothing. -/
theorem Lockstep.of_readable {α γ : Type} {place : Place} {P E : Machine Block → Machine Block → Prop}
    {Q : α → Machine Block → γ → Machine Block → Prop} {f : Value → Effect Block α}
    {y : Effect Block γ} (h : ∀ v, Lockstep GivenUp P Q E (f v) y) :
    Lockstep GivenUp P Q E (readable place >>= f) y := by
  intro m t hp
  cases hm : Machine.read place m with
  | ok v m' =>
    obtain rfl := read_keeps hm
    have hread : readable place m' = .ok v m' := by rw [readable, hm]
    rw [bind_of_ok hread]
    exact h v m' t hp
  | error e m' =>
    have hread : readable place m = .error .abandoned m' := by rw [readable, hm]
    rw [bind_of_error hread]
    exact .exempt rfl

/-- A watched update agrees with the instruction that updates in place. -/
theorem Update.marked_agrees (H : BodiesAgree keeps run run') (name : String) (u : Update)
    {o : Opcode} (ho : Opcode.update? u.op = some o) :
    Lockstep GivenUp (At st rs) (Both (At st rs)) Near (u.evaluate run name)
      (actAll run' (u.right.code ++ [⟨o, some (targetOperand name (some u.target))⟩])) := by
  rw [actAll_append, actAll_single, act_update run' ho]
  refine .of_readable fun before => (u.right.evaluate_agrees H st rs).bind fun v _ => ?_
  refine .of_step (taking v) ((readable_agrees _).both_bind fun after => ?_)
  by_cases heq : before = after
  · rw [if_pos heq, heq]
    exact (compute_commutes _ u.op after v).both.both_bind fun w => (write_commutes _ _ w).both
  · rw [if_neg heq]
    exact .of_exempt rfl

/-- A watched update agrees with the instructions that read the variable first. -/
theorem Update.plain_agrees (H : BodiesAgree keeps run run') (name : String) (u : Update)
    (line line' : Nat) (target : Option Binding) :
    Lockstep GivenUp (At st rs) (Both (At st rs)) Near (u.evaluate run name)
      (actAll run' ((Expr.binary line u.op (.variable line' name (some u.target)) u.right
        target).code ++ [⟨.store, some (targetOperand name (some u.target))⟩])) := by
  show Lockstep _ _ _ _ _ (actAll run' ([_] ++ u.right.code ++ [_] ++ [_]))
  rw [actAll_append, actAll_append, actAll_append, actAll_single, actAll_single, actAll_single,
    act_load, act_compute, act_store, bind_assoc, bind_assoc, bind_assoc]
  refine (readable_agrees _).both_bind fun before => ?_
  refine .of_step (pushing before) ?_
  refine (u.right.evaluate_agrees H (before :: st) rs).bind fun v _ => .of_readable fun after => ?_
  by_cases heq : before = after
  · rw [if_pos heq]
    simp only [performBinary, bind_assoc]
    refine .of_step (taking v) (.of_step (taking before) ?_)
    refine (compute_commutes _ u.op before v).both.both_bind fun w => ?_
    exact .of_step (pushing w) (.of_step (taking w) (write_commutes _ _ w).both)
  · rw [if_neg heq]
    exact .of_exempt rfl

theorem assign_agrees (H : BodiesAgree keeps run run') {watched : Bool} {marking : Marking}
    (hm : marking.Watched watched) (line : Nat) (name : String) (e : Expr)
    (binding : Option Binding) :
    Lockstep GivenUp (At st rs) (Both (At st rs)) Near
      ((Stmt.assign line name e binding).evaluate watched run)
      ((Stmt.assign line name e binding).perform keeps marking run') := by
  show Lockstep _ _ _ _ _
    (actAll run' (assignCode name binding (e.withTarget (marking name binding e))))
  have hplain : Lockstep GivenUp (At st rs) (Both (At st rs)) Near
      (e.evaluate run >>= fun v => write (placeFor name binding) v)
      (actAll run' (assignCode name binding (e.withTarget none))) := by
    rw [assignCode_plain, actAll_append, actAll_single, act_store]
    refine (e.evaluate_agrees H st rs).bind fun v _ => ?_
    exact .of_step (taking v) (write_commutes _ _ v).both
  have hunmarked : (∀ u, watched = true → e.update? name binding ≠ some u) →
      marking name binding e = none := by
    intro h
    cases ht : marking name binding e with
    | none => rfl
    | some target =>
      obtain ⟨hw, u, hu, -⟩ := hm name binding e target ht
      exact absurd hu (h u hw)
  cases watched with
  | false =>
    rw [hunmarked fun _ h => nomatch h]
    exact hplain
  | true =>
    cases hu : e.update? name binding with
    | none =>
      rw [hunmarked fun u _ h => by rw [hu] at h; cases h]
      simp only [Stmt.evaluate, hu]
      exact hplain
    | some u =>
      simp only [Stmt.evaluate, hu]
      obtain ⟨l, l', target, rfl, rfl, hop⟩ := Expr.update?_eq_some hu
      obtain ⟨o, ho⟩ := BinaryOp.update?_of_updates hop
      cases ht : marking name (some u.target) _ with
      | none =>
        have hcode := assignCode_plain name (some u.target)
          (.binary l u.op (.variable l' name (some u.target)) u.right target)
        rw [hcode]
        exact u.plain_agrees H name l l' target
      | some b =>
        obtain ⟨-, u', hu', rfl⟩ := hm _ _ _ _ ht
        obtain rfl : u = u' := Option.some.inj (hu.symm.trans hu')
        have hcode : assignCode name (some u.target) ((Expr.binary l u.op
            (.variable l' name (some u.target)) u.right target).withTarget (some u.target)) =
              u.right.code ++ [⟨o, some (targetOperand name (some u.target))⟩] := by
          simp only [Expr.withTarget, assignCode, ho]
        rw [hcode]
        exact u.marked_agrees H name ho

/-! ### Statements -/

/-- What holds beside every stack holds above values that are kept. -/
theorem Lockstep.above {x y : Effect Block Unit}
    (h : ∀ st, Lockstep GivenUp (At st rs) (Both (Above keeps st rs)) Near x y) :
    Lockstep GivenUp (Above keeps st rs) (Both (Above keeps st rs)) Near x y := by
  rintro m t ⟨kept, hk, ht⟩
  have h' := h (kept ++ st) m t ht
  generalize x m = r at h' ⊢
  generalize y t = r' at h' ⊢
  cases h' with
  | exempt he => exact .exempt he
  | error he => exact .error he
  | ok hq =>
    obtain ⟨rfl, kept', hk', ht'⟩ := hq
    refine .ok ⟨rfl, kept' ++ kept, fun hf => ?_, ?_⟩
    · rw [hk hf, hk' hf]
      rfl
    · rwa [List.append_assoc]

theorem Lockstep.both_above {x y : Effect Block Unit}
    (h : ∀ st, Lockstep GivenUp (At st rs) (Both (At st rs)) Near x y) :
    Lockstep GivenUp (Above keeps st rs) (Both (Above keeps st rs)) Near x y :=
  .above fun st => (h st).weaken (fun _ _ h => h) (fun _ _ _ _ h => ⟨h.1, h.2.above⟩)
    fun _ _ h => h

/-- The effect of a statement without control. -/
theorem Stmt.evaluate_agrees (H : BodiesAgree keeps run run') {watched : Bool} {marking : Marking}
    (hm : marking.Watched watched) (st : List Value) (rs : List Block) (s : Stmt) :
    Lockstep GivenUp (Above keeps st rs) (Both (Above keeps st rs)) Near (s.evaluate watched run)
      (s.perform keeps marking run') := by
  cases s with
  | value e =>
    refine .above fun st => ?_
    show Lockstep _ _ _ _ _ (actAll run' (e.code ++ discarding keeps))
    rw [actAll_append]
    refine (e.evaluate_agrees H st rs).bind fun v _ => ?_
    cases keeps with
    | true => exact .pure fun m t h => ⟨rfl, [v], fun h => (nomatch h), h⟩
    | false =>
      show Lockstep _ _ _ _ _ (actAll run' [_])
      rw [actAll_single, act_pop]
      rintro m _ rfl
      exact .ok ⟨rfl, At.above rfl⟩
  | declare line name init binding =>
    refine .both_above fun st => ?_
    show Lockstep _ _ _ _ _ (actAll run' (_ ++ [_]))
    rw [actAll_append, actAll_single, act_store]
    refine (Expr.evaluateOrNull_agrees H st rs init).bind fun v _ => ?_
    exact .of_step (taking v) (write_commutes _ _ v).both
  | assign line name e binding => exact .both_above fun st => assign_agrees H hm line name e binding
  | setField line receiver name e =>
    refine .both_above fun st => ?_
    show Lockstep _ _ _ _ _ (actAll run' (receiver.code ++ [_] ++ e.code ++ ([_] ++ [_])))
    rw [actAll_append, actAll_append, actAll_append, actAll_append, actAll_single, actAll_single,
      actAll_single, act_setMember, act_pop, bind_assoc, bind_assoc]
    refine (receiver.evaluate_agrees H st rs).bind fun container _ => ?_
    refine .of_step (putting (.text name) (act_put run' _)) ?_
    refine (e.evaluate_agrees H (.text name :: container :: st) rs).bind fun v _ => ?_
    simp only [bind_assoc]
    refine .of_step (taking v) (.of_step (taking _) (.of_step (taking container) ?_))
    have hdrop : ∀ u : Unit, Lockstep GivenUp (At st rs) (Both (At st rs)) Near (pure u)
        (push container >>= fun _ => discard take) := by
      rintro u m _ rfl
      exact .ok ⟨rfl, rfl⟩
    have h := (writeMember_commutes (beside st rs) container (.text name) v).both.both_bind hdrop
    rwa [bind_pure] at h
  | print line e =>
    refine .both_above fun st => ?_
    show Lockstep _ _ _ _ _ (actAll run' (e.code ++ [_]))
    rw [actAll_append, actAll_single, act_print]
    refine (e.evaluate_agrees H st rs).bind fun v _ => ?_
    exact .of_step (taking v) (print_commutes _ v).both
  | function line name params body =>
    exact .both_above fun st => defineFunction_agrees name params body
  | classDecl line name parent members =>
    exact .both_above fun st => class_agrees H st rs line name parent members watched marking
  | free line name slot =>
    refine .both_above fun st => ?_
    show Lockstep _ _ _ _ _ (actAll run' [_])
    rw [actAll_single, act_clear]
    exact (clearSlot_commutes _ slot).both
  | _ => exact .both_pure ()

/-! ### Trees -/

/-- A condition. -/
theorem test_agrees (H : BodiesAgree keeps run run') (st : List Value) (rs : List Block)
    (e : Expr) :
    Lockstep GivenUp (At st rs) (Both (At st rs)) Near
      (do let v ← e.evaluate run; return (← get).heap.truth v)
      (do actAll run' e.code; takeTruth) := by
  refine (e.evaluate_agrees H st rs).bind fun v _ => .of_step (taking v) ?_
  rintro m _ rfl
  refine .ok ⟨?_, rfl⟩
  cases v <;> rfl

/-- What holds beside every stack, of effects with values. -/
theorem Lockstep.above_value {α : Type} {x y : Effect Block α}
    (h : ∀ st, Lockstep GivenUp (At st rs) (Both (At st rs)) Near x y) :
    Lockstep GivenUp (Above keeps st rs) (Both (Above keeps st rs)) Near x y := by
  rintro m t ⟨kept, hk, ht⟩
  exact (h (kept ++ st)).weaken (fun _ _ h => h) (fun _ _ _ _ h => ⟨h.1, kept, hk, h.2⟩)
    (fun _ _ h => h) m t ht

theorem direct_inStep (H : BodiesAgree keeps run run') {watched : Bool} {marking : Marking}
    (hm : marking.Watched watched) (n : Nat) :
    Basis.InStep GivenUp (Above keeps st rs) Near (direct watched n run)
      (onStack keeps marking n run') := by
  refine ⟨fun s => s.evaluate_agrees H hm st rs, fun e => .above_value fun st =>
    test_agrees H st rs e, fun e => .above_value fun st => ?_, fun _ _ h => h.near⟩
  have h := (Expr.evaluateOrNull_agrees H st rs e).bind (f := pure) (g := fun _ => take)
    (R := Both (At st rs)) fun v _ => by
      rintro m _ rfl
      exact .ok ⟨rfl, rfl⟩
  rwa [bind_pure] at h

/-- Blocks evaluated directly agree with their execution on the stack. -/
theorem executing_agrees {watched : Bool} {marking : Marking} (hm : marking.Watched watched)
    (n : Nat) :
    BodiesAgree keeps (executing (direct watched) n) (executing (onStack keeps marking) n) := by
  induction n with
  | zero => exact fun b st rs => .throw fun _ _ h => h.near
  | succ n ih =>
    intro b st rs
    have hw : Basis.InStep GivenUp (Above keeps st rs) Near _ _ := direct_inStep ih hm n
    have hn : NoHigher GivenUp n n := .inl rfl
    exact (b.execute_lockstep hw hn).weaken (fun _ _ h => h.above) (fun _ _ _ _ h => h) fun _ _ h => h

end StackScript
