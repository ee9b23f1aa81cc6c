import StackScript.Proofs.Evaluation
import StackScript.Proofs.Structured

/-!
# StackScript.Proofs.Agreement — evaluation agrees with execution on the stack

Evaluation and the execution by instructions are in lockstep on machines that differ in nothing but
the stack and the recordings: where evaluation has a value, its instructions have put it on the
stack, whatever was there before.  The calls of evaluation pass as many values as the callee takes,
so that the machine takes exactly those.
-/

namespace StackScript

open EStateM (Result)
open Instruction Code Machine

/-! ### Machines beside each other -/

/-- The view with another stack and other recordings. -/
def beside (st : List Value) (rs : List Block) : View Block Block :=
  ⟨id, fun _ => st, fun _ => rs, rfl, fun _ => rfl⟩

/-- The second machine is the first one with this stack and these recordings. -/
def At (st : List Value) (rs : List Block) (m t : Machine Block) : Prop :=
  t = (beside st rs).see m

/-- The second machine differs in nothing but the stack and the recordings. -/
def Near (m t : Machine Block) : Prop := ∃ st rs, At st rs m t

/-- The value is put on the stack. -/
def Pushed (st : List Value) (rs : List Block) (v : Value) (m : Machine Block) (_ : Unit)
    (t : Machine Block) : Prop := At (v :: st) rs m t

variable {exempt : Stop → Prop} {st : List Value} {rs : List Block}

theorem At.near {m t : Machine Block} (h : At st rs m t) : Near m t := ⟨st, rs, h⟩

/-- An operation that commutes with a view is in lockstep with itself. -/
theorem Commutes.lockstep {α α' : Type} {φ : α → α'} {x : Effect Block α'} {y : Effect Block α}
    (h : Commutes φ (beside st rs).see x y) :
    Lockstep exempt (At st rs) (fun a m b t => b = φ a ∧ At st rs m t) Near y x := by
  rintro m _ rfl
  rw [h m]
  cases y m with
  | ok a m' => exact .ok ⟨rfl, rfl⟩
  | error e m' => exact .error (At.near rfl)

theorem Commutes.both {α : Type} {x y : Effect Block α}
    (h : Commutes id (beside st rs).see x y) :
    Lockstep exempt (At st rs) (Both (At st rs)) Near y x :=
  h.lockstep.weaken (fun _ _ h => h) (fun _ _ _ _ h => ⟨h.1.symm, h.2⟩) fun _ _ h => h

/-- The result of an operation is put on the stack. -/
theorem Commutes.pushed {x : Effect Block Value} (h : Commutes id (beside st rs).see x x) :
    Lockstep exempt (At st rs) (Pushed st rs) Near x (x >>= push) := by
  rintro m _ rfl
  have hm := h m
  cases hx : x m with
  | ok v m' =>
    rw [hx] at hm
    rw [bind_of_ok hm]
    exact .ok rfl
  | error e m' =>
    rw [hx] at hm
    rw [bind_of_error hm]
    exact .error (At.near rfl)

theorem push_pushed (v : Value) :
    Lockstep exempt (At st rs) (Pushed st rs) Near (pure v) (push v) := by
  rintro m _ rfl
  exact .ok rfl

theorem taking (v : Value) (m t : Machine Block) (h : At (v :: st) rs m t) :
    ∃ t', take t = .ok v t' ∧ At st rs m t' := by
  cases h
  exact ⟨_, rfl, rfl⟩

theorem pushing (v : Value) (m t : Machine Block) (h : At st rs m t) :
    ∃ t', push v t = .ok () t' ∧ At (v :: st) rs m t' := by
  cases h
  exact ⟨_, rfl, rfl⟩

theorem putting {run : Block → Effect Block Flow} {i : Instruction} (v : Value)
    (h : act run i = push v) (m t : Machine Block) (ht : At st rs m t) :
    ∃ t', act run i t = .ok () t' ∧ At (v :: st) rs m t' := by
  cases ht
  exact ⟨_, by rw [h]; rfl, rfl⟩

theorem takingMany (vs : List Value) (m t : Machine Block) (h : At (vs ++ st) rs m t) :
    ∃ t', takeMany vs.length t = .ok vs t' ∧ At st rs m t' := by
  induction vs generalizing t with
  | nil => exact ⟨t, rfl, h⟩
  | cons v vs ih =>
    obtain ⟨t₁, h₁, ht₁⟩ := taking v m t h
    obtain ⟨t₂, h₂, ht₂⟩ := ih t₁ ht₁
    refine ⟨t₂, ?_, ht₂⟩
    show (take >>= fun v => takeMany vs.length >>= fun vs => pure (v :: vs)) t = _
    rw [bind_of_ok h₁, bind_of_ok h₂]
    rfl

/-- The stack with keys and values on it. -/
def withPairs (pairs : List (Value × Value)) (st : List Value) : List Value :=
  pairs.reverse.flatMap (fun p => [p.2, p.1]) ++ st

theorem withPairs_cons (k v : Value) (pairs : List (Value × Value)) (st : List Value) :
    withPairs ((k, v) :: pairs) st = withPairs pairs (v :: k :: st) := by
  simp [withPairs]

theorem withPairs_append (pairs pairs' : List (Value × Value)) (st : List Value) :
    withPairs (pairs ++ pairs') st = withPairs pairs' (withPairs pairs st) := by
  simp [withPairs]

theorem takingPairs (pairs : List (Value × Value)) (m t : Machine Block)
    (h : At (withPairs pairs st) rs m t) :
    ∃ t', takePairs pairs.length [] t = .ok pairs t' ∧ At st rs m t' := by
  have hrev : ∀ (qs taken : List (Value × Value)) (t : Machine Block),
      At (qs.flatMap (fun p => [p.2, p.1]) ++ st) rs m t →
      ∃ t', takePairs qs.length taken t = .ok (qs.reverse ++ taken) t' ∧ At st rs m t' := by
    intro qs
    induction qs with
    | nil => exact fun taken t h => ⟨t, rfl, h⟩
    | cons q qs ih =>
      intro taken t h
      obtain ⟨t₁, h₁, ht₁⟩ := taking q.2 m t h
      obtain ⟨t₂, h₂, ht₂⟩ := taking q.1 m t₁ ht₁
      obtain ⟨t₃, h₃, ht₃⟩ := ih (q :: taken) t₂ ht₂
      refine ⟨t₃, ?_, ht₃⟩
      show (take >>= fun v => take >>= fun k => takePairs qs.length ((k, v) :: taken)) t = _
      rw [bind_of_ok h₁, bind_of_ok h₂, h₃]
      simp
  obtain ⟨t', h', ht'⟩ := hrev pairs.reverse [] t h
  refine ⟨t', ?_, ht'⟩
  simpa using h'

/-! ### What instructions do -/

section
variable {β : Type} [Body β] (run : β → Effect β Flow)

theorem actAll_single (i : Instruction) : actAll run [i] = act run i := by
  show (act run i >>= fun _ => pure ()) = act run i
  exact bind_pure_unit

theorem act_of_perform {i : Instruction}
    (h : (prepare i : Effect β _) = (do perform i; return none)) : act run i = perform i := by
  rw [act, h, bind_assoc]
  exact bind_pure_unit

theorem act_put (o : Option Operand) : act run ⟨.put, o⟩ = (constant o >>= push) :=
  act_of_perform run rfl

theorem act_this : act run (plain .this) = (self >>= push) := act_of_perform run rfl

theorem act_member :
    act run (plain .getMember) = (do
      let key ← take
      let container ← take
      member container key >>= push) := act_of_perform run rfl

theorem act_load (name : String) (binding : Option Binding) :
    act run (loadVariable name binding) = (read (placeFor name binding) >>= push) := by
  rcases binding with _ | ⟨id⟩ | ⟨ordinal⟩ | _
  · exact act_of_perform run rfl
  · exact act_of_perform run rfl
  · cases ordinal <;> exact act_of_perform run rfl
  · exact act_of_perform run rfl

theorem act_compute (op : BinaryOp) : act run (plain (.compute op)) = performBinary op := by
  cases op <;> exact act_of_perform run rfl

theorem act_prefixed (op : UnaryOp) :
    act run (plain (.prefixed op)) = (take >>= fun v => computePrefix op v >>= push) := by
  cases op <;> exact act_of_perform run rfl

theorem act_list (n : Nat) :
    act run (withNumber .makeList n) = (takeMany n >>= fun vs => newList vs >>= push) :=
  act_of_perform run rfl

theorem act_map (n : Nat) :
    act run (withNumber .makeMap n) = (takePairs n [] >>= fun ps => newMap ps >>= push) :=
  act_of_perform run rfl

/-- A call with its arguments on the stack, whose value is put there. -/
def callingPut (f : Function β) (this : Option Nat) (made : Option Value) : Effect β Unit := do
  let v ← calling f this (run f.body)
  push (made.getD v)

theorem act_call (name : String) :
    act run (withName .call name) =
      (functionNamed name >>= fun f => callingPut run f none none) :=
  bind_assoc (functionNamed name) _ _

theorem act_callMethod (key : String) :
    act run (withName .callMethod key) = (do
      let object ← take
      let method ← methodOf key object
      callingPut run method.1 (some method.2) none) := by
  refine (bind_assoc take _ _).trans (congrArg (take >>= ·) (funext fun object => ?_))
  exact bind_assoc (methodOf key object) _ _

theorem act_create (name : String) :
    act run (withName .makeInstance name) = (do
      let made ← makeObject name
      match made.2 with
      | some f => callingPut run f (some made.1) (some (.object made.1))
      | none => push (.object made.1)) := by
  refine (bind_assoc (makeObject name) _ _).trans
    (congrArg (makeObject name >>= ·) (funext fun made => ?_))
  obtain ⟨this, init⟩ := made
  cases init with
  | some f => rfl
  | none => exact (bind_assoc (push _) _ _).trans bind_pure_unit

end

section
variable {β : Type} [Body β] (run : β → Effect β Flow)

theorem act_store (name : String) (binding : Option Binding) :
    act run ⟨.store, some (targetOperand name binding)⟩ =
      (take >>= fun v => write (placeFor name binding) v) := by
  refine (act_of_perform run rfl).trans (congrArg (take >>= ·) (funext fun v => ?_))
  rcases binding with _ | ⟨id⟩ | ⟨ordinal⟩ | _
  · rfl
  · rfl
  · cases ordinal <;> rfl
  · rfl

theorem act_update {op : BinaryOp} {o : Opcode} (h : Opcode.update? op = some o) (name : String)
    (binding : Option Binding) :
    act run ⟨o, some (targetOperand name binding)⟩ = (do
      let right ← take
      let current ← read (placeFor name binding)
      write (placeFor name binding) (← compute op current right)) := by
  have hop : act run ⟨o, some (targetOperand name binding)⟩ =
      performUpdate op (some (targetOperand name binding)) := by
    cases op <;> cases h <;> exact act_of_perform run rfl
  rw [hop]
  refine congrArg (take >>= ·) (funext fun right => ?_)
  rcases binding with _ | ⟨id⟩ | ⟨ordinal⟩ | _
  · rfl
  · rfl
  · cases ordinal <;> rfl
  · rfl

theorem act_clear (slot : Nat) : act run (withNumber .clear slot) = clearSlot slot :=
  act_of_perform run rfl

theorem act_pop : act run (plain .pop) = discard take := act_of_perform run rfl

theorem act_print : act run (plain .call) = (take >>= print) := by
  refine (bind_assoc take _ _).trans (congrArg (take >>= ·) (funext fun v => ?_))
  exact (bind_assoc (print v) _ _).trans bind_pure_unit

theorem act_setMember :
    act run (plain .setMember) = (do
      let v ← take
      let key ← take
      let container ← take
      writeMember container key v
      push container) := act_of_perform run rfl

theorem act_makeFunction (name : String) :
    act run (withName .makeFunction name) = makeFunction name := act_of_perform run rfl

theorem act_makeClass (name : String) :
    act run (withName .makeClass name) = (take >>= fun v => defineClass name v) :=
  act_of_perform run rfl

theorem act_lastFunction : act run (plain .lastFunction) = (latestFunction >>= push) :=
  act_of_perform run rfl

end

/-! ### Calls -/

/-- At least these values are on the stack; only kept values of statements are above them. -/
def Above (keeps : Bool) (st : List Value) (rs : List Block) (m t : Machine Block) : Prop :=
  ∃ kept, (keeps = false → kept = []) ∧ At (kept ++ st) rs m t

theorem At.above {keeps : Bool} {m t : Machine Block} (h : At st rs m t) : Above keeps st rs m t :=
  ⟨[], fun _ => rfl, h⟩

theorem Above.near {keeps : Bool} {m t : Machine Block} (h : Above keeps st rs m t) : Near m t := by
  obtain ⟨_, _, h⟩ := h
  exact h.near

/-- The bodies of functions are in lockstep, beside every stack. -/
def BodiesAgree (keeps : Bool) (run run' : Block → Effect Block Flow) : Prop :=
  ∀ b st rs, Lockstep GivenUp (At st rs) (Both (Above keeps st rs)) Near (run b) (run' b)

variable {keeps : Bool} {run run' : Block → Effect Block Flow}

theorem callOn_agrees (H : BodiesAgree keeps run run') (f : Function Block) (this : Option Nat)
    (st : List Value) (rs : List Block) :
    Lockstep GivenUp (At st rs) (Both (At (st.drop f.arity) rs)) Near (callOn run f this st)
      (calling f this (run' f.body)) := by
  rintro m _ rfl
  let t := (beside st rs).see m
  unfold callOn calling
  by_cases hd : m.maxDepth ≤ m.callers.length
  · have hd' : t.maxDepth ≤ t.callers.length := hd
    rw [if_pos hd, if_pos hd']
    exact .error (At.near rfl)
  have hd' : ¬ t.maxDepth ≤ t.callers.length := hd
  rw [if_neg hd, if_neg hd']
  by_cases ha : st.length < f.arity
  · have ha' : t.stack.length < f.arity := ha
    rw [if_pos ha, if_pos ha']
    exact .error (At.near rfl)
  have ha' : ¬ t.stack.length < f.arity := ha
  rw [if_neg ha, if_neg ha']
  have henter : t.enter f this =
      (beside (st.drop f.arity) rs).see (m.begun this (st.take f.arity).reverse) := rfl
  have hbase : t.stack.length - f.arity = (st.drop f.arity).length := List.length_drop.symm
  have hbody := H f.body (st.drop f.arity) rs (m.begun this (st.take f.arity).reverse) _ rfl
  dsimp only
  rw [henter, hbase]
  generalize st.drop f.arity = below at hbody ⊢
  generalize run f.body (m.begun this (st.take f.arity).reverse) = r at hbody ⊢
  generalize run' f.body _ = r' at hbody ⊢
  cases hbody with
  | exempt he => exact .exempt he
  | ok hq =>
    obtain ⟨rfl, kept, -, rfl⟩ := hq
    refine .ok ⟨rfl, ?_⟩
    have hcut : (kept ++ below).drop ((kept ++ below).length - below.length) = below := by
      rw [List.length_append, Nat.add_sub_cancel, List.drop_left]
    simp only [At, beside, View.see, leave, returned, hcut]
    rfl
  | error he =>
    obtain ⟨st', rs', rfl⟩ := he
    exact .error ⟨_, rs', rfl⟩

theorem callWith_agrees (H : BodiesAgree keeps run run') (f : Function Block) (this : Option Nat)
    (vs : List Value) :
    Lockstep GivenUp (At (vs.reverse ++ st) rs) (Both (At st rs)) Near (callWith run f this vs)
      (calling f this (run' f.body)) := by
  by_cases hlen : vs.length = f.arity
  · have h := callOn_agrees H f this (vs.reverse ++ st) rs
    rw [callWith_eq_callOn run this hlen st]
    rwa [← hlen, ← List.length_reverse, List.drop_left] at h
  · rintro m _ rfl
    unfold callWith calling
    by_cases hd : m.maxDepth ≤ m.callers.length
    · have hd' : ((beside (vs.reverse ++ st) rs).see m).maxDepth ≤
          ((beside (vs.reverse ++ st) rs).see m).callers.length := hd
      rw [if_pos hd, if_pos hd']
      exact .error (At.near rfl)
    · rw [if_neg hd, if_pos hlen]
      exact .exempt rfl

theorem callingPut_agrees (H : BodiesAgree keeps run run') (f : Function Block)
    (this : Option Nat) (made : Option Value) (vs : List Value) :
    Lockstep GivenUp (At (vs.reverse ++ st) rs) (fun v m _ t => At (made.getD v :: st) rs m t) Near
      (callWith run f this vs) (callingPut run' f this made) := by
  have hpush : ∀ v, Lockstep GivenUp (At st rs) (fun v m _ t => At (made.getD v :: st) rs m t) Near
      (pure v) (push (made.getD v)) := by
    rintro v m _ rfl
    exact .ok rfl
  have h := (callWith_agrees H f this vs).both_bind hpush
  rwa [bind_pure] at h

/-! ### Expressions -/

theorem put_agrees {i : Instruction} {v : Value} (h : act run' i = push v) :
    Lockstep exempt (At st rs) (Pushed st rs) Near (pure v) (actAll run' [i]) := by
  rw [actAll_single, h]
  exact push_pushed v

mutual

theorem Expr.evaluate_agrees (H : BodiesAgree keeps run run') (st : List Value) (rs : List Block) :
    (e : Expr) → Lockstep GivenUp (At st rs) (Pushed st rs) Near (e.evaluate run)
      (actAll run' e.code)
  | .number _ d => by
    show Lockstep _ _ _ _ _ (actAll run' [⟨.put, some d.operand⟩])
    rw [actAll_single, act_put]
    exact (constant_commutes _ _).pushed
  | .text _ _ | .boolean _ _ | .null _ => put_agrees (act_put run' _)
  | .this _ => by
    show Lockstep _ _ _ _ _ (actAll run' [_])
    rw [actAll_single, act_this]
    exact (self_commutes _).pushed
  | .super _ => by
    show Lockstep _ _ _ _ _ (actAll run' ([_] ++ ([_] ++ [_])))
    rw [actAll_append, actAll_append, actAll_single, actAll_single, actAll_single, act_this,
      act_member]
    refine (self_commutes _).pushed.bind fun object _ => ?_
    refine .of_step (putting (.boolean true) (act_put run' _)) (.of_step (taking _)
      (.of_step (taking _) ?_))
    exact (member_commutes _ object _).pushed
  | .list _ items => by
    show Lockstep _ _ _ _ _ (actAll run' (Expr.codeBackwards items ++ [_]))
    rw [actAll_append, actAll_single, act_list]
    refine (Expr.evaluateBackwards_agrees H st rs items).bind fun vs _ => ?_
    rintro m t ⟨hlen, ht⟩
    rw [← hlen]
    exact Lockstep.of_step (takingMany vs) (newList_commutes _ vs).pushed m t ht
  | .map _ entries => by
    show Lockstep _ _ _ _ _ (actAll run' (Expr.codePairs entries ++ [_]))
    rw [actAll_append, actAll_single, act_map]
    refine (Expr.evaluatePairs_agrees H st rs entries).bind fun ps _ => ?_
    rintro m t ⟨hlen, ht⟩
    rw [← hlen]
    exact Lockstep.of_step (takingPairs ps) (newMap_commutes _ ps).pushed m t ht
  | .variable _ name binding => by
    show Lockstep _ _ _ _ _ (actAll run' [_])
    rw [actAll_single, act_load]
    exact (read_commutes _ _).pushed
  | .field _ receiver name => by
    show Lockstep _ _ _ _ _ (actAll run' (receiver.code ++ ([_] ++ [_])))
    rw [actAll_append, actAll_append, actAll_single, actAll_single, act_member]
    refine (receiver.evaluate_agrees H st rs).bind fun object _ => ?_
    refine .of_step (putting (.text name) (act_put run' _)) (.of_step (taking _)
      (.of_step (taking _) ?_))
    exact (member_commutes _ object _).pushed
  | .binary _ op left right _ => by
    show Lockstep _ _ _ _ _ (actAll run' (left.code ++ right.code ++ [_]))
    rw [actAll_append, actAll_append, actAll_single, act_compute, bind_assoc]
    refine (left.evaluate_agrees H st rs).bind fun v _ => ?_
    refine (right.evaluate_agrees H (v :: st) rs).bind fun w _ => ?_
    refine .of_step (taking w) (.of_step (taking v) ?_)
    exact (compute_commutes _ op v w).pushed
  | .unary _ op operand => by
    show Lockstep _ _ _ _ _ (actAll run' (operand.code ++ [_]))
    rw [actAll_append, actAll_single, act_prefixed]
    refine (operand.evaluate_agrees H st rs).bind fun v _ => ?_
    exact .of_step (taking v) (computePrefix_commutes _ op v).pushed
  | .call _ name args => by
    show Lockstep _ _ _ _ _ (actAll run' (Expr.codeAll args ++ [_]))
    rw [actAll_append, actAll_single, act_call]
    refine (Expr.evaluateAll_agrees H st rs args).bind fun vs _ => ?_
    refine (functionNamed_commutes _ name).lockstep.bind fun f f' => ?_
    rintro m t ⟨rfl, ht⟩
    exact callingPut_agrees H f none none vs m t ht
  | .method _ receiver name args => by
    show Lockstep _ _ _ _ _ (actAll run' (Expr.codeAll args ++ receiver.code ++ [_]))
    rw [actAll_append, actAll_append, actAll_single, act_callMethod, bind_assoc]
    refine (Expr.evaluateAll_agrees H st rs args).bind fun vs _ => ?_
    refine (receiver.evaluate_agrees H (vs.reverse ++ st) rs).bind fun object _ => ?_
    refine .of_step (taking object) ?_
    refine (methodOf_commutes _ ("#" ++ name) object).lockstep.bind fun method method' => ?_
    rintro m t ⟨rfl, ht⟩
    exact callingPut_agrees H method.1 (some method.2) none vs m t ht
  | .create _ className args => by
    show Lockstep _ _ _ _ _ (actAll run' (Expr.codeAll args ++ [_]))
    rw [actAll_append, actAll_single, act_create]
    refine (Expr.evaluateAll_agrees H st rs args).bind fun vs _ => ?_
    refine (makeObject_commutes _ className).lockstep.bind fun made _ => ?_
    rintro m t ⟨rfl, ht⟩
    obtain ⟨this, init⟩ := made
    cases init with
    | some f =>
      exact (callingPut_agrees H f (some this) (some (.object this)) vs).map_left
        (fun _ _ _ _ h => h) m t ht
    | none =>
      cases vs with
      | nil => exact push_pushed (.object this) m t ht
      | cons v vs => exact .exempt rfl

/-- The values are put on the stack, the last on top. -/
theorem Expr.evaluateAll_agrees (H : BodiesAgree keeps run run') (st : List Value)
    (rs : List Block) : (es : List Expr) →
    Lockstep GivenUp (At st rs) (fun vs m _ t => At (vs.reverse ++ st) rs m t) Near
      (Expr.evaluateAll run es) (actAll run' (Expr.codeAll es))
  | [] => .pure fun _ _ h => h
  | e :: es => by
    show Lockstep _ _ _ _ _ (actAll run' (e.code ++ Expr.codeAll es))
    rw [actAll_append]
    refine (e.evaluate_agrees H st rs).bind fun v _ => ?_
    refine (Expr.evaluateAll_agrees H (v :: st) rs es).map_left fun vs m _ t h => ?_
    simpa using h

/-- The values are put on the stack, the first on top. -/
theorem Expr.evaluateBackwards_agrees (H : BodiesAgree keeps run run') (st : List Value)
    (rs : List Block) : (es : List Expr) →
    Lockstep GivenUp (At st rs) (fun vs m _ t => vs.length = es.length ∧ At (vs ++ st) rs m t) Near
      (Expr.evaluateBackwards run es) (actAll run' (Expr.codeBackwards es))
  | [] => .pure fun _ _ h => ⟨rfl, h⟩
  | e :: es => by
    show Lockstep _ _ _ _ _ (actAll run' (Expr.codeBackwards es ++ e.code))
    rw [actAll_append]
    refine (Expr.evaluateBackwards_agrees H st rs es).bind fun vs _ => ?_
    rintro m t ⟨hlen, ht⟩
    exact (e.evaluate_agrees H (vs ++ st) rs).map_left
      (fun v m _ t h => ⟨congrArg (· + 1) hlen, h⟩) m t ht

/-- Keys and values are put on the stack. -/
theorem Expr.evaluatePairs_agrees (H : BodiesAgree keeps run run') (st : List Value)
    (rs : List Block) : (es : List (Expr × Expr)) →
    Lockstep GivenUp (At st rs) (fun ps m _ t => ps.length = es.length ∧ At (withPairs ps st) rs m t) Near
      (Expr.evaluatePairs run es) (actAll run' (Expr.codePairs es))
  | [] => .pure fun _ _ h => ⟨rfl, h⟩
  | (k, e) :: es => by
    show Lockstep _ _ _ _ _ (actAll run' (k.code ++ e.code ++ Expr.codePairs es))
    rw [actAll_append, actAll_append, bind_assoc]
    refine (k.evaluate_agrees H st rs).bind fun key _ => ?_
    refine (e.evaluate_agrees H (key :: st) rs).bind fun v _ => ?_
    refine (Expr.evaluatePairs_agrees H (v :: key :: st) rs es).map_left ?_
    rintro ps m _ t ⟨hlen, ht⟩
    refine ⟨congrArg (· + 1) hlen, ?_⟩
    rwa [withPairs_cons]

end

end StackScript
