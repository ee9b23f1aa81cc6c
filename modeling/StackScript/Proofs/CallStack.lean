import StackScript.Proofs.Safety

/-!
# StackScript.Proofs.CallStack — what a call takes off the stack

An instruction that calls has no argument count: it takes as many values as its function asks for,
whoever put them.  So a call with too few arguments takes what lies beneath them, and one with too
many leaves some behind.  `call_takes_its_arity` says what the machine does with a node that calls,
above any values and in any code around it.
-/

namespace StackScript

open EStateM (Result)
open Instruction Code Machine

variable {keeps : Bool} {run run' : Block → Effect Block Flow} {st : List Value} {rs : List Block}

/-! ### Evaluation with updates in place -/

/-- An update as it is done in place: the variable is read after the right operand. -/
def Update.evaluateInPlace (run : Block → Effect Block Flow) (name : String) (u : Update) :
    Effect Block Unit := do
  let v ← u.right.evaluate run
  let current ← read (placeFor name (some u.target))
  write (placeFor name (some u.target)) (← compute u.op current v)

/-- What a statement that leads to the next one does, with updates in place. -/
def Stmt.evaluateInPlace (run : Block → Effect Block Flow) (s : Stmt) : Effect Block Unit :=
  match s.update? with
  | some (name, u) => u.evaluateInPlace run name
  | none => s.evaluate false run

/-- The basis of direct evaluation with updates in place. -/
def directInPlace (n : Nat) (run : Block → Effect Block Flow) : Basis Block :=
  { direct false n run with effect := Stmt.evaluateInPlace run }

theorem directInPlace_rising : Rising directInPlace := by
  intro n run run' h
  have hstep := direct_rising false n run run' h
  refine ⟨fun s => ?_, hstep.test, hstep.result, hstep.ends⟩
  show Lockstep _ _ _ _ (s.evaluateInPlace run) (s.evaluateInPlace run')
  unfold Stmt.evaluateInPlace
  cases s.update? with
  | some u => exact below_iff_lockstep.mp ((u.2.right.evaluate_below h).bind fun _ => .refl _)
  | none => exact hstep.effect s

/-- Runs blocks by evaluation, with updates in place. -/
abbrev evaluating : Nat → Block → Effect Block Flow := executing directInPlace

/-- Runs blocks as they are marked, by instructions. -/
abbrev instructing (keeps : Bool) : Nat → Block → Effect Block Flow :=
  executing (onStack keeps .inPlace)

theorem Update.evaluateInPlace_agrees (H : BodiesAgree keeps run run') (name : String) (u : Update)
    {o : Opcode} (ho : Opcode.update? u.op = some o) (st : List Value) :
    Lockstep GivenUp (At st rs) (Both (At st rs)) Near (u.evaluateInPlace run name)
      (actAll run' (u.right.code ++ [⟨o, some (targetOperand name (some u.target))⟩])) := by
  rw [actAll_append, actAll_single, act_update run' ho]
  refine (u.right.evaluate_agrees H st rs).bind fun v _ => .of_step (taking v) ?_
  refine (read_commutes _ _).both.both_bind fun current => ?_
  exact (compute_commutes _ u.op current v).both.both_bind fun w => (write_commutes _ _ w).both

theorem Stmt.evaluateInPlace_agrees (H : BodiesAgree keeps run run') (s : Stmt) :
    Lockstep GivenUp (Above keeps st rs) (Both (Above keeps st rs)) Near (s.evaluateInPlace run)
      (s.perform keeps .inPlace run') := by
  unfold Stmt.evaluateInPlace
  cases hs : s.update? with
  | none =>
    rw [Stmt.perform_eq_of_update? hs Marking.inPlace_watched]
    exact s.evaluate_agrees H (Marking.empty_watched false) st rs
  | some update =>
    obtain ⟨name, u⟩ := update
    cases s with
    | assign line name' e binding =>
      obtain ⟨u', hu, heq⟩ := Option.map_eq_some_iff.mp hs
      cases heq
      have hmark : Marking.inPlace name binding e = some u.target := by
        rw [Marking.inPlace, hu]
        rfl
      obtain ⟨l, l', target, rfl, rfl, hop⟩ := Expr.update?_eq_some hu
      obtain ⟨o, ho⟩ := BinaryOp.update?_of_updates hop
      refine .both_above fun st => ?_
      simp only [Stmt.perform, hmark, Expr.withTarget, assignCode, ho]
      exact u.evaluateInPlace_agrees H name ho st
    | _ => cases hs

theorem evaluating_agrees (n : Nat) : BodiesAgree keeps (evaluating n) (instructing keeps n) := by
  induction n with
  | zero => exact fun b st rs => .throw fun _ _ h => h.near
  | succ n ih =>
    intro b st rs
    have hplain : Basis.InStep GivenUp (Above keeps st rs) Near (direct false n (evaluating n)) _ :=
      direct_inStep ih (Marking.empty_watched false) n
    have hw : Basis.InStep GivenUp (Above keeps st rs) Near (directInPlace n (evaluating n))
        (onStack keeps .inPlace n (instructing keeps n)) :=
      ⟨fun s => s.evaluateInPlace_agrees ih, hplain.test, hplain.result, hplain.ends⟩
    exact (b.execute_lockstep hw (.inl rfl)).weaken (fun _ _ h => h.above) (fun _ _ _ _ h => h)
      fun _ _ h => h

/-! ### Nodes that call -/

/-- What a node calls. -/
inductive Callee where
  | function (name : String)
  | method (receiver : Expr) (name : String)
  /-- the constructor of a class, on a new object of it -/
  | constructor (className : String)

/-- What a node calls, with its arguments. -/
def Expr.invocation? : Expr → Option (Callee × List Expr)
  | .call _ name args => some (.function name, args)
  | .method _ receiver name args => some (.method receiver name, args)
  | .create _ className args => some (.constructor className, args)
  | _ => none

/-- What there is to do for a callee. -/
inductive Invoked where
  | call (c : Call Block)
  /-- a new object of a class without constructor -/
  | object (v : Value)

namespace Invoked

/-- How many values a call takes. -/
def arity : Invoked → Nat
  | call c => c.function.arity
  | object _ => 0

/-- The name in the messages of a call. -/
def name : Invoked → String
  | call c => c.function.name
  | object _ => ""

/-- The value of a call whose arguments are on a stack. -/
def value (run : Block → Effect Block Flow) (stack : List Value) : Invoked → Effect Block Value
  | call c => do
    let v ← callOn run c.function c.this stack
    return c.made.getD v
  | object v => return v

end Invoked

namespace Callee

/-- The instructions behind those of the arguments. -/
def code : Callee → Code
  | function name => [withName .call name]
  | method receiver name => receiver.code ++ [withName .callMethod ("#" ++ name)]
  | constructor className => [withName .makeInstance className]

/-- Looks up what is called, behind the evaluation of the arguments. -/
def find (run : Block → Effect Block Flow) : Callee → Effect Block Invoked
  | function name => do return .call ⟨← functionNamed name, none, none⟩
  | method receiver name => do
    let object ← receiver.evaluate run
    let method ← methodOf ("#" ++ name) object
    return .call ⟨method.1, some method.2, none⟩
  | constructor className => do
    let made ← makeObject className
    match made.2 with
    | some f => return .call ⟨f, some made.1, some (.object made.1)⟩
    | none => return .object (.object made.1)

end Callee

/-! ### Agreement with the code -/

theorem Expr.code_of_invocation? {e : Expr} {callee : Callee} {args : List Expr}
    (h : e.invocation? = some (callee, args)) : e.code = Expr.codeAll args ++ callee.code := by
  cases e with
  | call line name args =>
    cases h
    rfl
  | method line receiver name args =>
    cases h
    exact List.append_assoc _ _ _
  | create line className args =>
    cases h
    rfl
  | _ => cases h

/-- The value of a call is put on the stack in place of what the call takes. -/
def Replaced (st : List Value) (rs : List Block) (r : Invoked × Value) (m : Machine Block)
    (_ : Unit) (t : Machine Block) : Prop :=
  At (r.2 :: st.drop r.1.arity) rs m t

/-- What is called, and the value of its call. -/
def Callee.invoke (run : Block → Effect Block Flow) (stack : List Value) (callee : Callee) :
    Effect Block (Invoked × Value) := do
  let invoked ← callee.find run
  let v ← invoked.value run stack
  return (invoked, v)

theorem Invoked.call_agrees (H : BodiesAgree keeps run run') (c : Call Block) :
    Lockstep GivenUp (At st rs) (Replaced st rs) Near
      (do let v ← (Invoked.call c).value run st; return (.call c, v))
      (callingPut run' c.function c.this c.made) := by
  rw [Invoked.value, bind_assoc]
  refine (callOn_agrees H c.function c.this st rs).both_bind fun v => ?_
  rintro m _ rfl
  exact .ok rfl

/-- The instructions of a callee find it, and do what its call does. -/
theorem Callee.code_agrees (H : BodiesAgree keeps run run') (callee : Callee) :
    Lockstep GivenUp (At st rs) (Replaced st rs) Near (callee.invoke run st)
      (actAll run' callee.code) := by
  unfold Callee.invoke
  cases callee with
  | function name =>
    show Lockstep _ _ _ _ _ (actAll run' [_])
    rw [actAll_single, act_call]
    simp only [Callee.find, bind_assoc, pure_bind]
    refine (functionNamed_commutes _ name).lockstep.bind fun f f' => ?_
    rintro m t ⟨rfl, ht⟩
    exact Invoked.call_agrees H ⟨f, none, none⟩ m t ht
  | method receiver name =>
    show Lockstep _ _ _ _ _ (actAll run' (receiver.code ++ [_]))
    rw [actAll_append, actAll_single, act_callMethod]
    simp only [Callee.find, bind_assoc, pure_bind]
    refine (receiver.evaluate_agrees H st rs).bind fun object _ => .of_step (taking object) ?_
    refine (methodOf_commutes _ ("#" ++ name) object).lockstep.bind fun method method' => ?_
    rintro m t ⟨rfl, ht⟩
    exact Invoked.call_agrees H ⟨method.1, some method.2, none⟩ m t ht
  | constructor className =>
    show Lockstep _ _ _ _ _ (actAll run' [_])
    rw [actAll_single, act_create]
    simp only [Callee.find, bind_assoc]
    refine (makeObject_commutes _ className).lockstep.bind fun made _ => ?_
    rintro m t ⟨rfl, ht⟩
    obtain ⟨this, init⟩ := made
    cases init with
    | some f => exact Invoked.call_agrees H ⟨f, some this, some (.object this)⟩ m t ht
    | none =>
      obtain rfl := ht
      exact .ok rfl

/-- The code of a node evaluates the arguments, and then does what its callee does above them. -/
theorem Expr.invocation_agrees (H : BodiesAgree keeps run run') {e : Expr} {callee : Callee}
    {args : List Expr} (h : e.invocation? = some (callee, args)) :
    Lockstep GivenUp (At st rs)
      (fun r m _ t => Replaced (r.1.reverse ++ st) rs r.2 m () t) Near
      (do
        let values ← Expr.evaluateAll run args
        let r ← callee.invoke run (values.reverse ++ st)
        return (values, r))
      (actAll run' e.code) := by
  rw [Expr.code_of_invocation? h, actAll_append]
  refine (Expr.evaluateAll_agrees H st rs args).bind fun values _ => ?_
  exact (callee.code_agrees H).map_left fun _ _ _ _ h => h

/-! ### Calls by the limit on their steps -/

theorem Expr.evaluateAll_length {args : List Expr} {values : List Value} {s t : Machine Block}
    (h : Expr.evaluateAll run args s = .ok values t) : values.length = args.length := by
  induction args generalizing values s t with
  | nil =>
    cases h
    rfl
  | cons e es ih =>
    obtain ⟨v, s₁, -, h⟩ := ok_of_bind h
    obtain ⟨vs, s₂, hvs, h⟩ := ok_of_bind h
    cases h
    exact congrArg (· + 1) (ih hvs)

theorem Machine.callOn_below (h : ∀ b, Below (run b) (run' b)) (f : Function Block)
    (this : Option Nat) (stack : List Value) :
    Below (callOn run f this stack) (callOn run' f this stack) := by
  intro m
  unfold callOn
  by_cases hd : m.maxDepth ≤ m.callers.length
  · exact .inr (by rw [if_pos hd, if_pos hd])
  by_cases ha : stack.length < f.arity
  · exact .inr (by rw [if_neg hd, if_neg hd, if_pos ha, if_pos ha])
  simp only [if_neg hd, if_neg ha]
  rcases h f.body (m.begun this (stack.take f.arity).reverse) with ⟨m', h'⟩ | h'
  · rw [h']
    exact .inl ⟨_, rfl⟩
  · rw [h']
    exact .inr rfl

/-- A call above too few values fails; that it is nested too deep is found first. -/
theorem Machine.callOn_of_short {f : Function Block} {stack : List Value}
    (h : stack.length < f.arity) (this : Option Nat) (m : Machine Block) :
    callOn run f this stack m = .error (.fault
      (if m.maxDepth ≤ m.callers.length then .tooDeep f.name else .missingArguments f.name)) m := by
  unfold callOn
  by_cases hd : m.maxDepth ≤ m.callers.length
  · rw [if_pos hd, if_pos hd]
  · rw [if_neg hd, if_pos h, if_neg hd]

/-- The values of arguments. -/
def Expr.argumentValues (args : List Expr) : Bounded (Machine Block) (List Value) :=
  ⟨fun n => Expr.evaluateAll (evaluating n) args,
    fun n => Expr.evaluateAll_below (executing_rises directInPlace_rising n) args⟩

/-- What is called. -/
def Callee.finding (callee : Callee) : Bounded (Machine Block) Invoked where
  run n := callee.find (evaluating n)
  rises n := by
    cases callee with
    | method receiver name =>
      exact (receiver.evaluate_below (executing_rises directInPlace_rising n)).bind fun _ => .refl _
    | _ => exact .refl _

/-- The value of a call whose arguments are on a stack. -/
def Invoked.valuing (invoked : Invoked) (stack : List Value) : Bounded (Machine Block) Value where
  run n := invoked.value (evaluating n) stack
  rises n := by
    cases invoked with
    | call c =>
      exact (callOn_below (executing_rises directInPlace_rising n) c.function c.this stack).bind
        fun _ => .refl _
    | object v => exact .refl _

/-- The evaluation of a call is not given up: whatever is called in it passes as many arguments as
its function takes. -/
def Invoked.Counted (invoked : Invoked) (stack : List Value) (t : Machine Block) : Prop :=
  ∀ n t', (invoked.valuing stack).run n t ≠ .error .abandoned t'

/-! ### Nodes in code -/

/-- Code without jumps ends as the effects of its instructions do. -/
theorem running_acts_ends_iff {marking : Marking} (m : Measure) {c : Code} (h : Acts c)
    {s : Machine Block} {r : Result Stop Machine Flow} :
    Ends (running m c).run ((compiled keeps marking).see s) r ↔
      ∃ r', Ends (effectingAll keeps marking c >>= fun _ => pure Flow.done).run s r' ∧
        r = mapState (compiled keeps marking).see r' := by
  refine Tracks.ends_iff fun k => ?_
  have htracks := running_acts_tracks (bodies_track keeps marking k) m h
  exact ⟨fun n hn => htracks.below n (Nat.le_succ_of_le hn), htracks.reaches⟩

section
variable {e : Expr} {callee : Callee} {args : List Expr} {s t₁ t : Machine Block}
  {values : List Value} {invoked : Invoked}

/-- At a limit at which the arguments have their values and the callee is found, the code of a node
does what the call does. -/
theorem Expr.invocation_alike (hcall : e.invocation? = some (callee, args)) {n : Nat}
    (hargs : (Expr.argumentValues args).run n s = .ok values t₁)
    (hfind : callee.finding.run n t₁ = .ok invoked t) :
    Alike GivenUp
      (fun v m _ t' => At (v :: (values.reverse ++ s.stack).drop invoked.arity) s.recordings m t')
      Near ((invoked.valuing (values.reverse ++ s.stack)).run n t)
      ((effectingAll keeps .inPlace e.code).run n s) := by
  have hbodies : BodiesAgree keeps (evaluating n) (instructing keeps n) := evaluating_agrees n
  have h := Expr.invocation_agrees hbodies hcall s s (At.self s)
  have hargs' : Expr.evaluateAll (evaluating n) args s = .ok values t₁ := hargs
  have hfind' : callee.find (evaluating n) t₁ = .ok invoked t := hfind
  rw [bind_of_ok hargs', Callee.invoke, bind_assoc, bind_of_ok hfind'] at h
  show Alike _ _ _ (invoked.value (evaluating n) _ t) (actAll (instructing keeps n) e.code s)
  generalize hv : invoked.value (evaluating n) (values.reverse ++ s.stack) t = r at h ⊢
  cases r with
  | ok v u =>
    rw [bind_assoc, bind_of_ok hv] at h
    generalize actAll (instructing keeps n) e.code s = r' at h ⊢
    cases h with
    | ok h => exact .ok h
  | error stop u =>
    rw [bind_assoc, bind_of_error hv] at h
    generalize actAll (instructing keeps n) e.code s = r' at h ⊢
    cases h with
    | exempt h => exact .exempt h
    | error h => exact .error h

/-- What a node does that calls, with its code anywhere in other code.  Let the arguments have been
evaluated and the callee found, and call the stack above which this happened with the arguments on
it `stack`.  If there are too few values for the call on the whole of `stack`, then the run fails.
If the call returns, then its value is put on what is left of `stack` without as many values as the
callee takes, and the run goes on behind the node.  So if there are as many arguments as that, these
and no other values are taken. -/
theorem call_takes_its_arity (keeps : Bool) (m : Measure) (P Q : Code)
    (hcall : e.invocation? = some (callee, args))
    (hargs : Ends (Expr.argumentValues args).run s (.ok values t₁))
    (hfind : Ends callee.finding.run t₁ (.ok invoked t)) :
    let stack := values.reverse ++ s.stack
    let start := (compiled keeps .inPlace).see s
    let host := P ++ e.code ++ Q
    values.length = args.length ∧
      (stack.length < invoked.arity →
        ∃ t', Ends (runningAt m host P.length).run start (.error (.fault
          (if t.maxDepth ≤ t.callers.length then .tooDeep invoked.name
            else .missingArguments invoked.name)) t')) ∧
      (∀ flow t', Ends (running m e.code).run start (.ok flow t') → invoked.Counted stack t →
        (∃ v, t'.stack = v :: stack.drop invoked.arity) ∧
          ∀ r, Ends (runningAt m host P.length).run start r ↔
            Ends (runningAt m host (P.length + e.code.length)).run t' r) ∧
      (args.length = invoked.arity → stack.drop invoked.arity = s.stack) := by
  intro stack start host
  obtain ⟨⟨na, hna⟩, -⟩ := hargs
  obtain ⟨⟨nf, hnf⟩, -⟩ := hfind
  have hlength : values.length = args.length := Expr.evaluateAll_length hna
  have hwithin : Follows (runningAt m host P.length) _ := running_within (.of_acts e.code_acts) P Q
  have halike : ∀ n, na ≤ n → nf ≤ n →
      Alike GivenUp (fun v u _ t' => At (v :: stack.drop invoked.arity) s.recordings u t') Near
        ((invoked.valuing stack).run n t) ((effectingAll keeps .inPlace e.code).run n s) :=
    fun n ha hf => Expr.invocation_alike hcall
      ((Expr.argumentValues args).run_le ha hna not_exhausted_ok)
      (callee.finding.run_le hf hnf not_exhausted_ok)
  refine ⟨hlength, fun hshort => ?_, fun flow t' hreturns hcounted => ?_, fun hsame => ?_⟩
  · cases invoked with
    | object v => exact absurd hshort (Nat.not_lt_zero _)
    | call c =>
      let n := max na nf
      have hn := halike n (Nat.le_max_left na nf) (Nat.le_max_right na nf)
      have hfails : callOn (evaluating n) c.function c.this stack t = _ :=
        callOn_of_short hshort c.this t
      have hvalue : ((Invoked.call c).valuing stack).run n t = _ := bind_of_error hfails
      rw [hvalue] at hn
      generalize hrun : (effectingAll keeps .inPlace e.code).run n s = r at hn
      cases hn with
      | exempt h => cases h
      | error h =>
        rename_i u
        have hends : Ends (running m e.code).run start _ :=
          (running_acts_ends_iff m e.code_acts).mpr
            ⟨_, Bounded.ends_bind_of_error ⟨⟨n, hrun⟩, by simp⟩, rfl⟩
        exact ⟨_, hwithin.ends_iff.mpr (Bounded.ends_bind_of_error hends)⟩
  · obtain ⟨r, ⟨⟨n, hn⟩, -⟩, hsee⟩ := (running_acts_ends_iff m e.code_acts).mp hreturns
    cases r with
    | error stop u => cases hsee
    | ok flow' u =>
      obtain ⟨⟨⟩, u', hacts, hdone⟩ := ok_of_bind (f := fun _ => (pure Flow.done : Effect _ _)) hn
      cases hdone
      cases hsee
      refine ⟨?_, fun r => hwithin.ends_iff.trans (Bounded.ends_bind_of_ok hreturns)⟩
      let k := max (max na nf) n
      have hk := halike k (by omega) (by omega)
      rw [(effectingAll keeps .inPlace e.code).run_le (by omega) hacts not_exhausted_ok] at hk
      generalize hvalue : (invoked.valuing stack).run k t = r at hk
      cases hk with
      | exempt h =>
        cases h
        exact absurd hvalue (hcounted k _)
      | ok h =>
        rename_i v u
        obtain rfl := h
        exact ⟨v, rfl⟩
  · show (values.reverse ++ s.stack).drop invoked.arity = s.stack
    rw [← hsame, ← hlength, ← List.length_reverse, List.drop_left]

end

/-- The result of a run without fault, with the stack that it leaves. -/
def left? {α β : Type} : Result Stop (Machine β) α → Option (α × List Value)
  | .ok a m => some (a, m.stack)
  | .error _ _ => none

theorem ok_of_left? {α β : Type} {r : Result Stop (Machine β) α} {a : α} {stack : List Value}
    (h : left? r = some (a, stack)) : ∃ m, r = .ok a m ∧ m.stack = stack := by
  cases r with
  | ok b m =>
    cases h
    exact ⟨m, rfl, rfl⟩
  | error e m => cases h

/-- A machine with a function that returns its argument, and with a value on the stack. -/
def Machine.withEcho : Machine Block :=
  let body := Block.mk 1 [.returns 1 (some (.variable 1 "a" (some (.param 1))))]
  { Machine.start 8 with
    stack := [.text "below"]
    functions := [("echo", 0)]
    heap := { (Heap.empty : Heap Block) with functions := #[⟨"echo", 1, [], body⟩] } }

/-- A call with one argument of a function that takes one leaves what is below. -/
theorem call_takes_its_arity_echo :
    let e := Expr.call 1 "echo" [.text 1 "x"]
    let start := (compiled false .inPlace).see .withEcho
    ∃ t', Ends (running .instructions e.code).run start (.ok .done t') ∧
      ∃ v, t'.stack = v :: start.stack := by
  intro e start
  let invoked := Invoked.call ⟨Machine.withEcho.heap.function 0, none, none⟩
  have hcall : e.invocation? = some (.function "echo", [.text 1 "x"]) := rfl
  have hargs : Ends (Expr.argumentValues [.text 1 "x"]).run .withEcho
      (.ok [.text "x"] .withEcho) := ⟨⟨1, rfl⟩, not_exhausted_ok⟩
  have hfind : Ends (Callee.function "echo").finding.run .withEcho (.ok invoked .withEcho) :=
    ⟨⟨1, rfl⟩, not_exhausted_ok⟩
  obtain ⟨-, -, hreturns, hsame⟩ :=
    call_takes_its_arity false .instructions [] [] hcall hargs hfind
  have hcounted : invoked.Counted [.text "x", .text "below"] .withEcho :=
    (invoked.valuing [.text "x", .text "below"]).ne_abandoned_of_ok (n := 2) rfl
  have hdone : left? ((running .instructions e.code).run 8 start) =
      some (.done, [.text "x", .text "below"]) := by decide +kernel
  obtain ⟨t', hrun, -⟩ := ok_of_left? hdone
  have hends : Ends (running .instructions e.code).run start (.ok .done t') :=
    ⟨⟨8, hrun⟩, not_exhausted_ok⟩
  obtain ⟨v, hv⟩ := (hreturns .done t' hends hcounted).1
  exact ⟨t', hends, v, hv.trans (congrArg (v :: ·) (hsame rfl))⟩

/-- A call without its argument takes the left operand of the operation around it, which then has
none, and a call with an argument too many leaves it behind. -/
theorem miscounted_calls_touch_other_values :
    let short := Compiler.standard.compile [] "func f(a) \x7b\nreturn a\n\x7d\nprint 1 + f()"
    let long := Compiler.standard.compile [] "func f() \x7b\n\x7d\nprint f(1)"
    let code := short.root.generate dropValue
    let code' := long.root.generate dropValue
    Compiler.standard.generate short = .ok code ∧ Compiler.standard.generate long = .ok code' ∧
      (∃ m, Ends (fun n => runFor n code) (.start defaultMaxDepth)
        (.error (.fault .stackUnderflow) m)) ∧
      ∃ m, Ends (fun n => runFor n code') (.start defaultMaxDepth) (.ok () m) ∧
        m.stack = [.number 1.0] := by
  intro short long code code'
  have hshort : short.diagnostics = [] ∧
      fault? (runFor 20 code (.start defaultMaxDepth)) = some .stackUnderflow := by
    simp only [code, short, Compiler.compile_eq]
    decide +kernel
  have hlong : long.diagnostics = [] ∧
      left? (runFor 20 code' (.start defaultMaxDepth)) = some ((), [.number 1.0]) := by
    simp only [code', long, Compiler.compile_eq]
    decide +kernel
  obtain ⟨hshort, hfault⟩ := hshort
  obtain ⟨hlong, hstack⟩ := hlong
  refine ⟨Compiler.generate_of_eq_nil hshort, Compiler.generate_of_eq_nil hlong, ?_, ?_⟩
  · obtain ⟨m, hm⟩ := error_of_fault? hfault
    refine ⟨m, ⟨20, hm⟩, ?_⟩
    rw [exhausted_error_iff]
    intro h
    cases h
  · obtain ⟨m, hm, hst⟩ := ok_of_left? hstack
    exact ⟨m, ⟨⟨20, hm⟩, not_exhausted_ok⟩, hst⟩

end StackScript
