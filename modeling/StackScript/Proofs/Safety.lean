import StackScript.Proofs.InPlaceMeaning
import StackScript.Proofs.Secure

/-!
# StackScript.Proofs.Safety — code of compiled programs is well formed when it runs

Code that is generated for a source never stops with a fault that only malformed code makes.  By the
simulation of the code by its tree this is a statement about the execution of scoped trees by
instructions: each construct keeps the machine ready for what comes after it, and what a body writes
stays written behind it.
-/

namespace StackScript

open EStateM (Result)
open Instruction Machine

variable {run : Block → Effect Block Flow}

/-! ### Expressions -/

theorem actAll_put_keeps (k : Nat) (o : Option Operand) : Keeps k k (actAll run [⟨.put, o⟩]) := by
  rw [actAll_single, act_put]
  exact .of_steady ((Steady.constant o).bind fun _ => .push _)

theorem actAll_single_keeps {k k' : Nat} {i : Instruction} {x : Effect Block Unit}
    (h : act run i = x) (hx : Keeps k k' x) : Keeps k k' (actAll run [i]) := by
  rw [actAll_single, h]
  exact hx

theorem actAll_append_keeps {k k' k'' : Nat} {c d : Code} (hc : Keeps k k' (actAll run c))
    (hd : Keeps k' k'' (actAll run d)) : Keeps k k'' (actAll run (c ++ d)) := by
  rw [actAll_append]
  exact hc.bind fun _ => hd

theorem Steady.performBinary (op : BinaryOp) : Steady (Machine.performBinary op) :=
  take.bind fun w => take.bind fun v => (compute op v w).bind fun _ => .push _

theorem actAll_put_made (run : Block → Effect Block Flow) {k : Nat} (s : String) :
    Secure (Made k) (act run (putText s)) fun _ => Made k := Made.push _

theorem actAll_member_keeps (k : Nat) : Keeps k k (actAll run [plain .getMember]) :=
  actAll_single_keeps (act_member run) (.of_steady (Steady.take.bind fun _ => Steady.take.bind
    fun _ => (Steady.member _ _).bind fun _ => .push _))

theorem actAll_this_keeps (k : Nat) : Keeps k k (actAll run [plain .this]) :=
  actAll_single_keeps (act_this run) (.of_steady (Steady.self.bind fun _ => .push _))

theorem actAll_pop_keeps (k : Nat) : Keeps k k (actAll run [plain .pop]) :=
  actAll_single_keeps (act_pop run) (.of_steady (Steady.take.bind fun _ => .pure _))

theorem actAll_map_keeps (k n : Nat) : Keeps k k (actAll run [withNumber .makeMap n]) :=
  actAll_single_keeps (act_map run n) (.of_steady ((Steady.takePairs n []).bind fun _ =>
    (Steady.newMap _).bind fun _ => .push _))

mutual

/-- The instructions of a scoped expression. -/
theorem Expr.code_keeps (H : BodiesKeep run) (k : Nat) :
    (e : Expr) → e.Scoped k → Keeps k k (actAll run e.code)
  | .number _ _, _ | .text _ _, _ | .boolean _ _, _ | .null _, _ => actAll_put_keeps k _
  | .this _, _ => actAll_this_keeps k
  | .super _, _ => by
    show Keeps k k (actAll run ([_] ++ ([_] ++ [_])))
    exact actAll_append_keeps (actAll_this_keeps k)
      (actAll_append_keeps (actAll_put_keeps k _) (actAll_member_keeps k))
  | .list _ items, h =>
    actAll_append_keeps (Expr.codeBackwards_keeps H k items h)
      (actAll_single_keeps (act_list run _) (.of_steady ((Steady.takeMany _).bind fun _ =>
        (Steady.newList _).bind fun _ => .push _)))
  | .map _ entries, h =>
    actAll_append_keeps (Expr.codePairs_keeps H k entries h) (actAll_map_keeps k _)
  | .variable _ name binding, h =>
    actAll_single_keeps (act_load run name binding)
      ((read_keeps_ready fun _ hp => placeFor_of_setBelow h name hp).bind fun _ =>
        .of_steady (.push _))
  | .field _ receiver name, h => by
    show Keeps k k (actAll run (receiver.code ++ ([_] ++ [_])))
    exact actAll_append_keeps (receiver.code_keeps H k h)
      (actAll_append_keeps (actAll_put_keeps k _) (actAll_member_keeps k))
  | .binary _ op left right _, h =>
    actAll_append_keeps
      (actAll_append_keeps (left.code_keeps H k h.1) (right.code_keeps H k h.2))
      (actAll_single_keeps (act_compute run op) (.of_steady (.performBinary op)))
  | .unary _ op operand, h =>
    actAll_append_keeps (operand.code_keeps H k h)
      (actAll_single_keeps (act_prefixed run op) (.of_steady (Steady.take.bind fun _ =>
        (Steady.computePrefix op _).bind fun _ => .push _)))
  | .call _ name args, h =>
    actAll_append_keeps (Expr.codeAll_keeps H k args h)
      (actAll_single_keeps (act_call run name)
        ((functionNamed_secure name).bind fun f => callingPut_secure H f none none))
  | .method _ receiver name args, h => by
    refine actAll_append_keeps (actAll_append_keeps (Expr.codeAll_keeps H k args h.1)
      (receiver.code_keeps H k h.2)) (actAll_single_keeps (act_callMethod run _) ?_)
    refine (Keeps.of_steady .take).bind fun object => ?_
    exact (methodOf_secure _ object).bind fun f => callingPut_secure H f.1 (some f.2) none
  | .create _ className args, h => by
    refine actAll_append_keeps (Expr.codeAll_keeps H k args h)
      (actAll_single_keeps (act_create run className) ?_)
    refine (makeObject_secure className).bind fun made => ?_
    obtain ⟨this, init⟩ := made
    cases init with
    | none => exact Secure.weaken (Keeps.of_steady (.push _)) (fun _ h => h.1) fun _ _ h => h
    | some f =>
      exact Secure.weaken (callingPut_secure H f (some this) (some (.object this)))
        (fun _ h => h.2 f rfl) fun _ _ h => h

theorem Expr.codeAll_keeps (H : BodiesKeep run) (k : Nat) :
    (es : List Expr) → Expr.ScopedAll k es → Keeps k k (actAll run (Expr.codeAll es))
  | [], _ => .pure ()
  | e :: es, h => actAll_append_keeps (e.code_keeps H k h.1) (Expr.codeAll_keeps H k es h.2)

theorem Expr.codeBackwards_keeps (H : BodiesKeep run) (k : Nat) :
    (es : List Expr) → Expr.ScopedAll k es → Keeps k k (actAll run (Expr.codeBackwards es))
  | [], _ => .pure ()
  | e :: es, h => actAll_append_keeps (Expr.codeBackwards_keeps H k es h.2) (e.code_keeps H k h.1)

theorem Expr.codePairs_keeps (H : BodiesKeep run) (k : Nat) :
    (es : List (Expr × Expr)) → Expr.ScopedPairs k es → Keeps k k (actAll run (Expr.codePairs es))
  | [], _ => .pure ()
  | (key, e) :: es, h =>
    actAll_append_keeps (actAll_append_keeps (key.code_keeps H k h.1) (e.code_keeps H k h.2.1))
      (Expr.codePairs_keeps H k es h.2.2)

end

theorem Expr.codeOrNull_keeps (H : BodiesKeep run) {k : Nat} {e : Option Expr}
    (h : Expr.ScopedOption k e) : Keeps k k (actAll run (Expr.codeOrNull e)) := by
  cases e with
  | none => exact actAll_put_keeps k none
  | some e => exact e.code_keeps H k (h e rfl)

/-! ### Statements without control -/

/-- What is stored in a slot is written from there on. -/
theorem store_keeps (k line : Nat) (name : String) (init : Option Expr)
    (binding : Option Binding) :
    Keeps k ((Stmt.declare line name init binding).setting k)
      (actAll run [⟨.store, some (targetOperand name binding)⟩]) := by
  refine actAll_single_keeps (act_store run name binding) ((Keeps.of_steady .take).bind fun v => ?_)
  rcases binding with _ | ⟨id⟩ | ⟨ordinal⟩ | _
  · exact write_keeps_ready k _ v
  · exact write_slot_keeps_ready k id v
  · exact write_keeps_ready k _ v
  · exact write_keeps_ready k _ v

/-- An assignment, which reads its variable first if it updates it in place. -/
theorem assignCode_keeps (H : BodiesKeep run) {k : Nat} {watched : Bool} {marking : Marking}
    (hm : marking.Watched watched) (name : String) (binding : Option Binding) {e : Expr}
    (h : e.Scoped k) :
    Keeps k k (actAll run (assignCode name binding (e.withTarget (marking name binding e)))) := by
  cases ht : marking name binding e with
  | none =>
    rw [assignCode_plain]
    refine actAll_append_keeps (e.code_keeps H k h) (actAll_single_keeps (act_store run name binding) ?_)
    exact (Keeps.of_steady .take).bind fun v => write_keeps_ready k _ v
  | some target =>
    obtain ⟨-, u, hu, rfl⟩ := hm name binding e target ht
    obtain ⟨line, line', t, rfl, rfl, hop⟩ := Expr.update?_eq_some hu
    obtain ⟨o, ho⟩ := BinaryOp.update?_of_updates hop
    have hcode : assignCode name (some u.target) ((Expr.binary line u.op
        (.variable line' name (some u.target)) u.right t).withTarget (some u.target)) =
          u.right.code ++ [⟨o, some (targetOperand name (some u.target))⟩] := by
      simp only [Expr.withTarget, assignCode, ho]
    rw [hcode]
    refine actAll_append_keeps (u.right.code_keeps H k h.2)
      (actAll_single_keeps (act_update run ho name _) ?_)
    refine (Keeps.of_steady .take).bind fun v =>
      (read_keeps_ready fun _ hp => placeFor_of_setBelow h.1 name hp).bind fun w => ?_
    exact (Keeps.of_steady (.compute u.op w v)).bind fun result => write_keeps_ready k _ result

theorem Stmt.putMember_keeps (H : BodiesKeep run) {k : Nat} (className : String) (s : Stmt)
    (h : s.Scoped k) : Keeps k k (s.putMember run className) := by
  cases s with
  | declare _ name init _ =>
    exact actAll_append_keeps (c := [_]) (actAll_put_keeps k _) (Expr.codeOrNull_keeps H h)
  | assign _ name e _ =>
    exact actAll_append_keeps (c := [_]) (actAll_put_keeps k _) (e.code_keeps H k h)
  | setField _ receiver name e =>
    exact actAll_append_keeps (c := [_]) (actAll_put_keeps k _) (e.code_keeps H k h.2)
  | function _ name params body =>
    show Keeps k k (keepRecording body >>= fun _ =>
      actAll run ([_, _] ++ ([putText (methodKey name)] ++ [plain .lastFunction])))
    rw [actAll_append, actAll_append, actAll_single, actAll_single, act_lastFunction,
      ← bind_assoc]
    refine (recorded_function_secure run h params.length _).bind fun _ => ?_
    refine (actAll_put_made run _).bind fun _ => latestFunction_secure.bind fun _ => ?_
    exact Keeps.of_steady (.push _)
  | _ => exact .pure ()

theorem Stmt.putMembers_keeps (H : BodiesKeep run) {k : Nat} (className : String) (ss : List Stmt)
    (h : Stmt.ScopedEach k ss) : Keeps k k (Stmt.putMembers run className ss) := by
  induction ss with
  | nil => exact .pure ()
  | cons s ss ih => exact (s.putMember_keeps H className h.1).bind fun _ => ih h.2

theorem parentCode_keeps (k : Nat) (parent : Option String) :
    Keeps k k (actAll run (parentCode parent)) := by
  cases parent with
  | none => exact .pure ()
  | some p => exact actAll_append_keeps (c := [_]) (actAll_put_keeps k _) (actAll_put_keeps k _)

/-- A statement that leads to the next one. -/
theorem Stmt.perform_keeps (H : BodiesKeep run) (keeps : Bool) {watched : Bool} {marking : Marking}
    (hm : marking.Watched watched) (k : Nat) (s : Stmt) (h : s.Scoped k) :
    Keeps k (s.setting k) (s.perform keeps marking run) := by
  cases s with
  | value e =>
    refine actAll_append_keeps (e.code_keeps H k h) ?_
    cases keeps with
    | true => exact .pure ()
    | false => exact actAll_pop_keeps k
  | declare line name init binding =>
    exact actAll_append_keeps (Expr.codeOrNull_keeps H h) (store_keeps k line name init binding)
  | assign _ name e binding => exact assignCode_keeps H hm name binding h
  | setField _ receiver name e =>
    show Keeps k k (actAll run (receiver.code ++ [_] ++ e.code ++ ([plain .setMember] ++ [plain .pop])))
    refine actAll_append_keeps (actAll_append_keeps (actAll_append_keeps
      (receiver.code_keeps H k h.1) (actAll_put_keeps k _)) (e.code_keeps H k h.2)) ?_
    refine actAll_append_keeps (actAll_single_keeps (act_setMember run) ?_) (actAll_pop_keeps k)
    exact .of_steady (Steady.take.bind fun _ => Steady.take.bind fun _ => Steady.take.bind
      fun _ => (Steady.writeMember _ _ _).bind fun _ => .push _)
  | print _ e =>
    exact actAll_append_keeps (e.code_keeps H k h)
      (actAll_single_keeps (act_print run) (.of_steady (Steady.take.bind fun _ => .print _)))
  | function _ name params body =>
    exact (recorded_function_secure run h params.length name).weaken (fun _ hm => hm)
      fun _ _ hm => hm.1
  | classDecl _ name parent members =>
    obtain ⟨line, ss⟩ := members
    refine (Stmt.putMembers_keeps H name ss h).bind fun _ => ?_
    refine actAll_append_keeps (d := [withNumber .makeMap _] ++ [withName .makeClass name])
      (parentCode_keeps k parent) (actAll_append_keeps (actAll_map_keeps k _) ?_)
    exact actAll_single_keeps (act_makeClass run name) (.of_steady (Steady.take.bind fun _ =>
      .defineClass name _))
  | free _ _ slot => exact actAll_single_keeps (act_clear run slot) (clearSlot_keeps_ready k slot)
  | branch | loop | returns | continues | breaks => exact .pure ()

/-! ### Control -/

/-- Rounds of a loop whose condition and body keep what is written. -/
theorem Machine.repeating_keeps {k : Nat} {test : Effect Block Bool} {body : Effect Block Flow}
    (ht : Keeps k k test) (hb : Keeps k k body) (n : Nat) : Keeps k k (repeating test body n) := by
  induction n with
  | zero => exact .throw Stop.sound_exhausted
  | succ n ih =>
    refine ht.bind fun t => ?_
    cases t with
    | false => exact .pure _
    | true =>
      refine hb.bind fun flow => ?_
      cases flow with
      | done | next => exact ih
      | leave | gaveBack => exact .pure _

section
variable {keeps watched : Bool} {marking : Marking} {n : Nat}

theorem onStack_test_keeps (H : BodiesKeep run) {k : Nat} {e : Expr} (h : e.Scoped k) :
    Keeps k k ((onStack keeps marking n run).test e) :=
  (e.code_keeps H k h).bind fun _ => .of_steady .takeTruth

mutual

theorem Stmt.execute_keeps (H : BodiesKeep run) (hm : marking.Watched watched) (k : Nat) :
    (s : Stmt) → s.Scoped k → Keeps k (s.setting k) (s.execute (onStack keeps marking n run) n)
  | .branch _ condition body rest, h => by
    refine (onStack_test_keeps H h.1).bind fun t => ?_
    cases t with
    | true => exact body.execute_keeps H hm k h.2.1
    | false => exact rest.execute_keeps H hm k h.2.2
  | .loop _ condition body, h =>
    repeating_keeps (onStack_test_keeps H h.1) (body.execute_keeps H hm k h.2) n
  | .returns _ value, h =>
    ((Expr.codeOrNull_keeps H h).bind fun _ => Keeps.of_steady .take).bind fun _ => .pure _
  | .continues _, _ | .breaks _, _ => .pure _
  | .value _, h | .declare _ _ _ _, h | .assign _ _ _ _, h | .setField _ _ _ _, h | .print _ _, h
  | .function _ _ _ _, h | .classDecl _ _ _ _, h | .free _ _ _, h =>
    (Stmt.perform_keeps H keeps hm k _ h).bind fun _ => .pure _

theorem Rest.execute_keeps (H : BodiesKeep run) (hm : marking.Watched watched) (k : Nat) :
    (r : Rest) → r.Scoped k → Keeps k k (r.execute (onStack keeps marking n run) n)
  | .nothing, _ => .pure _
  | .elseIf _ condition body rest, h => by
    refine (onStack_test_keeps H h.1).bind fun t => ?_
    cases t with
    | true => exact body.execute_keeps H hm k h.2.1
    | false => exact rest.execute_keeps H hm k h.2.2
  | .otherwise body, h => body.execute_keeps H hm k h

theorem Block.execute_keeps (H : BodiesKeep run) (hm : marking.Watched watched) (k : Nat) :
    (b : Block) → b.Scoped k → Keeps k k (b.execute (onStack keeps marking n run) n)
  | .mk _ statements, h => Stmt.executeAll_keeps H hm k statements h

theorem Stmt.executeAll_keeps (H : BodiesKeep run) (hm : marking.Watched watched) (k : Nat) :
    (ss : List Stmt) → Stmt.ScopedAll k ss →
      Keeps k k (Stmt.executeAll (onStack keeps marking n run) n ss)
  | [], _ => .pure _
  | s :: ss, h => by
    refine (s.execute_keeps H hm k h.1).bind fun flow => ?_
    cases flow with
    | done =>
      exact (Stmt.executeAll_keeps H hm _ ss h.2).weaken (s.le_setting k)
    | next | leave | gaveBack => exact (Keeps.pure _).weaken (s.le_setting k)

end

/-- The bodies of functions keep what is written, with any number of calls within each other. -/
theorem executing_keeps (hm : marking.Watched watched) (n : Nat) :
    BodiesKeep (executing (onStack keeps marking) n) := by
  induction n with
  | zero => exact fun k b _ => .throw Stop.sound_exhausted
  | succ n ih => exact fun k b h => b.execute_keeps ih hm k h

end

/-! ### Programs -/

/-- A scoped program stops for no fault of malformed code. -/
theorem executionProgram_secure (keeps : Bool) {watched : Bool} {marking : Marking}
    (hm : marking.Watched watched) {root : Block} (hroot : root.Scoped 0) (n : Nat) :
    Secure (Ready 0) ((executionProgram (onStack_rising keeps marking) root).run n)
      fun _ _ => True :=
  Secure.weaken ((executing_keeps hm n 0 root hroot).bind fun flow => .of_steady (.finish flow))
    (fun _ h => h) fun _ _ _ => trivial

theorem ready_start (maxDepth : Nat) : Ready 0 (.start maxDepth) :=
  ⟨Nat.zero_le _, fun f h => absurd h (Array.not_mem_empty f)⟩

/-- The code of a compilation is that of a scoped tree with the marks of its updates. -/
theorem Compiler.compile_root_scoped (c : Compiler) (globals : List String) (source : String) :
    ∃ root : Block, root.Scoped 0 ∧ (c.compile globals source).root = root.mark .inPlace := by
  unfold compile
  split
  · exact ⟨.mk 1 [], trivial, rfl⟩
  · exact ⟨_, Block.resolve_scoped _ _, rfl⟩

/-- For every source, and also with the values of statements kept, the code that is generated of its
tree with its marks never stops with a fault of malformed code: in no run is a recording missing,
does a skip lead into the middle of an instruction, does an instruction lack its operand, or is a
slot read that is not written. -/
theorem generated_code_is_sound (keeps : Bool) (globals : List String) (source : String)
    {code : Code} (hcode : (Compiler.chosen keeps).generate
      ((Compiler.chosen keeps).compile globals source) = .ok code)
    (maxDepth fuel : Nat) {f : Fault} {m : Machine}
    (hrun : runFor fuel code (.start maxDepth) = .error (.fault f) m) : f.malformed = false := by
  obtain ⟨root, hscoped, hroot⟩ := (Compiler.chosen keeps).compile_root_scoped globals source
  have hcode' : code = (root.mark .inPlace).generate (discarding keeps) := by
    rw [Compiler.eq_of_generate hcode, Compiler.chosen_discard, hroot]
  have houtcome := program_outcome keeps .inPlace root (.start maxDepth)
  rw [see_start, ← hcode'] at houtcome
  have hends : Ends (fun n => runFor n code) (.start maxDepth) (.error (.fault f) m) :=
    ⟨⟨fuel, hrun⟩, fun h => nomatch exhausted_error_iff.mp h⟩
  obtain ⟨r, ⟨⟨n, hr⟩, -⟩, hvisible⟩ := (houtcome.shows_iff _).mp ⟨_, hends, rfl⟩
  have hsecure := executionProgram_secure keeps Marking.inPlace_watched hscoped n
    (.start maxDepth) (ready_start maxDepth)
  cases r with
  | ok a t => cases hvisible
  | error e t =>
    rw [hr] at hsecure
    obtain rfl : e = .fault f := by
      injection hvisible
    exact hsecure f rfl

/-- The fault of a run, if it had one. -/
def fault? {β : Type} : Result Stop (Machine β) Unit → Option Fault
  | .error (.fault f) _ => some f
  | _ => none

theorem error_of_fault? {β : Type} {r : Result Stop (Machine β) Unit} {f : Fault}
    (h : fault? r = some f) : ∃ m, r = .error (.fault f) m := by
  unfold fault? at h
  split at h
  · rename_i f' m
    obtain rfl := Option.some.inj h
    exact ⟨m, rfl⟩
  · cases h

/-- A function with a loop over a local variable fails for the values that it computes. -/
theorem generated_code_is_sound_loop :
    let source := "func f(n) \x7b\nvar k = n\nwhile k < 3 \x7b\nk = k + 1\n\x7d\n" ++
      "return k - \"a\"\n\x7d\nprint f(2)"
    let compilation := (Compiler.chosen false).compile [] source
    let code := compilation.root.generate dropValue
    (Compiler.chosen false).generate compilation = .ok code ∧
      ∃ m, runFor 60 code (.start 8) = .error (.fault (.notNumber "SUB" .string)) m ∧
        (Fault.notNumber "SUB" .string).malformed = false := by
  intro source compilation code
  have hboth : compilation.diagnostics = [] ∧
      fault? (runFor 60 code (.start 8)) = some (.notNumber "SUB" .string) := by
    simp only [code, compilation, Compiler.compile_eq]
    decide +kernel
  obtain ⟨hdiagnostics, hfault⟩ := hboth
  have hcode : (Compiler.chosen false).generate compilation = .ok code :=
    Compiler.generate_of_eq_nil hdiagnostics
  obtain ⟨m, hm⟩ := error_of_fault? hfault
  exact ⟨hcode, m, hm, generated_code_is_sound false [] source hcode 8 60 hm⟩

end StackScript
