import StackScript.Proofs.Acting

/-!
# StackScript.Proofs.Compiled — code does what its tree does

The code of a tree tracks the execution of the tree by its structure, for every kind of statement
and at the top of a program as well as in recorded code.  The outer induction is on the limit, for
calls, and the inner one follows the tree.
-/

namespace StackScript

open EStateM (Result)
open Instruction Code Machine

variable {keeps : Bool} {marking : Marking} {k : Nat} {m : Measure}

/-! ### Execution by structure as a bounded computation -/

section
variable (keeps : Bool) (marking : Marking)

/-- The basis at a limit, with bodies that are executed in the same way. -/
def level (n : Nat) : Basis Block := onStack keeps marking n (executing (onStack keeps marking) n)

theorem level_inStep (n : Nat) :
    Basis.InStep UsedUp Eq Eq (level keeps marking n) (level keeps marking (n + 1)) :=
  onStack_rising keeps marking n _ _ (executing_rises (onStack_rising keeps marking) n)

/-- The execution of a statement. -/
def Stmt.following (s : Stmt) : Bounded (Machine Block) Flow :=
  ⟨fun n => s.execute (level keeps marking n) n, fun n => below_iff_lockstep.mpr
    (s.execute_lockstep (level_inStep keeps marking n) (.inr ⟨rfl, Nat.le_succ n⟩))⟩

/-- The execution of what follows the body of an `if`. -/
def Rest.following (r : Rest) : Bounded (Machine Block) Flow :=
  ⟨fun n => r.execute (level keeps marking n) n, fun n => below_iff_lockstep.mpr
    (r.execute_lockstep (level_inStep keeps marking n) (.inr ⟨rfl, Nat.le_succ n⟩))⟩

/-- The execution of a block. -/
def Block.following (b : Block) : Bounded (Machine Block) Flow :=
  ⟨fun n => b.execute (level keeps marking n) n, fun n => below_iff_lockstep.mpr
    (b.execute_lockstep (level_inStep keeps marking n) (.inr ⟨rfl, Nat.le_succ n⟩))⟩

/-- The execution of statements from first to last. -/
def Stmt.followingAll (ss : List Stmt) : Bounded (Machine Block) Flow :=
  ⟨fun n => Stmt.executeAll (level keeps marking n) n ss, fun n => below_iff_lockstep.mpr
    (Stmt.executeAll_lockstep (level_inStep keeps marking n) (.inr ⟨rfl, Nat.le_succ n⟩) ss)⟩

end

theorem Block.structured_eq (b : Block) :
    b.structured keeps marking = (b.following keeps marking).later := by
  ext n s
  cases n <;> rfl

theorem Stmt.followingAll_cons (s : Stmt) (ss : List Stmt) :
    Stmt.followingAll keeps marking (s :: ss) =
      (s.following keeps marking >>= continuing (Stmt.followingAll keeps marking ss)) := by
  ext n t
  refine congrFun (congrArg (s.execute _ n >>= ·) (funext fun flow => ?_)) t
  cases flow <;> rfl

/-- A branch makes the effects of its condition and does one of two things. -/
theorem test_choosing (e : Expr) (A B : Bounded (Machine Block) Flow) (n : Nat) :
    (do if ← (level keeps marking n).test e then A.run n else B.run n) =
      (effectingAll keeps marking e.code >>= fun _ => choosing A B).run n := by
  show (actAll _ e.code >>= fun _ => takeTruth) >>= _ =
    actAll _ e.code >>= fun _ => takeTruth >>= _
  rw [bind_assoc]
  refine congrArg (_ >>= ·) (funext fun _ => congrArg (_ >>= ·) (funext fun t => ?_))
  cases t <;> rfl

theorem Stmt.following_branch (line : Nat) (e : Expr) (body : Block) (rest : Rest) :
    (Stmt.branch line e body rest).following keeps marking =
      (effectingAll keeps marking e.code >>= fun _ =>
        choosing (body.following keeps marking) (rest.following keeps marking)) :=
  Bounded.ext fun n s => congrFun
    (test_choosing e (body.following keeps marking) (rest.following keeps marking) n) s

theorem Rest.following_elseIf (line : Nat) (e : Expr) (body : Block) (rest : Rest) :
    (Rest.elseIf line e body rest).following keeps marking =
      (effectingAll keeps marking e.code >>= fun _ =>
        choosing (body.following keeps marking) (rest.following keeps marking)) :=
  Bounded.ext fun n s => congrFun
    (test_choosing e (body.following keeps marking) (rest.following keeps marking) n) s

/-- Rounds whose condition is done are those of a test. -/
theorem rounds_eq_repeating {β : Type} (x : Effect β Unit) (body : Effect β Flow) (n : Nat) :
    rounds (do x; return .done) body n = repeating (do x; takeTruth) body n := by
  induction n with
  | zero => rfl
  | succ n ih =>
    rw [rounds, repeating, Machine.round, ← ih, bind_assoc, bind_assoc]
    refine congrArg (x >>= ·) (funext fun _ => ?_)
    rw [pure_bind]
    refine congrArg (takeTruth >>= ·) (funext fun t => ?_)
    cases t with
    | false => rfl
    | true =>
      refine congrArg (body >>= ·) (funext fun flow => ?_)
      cases flow <;> rfl

theorem Stmt.following_loop (line : Nat) (e : Expr) (body : Block) :
    (Stmt.loop line e body).following keeps marking =
      looping (effectingAll keeps marking e.code >>= fun _ => pure .done)
        (body.following keeps marking) :=
  Bounded.ext fun n s => (congrFun (rounds_eq_repeating _ _ n) s).symm

/-! ### Constructs -/

/-- The code of a condition, and what a branch does behind it. -/
theorem condition_tracks {c : Code} (H : BodiesTrack keeps marking k) (hc : Acts c)
    {A : Bounded Machine Flow} {B : Bounded (Machine Block) Flow}
    (h : Tracks (compiled keeps marking).see (k + 1) k A B) :
    Tracks (compiled keeps marking).see (k + 1) k (running m c >>= continuing A)
      (effectingAll keeps marking c >>= fun _ => B) := by
  have h' := (running_acts_tracks H m hc).bind (F := continuing A) (G := continuing B) fun flow =>
    by
      cases flow with
      | done => exact h
      | _ => exact .pure _
  rwa [Bounded.bind_assoc] at h'

theorem choosing_tracks {A A' : Bounded Machine Flow} {B B' : Bounded (Machine Block) Flow}
    (h : Tracks (compiled keeps marking).see (k + 1) k A B)
    (h' : Tracks (compiled keeps marking).see (k + 1) k A' B') :
    Tracks (compiled keeps marking).see (k + 1) k (choosing A A') (choosing B B') := by
  have hs : ∀ st, (compiled keeps marking).stack st = st := fun _ => rfl
  refine (Tracks.of_commutes (takeTruth_commutes hs)).bind fun t => ?_
  cases t with
  | true => exact h
  | false => exact h'

/-- Code without jumps before other code. -/
theorem acts_append_tracks {c d : Code} (H : BodiesTrack keeps marking k) (hc : Acts c)
    (hd : Closed m d) {B : Bounded (Machine Block) Flow}
    (h : Tracks (compiled keeps marking).see (k + 1) k (running m d) B) :
    Tracks (compiled keeps marking).see (k + 1) k (running m (c ++ d))
      (effectingAll keeps marking c >>= fun _ => B) :=
  (condition_tracks H hc h).of_follows (running_append (.of_acts hc) hd)

/-- A recorded body before other code. -/
theorem recorded_append_tracks (b : Block) {d : Code} (hd : Closed m d)
    {B : Bounded (Machine Block) Flow}
    (h : Tracks (compiled keeps marking).see (k + 1) k (running m d) B) :
    Tracks (compiled keeps marking).see (k + 1) k
      (running m (recorded ((b.mark marking).code (discarding keeps) .slots) ++ d))
      (.of (keepRecording b) >>= fun _ => B) := by
  have hb := ((b.mark marking).code_closed (discarding_acts keeps) .slots).balanced
  have hr : ∀ rs, (compiled keeps marking).recordings rs = rs.map (compiled keeps marking).body :=
    fun _ => rfl
  exact ((Tracks.of_commutes (keepRecording_commutes hr b)).bind fun _ => h).of_follows
    (running_recorded hb hd)

/-! ### Members of classes -/

/-- The effects that put the members of a class. -/
def puttingMembers (keeps : Bool) (marking : Marking) (className : String) (ss : List Stmt) :
    Bounded (Machine Block) Unit :=
  ⟨fun n => Stmt.putMembers (executing (onStack keeps marking) n) className ss, fun n =>
    below_iff_lockstep.mpr (Stmt.putMembers_lockstep eq_tolerant (fun b =>
      below_iff_lockstep.mp (executing_rises (onStack_rising keeps marking) n b)) className ss)⟩

theorem puttingMembers_cons (className : String) (s : Stmt) (ss : List Stmt)
    {A : Bounded (Machine Block) Unit}
    (h : ∀ n, s.putMember (executing (onStack keeps marking) n) className = A.run n) :
    puttingMembers keeps marking className (s :: ss) =
      (A >>= fun _ => puttingMembers keeps marking className ss) := by
  ext n t
  show (s.putMember _ className >>= fun _ => _) t = (A.run n >>= fun _ => _) t
  rw [h]
  rfl

/-- The codes of the members of a class before other code. -/
theorem members_tracks (H : BodiesTrack keeps marking k) (className : String) (ss : List Stmt)
    {c : Code} (hc : Closed m c) {B : Bounded (Machine Block) Flow}
    (h : Tracks (compiled keeps marking).see (k + 1) k (running m c) B) :
    Tracks (compiled keeps marking).see (k + 1) k
      (running m ((Stmt.memberCodesAll (discarding keeps) className
        (Stmt.markAll marking ss)).flatten ++ c))
      (puttingMembers keeps marking className ss >>= fun _ => B) := by
  induction ss with
  | nil => exact h
  | cons s ss ih =>
    let tail := (Stmt.memberCodesAll (discarding keeps) className (Stmt.markAll marking ss)).flatten
    have htail : Closed m (tail ++ c) := (flatten_closed
      (Stmt.memberCodesAll_closed (discarding_acts keeps) m className _)).append hc
    have hvalue : ∀ {d : Code}, Acts d →
        (∀ n, s.putMember (executing (onStack keeps marking) n) className =
          (effectingAll keeps marking d).run n) →
        Tracks (compiled keeps marking).see (k + 1) k (running m (d ++ tail ++ c))
          (puttingMembers keeps marking className (s :: ss) >>= fun _ => B) := by
      intro d hd hs
      rw [puttingMembers_cons className s ss hs, Bounded.bind_assoc, List.append_assoc]
      exact acts_append_tracks H hd htail ih
    have hnone : (∀ n, s.putMember (executing (onStack keeps marking) n) className = pure ()) →
        Tracks (compiled keeps marking).see (k + 1) k (running m (tail ++ c))
          (puttingMembers keeps marking className (s :: ss) >>= fun _ => B) := by
      intro hs
      rw [puttingMembers_cons (A := pure ()) className s ss hs]
      exact ih
    cases s with
    | declare line name init binding =>
      exact hvalue (.cons rfl (Expr.codeOrNull_acts init)) fun _ => rfl
    | assign line name value binding =>
      have hcode := value.withTarget_code (marking name binding value)
      have hv := hvalue (.cons rfl value.code_acts) fun _ => rfl
      rw [← hcode] at hv
      exact hv
    | setField line receiver name value => exact hvalue (.cons rfl value.code_acts) fun _ => rfl
    | function line name params body =>
      have hend : Acts [putConstant (.integer params.length),
          withName .makeFunction (className ++ "#" ++ name), putText (methodKey name),
          plain .lastFunction] := .cons rfl (.cons rfl (.cons rfl (acts_single rfl)))
      have hbody := recorded_append_tracks body ((Closed.of_acts hend).append htail)
        (acts_append_tracks H hend htail ih)
      have hcode : functionCode (className ++ "#" ++ name) params.length
          ((body.mark marking).code (discarding keeps) .slots) ++
            [putText (methodKey name), plain .lastFunction] ++ tail ++ c =
          recorded ((body.mark marking).code (discarding keeps) .slots) ++
            ([putConstant (.integer params.length),
              withName .makeFunction (className ++ "#" ++ name), putText (methodKey name),
              plain .lastFunction] ++ (tail ++ c)) := by
        simp [functionCode]
      have hput : puttingMembers keeps marking className (.function line name params body :: ss) =
          ((.of (keepRecording body) >>= fun _ => effectingAll keeps marking
            [putConstant (.integer params.length),
              withName .makeFunction (className ++ "#" ++ name), putText (methodKey name),
              plain .lastFunction]) >>= fun _ => puttingMembers keeps marking className ss) :=
        puttingMembers_cons className _ ss fun _ => rfl
      rw [hput, Bounded.bind_assoc, Bounded.bind_assoc]
      rw [← hcode] at hbody
      exact hbody
    | _ => exact hnone fun _ => rfl

theorem memberCodesAll_length (className : String) (d : Code) (ss : List Stmt) :
    (Stmt.memberCodesAll d className (Stmt.markAll marking ss)).length =
      (Stmt.memberCodesAll [] className ss).length := by
  induction ss with
  | nil => rfl
  | cons s ss ih =>
    cases s with
    | declare | assign | setField | function => exact congrArg (· + 1) ih
    | _ => exact ih

theorem parentCode_acts (parent : Option String) : Acts (parentCode parent) := by
  cases parent with
  | none => exact .nil
  | some p => exact .cons rfl (acts_single rfl)

theorem class_tracks (H : BodiesTrack keeps marking k) (m : Measure) (line : Nat) (name : String)
    (parent : Option String) (members : Block) :
    Tracks (compiled keeps marking).see (k + 1) k
      (running m (classCode name parent
        ((members.mark marking).memberCodes (discarding keeps) name)))
      ((Stmt.classDecl line name parent members).following keeps marking) := by
  obtain ⟨l, ss⟩ := members
  have hend : Acts (parentCode parent ++
      [withNumber .makeMap (entryCount name parent (.mk l ss)), withName .makeClass name]) :=
    (parentCode_acts parent).append (.cons rfl (acts_single rfl))
  have h := members_tracks H name ss (.of_acts hend) (running_acts_tracks H m hend)
  have hcode : classCode name parent
      (((Block.mk l ss).mark marking).memberCodes (discarding keeps) name) =
        (Stmt.memberCodesAll (discarding keeps) name (Stmt.markAll marking ss)).flatten ++
          (parentCode parent ++ [withNumber .makeMap (entryCount name parent (.mk l ss)),
            withName .makeClass name]) := by
    rw [classCode_eq, entryCount]
    show _ ++ (_ ++ [withNumber .makeMap ↑((Stmt.memberCodesAll _ name _).length + _), _]) = _
    rw [memberCodesAll_length]
    rfl
  rw [← Bounded.bind_assoc] at h
  rw [hcode]
  exact h

/-! ### Jumps -/

theorem giveBack_closed (m : Measure) : Closed m [plain .giveBack] :=
  .single rfl rfl (by intro h; cases h)

/-- The end of a `return` takes its value. -/
theorem running_giveBack (m : Measure) :
    Follows (running m [plain .giveBack]) (.of take >>= fun v => pure (.gaveBack v)) := by
  have h : Follows (running m [plain .giveBack])
      (stepping m [plain .giveBack] 0 (plain .giveBack) >>= proceeding m [plain .giveBack]) :=
    runningAt_follows rfl
  have hstep : stepping m [plain .giveBack] 0 (plain .giveBack) =
      (.of take >>= fun v => pure (.out (.gaveBack v))) := rfl
  rwa [hstep, Bounded.bind_assoc] at h

/-- A jump that waits for its loop ends the code. -/
theorem running_jump (m : Measure) {o : Opcode} {flow : Flow}
    (ho : ∀ run limit code pc, advance run limit m code pc (jumpCode m o) = pure (.out flow)) :
    Follows (running m [jumpCode m o]) (pure flow) := by
  have h : Follows (running m [jumpCode m o])
      (stepping m [jumpCode m o] 0 (jumpCode m o) >>= proceeding m [jumpCode m o]) :=
    runningAt_follows rfl
  have hstep : stepping m [jumpCode m o] 0 (jumpCode m o) = pure (.out flow) :=
    Bounded.ext fun n s => congrFun
      (ho (fun c => runFrom .slots c n 0) n [jumpCode m o] 0) s
  rwa [hstep] at h

/-! ### Trees -/

mutual

theorem Stmt.code_tracks (H : BodiesTrack keeps marking k) (m : Measure) : (s : Stmt) →
    Tracks (compiled keeps marking).see (k + 1) k
      (running m ((s.mark marking).code (discarding keeps) m)) (s.following keeps marking)
  | .value e => running_acts_tracks H m (e.code_acts.append (discarding_acts keeps))
  | .declare _ name init binding =>
    running_acts_tracks H m ((Expr.codeOrNull_acts init).append (acts_single rfl))
  | .assign _ name value binding => running_acts_tracks H m (assignCode_acts name binding _)
  | .setField _ receiver _ value =>
    running_acts_tracks H m (((receiver.code_acts.append (acts_single rfl)).append
      value.code_acts).append (.cons rfl (acts_single rfl)))
  | .print _ value => running_acts_tracks H m (value.code_acts.append (acts_single rfl))
  | .branch line condition body rest => by
    rw [Stmt.following_branch]
    exact rest.branch_tracks H m condition
      ((body.mark marking).code_closed (discarding_acts keeps) m) (body.code_tracks H m)
  | .loop line condition body => by
    have hbody := (body.mark marking).code_closed (discarding_acts keeps) .slots
    have hrounds := Tracks.looping (takeTruth_commutes (v := compiled keeps marking) fun _ => rfl).eq
      ((actingAll_tracks H condition.code).bind fun _ => Tracks.pure Flow.done)
      (body.code_tracks H .slots)
    rw [Stmt.following_loop]
    cases m with
    | instructions =>
      exact hrounds.of_follows (running_recordedLoop_acts condition.code_acts hbody.balanced)
    | slots => exact hrounds.of_follows (running_skippingLoop condition.code_acts hbody)
  | .function _ name params body => by
    have hend : Acts [putConstant (.integer params.length), withName .makeFunction name] :=
      .cons rfl (acts_single rfl)
    exact recorded_append_tracks body (.of_acts hend) (running_acts_tracks H m hend)
  | .classDecl _ name parent members => class_tracks H m _ name parent members
  | .returns line value => by
    have hgive : Tracks (compiled keeps marking).see (k + 1) k (running m [plain .giveBack])
        (.of take >>= fun v => pure (.gaveBack v)) :=
      ((Tracks.of_commutes (take_commutes fun _ => rfl)).bind fun v => .pure _).of_follows
        (running_giveBack m)
    have h := acts_append_tracks H (Expr.codeOrNull_acts value) (giveBack_closed m) hgive
    rwa [← Bounded.bind_assoc] at h
  | .continues _ => (Tracks.pure Flow.next).of_follows (running_jump m (by
    cases m <;> exact fun _ _ _ _ => rfl))
  | .breaks _ => (Tracks.pure Flow.leave).of_follows (running_jump m (by
    cases m <;> exact fun _ _ _ _ => rfl))
  | .free _ _ _ => running_acts_tracks H m (acts_single rfl)

theorem Rest.branch_tracks (H : BodiesTrack keeps marking k) (m : Measure) (e : Expr)
    {body : Code} (hb : Closed m body) {B : Bounded (Machine Block) Flow}
    (h : Tracks (compiled keeps marking).see (k + 1) k (running m body) B) : (r : Rest) →
    Tracks (compiled keeps marking).see (k + 1) k
      (running m (branchCode m e.code body ((r.mark marking).code (discarding keeps) m)))
      (effectingAll keeps marking e.code >>= fun _ => choosing B (r.following keeps marking))
  | .nothing =>
    (condition_tracks H e.code_acts (choosing_tracks h (.pure _))).of_follows
      (running_branch (.of_acts e.code_acts) hb)
  | .elseIf line condition block rest => by
    have hblock := (block.mark marking).code_closed (discarding_acts keeps) m
    have hrest := rest.branch_tracks H m condition hblock (block.code_tracks H m)
    rw [Rest.following_elseIf]
    exact (condition_tracks H e.code_acts (choosing_tracks h hrest)).of_follows
      (running_branch_else (.of_acts e.code_acts) hb
        ((rest.mark marking).branch_closed (discarding_acts keeps) m (.of_acts condition.code_acts)
          hblock))
  | .otherwise block =>
    (condition_tracks H e.code_acts (choosing_tracks h (block.code_tracks H m))).of_follows
      (running_branch_else (.of_acts e.code_acts) hb
        ((block.mark marking).code_closed (discarding_acts keeps) m))

theorem Block.code_tracks (H : BodiesTrack keeps marking k) (m : Measure) : (b : Block) →
    Tracks (compiled keeps marking).see (k + 1) k
      (running m ((b.mark marking).code (discarding keeps) m)) (b.following keeps marking)
  | .mk _ statements => Stmt.codeAll_tracks H m statements

theorem Stmt.codeAll_tracks (H : BodiesTrack keeps marking k) (m : Measure) :
    (ss : List Stmt) → Tracks (compiled keeps marking).see (k + 1) k
      (running m (Stmt.codeAll (discarding keeps) m (Stmt.markAll marking ss)))
      (Stmt.followingAll keeps marking ss)
  | [] => (Tracks.pure Flow.done).of_follows (running_nil m)
  | s :: ss => by
    rw [Stmt.followingAll_cons]
    refine Tracks.of_follows (running_append ((s.mark marking).code_closed (discarding_acts keeps) m)
      (Stmt.codeAll_closed (discarding_acts keeps) m _)) ?_
    refine (s.code_tracks H m).bind fun flow => ?_
    cases flow with
    | done => exact Stmt.codeAll_tracks H m ss
    | _ => exact .pure _

end

/-! ### Programs -/

theorem bodies_track (keeps : Bool) (marking : Marking) (k : Nat) :
    BodiesTrack keeps marking k := by
  induction k with
  | zero =>
    intro b
    refine ⟨fun n hn => ?_, fun n hn => ?_⟩
    · obtain rfl : n = 0 := Nat.le_zero.mp hn
      exact .of_exhausted fun s => ⟨s, rfl⟩
    · obtain rfl : n = 0 := Nat.le_zero.mp hn
      exact .of_exhausted fun s => ⟨s, rfl⟩
  | succ k ih =>
    intro b
    rw [Block.structured_eq]
    exact (b.code_tracks ih .slots).later_right

/-- The code of a program does what the execution of its tree does. -/
theorem Block.generate_tracks (keeps : Bool) (marking : Marking) (k : Nat) (b : Block) :
    Tracks (compiled keeps marking).see k k
      (running .instructions ((b.mark marking).generate (discarding keeps)))
      (b.structured keeps marking) := by
  have h := (b.code_tracks (bodies_track keeps marking k) .instructions).later_right
  rw [← Block.structured_eq] at h
  exact ⟨fun n hn => h.below n (by omega), fun n hn => h.reaches n (by omega)⟩

end StackScript
