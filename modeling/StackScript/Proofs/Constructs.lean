import StackScript.Proofs.Embedding

/-!
# StackScript.Proofs.Constructs — what the pieces of generated code do

For each way in which code is put together, the run of the whole follows a computation made of the
runs of its parts: sequences, instructions that act, recordings and branches.
-/

namespace StackScript

open Instruction Code

namespace Machine

variable {m : Measure} {c d : Code}

/-- Goes on with `B` when code is done, and ends as the code did otherwise. -/
def continuing {σ : Type} (B : Bounded σ Flow) : Flow → Bounded σ Flow
  | .done => B
  | flow => pure flow

theorem continuing_follows {σ : Type} {A B : Bounded σ Flow} (h : Follows A B) (flow : Flow) :
    Follows (continuing A flow) (continuing B flow) := by
  cases flow with
  | done => exact h
  | _ => exact Follows.refl _

theorem continuing_done {σ : Type} : continuing (pure .done : Bounded σ Flow) = pure := by
  funext flow
  cases flow <;> rfl

theorem resuming_none (m : Measure) (host : Code) (stop : Nat) :
    resuming m host stop none = continuing (runningAt m host stop) := by
  funext flow
  cases flow <;> rfl

/-! ### Sequences -/

theorem running_nil (m : Measure) : Follows (running m []) (pure .done) := runningAt_end rfl

/-- Closed code at the end of other code. -/
theorem runningAt_tail (hd : Closed m d) (P : Code) :
    Follows (runningAt m (P ++ d) P.length) (running m d) := by
  have h := running_within hd P []
  rw [List.append_nil, resuming_none] at h
  have hend : Follows (runningAt m (P ++ d) (P.length + d.length)) (pure .done) :=
    runningAt_end (by simp)
  have h' := h.trans ((Follows.refl _).bind fun flow => continuing_follows hend flow)
  rwa [continuing_done, Bounded.bind_pure] at h'

/-- Closed code inside other code, which goes on behind it. -/
theorem runningAt_middle (hc : Closed m c) (P Q : Code) :
    Follows (runningAt m (P ++ c ++ Q) P.length)
      (running m c >>= continuing (runningAt m (P ++ c ++ Q) (P.length + c.length))) := by
  have h := running_within hc P Q
  rwa [resuming_none] at h

theorem running_append (hc : Closed m c) (hd : Closed m d) :
    Follows (running m (c ++ d)) (running m c >>= continuing (running m d)) := by
  have h := runningAt_middle hc [] d
  rw [List.nil_append, List.length_nil, Nat.zero_add] at h
  exact h.trans ((Follows.refl _).bind fun flow => continuing_follows (runningAt_tail hd c) flow)

/-! ### Instructions that act -/

/-- The effect of an instruction that does not jump. -/
def acted (i : Instruction) : Bounded Machine Unit :=
  ⟨fun n => act (fun c => runFrom .slots c n 0) i,
    fun n => act_below (fun c => runFrom_rises n .slots c 0) i⟩

/-- The step of an instruction that does not jump. -/
def acting (i : Instruction) : Bounded Machine Unit := (acted i).later

/-- The steps of instructions that do not jump. -/
def actingAll : Code → Bounded Machine Unit
  | [] => pure ()
  | i :: is => acting i >>= fun _ => actingAll is

theorem advance_act {i : Instruction} (h : i.opcode.acts) (run : Code → Exec Flow) (limit : Nat)
    (m : Measure) (code : Code) (pc : Nat) :
    advance run limit m code pc i = (do act run i; return .to (pc + 1)) := by
  obtain ⟨o, operand⟩ := i
  cases o <;> first | rfl | cases h

theorem stepping_act {i : Instruction} (h : i.opcode.acts) (code : Code) (pc : Nat) :
    stepping m code pc i = (acted i >>= fun _ => pure (.to (pc + 1))) := by
  ext n s
  exact congrFun (advance_act h _ n m code pc) s

theorem running_act {i : Instruction} (h : i.opcode.acts) (hc : Closed m c) :
    Follows (running m (i :: c)) (acting i >>= fun _ => running m c) := by
  have hi : (i :: c)[0]? = some i := rfl
  have hstep : Follows (running m (i :: c)) (stepping m (i :: c) 0 i >>= proceeding m (i :: c)) :=
    runningAt_follows hi
  have htail : Follows (runningAt m (i :: c) 1) (running m c) := runningAt_tail hc [i]
  rw [stepping_act h, Bounded.bind_assoc] at hstep
  refine ⟨fun n => ?_, ?_⟩
  · cases n with
    | zero => exact .of_exhausted fun s => ⟨s, rfl⟩
    | succ n =>
      -- the first step is what makes the run one step longer
      rw [running, runningAt_succ hi, stepping_act h, Bounded.bind_assoc]
      refine (Below.refl _).bind fun _ => ?_
      exact (htail.below n).trans ((running m c).rises n)
  · have hlater : Follows (acting i >>= fun _ => running m c) (acted i >>= fun _ => running m c) :=
      (acted i).later_follows.bind fun _ => .refl _
    have hsteps := hstep.trans ((Follows.refl _).bind fun _ => htail)
    exact fun n => .of_fewer (hlater.below n) (hsteps.reaches n)

/-- Code without jumps makes the steps of its instructions. -/
theorem running_acts (h : Acts c) :
    Follows (running m c) (actingAll c >>= fun _ => pure .done) := by
  induction c with
  | nil => exact running_nil m
  | cons i c ih =>
    obtain ⟨hi, hc⟩ := acts_cons_iff.mp h
    rw [actingAll, Bounded.bind_assoc]
    exact (running_act hi (.of_acts hc)).trans ((Follows.refl _).bind fun _ => ih hc)

/-! ### Recordings -/

theorem running_recorded {b : Code} (hb : Balanced b) (hc : Closed m c) :
    Follows (running m (recorded b ++ c)) (.of (keepRecording b) >>= fun _ => running m c) := by
  have hcode : recorded b ++ c = plain .record :: (b ++ plain .endRecord :: c) := by
    simp [recorded]
  have hstep : Follows (running m (recorded b ++ c))
      (stepping m (recorded b ++ c) 0 (plain .record) >>= proceeding m (recorded b ++ c)) :=
    runningAt_follows (by rw [hcode]; rfl)
  have hrec : stepping m (recorded b ++ c) 0 (plain .record) =
      (.of (keepRecording b) >>= fun _ => pure (.to (b.length + 2))) := by
    ext n s
    have h := advance_recording (fun c => runFrom .slots c n 0) n m
      (hcode.trans (List.nil_append _).symm) hb
    rw [List.length_nil, Nat.zero_add] at h
    exact congrFun h s
  rw [hrec, Bounded.bind_assoc] at hstep
  refine hstep.trans ((Follows.refl _).bind fun _ => ?_)
  have htail := runningAt_tail hc (recorded b)
  rwa [show (recorded b).length = b.length + 2 by simp [recorded]] at htail

/-! ### Branches -/

/-- A skip over the first part of what follows it. -/
theorem skipFrom_over (o : Opcode) (P c d : Code) :
    skipFrom m (P ++ withNumber o (m.length c) :: (c ++ d)) P.length (withNumber o (m.length c)) =
      pure (P.length + 1 + c.length) := by
  have hf : P ++ withNumber o (m.length c) :: (c ++ d) =
      (P ++ withNumber o (m.length c) :: c) ++ d := by simp
  have h := skipFrom_exit (m := m) rfl hf rfl (by
    simp only [Measure.length_append, Measure.length_cons, Measure.length_nil]
    omega)
  rw [h]
  congr 1
  simp only [List.length_append, List.length_cons]
  omega

/-- Does one of two things, as the value on top tells. -/
def choosing {β : Type} (A B : Bounded (Machine β) Flow) : Bounded (Machine β) Flow :=
  .of takeTruth >>= fun t => if t then A else B

theorem choosing_follows {A A' B B' : Bounded Machine Flow} (h : Follows A A')
    (h' : Follows B B') : Follows (choosing A B) (choosing A' B') := by
  refine (Follows.refl _).bind fun t => ?_
  cases t with
  | true => exact h
  | false => exact h'

/-- A skip if the value on top is not true. -/
theorem running_skipUnless (c d : Code) :
    Follows (running m (withNumber .skipUnless (m.length c) :: (c ++ d)))
      (choosing (runningAt m (withNumber .skipUnless (m.length c) :: (c ++ d)) 1)
        (runningAt m (withNumber .skipUnless (m.length c) :: (c ++ d)) (c.length + 1))) := by
  let host := withNumber .skipUnless (m.length c) :: (c ++ d)
  have hskip : skipFrom m host 0 (withNumber .skipUnless (m.length c)) = pure (c.length + 1) := by
    have h := skipFrom_over (m := m) .skipUnless [] c d
    rwa [List.length_nil, Nat.zero_add, Nat.add_comm 1] at h
  have hstep : stepping m host 0 (withNumber .skipUnless (m.length c)) =
      (.of takeTruth >>= fun t => pure (.to (if t then 1 else c.length + 1))) := by
    ext n s
    show (do
      if ← takeTruth then return Move.to (0 + 1)
      else return Move.to (← skipFrom m host 0 (withNumber .skipUnless (m.length c)))) s = _
    rw [hskip]
    refine congrFun (congrArg (takeTruth >>= ·) (funext fun t => ?_)) s
    cases t <;> rfl
  have h : Follows (runningAt m host 0)
      (stepping m host 0 (withNumber .skipUnless (m.length c)) >>= proceeding m host) :=
    runningAt_follows rfl
  rw [hstep, Bounded.bind_assoc] at h
  refine h.trans ((Follows.refl _).bind fun t => ?_)
  cases t <;> exact Follows.refl _

/-- A skip over the code that follows it. -/
theorem runningAt_skip (P c d : Code) :
    Follows (runningAt m (P ++ withNumber .skip (m.length c) :: (c ++ d)) P.length)
      (runningAt m (P ++ withNumber .skip (m.length c) :: (c ++ d)) (P.length + 1 + c.length)) := by
  let host := P ++ withNumber .skip (m.length c) :: (c ++ d)
  have hstep : stepping m host P.length (withNumber .skip (m.length c)) =
      pure (.to (P.length + 1 + c.length)) := by
    ext n s
    show (do return Move.to (← skipFrom m host P.length (withNumber .skip (m.length c)))) s = _
    rw [skipFrom_over .skip P c d]
    rfl
  have h : Follows (runningAt m host P.length)
      (stepping m host P.length (withNumber .skip (m.length c)) >>= proceeding m host) :=
    runningAt_follows (by simp [host])
  rwa [hstep, Bounded.pure_bind] at h

/-- A skip over all that follows it ends the run. -/
theorem runningAt_skip_end (P c : Code) :
    Follows (runningAt m (P ++ withNumber .skip (m.length c) :: c) P.length) (pure .done) := by
  have h := runningAt_skip (m := m) P c []
  rw [List.append_nil] at h
  exact h.trans (runningAt_end (by simp; omega))

theorem branchCode_none (m : Measure) (cond body : Code) :
    branchCode m cond body none =
      cond ++ withNumber .skipUnless (m.length body) :: (body ++ []) := by
  simp [branchCode]

theorem branchCode_some (m : Measure) (cond body rest : Code) :
    branchCode m cond body (some rest) =
      cond ++ withNumber .skipUnless (m.length (body ++ [withNumber .skip (m.length rest)])) ::
        ((body ++ [withNumber .skip (m.length rest)]) ++ rest) := by
  simp [branchCode]

variable {cond body rest : Code}

theorem skip_closed (h : Closed m rest) :
    Closed m (withNumber .skip (m.length rest) :: (rest ++ [])) :=
  .skip rfl h.balanced (by rwa [List.append_nil])

theorem body_closed (hb : Closed m body) (hr : Closed m rest) :
    Closed m ((body ++ [withNumber .skip (m.length rest)]) ++ rest) := by
  have h := hb.append (skip_closed hr)
  rwa [List.append_nil, List.append_cons] at h

theorem branch_closed (hc : Closed m cond) (hb : Closed m body) :
    Closed m (branchCode m cond body none) := by
  rw [branchCode_none]
  exact hc.append (.skip rfl hb.balanced (by rwa [List.append_nil]))

theorem branch_else_closed (hc : Closed m cond) (hb : Closed m body) (hr : Closed m rest) :
    Closed m (branchCode m cond body (some rest)) := by
  rw [branchCode_some]
  exact hc.append (.skip rfl (hb.balanced.append (.cons rfl .nil)) (body_closed hb hr))

/-- A branch without an `else` runs its body or nothing. -/
theorem running_branch (hc : Closed m cond) (hb : Closed m body) :
    Follows (running m (branchCode m cond body none))
      (running m cond >>= continuing (choosing (running m body) (pure .done))) := by
  rw [branchCode_none]
  refine (running_append hc (.skip rfl hb.balanced (by rwa [List.append_nil]))).trans
    ((Follows.refl _).bind (continuing_follows ((running_skipUnless body []).trans
      (choosing_follows ?_ (runningAt_end (by simp))))))
  rw [List.append_nil]
  exact runningAt_tail hb [_]

/-- A branch with an `else` runs one of its two bodies. -/
theorem running_branch_else (hc : Closed m cond) (hb : Closed m body) (hr : Closed m rest) :
    Follows (running m (branchCode m cond body (some rest)))
      (running m cond >>= continuing (choosing (running m body) (running m rest))) := by
  rw [branchCode_some]
  let past := withNumber .skip (m.length rest)
  let head := withNumber .skipUnless (m.length (body ++ [past]))
  refine (running_append hc (.skip rfl (hb.balanced.append (.cons rfl .nil))
    (body_closed hb hr))).trans ((Follows.refl _).bind (continuing_follows
      ((running_skipUnless (body ++ [past]) rest).trans (choosing_follows ?_ ?_))))
  · have h := runningAt_middle hb [head] (past :: rest)
    have hpast := runningAt_skip_end (m := m) ([head] ++ body) rest
    rw [List.length_append] at hpast
    have hdone := h.trans ((Follows.refl _).bind (continuing_follows hpast))
    rw [continuing_done, Bounded.bind_pure] at hdone
    have hcode : head :: ((body ++ [past]) ++ rest) = [head] ++ body ++ past :: rest := by simp
    rw [hcode]
    exact hdone
  · exact runningAt_tail hr (head :: (body ++ [past]))

end Machine

end StackScript
