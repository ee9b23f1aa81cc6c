import StackScript.Proofs.Moments
import StackScript.Proofs.BodyInvariants

/-!
# StackScript.Proofs.CallState — no call outlives its run

Whatever code runs, and however the run ends, it takes back all calls that it made: the callers are
those that there were, and the frame is that of the same call (`inCall_keepsRunning`).  So between runs a
machine has nothing but its outermost frame, and while code runs there are never more callers than
the machine allows (`Moment.Reaches.within`).
-/

namespace StackScript

open EStateM (Result)
open Instruction Code Machine

/-! ### The running call -/

namespace Machine

/-- The call that is running is the same as in `z`, but for what was written to its parameters. -/
structure InCall (z m : Machine) : Prop where
  callers : m.callers = z.callers
  this : m.frame.this = z.frame.this
  params : m.frame.params.length = z.frame.params.length
  maxDepth : m.maxDepth = z.maxDepth

theorem InCall.refl (m : Machine) : InCall m m := ⟨rfl, rfl, rfl, rfl⟩

theorem InCall.trans {z m t : Machine} (h : InCall z m) (h' : InCall m t) : InCall z t :=
  ⟨h'.callers.trans h.callers, h'.this.trans h.this, h'.params.trans h.params,
    h'.maxDepth.trans h.maxDepth⟩

theorem inCall_of_store {m t : Machine} (h : t.store = m.store) : InCall m t := by
  rw [store, store, Prod.mk.injEq, Prod.mk.injEq, Prod.mk.injEq, Prod.mk.injEq] at h
  obtain ⟨-, -, hframe, hcallers, hmaxDepth⟩ := h
  exact ⟨hcallers, congrArg CallFrame.this hframe,
    congrArg (fun frame => frame.params.length) hframe, hmaxDepth⟩

theorem inCall_onStore (z : Machine) : OnStore (fun _ => True) (InCall z) where
  transfer h hs := h.trans (inCall_of_store hs)
  fault _ := trivial
  crashed := trivial

variable {z : Machine}

/-! ### Instructions -/

theorem write_inCall (place : Place) (v : Value) :
    Upholds (fun _ => True) (InCall z) (write place v : Exec Unit) := by
  refine .get fun m hm => ?_
  cases place with
  | slot => exact fun _ _ => hm.trans ⟨rfl, rfl, rfl, rfl⟩
  | global => exact fun _ _ => hm.trans ⟨rfl, rfl, rfl, rfl⟩
  | param index =>
    dsimp only
    split
    · exact fun _ _ => hm.trans ⟨rfl, rfl, List.length_set, rfl⟩
    · exact ((inCall_onStore z).stopWith rfl).still hm

/-- Up to the call that an instruction asks for, the same call is running. -/
theorem prepare_inCall (i : Instruction) :
    Upholds (fun _ => True) (InCall z) (prepare i : Exec (Option (Call Code))) :=
  (inCall_onStore z).prepare
    (fun _ _ => (inCall_onStore z).read fun _ _ _ _ => .inl trivial)
    (fun place v _ => write_inCall place v)
    fun _ _ _ hm => hm.trans ⟨rfl, rfl, rfl, rfl⟩

/-- Behind a call its caller is running again, even if the call was stopped. -/
theorem calling_inCall {f : Function} {this : Option Nat} {body : Exec Flow}
    (hbody : ∀ z, Upholds (fun _ => True) (InCall z) body) :
    Upholds (fun _ => True) (InCall z) (calling f this body) := by
  refine calling_ensures (fun _ _ _ hm => ⟨trivial, hm⟩) fun m hm => ?_
  have hback : ∀ t, InCall (m.enter f this) t →
      InCall z (t.leave (m.stack.length - f.arity) (m.save f)) := by
    intro t ht
    have hcallers : t.callers = m.frame :: m.callers := ht.callers
    have hframe : t.callers.headD t.frame = m.frame := by rw [hcallers, List.headD_cons]
    have htail : t.callers.tail = m.callers := by rw [hcallers, List.tail_cons]
    exact hm.trans ⟨htail, congrArg CallFrame.this hframe,
      congrArg (fun frame => frame.params.length) hframe, ht.maxDepth⟩
  exact (hbody (m.enter f this)).weaken (fun _ heq => heq ▸ .refl _) (fun _ => hback)
    fun _ t ht => ⟨trivial, hback t ht.2⟩

/-- Whatever code runs and however the run ends, the same call is running as before. -/
theorem inCall_keepsRunning : KeepsRunning (fun _ => True) InCall where
  onClasses z := (inCall_onStore z).toOnClasses
  exhausted := trivial
  prepare _ := prepare_inCall
  calling _ _ _ _ := calling_inCall

end Machine

/-! ### While code runs -/

namespace Moment

/-- The limit on calls is `limit`, and there are no more. -/
def Within (limit : Nat) (p : Moment) : Prop :=
  p.machine.maxDepth = limit ∧ p.machine.callers.length ≤ limit

variable {limit : Nat}

theorem within_of_inCall {p q : Moment} (h : p.Within limit) (hin : InCall p.machine q.machine) :
    q.Within limit := ⟨hin.maxDepth.trans h.1, hin.callers ▸ h.2⟩

theorem Leads.within {p q : Moment} (hleads : p.Leads q) (h : p.Within limit) :
    q.Within limit := by
  cases hleads with
  | @next measure code n pc _ i m t _ hadvance =>
    have hin : Upholds (fun _ => True) (InCall m) _ :=
      inCall_keepsRunning.advance (fun z c => inCall_keepsRunning.runFrom z .slots c n 0) m n
        measure code pc i
    exact within_of_inCall h (hin.ok (.refl m) hadvance)
  | @begins _ _ n _ _ m _ _ _ hbegins =>
    have hrun := fun c => inCall_keepsRunning.runFrom m .slots c n 0
    have hstack := (inCall_onStore m).toOffStack
    cases hbegins with
    | call hprepare hdepth =>
      have hin : InCall m _ := (prepare_inCall _).ok (.refl m) hprepare
      have hlimit := hin.maxDepth.trans h.1
      exact ⟨hlimit, hlimit ▸ hdepth⟩
    | @condition _ _ rest _ _ _ ht =>
      have hstart : InCall m { m with recordings := rest } := ⟨rfl, rfl, rfl, rfl⟩
      exact within_of_inCall h (ht.upheld hstack (hrun _) (hrun _) hstart)
    | @body _ _ rest _ _ _ ht =>
      have hstart : InCall m { m with recordings := rest } := ⟨rfl, rfl, rfl, rfl⟩
      exact within_of_inCall h (ht.upheld hstack (hrun _) (hrun _) hstart)

theorem Reaches.within {p q : Moment} (hreach : p.Reaches q) (h : p.Within limit) :
    q.Within limit := by
  induction hreach with
  | refl => exact h
  | tail _ hleads ih => exact hleads.within ih

end Moment

/-! ### Between runs -/

namespace Machine

/-- What is done with a machine from outside. -/
inductive Event where
  /-- code runs in at most so many steps -/
  | run (steps : Nat) (code : Code)
  | recover (depth : Nat)
  | pop

/-- The machine afterwards, whatever a run ends with. -/
def handle (m : Machine) : Event → Machine
  | .run steps code => endState (runFor steps code m)
  | .recover depth => m.recover depth
  | .pop => m.pop.2

def handleAll (m : Machine) (events : List Event) : Machine := events.foldl handle m

/-- `Machine.run` is such a run. -/
theorem handle_run (m : Machine) (steps : Nat) (code : Code) :
    m.handle (.run steps code) = (m.run steps code).2 := by
  unfold handle run
  dsimp only
  cases runFor steps code m <;> rfl

/-- No call is running, and the limit on calls is `limit`. -/
structure Idle (limit : Nat) (m : Machine) : Prop where
  callers : m.callers = []
  frame : m.frame = ⟨[], none⟩
  maxDepth : m.maxDepth = limit

variable {limit : Nat} {m : Machine}

theorem Idle.inCall {t : Machine} (h : m.Idle limit) (hin : InCall m t) : t.Idle limit := by
  obtain ⟨hcallers, hthis, hparams, hmaxDepth⟩ := hin
  rw [h.frame] at hthis hparams
  refine ⟨hcallers.trans h.callers, ?_, hmaxDepth.trans h.maxDepth⟩
  show CallFrame.mk t.frame.params t.frame.this = _
  rw [hthis, List.length_eq_zero_iff.mp hparams]

theorem Idle.handle (h : m.Idle limit) (event : Event) : (m.handle event).Idle limit := by
  cases event with
  | run steps code =>
    exact h.inCall ((inCall_keepsRunning.runFor m steps code).endState (.refl m))
  | recover depth =>
    refine ⟨rfl, ?_, h.maxDepth⟩
    show m.callers.getLast?.getD m.frame = _
    rw [h.callers]
    exact h.frame
  | pop =>
    show m.pop.2.Idle limit
    unfold pop
    split
    · exact h
    · exact ⟨h.callers, h.frame, h.maxDepth⟩

theorem Idle.handleAll (h : m.Idle limit) (events : List Event) :
    (m.handleAll events).Idle limit := by
  induction events generalizing m with
  | nil => exact h
  | cons event events ih => exact ih (h.handle event)

/-- Whatever is done with a machine from outside, and however the runs end, it has one frame left,
with no parameters and no object; when it then runs, there are at no moment more calls than its
limit; and if all values are dropped instead, what is left of it beside its limit are the globals,
the functions, the classes, the latest function, what they refer to, and the output. -/
theorem no_call_outlives_its_run (limit : Nat) (events : List Event) :
    let m := (start limit).handleAll events
    m.callers = [] ∧ m.frame = ⟨[], none⟩ ∧
      (∀ code steps p, (Moment.start code steps m).Reaches p →
        p.machine.callers.length ≤ limit) ∧
      m.recover 0 = { start limit with
        globals := m.globals
        functions := m.functions
        classes := m.classes
        lastFunction := m.lastFunction
        output := m.output
        heap := m.heap } := by
  intro m
  have hstart : (start limit : Machine).Idle limit := ⟨rfl, rfl, rfl⟩
  have hidle : m.Idle limit := hstart.handleAll events
  refine ⟨hidle.callers, hidle.frame, fun code steps p hreach => ?_, ?_⟩
  · have hwithin : (Moment.start code steps m).Within limit :=
      ⟨hidle.maxDepth, Nat.le_trans (Nat.le_of_eq (congrArg List.length hidle.callers))
        (Nat.zero_le limit)⟩
    exact (hreach.within hwithin).2
  · have hstack : m.stack.drop (m.stack.length - 0) = [] := List.drop_length
    unfold recover
    rw [hstack, hidle.callers, hidle.maxDepth, List.getLast?_nil, Option.getD_none, hidle.frame]
    rfl

end Machine

end StackScript
