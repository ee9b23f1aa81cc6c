import Mathlib.Logic.Relation
import StackScript.Proofs.Upholding

/-!
# StackScript.Proofs.Moments — what happens while code runs

A moment of a run is a place in code with the machine as it is there.  It leads to the moment of the
next instruction, and to those at which a body begins that its instruction runs: the body of a
function that it calls, the condition of its loop or the body of its loop, in every round.  There
are no other bodies: what an instruction does depends on these alone (`advance_eq_of_begins`).
-/

namespace StackScript

open EStateM (Result)
open Instruction Code Machine

/-! ### Bodies that an instruction runs -/

/-- The states in which the condition of a loop begins, or its body if so told. -/
inductive Machine.Turns (condition body : Exec Flow) (start : Machine) : Bool → Machine → Prop
  | first : Turns condition body start false start
  | body {m m₁ m₂ : Machine} (h : Turns condition body start false m)
      (hcondition : condition m = .ok .done m₁) (ht : takeTruth m₁ = .ok true m₂) :
      Turns condition body start true m₂
  | again {m m₁ : Machine} {flow : Flow} (h : Turns condition body start true m)
      (hbody : body m = .ok flow m₁) (hflow : flow = .done ∨ flow = .next) :
      Turns condition body start false m₁

/-- The instruction begins to run this code in this state. -/
inductive Machine.Begins (run : Code → Exec Flow) (i : Instruction) (m : Machine) :
    Code → Machine → Prop
  | call {c : Call Code} {t : Machine} (h : prepare i m = .ok (some c) t)
      (hdepth : t.callers.length < t.maxDepth) (harity : c.function.arity ≤ t.stack.length) :
      Begins run i m c.function.body (t.enter c.function c.this)
  | condition {condition body : Code} {rest : List Code} {t : Machine} (ho : i.opcode = .loop)
      (hm : m.recordings = condition :: body :: rest)
      (h : Turns (run condition) (run body) { m with recordings := rest } false t) :
      Begins run i m condition t
  | body {condition body : Code} {rest : List Code} {t : Machine} (ho : i.opcode = .loop)
      (hm : m.recordings = condition :: body :: rest)
      (h : Turns (run condition) (run body) { m with recordings := rest } true t) :
      Begins run i m body t

namespace Machine

variable {run run' : Code → Exec Flow} {condition condition' body body' : Exec Flow}
  {start m : Machine} {α γ : Type}

/-- Effects that do the same here, and go on in the same way. -/
theorem bind_eq_bind {x x' : Exec α} {f f' : α → Exec γ} (hx : x m = x' m)
    (hf : ∀ a t, x m = .ok a t → f a t = f' a t) : (x >>= f) m = (x' >>= f') m := by
  cases h : x m with
  | ok a t => rw [bind_of_ok h, bind_of_ok (hx.symm.trans h), hf a t h]
  | error e t => rw [bind_of_error h, bind_of_error (hx.symm.trans h)]

theorem recordings_of_takeRecording {c : Code} {t : Machine}
    (h : (takeRecording : Exec Code) m = .ok c t) :
    ∃ rest, m.recordings = c :: rest ∧ t = { m with recordings := rest } := by
  have hget : (get : Exec Machine) m = .ok m m := rfl
  unfold takeRecording at h
  rw [bind_of_ok hget] at h
  cases hrecordings : m.recordings with
  | nil =>
    rw [hrecordings] at h
    cases h
  | cons b rest =>
    rw [hrecordings] at h
    cases h
    exact ⟨rest, rfl, rfl⟩

/-- The rounds of a loop depend on its condition and body where these begin. -/
theorem rounds_eq_of_turns
    (hc : ∀ t, Turns condition body start false t → condition t = condition' t)
    (hb : ∀ t, Turns condition body start true t → body t = body' t)
    (hm : Turns condition body start false m) (n : Nat) :
    rounds condition body n m = rounds condition' body' n m := by
  induction n generalizing m with
  | zero => rfl
  | succ n ih =>
    refine bind_eq_bind (hc m hm) fun flow t hcondition => ?_
    cases flow with
    | done =>
      refine bind_eq_bind rfl fun truth u htruth => ?_
      cases truth with
      | false => rfl
      | true =>
        have hu := hm.body hcondition htruth
        refine bind_eq_bind (hb u hu) fun flow v hbody => ?_
        cases flow with
        | done => exact ih (hu.again hbody (.inl rfl))
        | next => exact ih (hu.again hbody (.inr rfl))
        | leave | gaveBack => rfl
    | _ => rfl

variable {i : Instruction} (h : ∀ c t, Begins run i m c t → run c t = run' c t)

include h

theorem act_eq_of_begins : act run i m = act run' i m := by
  refine bind_eq_bind rfl fun call t hprepare => ?_
  cases call with
  | none => rfl
  | some c =>
    refine bind_eq_bind ?_ fun _ _ _ => rfl
    unfold calling
    by_cases hdepth : t.maxDepth ≤ t.callers.length
    · rw [if_pos hdepth, if_pos hdepth]
    by_cases harity : t.stack.length < c.function.arity
    · rw [if_neg hdepth, if_neg hdepth, if_pos harity, if_pos harity]
    · rw [if_neg hdepth, if_neg hdepth, if_neg harity, if_neg harity,
        h _ _ (.call hprepare (Nat.lt_of_not_le hdepth) (Nat.le_of_not_lt harity))]

theorem loop_eq_of_begins (ho : i.opcode = .loop) (limit : Nat) (measure : Measure) (code : Code)
    (pc : Nat) :
    advance run limit measure code pc i m = advance run' limit measure code pc i m := by
  obtain ⟨o, operand⟩ := i
  obtain rfl : o = .loop := ho
  refine bind_eq_bind rfl fun condition t hcondition => bind_eq_bind rfl fun body u hbody => ?_
  refine bind_eq_bind ?_ fun _ _ _ => rfl
  obtain ⟨rest, hrecordings, rfl⟩ : ∃ rest, m.recordings = condition :: body :: rest ∧
      u = { m with recordings := rest } := by
    obtain ⟨tail, htail, rfl⟩ := recordings_of_takeRecording hcondition
    obtain ⟨rest, hrest, rfl⟩ := recordings_of_takeRecording hbody
    obtain rfl : tail = body :: rest := hrest
    exact ⟨rest, htail, rfl⟩
  exact rounds_eq_of_turns (fun t ht => h _ t (.condition rfl hrecordings ht))
    (fun t ht => h _ t (.body rfl hrecordings ht)) .first limit

/-- What an instruction does depends on runs of code only where it begins to run this code. -/
theorem advance_eq_of_begins (limit : Nat) (measure : Measure) (code : Code) (pc : Nat) :
    advance run limit measure code pc i m = advance run' limit measure code pc i m := by
  by_cases hloop : i.opcode = .loop
  · exact loop_eq_of_begins h hloop limit measure code pc
  by_cases hacts : i.opcode.acts
  · rw [advance_act hacts, advance_act hacts]
    show (act run i >>= _) m = (act run' i >>= _) m
    have heq : act run i m = act run' i m := act_eq_of_begins h
    cases hact : act run i m with
    | error e t => rw [bind_of_error hact, bind_of_error (heq.symm.trans hact)]
    | ok _ t => rw [bind_of_ok hact, bind_of_ok (heq.symm.trans hact)]
  · obtain ⟨o, operand⟩ := i
    cases o <;> first | rfl | exact absurd rfl hacts | exact absurd rfl hloop

end Machine

/-! ### Moments -/

/-- A place in code that runs, with the machine as it is there. -/
structure Moment where
  /-- how the skips of the code count -/
  measure : Measure
  code : Code
  /-- how many steps are left -/
  fuel : Nat
  pc : Nat
  machine : Machine

namespace Moment

/-- The program begins. -/
def start (code : Code) (fuel : Nat) (m : Machine) : Moment := ⟨.instructions, code, fuel, 0, m⟩

/-- The instruction of a moment leads to the next one of the same code, or a body begins that it
runs. -/
inductive Leads : Moment → Moment → Prop
  | next {measure : Measure} {code : Code} {n pc pc' : Nat} {i : Instruction} {m t : Machine}
      (hi : code[pc]? = some i)
      (h : advance (fun c => runFrom .slots c n 0) n measure code pc i m = .ok (.to pc') t) :
      Leads ⟨measure, code, n + 1, pc, m⟩ ⟨measure, code, n, pc', t⟩
  | begins {measure : Measure} {code : Code} {n pc : Nat} {i : Instruction} {m t : Machine}
      {c : Code} (hi : code[pc]? = some i)
      (h : Begins (fun c => runFrom .slots c n 0) i m c t) :
      Leads ⟨measure, code, n + 1, pc, m⟩ ⟨.slots, c, n, 0, t⟩

/-- The moments that come after one, and itself. -/
abbrev Reaches : Moment → Moment → Prop := Relation.ReflTransGen Leads

/-- The call that the instruction of a moment makes, and the state in which it makes it. -/
def call? (p : Moment) : Option (Call Code × Machine) := do
  match prepare (← p.code[p.pc]?) p.machine with
  | .ok (some c) m => some (c, m)
  | _ => none

/-- The moment of the next instruction. -/
def next? (p : Moment) : Option Moment :=
  match p.fuel, p.code[p.pc]? with
  | n + 1, some i =>
    match advance (fun c => runFrom .slots c n 0) n p.measure p.code p.pc i p.machine with
    | .ok (.to pc) machine => some { p with fuel := n, pc, machine }
    | _ => none
  | _, _ => none

/-- The moment so many instructions later. -/
def later? : Nat → Moment → Option Moment
  | 0, p => some p
  | n + 1, p => p.next?.bind (later? n)

theorem leads_of_next? {p q : Moment} (h : p.next? = some q) : p.Leads q := by
  obtain ⟨measure, code, fuel, pc, m⟩ := p
  unfold next? at h
  split at h
  · rename_i n i hfuel hi
    obtain rfl : fuel = n + 1 := hfuel
    split at h
    · rename_i pc' t hadvance
      obtain rfl := Option.some.inj h
      exact .next hi hadvance
    · cases h
  · cases h

theorem reaches_of_later? {n : Nat} {p q : Moment} (h : later? n p = some q) : p.Reaches q := by
  induction n generalizing p with
  | zero =>
    obtain rfl := Option.some.inj h
    exact .refl
  | succ n ih =>
    obtain ⟨r, hr, hlater⟩ := Option.bind_eq_some_iff.mp h
    exact .head (leads_of_next? hr) (ih hlater)

end Moment

/-- Where conditions and bodies of a loop begin, all is as at its start that they uphold. -/
theorem Machine.Turns.upheld {S : Stop → Prop} {I : Machine → Prop} {condition body : Exec Flow}
    {start m : Machine} {b : Bool} (hstack : OffStack S I) (hc : Upholds S I condition)
    (hb : Upholds S I body) (hstart : I start) (h : Turns condition body start b m) : I m := by
  induction h with
  | first => exact hstart
  | body _ hcondition ht ih => exact hstack.takeTruth.ok (hc.ok ih hcondition) ht
  | again _ hbody _ ih => exact hb.ok ih hbody

end StackScript
