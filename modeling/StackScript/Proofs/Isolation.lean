import StackScript.Proofs.AlignedRuns
import StackScript.Proofs.LiveSlots
import StackScript.Proofs.Pieces

/-!
# StackScript.Proofs.Isolation — calls keep the local variables of their callers

All calls share the local variables, and each call gives back to those that its function ends the
values that they had.  Code is contained if it addresses no others.  The run of contained code then
keeps every other local variable (`runFrom_keeps`), and with it the call keeps all of them
(`calling_keeps`).
-/

namespace StackScript

open EStateM (Result)
open Instruction Code Machine

/-! ### Contained code -/

/-- The code addresses only local variables that it ends. -/
def Code.Contained (c : Code) : Prop := c.namesOwn c.freedSlots = true

theorem Code.contained_nil : Contained [] := rfl

/-- The code may run in the activation. -/
structure Activation.Runs (z : Activation) (c : Code) : Prop where
  namesOwn : c.namesOwn z.slots = true
  vetted : c.Vetted Contained

/-- The local variables that are not of the activation are as they were. -/
abbrev Machine.KeepsOthers (z : Activation) (m : Machine) : Prop := z.Kept m.locals

namespace Machine

variable {z : Activation}

theorem keepsOthers_onVariables (z : Activation) :
    OnVariables (fun _ => True) (KeepsOthers z : Machine → Prop) where
  congr := by
    intro m t h hl _
    show z.Kept t.locals
    rwa [hl]
  fault _ := trivial
  crashed := trivial

theorem write_keeps {place : Place} (h : ∀ slot, place = .slot slot → slot ∈ z.slots) (v : Value) :
    Upholds (fun _ => True) (KeepsOthers z) (write place v : Exec Unit) := by
  refine .get fun m hm => ?_
  cases place with
  | slot id => exact fun _ _ => hm.writes (writes_putLocal id v _) (h id rfl)
  | param index =>
    dsimp only
    split
    · exact fun _ _ => (keepsOthers_onVariables z).congr hm rfl rfl
    · exact ((keepsOthers_onVariables z).stopWith rfl).still hm
  | global name => exact fun _ _ => hm

theorem clearSlot_keeps {slot : Nat} (h : slot ∈ z.slots) :
    Upholds (fun _ => True) (KeepsOthers z) (clearSlot slot : Exec Unit) := by
  intro m hm
  show z.Kept (m.locals.set slot .null)
  by_cases hlt : slot < m.locals.length
  · exact hm.writes (writes_set hlt .null) h
  · rwa [List.set_eq_of_length_le (Nat.le_of_not_lt hlt)]

/-- While a body runs, the machine stays vouched for, and keeps the variables of the callers. -/
abbrev Isolated (z : Activation) : Machine → Prop := Trusted (Sealed Contained) (KeepsOthers z)

/-- The run of a body keeps the variables that are not its own. -/
def BodyKeeps (f : Function) (body : Exec Flow) : Prop :=
  ∀ start, Upholds (fun _ => True) (Isolated ⟨f.slots, start⟩) body

/-- The machine is vouched for, and all local variables are as they were. -/
structure Restored (start : List Value) (m : Machine) : Prop where
  vouched : m.Vouched (Sealed Contained) []
  length : start.length ≤ m.locals.length
  get : ∀ i < start.length, m.locals[i]? = start[i]?

/-- A call keeps all local variables, and with them those of every caller. -/
theorem calling_keeps {f : Function} {body : Exec Flow} (hbody : BodyKeeps f body)
    (this : Option Nat) (start : List Value) :
    Ensures (fun m => m.Vouched (Sealed Contained) [] ∧ m.locals = start) (calling f this body)
      (fun _ => Restored start) fun _ => Restored start := by
  have hback : ∀ (m t : Machine), m.locals = start → Isolated ⟨f.slots, start⟩ t →
      Restored start (t.leave (m.stack.length - f.arity) (m.save f)) := by
    rintro m t rfl ⟨hvouched, hkept⟩
    refine ⟨hvouched.congr rfl rfl, ?_, fun i hi => hkept.restore hi⟩
    exact Nat.le_trans hkept.length (Nat.le_of_eq (length_restore _ _).symm)
  refine calling_ensures (fun _ m _ hm => ⟨hm.1, hm.2 ▸ Nat.le_refl _, fun i _ => hm.2 ▸ rfl⟩) ?_
  rintro m ⟨hvouched, rfl⟩
  have henter : Isolated ⟨f.slots, m.locals⟩ (m.enter f this) :=
    ⟨hvouched.congr rfl rfl, Nat.le_refl _, fun _ _ _ => rfl⟩
  refine (hbody m.locals).weaken (fun t ht => ?_) (fun _ t ht => hback m t rfl ht)
    fun _ t ht => hback m t rfl ht.2
  rw [ht]
  exact henter

/-- A function that is vouched for runs a body for its own activation. -/
theorem runs_body {f : Function} (h : f.Vouched (Sealed Contained)) (start : List Value) :
    Activation.Runs ⟨f.slots, start⟩ f.body := by
  refine ⟨Code.namesOwn_iff.mpr fun i hi slot hslot => ?_, h.body.2⟩
  rw [h.slots]
  exact mem_ascending.mpr (Code.namesOwn_iff.mp h.body.1 i hi slot hslot)

theorem slot?_of_ofOperand? {operand : Option Operand} {slot : Nat}
    (h : Place.ofOperand? operand = some (.slot slot)) : Operand.slot? operand = some slot := by
  unfold Place.ofOperand? at h
  split at h <;> cases h
  rfl

theorem slot?_of_writtenBy? {i : Instruction} {slot : Nat}
    (h : Place.writtenBy? i = some (.slot slot)) : i.slot? = some slot := by
  obtain ⟨o, operand⟩ := i
  unfold Place.writtenBy? at h
  split at h
  case isFalse => cases h
  case isTrue ho =>
    have hoperand := slot?_of_ofOperand? h
    cases o <;> first | exact hoperand | (rcases ho with ho | ho <;> cases ho)

theorem act_keeps {i : Instruction} (hslot : ∀ slot, i.slot? = some slot → slot ∈ z.slots)
    {run : Code → Exec Flow}
    (hrun : ∀ z c, Activation.Runs z c → Upholds (fun _ => True) (Isolated z) (run c)) :
    Upholds (fun _ => True) (Isolated z) (act run i) := by
  have hvars := keepsOthers_onVariables z
  refine act_upholds hvars ⟨contained_nil, .nil⟩ ?_ ?_ ?_ fun f this hf => ?_
  · exact fun place _ => hvars.read fun _ _ _ _ => .inl trivial
  · intro place v hplace
    refine write_keeps (fun slot heq => hslot slot (slot?_of_writtenBy? ?_)) v
    rw [hplace, heq]
  · rintro slot rfl
    exact clearSlot_keeps (hslot slot rfl)
  · intro m hm
    have hcall := calling_keeps (fun start => hrun _ _ (runs_body hf start)) this m.locals
    have hback : ∀ t, Restored m.locals t → Isolated z t := by
      rintro t ⟨hvouched, hlength, hget⟩
      refine ⟨hvouched, Nat.le_trans hm.2.length hlength, fun j hj hlt => ?_⟩
      exact (hget j (Nat.lt_of_lt_of_le hlt hm.2.length)).trans (hm.2.get j hj hlt)
    exact hcall.weaken (fun _ h => h) (fun _ t ht => hback t ht)
      (fun _ t ht => ⟨trivial, hback t ht⟩) m ⟨hm.1, rfl⟩

/-- Whatever recorded code runs for an activation, and however the run ends, it keeps all local
variables but those of the activation. -/
theorem runFrom_keeps (n : Nat) {c : Code} (hc : z.Runs c) (pc : Nat) :
    Upholds (fun _ => True) (Isolated z) (runFrom .slots c n pc) :=
  runFrom_upholds (F := Activation.Runs) (fun z => keepsOthers_onVariables z) trivial
    (fun _ _ hc => hc.vetted)
    (fun _ _ hc i hi _ hrun => act_keeps (Code.namesOwn_iff.mp hc.namesOwn i hi) hrun) n z c hc pc

end Machine

end StackScript
