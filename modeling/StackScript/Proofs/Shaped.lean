import StackScript.Proofs.Generated
import StackScript.Proofs.BodyInvariants

/-!
# StackScript.Proofs.Shaped — the code of a program outside recorded code

Outside recorded code a program skips forward only, and both recordings of a loop wait until the
loop takes them (`Code.Shaped`).  So all recordings that are made into functions are those of the
bodies of functions.  An instruction leads on to code of the same shape (`Faces.advance_ensures`).
-/

namespace StackScript

open EStateM (Result)
open Instruction Code Machine

namespace Code

variable {P : Code → Prop} {waiting : List Code} {c d : Code}

/-! ### Code without jumps and skips -/

/-- Instructions that lead to the next one, and bodies of functions. -/
inductive Straight (P : Code → Prop) : Code → Prop
  | nil : Straight P []
  | act {i : Instruction} {c : Code} (hi : i.opcode.acts) (h : Straight P c) : Straight P (i :: c)
  | recording {b c : Code} (hb : Sealed P b) (h : Straight P c) :
      Straight P (plain .record :: (b ++ plain .endRecord :: c))

namespace Straight

theorem of_acts (h : c.Acts) : c.Straight P := by
  induction c with
  | nil => exact .nil
  | cons i c ih =>
    obtain ⟨hi, hc⟩ := acts_cons_iff.mp h
    exact .act hi (ih hc)

theorem append (hc : c.Straight P) (hd : d.Straight P) : (c ++ d).Straight P := by
  induction hc with
  | nil => exact hd
  | act hi _ ih => exact .act hi ih
  | recording hb _ ih =>
    rw [List.cons_append, List.append_assoc]
    exact .recording hb ih

theorem flatten {cs : List Code} (h : ∀ c ∈ cs, c.Straight P) : Straight P cs.flatten := by
  induction cs with
  | nil => exact .nil
  | cons c cs ih =>
    obtain ⟨hc, hcs⟩ := List.forall_mem_cons.mp h
    exact hc.append (ih hcs)

theorem vetted (h : c.Straight P) : c.Vetted P := by
  induction h with
  | nil => exact .nil
  | act hi _ ih => exact (Vetted.of_acts (acts_single hi)).append ih
  | recording hb _ ih => exact .recording hb.1 hb.2 ih

end Straight

/-! ### Shapes -/

/-- What is left of the code of a program where some recordings wait for their loop. -/
inductive Shaped (P : Code → Prop) : List Code → Code → Prop
  | nil : Shaped P [] []
  | act {i : Instruction} {c : Code} (hi : i.opcode.acts) (h : Shaped P [] c) :
      Shaped P [] (i :: c)
  | out {i : Instruction} {c : Code} (hi : i.opcode.isJump ∨ i.opcode = .giveBack)
      (h : Shaped P [] c) : Shaped P [] (i :: c)
  | skip {o : Opcode} {b c : Code} (ho : o.isSkip) (hb : Shaped P [] (b ++ c)) (h : Shaped P [] c) :
      Shaped P [] (withNumber o b.length :: (b ++ c))
  | recording {b c : Code} (hb : Sealed P b) (h : Shaped P [] c) :
      Shaped P [] (plain .record :: (b ++ plain .endRecord :: c))
  | wait {waiting : List Code} {b c : Code} (hb : b.Vetted P) (h : Shaped P (b :: waiting) c) :
      Shaped P waiting (plain .record :: (b ++ plain .endRecord :: c))
  | loop {condition body c : Code} (hcondition : condition.Vetted P) (hbody : body.Vetted P)
      (h : Shaped P [] c) : Shaped P [condition, body] (plain .loop :: c)

namespace Shaped

theorem append (hc : c.Shaped P waiting) (hd : d.Shaped P []) : (c ++ d).Shaped P waiting := by
  induction hc with
  | nil => exact hd
  | act hi _ ih => exact .act hi ih
  | out hi _ ih => exact .out hi ih
  | skip ho _ _ ihb ih =>
    rw [List.append_assoc] at ihb
    rw [List.cons_append, List.append_assoc]
    exact .skip ho ihb ih
  | recording hb _ ih =>
    rw [List.cons_append, List.append_assoc]
    exact .recording hb ih
  | wait hb _ ih =>
    rw [List.cons_append, List.append_assoc]
    exact .wait hb ih
  | loop hcondition hbody _ ih => exact .loop hcondition hbody ih

/-- What waits is vetted. -/
theorem waiting_vetted (h : c.Shaped P waiting) : ∀ b ∈ waiting, b.Vetted P := by
  induction h with
  | wait _ _ ih => exact (List.forall_mem_cons.mp ih).2
  | loop hcondition hbody _ =>
    exact List.forall_mem_cons.mpr ⟨hcondition, List.forall_mem_singleton.mpr hbody⟩
  | _ => exact List.forall_mem_nil _

/-- Only recordings stand before the loop that they wait for. -/
theorem waiting_eq_nil {i : Instruction} (h : Shaped P waiting (i :: c)) (hi : i.opcode.acts) :
    waiting = [] := by
  cases h with
  | wait => cases hi
  | loop => cases hi
  | _ => rfl

/-- The condition and the body of a loop wait for it. -/
theorem waiting_of_loop {i : Instruction} (h : Shaped P waiting (i :: c)) (hi : i.opcode = .loop) :
    ∃ condition body, waiting = [condition, body] ∧ condition.Vetted P ∧ body.Vetted P := by
  obtain ⟨o, operand⟩ := i
  obtain rfl : o = .loop := hi
  cases h with
  | act hacts => cases hacts
  | out hout => rcases hout with hout | hout <;> cases hout
  | skip hskip => cases hskip
  | loop hcondition hbody => exact ⟨_, _, rfl, hcondition, hbody⟩

end Shaped

/-! ### What all instructions have -/

section
variable {A : Instruction → Prop}

/-- What is recorded in the code has what all instructions of the code have. -/
theorem Vetted.all (h : c.Vetted P) (hall : ∀ i ∈ c, A i) : c.Vetted fun b => ∀ i ∈ b, A i := by
  induction h with
  | nil => exact .nil
  | cons hmark hloop _ ih => exact .cons hmark hloop (ih (List.forall_mem_cons.mp hall).2)
  | recording _ _ _ ihb ih =>
    obtain ⟨hb, hrest⟩ := List.forall_mem_append.mp (List.forall_mem_cons.mp hall).2
    exact .recording hb (ihb hb) (ih (List.forall_mem_cons.mp hrest).2)

theorem Shaped.all (h : c.Shaped P waiting) (hwaiting : ∀ b ∈ waiting, ∀ i ∈ b, A i)
    (hall : ∀ i ∈ c, A i) : c.Shaped (fun b => ∀ i ∈ b, A i) waiting := by
  induction h with
  | nil => exact .nil
  | act hi _ ih => exact .act hi (ih hwaiting (List.forall_mem_cons.mp hall).2)
  | out hi _ ih => exact .out hi (ih hwaiting (List.forall_mem_cons.mp hall).2)
  | skip ho _ _ ihb ih =>
    have hrest := (List.forall_mem_cons.mp hall).2
    exact .skip ho (ihb hwaiting hrest) (ih hwaiting (List.forall_mem_append.mp hrest).2)
  | recording hb _ ih =>
    obtain ⟨hall, hrest⟩ := List.forall_mem_append.mp (List.forall_mem_cons.mp hall).2
    exact .recording ⟨hall, hb.2.all hall⟩ (ih hwaiting (List.forall_mem_cons.mp hrest).2)
  | wait hb _ ih =>
    obtain ⟨hall, hrest⟩ := List.forall_mem_append.mp (List.forall_mem_cons.mp hall).2
    exact .wait (hb.all hall) (ih (List.forall_mem_cons.mpr ⟨hall, hwaiting⟩)
      (List.forall_mem_cons.mp hrest).2)
  | loop hcondition hbody _ ih =>
    obtain ⟨hc, hb⟩ := List.forall_mem_cons.mp hwaiting
    exact .loop (hcondition.all hc) (hbody.all (List.forall_mem_singleton.mp hb))
      (ih (List.forall_mem_nil _) (List.forall_mem_cons.mp hall).2)

end

theorem Straight.shaped (h : c.Straight P) : c.Shaped P [] := by
  induction h with
  | nil => exact .nil
  | act hi _ ih => exact .act hi ih
  | recording hb _ ih => exact .recording hb ih

end Code

/-! ### One instruction -/

theorem Measure.instructions_length (c : Code) : Measure.instructions.length c = c.length := by
  induction c with
  | nil => rfl
  | cons i c ih => rw [length_cons, ih, List.length_cons, Nat.add_comm]; rfl

namespace Code

variable {P : Code → Prop} {S : Stop → Prop} {I : Machine → Prop} {waiting : List Code}
  {code pre c d : Code} {pc : Nat}

/-- At `pc` there is shaped code, for which these recordings wait, and then `d`. -/
structure Faces (P : Code → Prop) (code : Code) (pc : Nat) (waiting : List Code) (c d : Code) :
    Prop where
  here : ∃ pre, code = pre ++ (c ++ d) ∧ pre.length = pc
  shaped : c.Shaped P waiting

/-- Where the code goes on: before `d`, with what is left of `c`, and with recordings that waited
already or are part of `c`.  Otherwise a jump or a `return` has ended it. -/
def GoesOn (P : Code → Prop) (code : Code) (waiting : List Code) (c d : Code) (m : Machine) :
    Move → Prop
  | .to pc => ∃ waiting' c', Faces P code pc waiting' c' d ∧ c' ⊆ c ∧
      (∀ b ∈ waiting', b ∈ waiting ∨ b ⊆ c) ∧ m.Vouched (Sealed P) waiting'
  | .out flow => flow ≠ .done ∧ m.Vouched (Sealed P) []

theorem Faces.getElem? {i : Instruction} (h : Faces P code pc waiting (i :: c) d) :
    code[pc]? = some i := by
  obtain ⟨pre, rfl, rfl⟩ := h.here
  rw [List.getElem?_append_right (Nat.le_refl _), Nat.sub_self]
  rfl

/-- The next instruction. -/
theorem goesOn_next {i : Instruction} {m : Machine} (hcode : code = pre ++ (i :: c ++ d))
    (hc : c.Shaped P []) (hm : m.Vouched (Sealed P) []) :
    GoesOn P code waiting (i :: c) d m (.to (pre.length + 1)) := by
  refine ⟨[], c, ⟨⟨pre ++ [i], ?_, ?_⟩, hc⟩, List.subset_cons_self i c, List.forall_mem_nil _, hm⟩
  · rw [hcode, List.append_assoc]
    rfl
  · rw [List.length_append]
    rfl

/-- A forward skip. -/
theorem goesOn_skip {o : Opcode} {b : Code} {m : Machine}
    (hcode : code = pre ++ (withNumber o b.length :: (b ++ c) ++ d)) (hc : c.Shaped P [])
    (hm : m.Vouched (Sealed P) []) :
    ∃ target, skipFrom .instructions code pre.length (withNumber o b.length) = pure target ∧
      GoesOn P code waiting (withNumber o b.length :: (b ++ c)) d m (.to target) := by
  have hskip := skipFrom_over (m := .instructions) o pre b (c ++ d)
  rw [Measure.instructions_length, ← List.append_assoc b c d, ← List.cons_append, ← hcode] at hskip
  refine ⟨_, hskip, [], c, ⟨⟨pre ++ (withNumber o b.length :: b), ?_, ?_⟩, hc⟩, ?_,
    List.forall_mem_nil _, hm⟩
  · rw [hcode]
    simp
  · simp
    omega
  · exact fun j hj => List.mem_cons_of_mem _ (List.mem_append_right _ hj)

/-- Behind a recording. -/
theorem goesOn_recording {b : Code} {waiting' : List Code} {m : Machine}
    (hcode : code = pre ++ (plain .record :: (b ++ plain .endRecord :: c) ++ d))
    (hc : c.Shaped P waiting') (hm : m.Vouched (Sealed P) waiting')
    (hwait : ∀ b' ∈ waiting', b' = b ∨ b' ∈ waiting) :
    GoesOn P code waiting (plain .record :: (b ++ plain .endRecord :: c)) d m
      (.to (pre.length + b.length + 2)) := by
  refine ⟨waiting', c, ⟨⟨pre ++ (plain .record :: (b ++ [plain .endRecord])), ?_, ?_⟩, hc⟩, ?_,
    fun b' hb' => ?_, hm⟩
  · rw [hcode]
    simp
  · simp
    omega
  · exact fun j hj => List.mem_cons_of_mem _ (List.mem_append_right _ (List.mem_cons_of_mem _ hj))
  · rcases hwait b' hb' with rfl | hb'
    · exact .inr fun j hj => List.mem_cons_of_mem _ (List.mem_append_left _ hj)
    · exact .inl hb'

/-- The latest recording is the one that waits. -/
theorem takeRecording_ensures {G : Code → Prop} (h : OnVariables S I) (b : Code)
    {E : Stop → Machine → Prop} :
    Ensures (fun m => m.Vouched G (b :: waiting) ∧ I m) (takeRecording : Exec Code)
      (fun b' m => b' = b ∧ m.Vouched G waiting ∧ I m) E := by
  intro m hm
  obtain ⟨rest, hrest, huse⟩ := hm.1.use
  have hget : (get : Exec Machine) m = .ok m m := rfl
  unfold Machine.takeRecording
  rw [bind_of_ok hget, hrest]
  exact ⟨rfl, huse, h.congr hm.2 rfl rfl⟩

/-- An instruction of shaped code leads on to shaped code. -/
theorem Faces.advance_ensures (h : OnVariables S I) (hexhausted : S .exhausted)
    {run : Code → Exec Flow} {limit : Nat} {i : Instruction}
    (hface : Faces P code pc waiting (i :: c) d)
    (hact : i.opcode.acts → Upholds S (Trusted (Sealed P) I) (act run i))
    (hrun : ∀ b ∈ waiting, Upholds S (Trusted (Sealed P) I) (run b)) :
    Ensures (fun m => m.Vouched (Sealed P) waiting ∧ I m)
      (advance run limit .instructions code pc i)
      (fun move m => GoesOn P code waiting (i :: c) d m move ∧ I m)
      fun e m => S e ∧ Trusted (Sealed P) I m := by
  have hstack : OffStack S (Trusted (Sealed P) I) := h.vouched _ []
  obtain ⟨⟨pre, hcode, rfl⟩, hshaped⟩ := hface
  generalize hhere : i :: c = here at hshaped
  cases hshaped with
  | nil => cases hhere
  | act hi hc =>
    obtain ⟨rfl, rfl⟩ := List.cons.inj hhere
    rw [advance_act hi]
    exact Ensures.bind (hact hi) fun _ => .pure fun m hm => ⟨goesOn_next hcode hc hm.1, hm.2⟩
  | out hi hc =>
    obtain ⟨rfl, rfl⟩ := List.cons.inj hhere
    obtain ⟨o, operand⟩ := i
    have hgive : Ensures (fun m => m.Vouched (Sealed P) [] ∧ I m)
        (do return Move.out (.gaveBack (← take)) : Exec Move)
        (fun move m => GoesOn P code [] (⟨o, operand⟩ :: c) d m move ∧ I m)
        fun e m => S e ∧ Trusted (Sealed P) I m :=
      Ensures.bind hstack.take fun v => .pure fun m hm => ⟨⟨by simp, hm.1⟩, hm.2⟩
    rcases hi with hi | rfl
    · cases o with
      | next | leave => exact Ensures.pure fun m hm => ⟨⟨by simp, hm.1⟩, hm.2⟩
      | _ => cases hi
    · exact hgive
  | @skip o b c ho hb hc =>
    obtain ⟨rfl, rfl⟩ := List.cons.inj hhere
    have hskip : Ensures (Trusted (Sealed P) I)
        (do return Move.to (← skipFrom .instructions code pre.length (withNumber o b.length)))
        (fun move m => GoesOn P code [] (withNumber o b.length :: (b ++ c)) d m move ∧ I m)
        fun e m => S e ∧ Trusted (Sealed P) I m := by
      intro m hm
      obtain ⟨target, htarget, hon⟩ := goesOn_skip hcode hc hm.1
      rw [htarget]
      exact ⟨hon, hm.2⟩
    have hnext : Ensures (Trusted (Sealed P) I) (pure (Move.to (pre.length + 1)) : Exec Move)
        (fun move m => GoesOn P code [] (withNumber o b.length :: (b ++ c)) d m move ∧ I m)
        fun e m => S e ∧ Trusted (Sealed P) I m :=
      .pure fun m hm => ⟨goesOn_next hcode hb hm.1, hm.2⟩
    cases o with
    | skip => exact hskip
    | skipIf =>
      refine Ensures.bind hstack.takeTruth fun t => ?_
      cases t with
      | true => exact hskip
      | false => exact hnext
    | skipUnless =>
      refine Ensures.bind hstack.takeTruth fun t => ?_
      cases t with
      | true => exact hnext
      | false => exact hskip
    | _ => cases ho
  | @recording b c hb hc =>
    obtain ⟨rfl, rfl⟩ := List.cons.inj hhere
    have hsplit : code = pre ++ plain .record :: (b ++ plain .endRecord :: (c ++ d)) := by
      rw [hcode]
      simp
    rw [advance_recording run limit .instructions hsplit hb.2.balanced]
    refine Ensures.bind (Q := fun _ => Trusted (Sealed P) I) (fun m hm => ?_) fun _ => .pure
      fun m hm => ⟨goesOn_recording hcode hc hm.1 (List.forall_mem_nil _), hm.2⟩
    exact ⟨hm.1.keep hb, h.congr hm.2 rfl rfl⟩
  | @wait _ b c hb hc =>
    obtain ⟨rfl, rfl⟩ := List.cons.inj hhere
    have hsplit : code = pre ++ plain .record :: (b ++ plain .endRecord :: (c ++ d)) := by
      rw [hcode]
      simp
    rw [advance_recording run limit .instructions hsplit hb.balanced]
    refine Ensures.bind (Q := fun _ m => m.Vouched (Sealed P) (b :: waiting) ∧ I m)
      (fun m hm => ?_) fun _ => .pure fun m hm =>
        ⟨goesOn_recording hcode hc hm.1 fun b' hb' => List.mem_cons.mp hb', hm.2⟩
    exact ⟨hm.1.wait b, h.congr hm.2 rfl rfl⟩
  | @loop condition body c hcondition hbody hc =>
    obtain ⟨rfl, rfl⟩ := List.cons.inj hhere
    refine Ensures.bind (takeRecording_ensures h condition) fun condition' => ?_
    refine Ensures.bind (Q := fun body' m => body' = body ∧ condition' = condition ∧
      Trusted (Sealed P) I m) ?_ fun body' => ?_
    · rintro m ⟨rfl, hm⟩
      exact (takeRecording_ensures h body).weaken (fun _ h => h) (fun _ _ h => ⟨h.1, rfl, h.2⟩)
        (fun _ _ h => h) m hm
    rintro m ⟨rfl, rfl, hm⟩
    have hrounds := hstack.rounds hexhausted (hrun condition' List.mem_cons_self)
      (hrun body' (List.mem_cons_of_mem _ List.mem_cons_self)) limit
    refine Ensures.bind hrounds (fun flow => ?_) m hm
    cases flow with
    | gaveBack v => exact .pure fun m hm => ⟨⟨by simp, hm.1⟩, hm.2⟩
    | _ => exact .pure fun m hm => ⟨goesOn_next hcode hc hm.1, hm.2⟩

end Code

end StackScript
