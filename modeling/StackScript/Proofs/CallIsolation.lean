import StackScript.Proofs.Moments
import StackScript.Proofs.OwnBodies

/-!
# StackScript.Proofs.CallIsolation — calls leave the local variables of a program alone

A program may have no function that refers to a local variable declared outside of it.  Then, at
every moment of its run, all bodies that have been recorded for functions are contained: whatever an
instruction does, it leads on to such moments (`Moment.Orderly.leads`).  So every call that is made
keeps all local variables, at whatever depth it is made and however it ends.
-/

namespace StackScript

open EStateM (Result)
open Instruction Code Machine

/-! ### The code that runs -/

/-- Anything may happen to the variables. -/
theorem Machine.anything_onVariables :
    OnVariables (β := Code) (fun _ => True) (fun _ => True) where
  congr _ _ _ := trivial
  fault _ := trivial
  crashed := trivial

/-- A machine whose bodies are contained. -/
abbrev Machine.Sound : Machine → Prop := Trusted (Sealed Contained) fun _ => True

namespace Machine

variable {slots : List Nat} {α : Type}

theorem isolated_nil_iff {m : Machine} : Isolated ⟨slots, []⟩ m ↔ m.Sound :=
  ⟨fun h => ⟨h.1, trivial⟩,
    fun h => ⟨h.1, Nat.zero_le _, fun _ _ hi => absurd hi (Nat.not_lt_zero _)⟩⟩

theorem sound_of_isolated {x : Exec α} (h : Upholds (fun _ => True) (Isolated ⟨slots, []⟩) x) :
    Upholds (fun _ => True) Sound x :=
  h.weaken (fun _ => isolated_nil_iff.mpr) (fun _ _ => isolated_nil_iff.mp)
    fun _ _ h => ⟨trivial, isolated_nil_iff.mp h.2⟩

/-- Recorded code, whatever it is for. -/
theorem runFrom_sound {c : Code} (hc : c.Vetted Contained) (n pc : Nat) :
    Upholds (fun _ => True) Sound (runFrom .slots c n pc) := by
  have hown : c.namesOwn (c.filterMap Instruction.slot?) = true :=
    Code.namesOwn_iff.mpr fun i hi _ hslot => List.mem_filterMap.mpr ⟨i, hi, hslot⟩
  exact sound_of_isolated (runFrom_keeps (z := ⟨c.filterMap Instruction.slot?, []⟩) n ⟨hown, hc⟩ pc)

theorem act_sound (n : Nat) (i : Instruction) :
    Upholds (fun _ => True) Sound (act (fun c => runFrom .slots c n 0) i) := by
  have hslot : ∀ slot, i.slot? = some slot → slot ∈ i.slot?.toList := fun _ h =>
    Option.mem_toList.mpr h
  exact sound_of_isolated (act_keeps (z := ⟨i.slot?.toList, []⟩) hslot
    fun _ _ hc => runFrom_keeps n hc 0)

/-- Only instructions that call ask for a call. -/
theorem calls_of_prepare {i : Instruction} {m t : Machine} {c : Call Code}
    (h : prepare i m = .ok (some c) t) :
    i.opcode = .call ∨ i.opcode = .callMethod ∨ i.opcode = .makeInstance := by
  by_contra hcalls
  rw [not_or, not_or] at hcalls
  obtain ⟨hcall, hmethod, hinstance⟩ := hcalls
  have hprepare : (prepare i : Exec (Option (Call Code))) = (do perform i; return none) := by
    unfold prepare
    split
    · contradiction
    · contradiction
    · contradiction
    · rfl
  rw [hprepare] at h
  obtain ⟨_, _, _, hnone⟩ := ok_of_bind h
  cases hnone

/-- The call that an instruction asks for is one of a function with a contained body. -/
theorem prepare_sound {i : Instruction} {m t : Machine} {c : Call Code} (hm : m.Sound)
    (h : prepare i m = .ok (some c) t) :
    c.function.Vouched (Sealed Contained) ∧ t.Vouched (Sealed Contained) [] ∧
      t.locals = m.locals := by
  have hcalls := calls_of_prepare h
  have hvars : OnVariables (fun _ => True) fun t : Machine => t.locals = m.locals :=
    { congr := fun h hl _ => hl.trans h, fault := fun _ => trivial, crashed := trivial }
  have hwritten : Place.writtenBy? i = none := by
    obtain ⟨o, operand⟩ := i
    rcases hcalls with rfl | rfl | rfl <;> rfl
  have hlocals := hvars.prepare (i := i) (fun _ _ => hvars.read fun _ _ _ _ => .inl trivial)
    (fun place v hplace => by rw [hwritten] at hplace; cases hplace)
    (fun slot hslot => by rw [hslot] at hcalls; rcases hcalls with h | h | h <;> cases h)
  have hboth := ((prepare_vouched ⟨contained_nil, .nil⟩ i).and hlocals).ok ⟨hm.1, rfl⟩ h
  exact ⟨hboth.1.1 c rfl, hboth.1.2, hboth.2⟩

end Machine

/-! ### Moments -/

namespace Moment

/-- All bodies are contained, those of the functions and those that are yet to be recorded. -/
inductive Orderly : Moment → Prop
  | recorded {c : Code} {n pc : Nat} {m : Machine} (hc : c.Vetted Contained) (hm : m.Sound) :
      Orderly ⟨.slots, c, n, pc, m⟩
  | program {code c : Code} {n pc : Nat} {waiting : List Code} {m : Machine}
      (hface : Faces Contained code pc waiting c []) (hm : m.Vouched (Sealed Contained) waiting) :
      Orderly ⟨.instructions, code, n, pc, m⟩

theorem orderly_start {code : Code} (h : code.Shaped Contained []) (fuel maxDepth : Nat) :
    (start code fuel (.start maxDepth)).Orderly := by
  have hface : Faces Contained code 0 [] code [] := ⟨⟨[], (List.append_nil code).symm, rfl⟩, h⟩
  refine .program hface ⟨fun f hf => ?_, [], rfl, List.forall_mem_nil _⟩
  exact absurd hf (Array.not_mem_empty f)

/-- What is left of a program begins with the instruction of the moment. -/
theorem faces_cons {code c : Code} {pc : Nat} {waiting : List Code} {i : Instruction}
    (h : Faces Contained code pc waiting c []) (hi : code[pc]? = some i) :
    ∃ c', c = i :: c' := by
  cases c with
  | nil =>
    obtain ⟨⟨pre, rfl, rfl⟩, -⟩ := h
    rw [List.append_nil, List.append_nil, List.getElem?_eq_none (Nat.le_refl _)] at hi
    cases hi
  | cons j c' =>
    obtain rfl : j = i := Option.some.inj (h.getElem?.symm.trans hi)
    exact ⟨c', rfl⟩

/-- No recording waits where an instruction calls. -/
theorem Orderly.sound {measure : Measure} {code : Code} {n pc : Nat} {m t : Machine}
    {i : Instruction} {c : Call Code} (h : Orderly ⟨measure, code, n, pc, m⟩)
    (hi : code[pc]? = some i) (hcall : prepare i m = .ok (some c) t) : m.Sound := by
  cases h with
  | recorded _ hm => exact hm
  | program hface hm =>
    obtain ⟨c', rfl⟩ := faces_cons hface hi
    have hacts : i.opcode.acts := by
      rcases calls_of_prepare hcall with h | h | h <;> rw [h] <;> rfl
    obtain rfl := hface.shaped.waiting_eq_nil hacts
    exact ⟨hm, trivial⟩

/-- The recordings of a loop are contained in what waits for it. -/
theorem Orderly.loop {measure : Measure} {code : Code} {n pc : Nat} {m : Machine}
    {i : Instruction} {condition body : Code} {rest : List Code}
    (h : Orderly ⟨measure, code, n, pc, m⟩) (hi : code[pc]? = some i) (ho : i.opcode = .loop)
    (hrecordings : m.recordings = condition :: body :: rest) :
    condition.Vetted Contained ∧ body.Vetted Contained ∧ Sound { m with recordings := rest } := by
  cases h with
  | recorded hc hm => exact absurd ho (hc.ne_loop (List.mem_of_getElem? hi))
  | program hface hm =>
    obtain ⟨c', rfl⟩ := faces_cons hface hi
    obtain ⟨condition', body', rfl, hcondition, hbody⟩ := hface.shaped.waiting_of_loop ho
    obtain ⟨rest', hrest, hall⟩ := hm.recordings
    rw [hrecordings, List.cons_append, List.singleton_append, List.cons.injEq, List.cons.injEq]
      at hrest
    obtain ⟨rfl, rfl, rfl⟩ := hrest
    exact ⟨hcondition, hbody, ⟨hm.functions, rest, rfl, hall⟩, trivial⟩

theorem Orderly.begins {measure : Measure} {code : Code} {n pc : Nat} {m t : Machine}
    {i : Instruction} {c : Code} (h : Orderly ⟨measure, code, n + 1, pc, m⟩)
    (hi : code[pc]? = some i) (hbegins : Begins (fun c => runFrom .slots c n 0) i m c t) :
    Orderly ⟨.slots, c, n, 0, t⟩ := by
  have hstack : OffStack (fun _ => True) Sound := anything_onVariables.vouched _ []
  cases hbegins with
  | call hprepare =>
    obtain ⟨hf, ht, -⟩ := prepare_sound (h.sound hi hprepare) hprepare
    exact .recorded hf.body.2 ⟨ht.congr rfl rfl, trivial⟩
  | condition ho hrecordings hturns =>
    obtain ⟨hcondition, hbody, hm⟩ := h.loop hi ho hrecordings
    exact .recorded hcondition
      (hturns.upheld hstack (runFrom_sound hcondition n 0) (runFrom_sound hbody n 0) hm)
  | body ho hrecordings hturns =>
    obtain ⟨hcondition, hbody, hm⟩ := h.loop hi ho hrecordings
    exact .recorded hbody
      (hturns.upheld hstack (runFrom_sound hcondition n 0) (runFrom_sound hbody n 0) hm)

theorem Orderly.leads {p q : Moment} (h : p.Orderly) (hleads : p.Leads q) : q.Orderly := by
  cases hleads with
  | begins hi hbegins => exact h.begins hi hbegins
  | @next measure code n pc pc' i m t hi hadvance =>
    cases h with
    | recorded hc hm =>
      have hsound : Upholds (fun _ => True) Sound
          (advance (fun c => runFrom .slots c n 0) n .slots code pc i) :=
        advance_upholds anything_onVariables hc hi (act_sound n i)
      exact .recorded hc (hsound.ok hm hadvance)
    | program hface hm =>
      obtain ⟨c', rfl⟩ := faces_cons hface hi
      have hrun : ∀ b ∈ _, Upholds (fun _ => True) Sound (runFrom .slots b n 0) :=
        fun b hb => runFrom_sound (hface.shaped.waiting_vetted b hb) n 0
      obtain ⟨⟨waiting, c, hface', -, -, hm'⟩, -⟩ := (hface.advance_ensures anything_onVariables
        trivial (fun _ => act_sound n i) hrun).ok ⟨hm, trivial⟩ hadvance
      exact .program hface' hm'

theorem Orderly.reaches {p q : Moment} (h : p.Orderly) (hreach : p.Reaches q) : q.Orderly := by
  induction hreach with
  | refl => exact h
  | tail _ hleads ih => exact ih.leads hleads

end Moment

/-! ### Programs -/

/-- In every run of a program of which no function refers to a local variable declared outside of
it, every call keeps every local variable that was set before it, whatever its body does and however
many steps are left to it. -/
theorem calls_keep_locals (keeps : Bool) (globals : List String) (source : String) {code : Code}
    (hcode : (Compiler.chosen keeps).generate ((Compiler.chosen keeps).compile globals source) =
      .ok code)
    (hown : ∀ b ∈ ((Compiler.chosen keeps).compile globals source).root.bodies,
      b.namesOwn [] = true)
    (maxDepth fuel : Nat) {p : Moment}
    (hreach : (Moment.start code fuel (.start maxDepth)).Reaches p)
    {call : Call Code} {m : Machine} (hcall : p.call? = some (call, m))
    (n slot : Nat) (v : Value) (hv : p.machine.locals[slot]? = some v) :
    (endState (calling call.function call.this (runFrom .slots call.function.body n 0) m)).locals[
      slot]? = some v := by
  have horderly : p.Orderly := (Moment.orderly_start
    (Compiler.code_shaped_contained hcode hown) fuel maxDepth).reaches hreach
  obtain ⟨measure, there, steps, pc, before⟩ := p
  obtain ⟨i, hi, hprepare⟩ : ∃ i, there[pc]? = some i ∧ prepare i before = .ok (some call) m := by
    obtain ⟨i, hi, hmatch⟩ := Option.bind_eq_some_iff.mp hcall
    refine ⟨i, hi, ?_⟩
    dsimp only at hmatch
    split at hmatch
    · rename_i hprepare
      cases hmatch
      exact hprepare
    · cases hmatch
  obtain ⟨hf, hm, hlocals⟩ := prepare_sound (horderly.sound hi hprepare) hprepare
  have hbody : BodyKeeps call.function (runFrom .slots call.function.body n 0) :=
    fun start => runFrom_keeps n (runs_body hf start) 0
  have hrestored : Restored m.locals
      (endState (calling call.function call.this (runFrom .slots call.function.body n 0) m)) :=
    (calling_keeps hbody call.this m.locals).endState ⟨hm, rfl⟩
  obtain ⟨hlt, -⟩ := List.getElem?_eq_some_iff.mp hv
  exact (hrestored.get slot (hlocals ▸ hlt)).trans (hlocals ▸ hv)

/-- A block has a local variable, and calls a function that has one too. -/
theorem calls_keep_locals_block :
    let source := "func f() {
var b = 1
}
if true {
var a = 2
f()
}"
    let compilation := (Compiler.chosen false).compile [] source
    let code := compilation.root.generate dropValue
    (Compiler.chosen false).generate compilation = .ok code ∧
      (∀ b ∈ compilation.root.bodies, b.namesOwn [] = true) ∧
      ∃ p call m, (Moment.start code 20 (.start 8)).Reaches p ∧ p.call? = some (call, m) ∧
        p.machine.locals[0]? = some (.number 2) ∧
        (endState (calling call.function call.this (runFrom .slots call.function.body 10 0) m)
          ).locals[0]? = some (.number 2) := by
  intro source compilation code
  have hall : compilation.diagnostics = [] ∧
      (compilation.root.bodies.all fun b => b.namesOwn []) = true ∧
      ((Moment.later? 7 (.start code 20 (.start 8))).any fun p =>
        p.call?.isSome && p.machine.locals[0]? == some (.number 2)) = true := by
    simp only [code, compilation, Compiler.compile_eq]
    decide +kernel
  obtain ⟨hdiagnostics, hown, hcalls⟩ := hall
  have hown := List.all_eq_true.mp hown
  have hcode : (Compiler.chosen false).generate compilation = .ok code :=
    Compiler.generate_of_eq_nil hdiagnostics
  obtain ⟨p, hlater, hp⟩ := (Option.any_eq_true _ _).mp hcalls
  obtain ⟨hcall, hv⟩ := (Bool.and_eq_true _ _).mp hp
  obtain ⟨⟨call, m⟩, hcall⟩ := Option.isSome_iff_exists.mp hcall
  have hv : p.machine.locals[0]? = some (.number 2) := eq_of_beq hv
  have hreach := Moment.reaches_of_later? hlater
  exact ⟨hcode, hown, p, call, m, hreach, hcall, hv,
    calls_keep_locals false [] source hcode hown 8 20 hreach hcall 10 0 _ hv⟩

end StackScript
