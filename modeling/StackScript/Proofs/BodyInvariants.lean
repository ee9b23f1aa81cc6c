import Mathlib.Data.Set.List
import StackScript.Proofs.Region
import StackScript.Proofs.Upholding

/-!
# StackScript.Proofs.BodyInvariants — what holds of all bodies stays so

A machine is vouched for if the bodies of all functions and all recordings have a property.  What an
instruction does with them does not depend on what they are: a machine whose bodies come with the
property runs the same way, so that it still has it for all its bodies (`prepare_vouched`).

Code is vetted if the recordings in it have the property and it has no loop, as recorded code has
none.  If the instructions of vetted code uphold something about variables, so do all runs of it,
and the machine stays vouched for (`runFrom_upholds`).
-/

namespace StackScript

open EStateM (Result)
open Instruction Code Machine

/-! ### Machines with bodies of one kind -/

/-- The function has a body with `G` and the local variables of this body. -/
structure Function.Vouched (G : Code → Prop) (f : Function) : Prop where
  slots : f.slots = Body.slots f.body
  body : G f.body

/-- All functions are vouched for, and behind recordings that wait for their use so are all
recordings. -/
structure Machine.Vouched (G : Code → Prop) (waiting : List Code) (m : Machine) : Prop where
  functions : ∀ f ∈ m.heap.functions, f.Vouched G
  recordings : ∃ rest, m.recordings = waiting ++ rest ∧ ∀ b ∈ rest, G b

/-- Code with `G`, if no code at all has it. -/
structure Promise (G : Code → Prop) where
  code : Code
  holds : G [] → G code

namespace Promise

variable {G : Code → Prop}

instance : Body (Promise G) where
  default := ⟨[], id⟩
  slots b := Body.slots b.code

/-- The machine of the code that is promised. -/
def kept : Guise (Promise G) Code where
  body := code
  slots f := Body.slots f.body.code
  stack := id
  locals := id
  recordings := List.map code
  body_default := rfl
  slots_default := rfl
  slots_made _ _ _ := rfl

theorem kept_function_vouched (hnil : G []) (f : Function (Promise G)) :
    (kept.function f).Vouched G := ⟨rfl, f.body.holds hnil⟩

/-- A machine is vouched for if all its code has been promised. -/
theorem vouched_iff (hnil : G []) {m : Machine} :
    m.Vouched G [] ↔ ∃ u : Machine (Promise G), kept.see u = m := by
  constructor
  · rintro ⟨hfunctions, rest, hrest, hrecordings⟩
    have hcodes : rest ∈ Set.range (List.map (code (G := G))) := by
      rw [Set.range_list_map]
      exact fun b hb => ⟨⟨b, fun _ => hrecordings b hb⟩, rfl⟩
    have hkept : m.heap.functions.toList ∈ Set.range (List.map (kept (G := G)).function) := by
      rw [Set.range_list_map]
      intro f hf
      obtain ⟨hslots, hbody⟩ := hfunctions f (Array.mem_toList_iff.mp hf)
      refine ⟨⟨f.name, f.arity, [], f.body, fun _ => hbody⟩, ?_⟩
      rw [Guise.function, Function.mk.injEq]
      exact ⟨rfl, rfl, hslots.symm, rfl⟩
    obtain ⟨bs, hbs⟩ := hcodes
    obtain ⟨fs, hfs⟩ := hkept
    refine ⟨{ m with
      recordings := bs
      heap := ⟨m.heap.lists, m.heap.maps, fs.toArray, m.heap.classes, m.heap.objects⟩ }, ?_⟩
    show { m with
      recordings := bs.map code
      heap := ⟨m.heap.lists, m.heap.maps, fs.toArray.map kept.function, m.heap.classes,
        m.heap.objects⟩ } = m
    rw [hbs, List.map_toArray, hfs, Array.toArray_toList, ← List.nil_append rest, ← hrest]
  · rintro ⟨u, rfl⟩
    refine ⟨fun f hf => ?_, u.recordings.map code, rfl, fun b hb => ?_⟩
    · obtain ⟨g, -, rfl⟩ := Array.mem_map.mp hf
      exact kept_function_vouched hnil g
    · obtain ⟨b, -, rfl⟩ := List.mem_map.mp hb
      exact b.holds hnil

end Promise

/-! ### Instructions -/

variable {G : Code → Prop} {S : Stop → Prop}

/-- The function that an instruction calls is vouched for. -/
theorem prepare_vouched (hnil : G []) (i : Instruction) :
    Ensures (Machine.Vouched G []) (prepare i)
      (fun c m => (∀ call ∈ c, call.function.Vouched G) ∧ m.Vouched G [])
      fun _ m => m.Vouched G [] := by
  intro m hm
  obtain ⟨u, rfl⟩ := (Promise.vouched_iff hnil).mp hm
  have hcommutes := Guise.prepare_commutes (v := Promise.kept (G := G)) (i := i) (fun _ => rfl)
    (fun _ => rfl) (fun _ _ _ => rfl) u
  rw [hcommutes]
  cases prepare i u with
  | error e t => exact (Promise.vouched_iff hnil).mpr ⟨t, rfl⟩
  | ok c t =>
    refine ⟨fun call hcall => ?_, (Promise.vouched_iff hnil).mpr ⟨t, rfl⟩⟩
    obtain ⟨c, -, rfl⟩ := Option.map_eq_some_iff.mp hcall
    exact Promise.kept_function_vouched hnil c.function

namespace Machine.Vouched

variable {waiting : List Code} {m t : Machine}

theorem congr (h : m.Vouched G waiting) (hf : t.heap.functions = m.heap.functions)
    (hr : t.recordings = m.recordings) : t.Vouched G waiting :=
  ⟨hf ▸ h.functions, hr ▸ h.recordings⟩

/-- A recording is kept: one of those that wait, or one that is vouched for. -/
theorem wait (h : m.Vouched G waiting) (b : Code) :
    Vouched G (b :: waiting) { m with recordings := b :: m.recordings } := by
  obtain ⟨hfunctions, rest, hrest, hall⟩ := h
  exact ⟨hfunctions, rest, congrArg (b :: ·) hrest, hall⟩

theorem keep (h : m.Vouched G []) {b : Code} (hb : G b) :
    Vouched G [] { m with recordings := b :: m.recordings } := by
  obtain ⟨hfunctions, rest, hrest, hall⟩ := h
  exact ⟨hfunctions, b :: rest, congrArg (b :: ·) hrest, List.forall_mem_cons.mpr ⟨hb, hall⟩⟩

/-- The first of the recordings that wait is used. -/
theorem use {b : Code} (h : m.Vouched G (b :: waiting)) :
    ∃ rest, m.recordings = b :: rest ∧ Vouched G waiting { m with recordings := rest } := by
  obtain ⟨hfunctions, rest, hrest, hall⟩ := h
  exact ⟨waiting ++ rest, hrest, hfunctions, rest, rfl, hall⟩

end Machine.Vouched

/-- A machine that is vouched for, with something about its variables. -/
def Machine.Trusted (G : Code → Prop) (I : Machine → Prop) (m : Machine) : Prop :=
  m.Vouched G [] ∧ I m

theorem Machine.OffStack.vouched {I : Machine → Prop} (h : OffStack S I) (G : Code → Prop)
    (waiting : List Code) : OffStack S fun m => m.Vouched G waiting ∧ I m :=
  ⟨fun stack hm => ⟨hm.1.congr rfl rfl, h.restack stack hm.2⟩, h.fault, h.crashed⟩

/-- An instruction that does not jump, with the call that it asks for. -/
theorem act_upholds {I : Machine → Prop} (h : OnVariables S I) (hnil : G []) {i : Instruction}
    {run : Code → Exec Flow}
    (hread : ∀ place, Place.readBy? i = some place → Upholds S I (read place : Exec Value))
    (hwrite : ∀ place v, Place.writtenBy? i = some place → Upholds S I (write place v : Exec Unit))
    (hclear : ∀ slot : Nat, i = withNumber .clear slot → Upholds S I (clearSlot slot : Exec Unit))
    (hcall : ∀ f this, f.Vouched G → Upholds S (Trusted G I) (calling f this (run f.body))) :
    Upholds S (Trusted G I) (act run i) := by
  have hprepare := (prepare_vouched hnil i).and (h.prepare hread hwrite hclear)
  refine Ensures.bind (hprepare.weaken (fun _ h => h) (fun _ _ h => h) ?_) fun c => ?_
  · exact fun e m hm => ⟨hm.2.1, hm.1, hm.2.2⟩
  · cases c with
    | none => exact Ensures.pure fun m hm => ⟨hm.1.2, hm.2⟩
    | some c =>
      intro m hm
      have hcalling := hcall c.function c.this (hm.1.1 c rfl)
      exact (hcalling.bind fun v => (h.vouched G []).push _) m ⟨hm.1.2, hm.2⟩

/-! ### Recorded code -/

namespace Code

variable {P : Code → Prop} {c d : Code}

/-- The recordings in the code have `P`, and it has no loop, nor has any of them. -/
inductive Vetted (P : Code → Prop) : Code → Prop
  | nil : Vetted P []
  | cons {i : Instruction} {c : Code} (hmark : i.opcode.isMark = false) (hloop : i.opcode ≠ .loop)
      (h : Vetted P c) : Vetted P (i :: c)
  | recording {b c : Code} (hP : P b) (hb : Vetted P b) (h : Vetted P c) :
      Vetted P (plain .record :: (b ++ plain .endRecord :: c))

/-- The code has `P`, and the recordings in it have it too. -/
def Sealed (P : Code → Prop) (c : Code) : Prop := P c ∧ c.Vetted P

namespace Vetted

theorem balanced (h : c.Vetted P) : c.Balanced := by
  induction h with
  | nil => exact .nil
  | cons hmark _ _ ih => exact .cons hmark ih
  | recording _ _ _ ihb ih => exact .recording ihb ih

theorem append (hc : c.Vetted P) (hd : d.Vetted P) : (c ++ d).Vetted P := by
  induction hc with
  | nil => exact hd
  | cons hmark hloop _ ih => exact .cons hmark hloop ih
  | recording hP hb _ _ ih =>
    rw [List.cons_append, List.append_assoc]
    exact .recording hP hb ih

theorem of_acts (h : c.Acts) : c.Vetted P := by
  induction c with
  | nil => exact .nil
  | cons i c ih =>
    obtain ⟨hi, hc⟩ := acts_cons_iff.mp h
    refine .cons (Opcode.not_isMark_of_acts hi) (fun hloop => ?_) (ih hc)
    rw [hloop] at hi
    cases hi

theorem ne_loop (h : c.Vetted P) {i : Instruction} (hi : i ∈ c) : i.opcode ≠ .loop := by
  induction h with
  | nil => cases hi
  | cons _ hloop _ ih =>
    rcases List.mem_cons.mp hi with rfl | hi
    · exact hloop
    · exact ih hi
  | recording _ _ _ ihb ih =>
    rcases List.mem_cons.mp hi with rfl | hi
    · exact fun h => nomatch h
    rcases List.mem_append.mp hi with hi | hi
    · exact ihb hi
    rcases List.mem_cons.mp hi with rfl | hi
    · exact fun h => nomatch h
    · exact ih hi

/-- Wherever a recording begins, it ends, and what is recorded has the property. -/
theorem recording_at {code : Code} (h : code.Vetted P) {pc : Nat} {i : Instruction}
    (hi : code[pc]? = some i) (ho : i.opcode = .record) :
    ∃ b rest, code.drop (pc + 1) = b ++ plain .endRecord :: rest ∧ Sealed P b := by
  induction h generalizing pc with
  | nil => cases hi
  | cons hmark _ _ ih =>
    cases pc with
    | zero =>
      obtain rfl := Option.some.inj hi
      rw [ho] at hmark
      cases hmark
    | succ pc => exact ih hi
  | @recording b c hP hb _ ihb ih =>
    cases pc with
    | zero => exact ⟨b, c, rfl, hP, hb⟩
    | succ pc =>
      rw [List.getElem?_cons_succ, List.getElem?_append] at hi
      rw [List.drop_succ_cons, List.drop_append]
      split at hi
      case isTrue hlt =>
        obtain ⟨b', rest, heq, hb'⟩ := ihb hi
        refine ⟨b', rest ++ plain .endRecord :: c, ?_, hb'⟩
        rw [heq, Nat.sub_eq_zero_of_le hlt, List.append_assoc]
        rfl
      case isFalse hge =>
        obtain ⟨k, hk⟩ := Nat.exists_eq_add_of_le (Nat.le_of_not_lt hge)
        have hsub : pc - b.length = k := by omega
        rw [hsub] at hi
        cases k with
        | zero =>
          obtain rfl := Option.some.inj hi
          cases ho
        | succ k =>
          obtain ⟨b', rest, heq, hb'⟩ := ih hi
          refine ⟨b', rest, ?_, hb'⟩
          have hnone : b.drop (pc + 1) = [] := List.drop_eq_nil_of_le (by omega)
          have hsub : pc + 1 - b.length = k + 1 + 1 := by omega
          rw [hnone, hsub, List.nil_append]
          exact heq

end Vetted

end Code

namespace Machine

/-- One instruction of vetted code. -/
theorem advance_upholds {P : Code → Prop} {I : Machine → Prop} (h : OnVariables S I)
    {run : Code → Exec Flow} {limit : Nat} {measure : Measure} {code : Code} {pc : Nat}
    {i : Instruction} (hc : code.Vetted P) (hi : code[pc]? = some i)
    (hact : Upholds S (Trusted (Sealed P) I) (act run i)) :
    Upholds S (Trusted (Sealed P) I) (advance run limit measure code pc i) := by
  have hstack : OffStack S (Trusted (Sealed P) I) := h.vouched _ []
  refine hstack.advance (fun ho => ?_) (fun ho => ?_) hact
  · obtain ⟨b, rest, hdrop, hb⟩ := hc.recording_at hi ho
    rw [Machine.advance, ho]
    dsimp only
    rw [hdrop, recordingLength?_recording hb.2.balanced]
    show Upholds S _ (keepRecording ((b ++ plain .endRecord :: rest).take b.length) >>= _)
    rw [List.take_left]
    refine Upholds.bind (fun m hm => ?_) fun _ => .pure _
    exact ⟨hm.1.keep hb, h.congr hm.2 rfl rfl⟩
  · exact absurd ho (hc.ne_loop (List.mem_of_getElem? hi))

/-- Recorded code, with something about variables that its instructions uphold if the bodies of
functions uphold what is theirs. -/
theorem runFrom_upholds {ι : Type} {P : ι → Code → Prop} {I : ι → Machine → Prop}
    {F : ι → Code → Prop} (hvars : ∀ z, OnVariables S (I z)) (hexhausted : S .exhausted)
    (hvetted : ∀ z c, F z c → c.Vetted (P z))
    (hact : ∀ z c, F z c → ∀ i ∈ c, ∀ run : Code → Exec Flow,
      (∀ z b, F z b → Upholds S (Trusted (Sealed (P z)) (I z)) (run b)) →
        Upholds S (Trusted (Sealed (P z)) (I z)) (act run i)) (n : Nat) :
    ∀ z c, F z c → ∀ pc,
      Upholds S (Trusted (Sealed (P z)) (I z)) (runFrom .slots c n pc) := by
  induction n with
  | zero => exact fun _ _ _ _ => .throw hexhausted
  | succ n ih =>
    intro z code hc pc
    cases hi : code[pc]? with
    | none =>
      rw [runFrom_end hi]
      exact .pure _
    | some i =>
      rw [runFrom_succ hi]
      have hrun := hact z code hc i (List.mem_of_getElem? hi) (fun b => runFrom .slots b n 0)
        fun z b hb => ih z b hb 0
      refine (advance_upholds (hvars z) (hvetted z code hc) hi hrun).bind fun move => ?_
      rcases move with pc | flow
      · exact ih z code hc pc
      · exact .pure _

end Machine

end StackScript
