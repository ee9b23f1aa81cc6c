import StackScript.Proofs.GlobalNames

/-!
# StackScript.Proofs.KnownGlobals — runs that read only globals that have a value

Code may address only globals of a set, and so may the bodies of all functions.  While all of these
globals have a value, no instruction of such code stops for a variable that is not defined, and none
takes a value away (`Machine.runFrom_knows`).

A program starts with the globals known so far.  Each of its declarations makes one more known to
what comes after it (`Code.Learns`), and it has been executed when what comes after it is.  So the
same holds of the whole program, and when it is done, all globals that it declares have a value
(`Machine.runFrom_learns`).  If it stops before, those that are declared by then have one.
-/

namespace StackScript

open EStateM (Result)
open Instruction Code Machine

/-! ### Machines -/

/-- The stop is not for a variable that is not defined. -/
def Stop.Defined (e : Stop) : Prop := ∀ name, e ≠ .fault (.undefinedVariable name)

theorem Stop.defined_of_isUndefined {f : Fault} (h : f.isUndefined = false) :
    Stop.Defined (.fault f) := by
  rintro name heq
  obtain rfl := Stop.fault.inj heq
  cases h

/-- All globals of these names have a value. -/
def Machine.Has (known : Set String) (m : Machine) : Prop :=
  ∀ name ∈ known, (m.globals.find? name).isSome

/-- All globals of these names have a value, and the bodies of functions address no others. -/
abbrev Machine.Knows (known : Set String) : Machine → Prop :=
  Trusted (Sealed (Code.GlobalsIn known)) (Has known)

variable {known known' : Set String}

namespace Machine

theorem has_onVariables (known : Set String) : OnVariables Stop.Defined (Has known) where
  congr hm _ hg := by
    intro name hname
    rw [hg]
    exact hm name hname
  fault hf := Stop.defined_of_isUndefined hf
  crashed _ := Stop.noConfusion

theorem text_of_ofOperand? {operand : Option Operand} {name : String}
    (h : Place.ofOperand? operand = some (.global name)) : operand = some (.text name) := by
  unfold Place.ofOperand? at h
  split at h <;> cases h
  rfl

theorem global?_of_readBy? {i : Instruction} {name : String}
    (h : Place.readBy? i = some (.global name)) : i.global? = some name := by
  obtain ⟨o, operand⟩ := i
  unfold Place.readBy? at h
  split at h
  · rename_i ho
    obtain rfl : o = .load := ho
    obtain rfl : operand = _ := text_of_ofOperand? h
    rfl
  · cases text_of_ofOperand? h
  · split at h
    case isFalse => cases h
    case isTrue hupdate =>
      obtain rfl : operand = _ := text_of_ofOperand? h
      unfold Instruction.global?
      have haddresses : o.addresses = true := by
        cases o <;> first | rfl | cases hupdate
      rw [haddresses]

theorem read_has {place : Place} (h : ∀ name, place = .global name → name ∈ known) :
    Upholds Stop.Defined (Has known) (read place : Exec Value) := by
  refine (has_onVariables known).read fun name hname m hm => .inr ?_
  obtain ⟨v, hv⟩ := Option.isSome_iff_exists.mp (hm name (h name hname))
  refine ⟨v, ?_⟩
  unfold named?
  rw [hv]

/-- A global that is written has a value. -/
theorem has_put {m : Machine} (hm : m.Has known) (name : String) (v : Value) :
    Has (insert name known) { m with globals := m.globals.put name v } := by
  intro other hother
  show ((m.globals.put name v).find? other).isSome = true
  rw [Names.find?_put]
  split
  · rfl
  · rename_i hne
    exact hm other (hother.resolve_left hne)

theorem write_has (place : Place) (v : Value) :
    Upholds Stop.Defined (Has known) (write place v : Exec Unit) := by
  refine .get fun m hm => ?_
  cases place with
  | slot id => exact fun _ _ => hm
  | param index =>
    dsimp only
    split
    · exact fun _ _ => (has_onVariables known).congr hm rfl rfl
    · exact ((has_onVariables known).stopWith rfl).still hm
  | global name =>
    exact fun _ _ other hother => has_put hm name v other (Set.mem_insert_of_mem _ hother)

/-- A call leaves the globals to its body. -/
theorem calling_knows {f : Function} {this : Option Nat} {body : Exec Flow}
    (hbody : Upholds Stop.Defined (Knows known) body) :
    Upholds Stop.Defined (Knows known) (calling f this body) := by
  refine calling_ensures (fun _ m hf hm => ⟨Stop.defined_of_isUndefined hf, hm⟩) fun m hm => ?_
  have henter : (m.enter f this).Knows known := ⟨hm.1.congr rfl rfl, hm.2⟩
  refine hbody.weaken (fun t ht => ht ▸ henter) (fun _ t ht => ?_) fun _ t ht => ?_
  · exact ⟨ht.1.congr rfl rfl, ht.2⟩
  · exact ⟨ht.1, ht.2.1.congr rfl rfl, ht.2.2⟩

theorem act_knows {i : Instruction}
    (hread : ∀ name, Place.readBy? i = some (.global name) → name ∈ known)
    {run : Code → Exec Flow} (hrun : ∀ known c, Sealed (Code.GlobalsIn known) c →
      Upholds Stop.Defined (Knows known) (run c)) :
    Upholds Stop.Defined (Knows known) (act run i) :=
  act_upholds (has_onVariables known) ⟨List.forall_mem_nil _, .nil⟩
    (fun _ hplace => read_has fun name heq => hread name (heq ▸ hplace))
    (fun place v _ => write_has place v) (fun _ _ _ hm => hm)
    fun f _ hf => calling_knows (hrun known f.body hf.body)

/-- Recorded code, which addresses only globals that have a value. -/
theorem runFrom_knows (n : Nat) {c : Code} (hc : Sealed (Code.GlobalsIn known) c) (pc : Nat) :
    Upholds Stop.Defined (Knows known) (runFrom .slots c n pc) :=
  runFrom_upholds (F := fun known => Sealed (Code.GlobalsIn known)) has_onVariables nofun
    (fun _ _ hc => hc.2)
    (fun _ _ hc _ hi _ hrun => act_knows
      (fun name hname => hc.1 _ hi name (global?_of_readBy? hname)) hrun) n known c hc pc

/-- More globals are known. -/
theorem Knows.mono {m : Machine} (h : m.Knows known) (hsub : known ⊆ known')
    (hm : m.Has known') : m.Knows known' := by
  have hsealed : ∀ c, Sealed (Code.GlobalsIn known) c → Sealed (Code.GlobalsIn known') c :=
    fun c hc =>
      have hall : c.GlobalsIn known' := fun i hi => (hc.1 i hi).mono hsub
      ⟨hall, hc.2.all hall⟩
  obtain ⟨⟨hfunctions, rest, hrest, hall⟩, -⟩ := h
  refine ⟨⟨fun f hf => ?_, rest, hrest, fun b hb => hsealed b (hall b hb)⟩, hm⟩
  exact ⟨(hfunctions f hf).slots, hsealed f.body (hfunctions f hf).body⟩

/-- These globals have a value, and more may have. -/
def Grown (known : Set String) (m : Machine) : Prop := ∃ known', known ⊆ known' ∧ m.Knows known'

end Machine

/-! ### Programs -/

namespace Code

/-- The code of statements outside of bodies: where these globals are known when it begins, those
are known when it is done. -/
inductive Learns : Set String → Code → Set String → Prop
  | nil (known : Set String) : Learns known [] known
  | statement {known known' : Set String} {c d : Code} (hc : c.Shaped (Code.GlobalsIn known) [])
      (hall : c.GlobalsIn known) (h : Learns known d known') : Learns known (c ++ d) known'
  | declaration {known known' : Set String} (name : String) {d : Code}
      (h : Learns (insert name known) d known') :
      Learns known (⟨.store, some (.text name)⟩ :: d) known'

/-- What the code begins with. -/
inductive Learns.Begins (known known' : Set String) : Code → Prop
  | done (h : known = known') : Begins known known' []
  | statement {i : Instruction} {c d : Code} (hc : Code.Shaped (Code.GlobalsIn known) [] (i :: c))
      (hall : Code.GlobalsIn known (i :: c)) (h : Learns known d known') :
      Begins known known' (i :: c ++ d)
  | declaration (name : String) {d : Code} (h : Learns (insert name known) d known') :
      Begins known known' (⟨.store, some (.text name)⟩ :: d)

theorem Learns.begins {c : Code} (h : Learns known c known') : Begins known known' c := by
  induction h with
  | nil => exact .done rfl
  | @statement known known' c d hc hall h ih =>
    cases c with
    | nil => exact ih
    | cons i c => exact .statement hc hall h
  | declaration name h => exact .declaration name h

end Code

namespace Machine

variable {code c d : Code} {pc n : Nat} {waiting : List Code}

/-- A place in a program: what is left of a statement, for which these recordings wait, and the
statements after it. -/
structure Stands (known known' : Set String) (code : Code) (pc : Nat) (waiting : List Code)
    (c d : Code) : Prop where
  faces : Faces (Code.GlobalsIn known) code pc waiting c d
  names : c.GlobalsIn known
  waiting : ∀ b ∈ waiting, b.GlobalsIn known
  rest : Learns known d known'

/-- From its place the program goes on to where the last globals are known.  Wherever it stops, it
is not for a variable that is not defined. -/
def Carries (known known' : Set String) (code : Code) (pc : Nat) (waiting : List Code) (n : Nat) :
    Prop :=
  Ensures (fun m => m.Vouched (Sealed (Code.GlobalsIn known)) waiting ∧ m.Has known)
    (runFrom .instructions code n pc)
    (fun flow m => (flow = .done → m.Knows known') ∧ m.Grown known)
    fun e m => e.Defined ∧ m.Grown known

theorem Knows.grown {m : Machine} (h : m.Knows known) : m.Grown known :=
  ⟨known, Set.Subset.rfl, h⟩

/-- No recording waits any more. -/
theorem Stands.settled (h : Stands known known' code pc waiting c d) {m : Machine}
    (hm : m.Vouched (Sealed (Code.GlobalsIn known)) waiting) (hhas : m.Has known) :
    m.Knows known := by
  obtain ⟨hfunctions, rest, hrest, hall⟩ := hm
  refine ⟨⟨hfunctions, waiting ++ rest, hrest, List.forall_mem_append.mpr ⟨fun b hb => ?_, hall⟩⟩,
    hhas⟩
  exact ⟨h.waiting b hb, h.faces.shaped.waiting_vetted b hb⟩

/-- One instruction of a statement. -/
theorem Stands.instruction {i : Instruction}
    (h : Stands known known' code pc waiting (i :: c) d)
    (hnext : ∀ {waiting' c' pc'}, Stands known known' code pc' waiting' c' d →
      Carries known known' code pc' waiting' n) :
    Carries known known' code pc waiting (n + 1) := by
  have hact : i.opcode.acts → Upholds Stop.Defined (Knows known)
      (act (fun c => runFrom .slots c n 0) i) := fun _ =>
    act_knows (fun name hname => h.names i List.mem_cons_self name (global?_of_readBy? hname))
      fun known c hc => runFrom_knows n hc 0
  have hrun : ∀ b ∈ waiting, Upholds Stop.Defined (Knows known) (runFrom .slots b n 0) :=
    fun b hb => runFrom_knows n ⟨h.waiting b hb, h.faces.shaped.waiting_vetted b hb⟩ 0
  unfold Carries
  rw [runFrom_succ h.faces.getElem?]
  refine Ensures.bind ((h.faces.advance_ensures (has_onVariables known) nofun hact hrun).weaken
    (fun _ h => h) (fun _ _ h => h) fun e m h => ⟨h.1, Knows.grown h.2⟩) fun move => ?_
  rcases move with pc' | flow
  · rintro m ⟨⟨waiting', c', hfaces, hsub, hwaiting, hm⟩, hhas⟩
    refine hnext ⟨hfaces, fun j hj => h.names j (hsub hj), fun b hb => ?_, h.rest⟩ m ⟨hm, hhas⟩
    rcases hwaiting b hb with hb | hb
    · exact h.waiting b hb
    · exact fun j hj => h.names j (hb hj)
  · rintro m ⟨⟨hne, hm⟩, hhas⟩
    exact ⟨fun hdone => absurd hdone hne, Knows.grown ⟨hm, hhas⟩⟩

/-- A declaration outside of bodies makes its global known. -/
theorem declaration_ensures (name : String) (run : Code → Exec Flow) :
    Ensures (Knows known) (act run ⟨.store, some (.text name)⟩)
      (fun _ => Knows (insert name known)) fun e m => e.Defined ∧ m.Knows known := by
  intro m hm
  rcases m with ⟨_ | ⟨v, stack⟩, locals, frame, callers, globals⟩
  · exact ⟨nofun, hm⟩
  · have hhas := has_put hm.2 name v
    have hput := fun other hother => hhas other (Set.mem_insert_of_mem name hother)
    exact Knows.mono ⟨hm.1.congr rfl rfl, hput⟩ (Set.subset_insert name known) hhas

theorem carries_declaration {name : String} (hi : code[pc]? = some ⟨.store, some (.text name)⟩)
    (hnext : Carries (insert name known) known' code (pc + 1) [] n) :
    Carries known known' code pc [] (n + 1) := by
  have hgrown : ∀ m, Machine.Grown (insert name known) m → Machine.Grown known m :=
    fun m ⟨more, hsub, hm⟩ => ⟨more, (Set.subset_insert name known).trans hsub, hm⟩
  unfold Carries
  rw [runFrom_succ hi, advance_act rfl]
  refine Ensures.bind (Q := fun move m => move = .to (pc + 1) ∧ m.Knows (insert name known)) ?_
    fun move => ?_
  · exact Ensures.bind ((declaration_ensures name _).weaken (fun _ h => h) (fun _ _ h => h)
      fun _ _ h => ⟨h.1, Knows.grown h.2⟩) fun _ => .pure fun _ h => ⟨rfl, h⟩
  · rintro m ⟨rfl, hm⟩
    exact hnext.weaken (fun _ h => h) (fun _ _ h => ⟨h.1, hgrown _ h.2⟩)
      (fun _ _ h => ⟨h.1, hgrown _ h.2⟩) m hm

/-- A program that learns globals, from any place in it. -/
theorem runFrom_learns (n : Nat) : ∀ {known known' : Set String} {waiting : List Code}
    {pc : Nat} {c d : Code}, Stands known known' code pc waiting c d →
      Carries known known' code pc waiting n := by
  induction n with
  | zero => exact fun h => Ensures.throw fun m hm => ⟨nofun, (h.settled hm.1 hm.2).grown⟩
  | succ n ih =>
    intro known known' waiting pc c d h
    cases c with
    | cons i c => exact h.instruction ih
    | nil =>
      obtain ⟨⟨⟨pre, hcode, rfl⟩, hshaped⟩, -, -, hrest⟩ := h
      cases hshaped
      rw [List.nil_append] at hcode
      cases hrest.begins with
      | done heq =>
        have hend : code[pre.length]? = none := by
          rw [hcode, List.append_nil]
          exact List.getElem?_eq_none (Nat.le_refl _)
        unfold Carries
        rw [runFrom_end hend]
        exact .pure fun m hm => ⟨fun _ => heq ▸ hm, Knows.grown hm⟩
      | statement hc hall hd =>
        exact Stands.instruction ⟨⟨⟨pre, hcode, rfl⟩, hc⟩, hall, List.forall_mem_nil _, hd⟩ ih
      | @declaration name d hd =>
        have hi : code[pre.length]? = some ⟨.store, some (.text name)⟩ := by
          rw [hcode, List.getElem?_append_right (Nat.le_refl _), Nat.sub_self]
          rfl
        have hnext : Stands (insert name known) known' code (pre.length + 1) [] [] d := by
          refine ⟨⟨⟨pre ++ [⟨.store, some (.text name)⟩], ?_, List.length_append⟩, .nil⟩,
            List.forall_mem_nil _, List.forall_mem_nil _, hd⟩
          rw [hcode, List.append_assoc]
          rfl
        exact carries_declaration hi (ih hnext)

end Machine

end StackScript
