import StackScript.Proofs.Region

/-!
# StackScript.Proofs.SlotArray — code as it lies in the array of the machine

The array has the slots of all instructions in a row.  It is as long as the code is measured, no two
codes have the same array, and an instruction begins where the widths of those before it put it.  A
skip lands where an instruction begins, or at the end, and nowhere else (`Code.slots_are_faithful`).
-/

namespace StackScript

open Instruction

/-! ### Slots -/

/-- An opcode is found by its number. -/
theorem Opcode.ofCode?_code (o : Opcode) : ofCode? o.code = some o := by cases o <;> rfl

theorem Opcode.code_injective : Function.Injective code := by
  intro o o' h
  have hread := ofCode?_code o
  rw [h, ofCode?_code] at hread
  exact (Option.some.inj hread).symm

namespace Instruction

/-- An instruction has a slot for its opcode and at most one more. -/
theorem slots_cases (i : Instruction) :
    (i.width = 2 ∧ i.slots = [.opcode i.opcode.code, .operand i.operand]) ∨
      (i.width = 1 ∧ i.operand = none ∧ i.opcode.takesOperand = false ∧
        i.slots = [.opcode i.opcode.code]) := by
  unfold slots width
  cases hoperand : i.operand with
  | some o => exact .inl ⟨rfl, rfl⟩
  | none =>
    cases htakes : i.opcode.takesOperand with
    | true => exact .inl ⟨rfl, rfl⟩
    | false => exact .inr ⟨rfl, rfl, rfl, rfl⟩

theorem length_slots (i : Instruction) : i.slots.length = i.width := by
  rcases i.slots_cases with ⟨hwidth, hslots⟩ | ⟨hwidth, -, -, hslots⟩ <;>
    rw [hwidth, hslots] <;> rfl

/-- The first slot of an instruction is that of its opcode. -/
theorem slots_getElem?_zero (i : Instruction) (rest : List Slot) :
    (i.slots ++ rest)[0]? = some (.opcode i.opcode.code) := by
  rcases i.slots_cases with ⟨-, hslots⟩ | ⟨-, -, -, hslots⟩ <;> rw [hslots] <;> rfl

end Instruction

namespace Code

theorem slots_cons (i : Instruction) (c : Code) : slots (i :: c) = i.slots ++ slots c :=
  List.flatMap_cons

/-- The array is as long as its code is measured. -/
theorem length_slots (c : Code) : c.slots.length = c.slotCount := by
  induction c with
  | nil => rfl
  | cons i c ih =>
    rw [slots_cons, List.length_append, i.length_slots, ih]
    rfl

/-- The array of code begins with no operand. -/
theorem slots_ne_operand (c : Code) (o : Option Operand) (rest : List Slot) :
    c.slots ≠ .operand o :: rest := by
  intro h
  cases c with
  | nil => cases h
  | cons i c =>
    have hfirst := i.slots_getElem?_zero (slots c)
    rw [← slots_cons, h] at hfirst
    cases hfirst

/-- An array tells its first instruction from the rest. -/
theorem cons_of_slots {i j : Instruction} {c d : Code} (h : slots (i :: c) = slots (j :: d)) :
    i = j ∧ c.slots = d.slots := by
  rw [slots_cons, slots_cons] at h
  have hopcode : i.opcode = j.opcode := by
    have hfirst := i.slots_getElem?_zero (slots c)
    rw [h, j.slots_getElem?_zero] at hfirst
    exact Opcode.code_injective (Slot.opcode.inj (Option.some.inj hfirst)).symm
  obtain ⟨o, operand⟩ := i
  obtain ⟨o', operand'⟩ := j
  obtain rfl : o = o' := hopcode
  rcases slots_cases ⟨o, operand⟩ with ⟨-, hi⟩ | ⟨-, hnone, -, hi⟩ <;>
    rcases slots_cases ⟨o, operand'⟩ with ⟨-, hj⟩ | ⟨-, hnone', -, hj⟩ <;> rw [hi, hj] at h
  · obtain ⟨hoperand, hrest⟩ := List.cons_eq_cons.mp (List.cons_eq_cons.mp h).2
    exact ⟨congrArg _ (Slot.operand.inj hoperand), hrest⟩
  · exact absurd (List.cons_eq_cons.mp h).2.symm (slots_ne_operand d _ _)
  · exact absurd (List.cons_eq_cons.mp h).2 (slots_ne_operand c _ _)
  · exact ⟨congrArg _ (hnone.trans hnone'.symm), (List.cons_eq_cons.mp h).2⟩

/-- No two codes have the same array. -/
theorem slots_injective : Function.Injective slots := by
  intro c
  induction c with
  | nil =>
    intro d h
    cases d with
    | nil => rfl
    | cons j d =>
      have hfirst := j.slots_getElem?_zero (slots d)
      rw [← slots_cons, ← h] at hfirst
      cases hfirst
  | cons i c ih =>
    intro d h
    cases d with
    | nil =>
      have hfirst := i.slots_getElem?_zero (slots c)
      rw [← slots_cons, h] at hfirst
      cases hfirst
    | cons j d =>
      obtain ⟨rfl, hrest⟩ := cons_of_slots h
      rw [ih hrest]

end Code

/-! ### Places -/

namespace Measure

variable {m : Measure} {c : Code} {pc k t n : Nat}

/-- Where the instructions of code begin that itself begins at `position`, and where it ends. -/
def offsetsFrom (m : Measure) (position : Nat) : Code → List Nat
  | [] => [position]
  | i :: c => position :: m.offsetsFrom (position + m.width i) c

/-- Where the instructions of code begin, and where it ends. -/
def offsets (m : Measure) (c : Code) : List Nat := m.offsetsFrom 0 c

theorem offsetsFrom_eq_some {position : Nat} :
    (m.offsetsFrom position c)[k]? = some n ↔
      k ≤ c.length ∧ n = position + m.length (c.take k) := by
  induction c generalizing k position with
  | nil =>
    cases k with
    | zero => simp [offsetsFrom, eq_comm]
    | succ k => simp [offsetsFrom]
  | cons i c ih =>
    cases k with
    | zero => simp [offsetsFrom, eq_comm]
    | succ k => simp [offsetsFrom, ih, Nat.add_assoc]

/-- An instruction begins behind those before it. -/
theorem offsets_eq_some : (m.offsets c)[k]? = some n ↔ k ≤ c.length ∧ n = m.length (c.take k) := by
  rw [offsets, offsetsFrom_eq_some, Nat.zero_add]

/-- The instructions that make up a distance are those before the place at this distance. -/
theorem index?_eq_some : m.index? n c = some t ↔ t ≤ c.length ∧ m.length (c.take t) = n := by
  constructor
  · intro h
    fun_induction m.index? n c generalizing t with
    | case1 =>
      obtain rfl := Option.some.inj h
      exact ⟨Nat.zero_le _, rfl⟩
    | case2 => cases h
    | case3 distance i is hle ih =>
      obtain ⟨k, hk, rfl⟩ := Option.map_eq_some_iff.mp h
      obtain ⟨hlength, hmeasure⟩ := ih hk
      refine ⟨Nat.succ_le_succ hlength, ?_⟩
      rw [List.take_succ_cons, length_cons, hmeasure]
      omega
    | case4 => cases h
  · rintro ⟨hle, rfl⟩
    have hindex := index?_append m (c.take t) (c.drop t)
    rwa [List.take_append_drop, List.length_take_of_le hle] at hindex

/-- A skip leads to the instruction, or the end, that its distance reaches from behind it. -/
theorem target?_eq_some {offset : Int} : m.target? c pc offset = some t ↔
    t ≤ c.length ∧ (m.length (c.take t) : Int) = m.length (c.take (pc + 1)) + offset := by
  unfold target?
  dsimp only
  split
  case isTrue hneg =>
    rw [Int.ofNat_eq_natCast] at hneg
    refine ⟨nofun, fun ⟨_, heq⟩ => ?_⟩
    omega
  case isFalse hnonneg =>
    rw [Int.ofNat_eq_natCast] at hnonneg ⊢
    rw [index?_eq_some]
    refine and_congr_right fun _ => ?_
    omega

theorem le_of_mem_offsetsFrom {position : Nat} (h : n ∈ m.offsetsFrom position c) :
    position ≤ n := by
  obtain ⟨k, hk⟩ := List.mem_iff_getElem?.mp h
  rw [(offsetsFrom_eq_some.mp hk).2]
  exact Nat.le_add_right _ _

theorem mem_offsetsFrom_slots {position distance : Nat} :
    position + distance ∈ slots.offsetsFrom position c ↔
      distance = c.slots.length ∨ ∃ o, c.slots[distance]? = some (.opcode o) := by
  induction c generalizing position distance with
  | nil => simp [offsetsFrom, Code.slots]
  | cons i c ih =>
    rw [offsetsFrom, List.mem_cons, Code.slots_cons, List.length_append, i.length_slots]
    show _ ∨ position + distance ∈ slots.offsetsFrom (position + i.width) c ↔ _
    rcases Nat.lt_or_ge distance i.width with hlt | hge
    · -- inside of the instruction: its opcode, or an operand, where nothing begins
      have hrest : position + distance ∉ slots.offsetsFrom (position + i.width) c := fun h => by
        have := le_of_mem_offsetsFrom h
        omega
      rw [or_iff_left hrest, or_iff_right (by omega)]
      rcases i.slots_cases with ⟨hwidth, hslots⟩ | ⟨hwidth, -, -, hslots⟩ <;> rw [hslots]
      · match distance with
        | 0 => simp
        | 1 => simp
        | distance + 2 => omega
      · obtain rfl : distance = 0 := by omega
        simp
    · obtain ⟨d, rfl⟩ := Nat.exists_eq_add_of_le hge
      have hpos := i.width_pos
      have hbegin : ¬ position + (i.width + d) = position := by omega
      rw [or_iff_right hbegin, ← Nat.add_assoc, ih,
        List.getElem?_append_right (by rw [i.length_slots]; omega), i.length_slots,
        Nat.add_sub_cancel_left, Nat.add_left_cancel_iff]

/-- Instructions begin at the slots of their opcodes. -/
theorem mem_offsets_slots : n ∈ slots.offsets c ↔
    n = c.slots.length ∨ ∃ o, c.slots[n]? = some (.opcode o) := by
  have hfrom : 0 + n ∈ slots.offsetsFrom 0 c ↔ _ := mem_offsetsFrom_slots
  rwa [Nat.zero_add] at hfrom

end Measure

namespace Code

/-- The slot at the place of an instruction is that of its opcode. -/
theorem slots_at_offset {code : Code} {k : Nat} {i : Instruction} (h : code[k]? = some i) :
    code.slots[Measure.slots.length (code.take k)]? = some (.opcode i.opcode.code) := by
  obtain ⟨hk, rfl⟩ := List.getElem?_eq_some_iff.mp h
  have hsplit : code = code.take k ++ code[k] :: code.drop (k + 1) := by
    rw [List.getElem_cons_drop, List.take_append_drop]
  have hslots : code.slots = slots (code.take k) ++ slots (code[k] :: code.drop (k + 1)) :=
    (congrArg slots hsplit).trans List.flatMap_append
  have hlength : Measure.slots.length (code.take k) = (slots (code.take k)).length :=
    (length_slots _).symm
  rw [hslots, hlength, List.getElem?_append_right (Nat.le_refl _), Nat.sub_self, slots_cons,
    Instruction.slots_getElem?_zero]

/-- The array of a code is as long as the code is measured, and no other code has it.  Each
instruction has its opcode where the widths before it put it; these places, which are those of all
opcodes, and the end are the places to which a skip can lead.  A skip counts slots in recorded code
and instructions elsewhere, and it leads to the instruction that begins at its distance from behind
it. -/
theorem slots_are_faithful :
    (∀ c : Code, c.slots.length = c.slotCount) ∧
    (∀ c d : Code, c.slots = d.slots → c = d) ∧
    (∀ (code : Code) (k : Nat) (i : Instruction), code[k]? = some i →
      ∃ n, (Measure.slots.offsets code)[k]? = some n ∧
        code.slots[n]? = some (.opcode i.opcode.code)) ∧
    (∀ (c : Code) (n : Nat), n ∈ Measure.slots.offsets c ↔
      n = c.slots.length ∨ ∃ o, c.slots[n]? = some (.opcode o)) ∧
    ∀ (m : Measure) (c : Code) (pc : Nat) (offset : Int) (t : Nat), pc < c.length →
      (m.target? c pc offset = some t ↔ ∃ behind landing, (m.offsets c)[pc + 1]? = some behind ∧
        (m.offsets c)[t]? = some landing ∧ (landing : Int) = behind + offset) := by
  refine ⟨length_slots, fun c d h => slots_injective h, fun code k i hi => ?_,
    fun c n => Measure.mem_offsets_slots, fun m c pc offset t hpc => ?_⟩
  · obtain ⟨hk, -⟩ := List.getElem?_eq_some_iff.mp hi
    exact ⟨_, Measure.offsets_eq_some.mpr ⟨Nat.le_of_lt hk, rfl⟩, slots_at_offset hi⟩
  · rw [Measure.target?_eq_some]
    constructor
    · rintro ⟨ht, hlanding⟩
      exact ⟨_, _, Measure.offsets_eq_some.mpr ⟨hpc, rfl⟩, Measure.offsets_eq_some.mpr ⟨ht, rfl⟩,
        hlanding⟩
    · rintro ⟨behind, landing, hbehind, hlanding, heq⟩
      obtain ⟨-, rfl⟩ := Measure.offsets_eq_some.mp hbehind
      obtain ⟨ht, rfl⟩ := Measure.offsets_eq_some.mp hlanding
      exact ⟨ht, heq⟩

/-- A call without operand takes up two slots all the same, and a skip leads back behind it. -/
theorem slots_are_faithful_back :
    let code : Code := [plain .call, plain .pop, withNumber .skip (-3)]
    code[1]? = some (plain .pop) ∧
      (∃ n, (Measure.slots.offsets code)[1]? = some n ∧
        code.slots[n]? = some (.opcode (Opcode.code .pop))) ∧
      2 < code.length ∧ Measure.slots.target? code 2 (-3) = some 1 := by
  intro code
  have hpop : code[1]? = some (plain .pop) := rfl
  have hskip : 2 < code.length := by decide
  exact ⟨hpop, slots_are_faithful.2.2.1 code 1 _ hpop, hskip,
    (slots_are_faithful.2.2.2.2 .slots code 2 (-3) 1 hskip).mpr ⟨5, 2, rfl, rfl, by decide⟩⟩

end Code

end StackScript
