import StackScript.Code.Generate
import StackScript.Machine.Run

/-!
# StackScript.Proofs.Region — code that stays within its bounds

Generated code is balanced: each recording in it ends in it.  A balanced prefix of such code ends
where an instruction outside every recording begins, or at the end.  `Code.Closed` says that every
skip outside the recordings leads to such a place of the same code, and that every jump out of a
loop is one that the loop can replace.  `Code.Patched` relates code to the same code with skips in
place of these jumps, as it stands in a loop made of skips.
-/

namespace StackScript

open Instruction

/-! ### Instructions by what they do to the place in the code -/

namespace Opcode

/-- The opcode marks the begin or the end of a recording. -/
def isMark : Opcode → Bool
  | record | endRecord => true
  | _ => false

/-- The opcode skips. -/
def isSkip : Opcode → Bool
  | skip | skipIf | skipUnless => true
  | _ => false

/-- The opcode jumps out of a round of a loop. -/
def isJump : Opcode → Bool
  | next | leave => true
  | _ => false

/-- The opcode leads to the next instruction in every case. -/
def acts : Opcode → Bool
  | record | endRecord | skip | skipIf | skipUnless | loop | next | leave | giveBack => false
  | _ => true

theorem not_isMark_of_acts {o : Opcode} (h : o.acts) : o.isMark = false := by
  cases o <;> first | rfl | cases h

theorem not_isSkip_of_acts {o : Opcode} (h : o.acts) : o.isSkip = false := by
  cases o <;> first | rfl | cases h

theorem not_isJump_of_acts {o : Opcode} (h : o.acts) : o.isJump = false := by
  cases o <;> first | rfl | cases h

end Opcode

/-! ### Distances -/

namespace Measure

theorem index?_append (m : Measure) (front back : Code) :
    m.index? (m.length front) (front ++ back) = some front.length := by
  induction front with
  | nil => simp [index?]
  | cons i front ih =>
    obtain ⟨n, hn⟩ := Nat.exists_eq_add_of_lt (m.width_pos i)
    rw [Nat.zero_add] at hn
    have hl : m.length (i :: front) = n + m.length front + 1 := by
      rw [length_cons, hn]
      omega
    rw [hl, List.cons_append, index?, if_pos (by omega)]
    rw [show n + m.length front + 1 - m.width i = m.length front by omega, ih]
    rfl

/-- A skip leads to the place that is as far behind the begin as its distance tells. -/
theorem target?_append {m : Measure} {front back : Code} {pc : Nat} {offset : Int}
    (h : (m.length ((front ++ back).take (pc + 1)) : Int) + offset = m.length front) :
    m.target? (front ++ back) pc offset = some front.length := by
  have hp : Int.ofNat (m.length ((front ++ back).take (pc + 1))) + offset = m.length front := h
  rw [target?, hp, if_neg (by omega), Int.toNat_natCast]
  exact index?_append m front back

end Measure

namespace Code

/-! ### Code without jumps -/

/-- Each instruction leads to the next one. -/
def Acts (c : Code) : Prop := ∀ i ∈ c, i.opcode.acts

theorem Acts.nil : Acts [] := fun _ h => nomatch h

theorem acts_cons_iff {i : Instruction} {c : Code} : Acts (i :: c) ↔ i.opcode.acts ∧ Acts c :=
  List.forall_mem_cons

theorem acts_append_iff {c d : Code} : Acts (c ++ d) ↔ Acts c ∧ Acts d := List.forall_mem_append

theorem Acts.append {c d : Code} (hc : Acts c) (hd : Acts d) : Acts (c ++ d) :=
  acts_append_iff.mpr ⟨hc, hd⟩

theorem Acts.cons {i : Instruction} {c : Code} (hi : i.opcode.acts) (hc : Acts c) :
    Acts (i :: c) := acts_cons_iff.mpr ⟨hi, hc⟩

/-! ### Balanced code -/

/-- Each recording that begins in the code ends in it, and the other way round. -/
inductive Balanced : Code → Prop
  | nil : Balanced []
  | cons {i : Instruction} {c : Code} (h : i.opcode.isMark = false) (hc : Balanced c) :
      Balanced (i :: c)
  | recording {b c : Code} (hb : Balanced b) (hc : Balanced c) :
      Balanced (plain .record :: (b ++ plain .endRecord :: c))

theorem Balanced.append {c d : Code} (hc : Balanced c) (hd : Balanced d) : Balanced (c ++ d) := by
  induction hc with
  | nil => exact hd
  | cons h _ ih => exact .cons h ih
  | recording hb _ _ ih =>
    rw [List.cons_append, List.append_assoc]
    exact .recording hb ih

theorem Balanced.recorded {b : Code} (h : Balanced b) : Balanced (recorded b) := .recording h .nil

theorem Balanced.of_acts {c : Code} (h : Acts c) : Balanced c := by
  induction c with
  | nil => exact .nil
  | cons i c ih =>
    obtain ⟨hi, hc⟩ := acts_cons_iff.mp h
    exact .cons (Opcode.not_isMark_of_acts hi) (ih hc)

theorem recordingLength?_cons {i : Instruction} (h : i.opcode.isMark = false) (depth : Nat)
    (c : Code) :
    recordingLength? depth (i :: c) = (recordingLength? depth c).map (· + 1) := by
  have hr : i.opcode ≠ .record := fun h' => by simp [h', Opcode.isMark] at h
  have he : i.opcode ≠ .endRecord := fun h' => by simp [h', Opcode.isMark] at h
  simp [recordingLength?, hr, he]

theorem recordingLength?_record (depth : Nat) (c : Code) :
    recordingLength? depth (plain .record :: c) =
      (recordingLength? (depth + 1) c).map (· + 1) := by
  simp [recordingLength?, plain]

theorem recordingLength?_endRecord (depth : Nat) (c : Code) :
    recordingLength? (depth + 1) (plain .endRecord :: c) =
      (recordingLength? depth c).map (· + 1) := by
  simp [recordingLength?, plain]

/-- The end of a recording is looked for behind the balanced code in it. -/
theorem recordingLength?_append {b : Code} (hb : Balanced b) (depth : Nat) (c : Code) :
    recordingLength? depth (b ++ c) = (recordingLength? depth c).map (· + b.length) := by
  induction hb generalizing depth c with
  | nil => simp
  | cons h _ ih =>
    rw [List.cons_append, recordingLength?_cons h, ih]
    simp [Option.map_map, Function.comp_def, Nat.add_assoc]
  | recording _ _ ih ih' =>
    rw [List.cons_append, List.append_assoc, recordingLength?_record, ih, List.cons_append,
      recordingLength?_endRecord, ih']
    simp only [Option.map_map, Function.comp_def]
    congr 1
    funext n
    simp only [List.length_cons, List.length_append]
    omega

theorem recordingLength?_recording {b : Code} (hb : Balanced b) (c : Code) :
    recordingLength? 0 (b ++ plain .endRecord :: c) = some b.length := by
  rw [recordingLength?_append hb]
  simp [recordingLength?, plain]

/-- A recording is determined by where it begins. -/
theorem recording_unique {b b' c c' : Code} (hb : Balanced b) (hb' : Balanced b')
    (h : b ++ plain .endRecord :: c = b' ++ plain .endRecord :: c') : b = b' ∧ c = c' := by
  have hl : b.length = b'.length := by
    have h₁ := recordingLength?_recording hb c
    rw [h, recordingLength?_recording hb' c'] at h₁
    exact (Option.some.inj h₁).symm
  obtain ⟨rfl, h₂⟩ := List.append_inj h hl
  exact ⟨rfl, (List.cons.inj h₂).2⟩

theorem balanced_cons_iff {i : Instruction} {c : Code} (h : i.opcode.isMark = false) :
    Balanced (i :: c) ↔ Balanced c := by
  refine ⟨fun hc => ?_, .cons h⟩
  generalize hd : i :: c = d at hc
  cases hc with
  | nil => cases hd
  | cons _ hc =>
    cases hd
    exact hc
  | recording =>
    obtain ⟨rfl, _⟩ := List.cons.inj hd
    cases h

theorem Balanced.of_recording {b c : Code} (hb : Balanced b)
    (h : Balanced (plain .record :: (b ++ plain .endRecord :: c))) : Balanced c := by
  generalize hd : plain .record :: (b ++ plain .endRecord :: c) = d at h
  cases h with
  | nil => cases hd
  | cons h =>
    obtain ⟨rfl, _⟩ := List.cons.inj hd
    cases h
  | recording hb' hc =>
    obtain ⟨_, rfl⟩ := recording_unique hb hb' (List.cons.inj hd).2
    exact hc

/-- What follows balanced code in balanced code is balanced. -/
theorem Balanced.of_append {c d : Code} (hc : Balanced c) (h : Balanced (c ++ d)) :
    Balanced d := by
  induction hc with
  | nil => exact h
  | cons hi _ ih => exact ih ((balanced_cons_iff hi).mp h)
  | recording hb _ _ ih =>
    rw [List.cons_append, List.append_assoc] at h
    exact ih (hb.of_recording h)

/-- An instruction of `c ++ d` between balanced prefixes is one of `c` or one of `d`. -/
theorem Balanced.split {c d pre post : Code} {i : Instruction} (hc : Balanced c)
    (hp : Balanced pre) (h : c ++ d = pre ++ i :: post) :
    (∃ post', c = pre ++ i :: post' ∧ post = post' ++ d) ∨
      ∃ pre', pre = c ++ pre' ∧ d = pre' ++ i :: post ∧ Balanced pre' := by
  rcases List.append_eq_append_iff.mp h with ⟨as, rfl, hd⟩ | ⟨bs, rfl, hb⟩
  · exact .inr ⟨as, rfl, hd, hc.of_append hp⟩
  · cases bs with
    | nil => exact .inr ⟨[], by simp, by simpa using hb.symm, .nil⟩
    | cons j bs =>
      obtain ⟨rfl, rfl⟩ := List.cons.inj hb
      exact .inl ⟨bs, rfl, rfl⟩

/-! ### Closed code -/

/-- The skip `i` behind `pre` leads to the end of a balanced prefix of `c`. -/
def Lands (m : Measure) (c pre : Code) (i : Instruction) : Prop :=
  ∃ front back, c = front ++ back ∧ Balanced front ∧
    i.operand = some (.integer ((m.length front : Int) - m.length (pre ++ [i])))

theorem Lands.append_right {m : Measure} {c pre : Code} {i : Instruction} (h : Lands m c pre i)
    (d : Code) : Lands m (c ++ d) pre i := by
  obtain ⟨front, back, rfl, hf, hi⟩ := h
  exact ⟨front, back ++ d, by simp, hf, hi⟩

theorem Lands.append_left {m : Measure} {c d pre : Code} {i : Instruction} (hc : Balanced c)
    (h : Lands m d pre i) : Lands m (c ++ d) (c ++ pre) i := by
  obtain ⟨front, back, rfl, hf, hi⟩ := h
  refine ⟨c ++ front, back, by simp, hc.append hf, ?_⟩
  rw [hi]
  simp only [List.append_assoc, Measure.length_append]
  congr 2
  omega

/-- Outside recordings, the skips stay within the code and the jumps wait for their loop. -/
structure Closed (m : Measure) (c : Code) : Prop where
  balanced : Balanced c
  lands : ∀ {pre i post}, c = pre ++ i :: post → Balanced pre → i.opcode.isSkip → Lands m c pre i
  waits : ∀ {pre i post}, c = pre ++ i :: post → Balanced pre → i.opcode.isJump →
    i = jumpCode m i.opcode

theorem Closed.append {m : Measure} {c d : Code} (hc : Closed m c) (hd : Closed m d) :
    Closed m (c ++ d) where
  balanced := hc.balanced.append hd.balanced
  lands := by
    intro pre i post h hp hi
    rcases hc.balanced.split hp h with ⟨post', hc', _⟩ | ⟨pre', rfl, hd', hp'⟩
    · exact (hc.lands hc' hp hi).append_right d
    · exact (hd.lands hd' hp' hi).append_left hc.balanced
  waits := by
    intro pre i post h hp hi
    rcases hc.balanced.split hp h with ⟨post', hc', _⟩ | ⟨pre', rfl, hd', hp'⟩
    · exact hc.waits hc' hp hi
    · exact hd.waits hd' hp' hi

theorem Closed.nil (m : Measure) : Closed m [] where
  balanced := .nil
  lands h := by simp at h
  waits h := by simp at h

/-- A single instruction in front of balanced code. -/
theorem cons_split {i j : Instruction} {c pre post : Code} (hi : i.opcode.isMark = false)
    (hp : Balanced pre) (h : i :: c = pre ++ j :: post) :
    (pre = [] ∧ j = i) ∨ ∃ pre', pre = i :: pre' ∧ c = pre' ++ j :: post ∧ Balanced pre' := by
  cases pre with
  | nil => exact .inl ⟨rfl, (List.cons.inj h).1.symm⟩
  | cons k pre =>
    obtain ⟨rfl, h'⟩ := List.cons.inj h
    exact .inr ⟨pre, rfl, h', (balanced_cons_iff hi).mp hp⟩

theorem Closed.single {m : Measure} {i : Instruction} (hm : i.opcode.isMark = false)
    (hs : i.opcode.isSkip = false) (hj : i.opcode.isJump → i = jumpCode m i.opcode) :
    Closed m [i] where
  balanced := .cons hm .nil
  lands := by
    intro pre j post h hp hjs
    rcases cons_split hm hp h with ⟨rfl, rfl⟩ | ⟨pre', _, h', _⟩
    · exact absurd hjs (by simp [hs])
    · simp at h'
  waits := by
    intro pre j post h hp hjj
    rcases cons_split hm hp h with ⟨rfl, rfl⟩ | ⟨pre', _, h', _⟩
    · exact hj hjj
    · simp at h'

theorem Closed.act {m : Measure} {i : Instruction} (h : i.opcode.acts) : Closed m [i] :=
  .single (Opcode.not_isMark_of_acts h) (Opcode.not_isSkip_of_acts h) fun h' => by
    simp [Opcode.not_isJump_of_acts h] at h'

theorem Closed.of_acts {m : Measure} {c : Code} (h : Acts c) : Closed m c := by
  induction c with
  | nil => exact .nil m
  | cons i c ih =>
    obtain ⟨hi, hc⟩ := acts_cons_iff.mp h
    exact (Closed.act hi).append (ih hc)

/-- A skip over the first part of the code that follows it. -/
theorem Closed.skip {m : Measure} {o : Opcode} {c d : Code} (ho : o.isSkip) (hc : Balanced c)
    (h : Closed m (c ++ d)) : Closed m (withNumber o (m.length c) :: (c ++ d)) := by
  have hm : (withNumber o (m.length c)).opcode.isMark = false := by
    cases o <;> first | rfl | cases ho
  have hj : (withNumber o (m.length c)).opcode.isJump = false := by
    cases o <;> first | rfl | cases ho
  refine ⟨.cons hm h.balanced, ?_, ?_⟩
  · intro pre j post hs hp hjs
    rcases cons_split hm hp hs with ⟨rfl, rfl⟩ | ⟨pre', rfl, h', hp'⟩
    · refine ⟨withNumber o (m.length c) :: c, d, rfl, .cons hm hc, ?_⟩
      simp only [withNumber, List.nil_append, Measure.length_cons, Measure.length_nil]
      congr 2
      omega
    · exact (h.lands h' hp' hjs).append_left (.cons hm .nil)
  · intro pre j post hs hp hjj
    rcases cons_split hm hp hs with ⟨rfl, rfl⟩ | ⟨pre', rfl, h', hp'⟩
    · exact absurd hjj (by simp [hj])
    · exact h.waits h' hp' hjj

/-- Nothing in a recording is outside every recording. -/
theorem Closed.recorded {m : Measure} {b : Code} (hb : Balanced b) : Closed m (recorded b) := by
  have hs : ∀ {pre : Code} {i : Instruction} {post : Code}, StackScript.recorded b = pre ++ i :: post →
      Balanced pre → i = plain .record := by
    intro pre i post h hp
    cases hp with
    | nil => exact (List.cons.inj h).1.symm
    | cons hi _ =>
      obtain ⟨rfl, _⟩ := List.cons.inj h
      cases hi
    | @recording b' c' hb' hc' =>
      have h₁ : b ++ plain .endRecord :: [] = b' ++ plain .endRecord :: (c' ++ i :: post) := by
        simpa using (List.cons.inj h).2
      have h₂ := (recording_unique hb hb' h₁).2
      simp at h₂
  refine ⟨hb.recorded, ?_, ?_⟩
  · intro pre i post h hp hi
    rw [hs h hp] at hi
    cases hi
  · intro pre i post h hp hi
    rw [hs h hp] at hi
    cases hi

/-! ### Code in which the jumps of a loop are replaced -/

/-- The second code is the first with skips for its jumps, if there are `exits`.  These tell how far
behind the end of the code `next` and `leave` lead. -/
inductive Patched (m : Measure) (exits : Option (Int × Int)) : Code → Code → Prop
  | nil : Patched m exits [] []
  | same {i : Instruction} {c c' : Code} (hi : i.opcode.isMark = false)
      (hj : i.opcode.isJump → exits = none) (h : Patched m exits c c') :
      Patched m exits (i :: c) (i :: c')
  | next {c c' : Code} {past away : Int} (he : exits = some (past, away))
      (h : Patched m exits c c') :
      Patched m exits (jumpCode .slots .next :: c) (withNumber .skip (m.length c + past) :: c')
  | leave {c c' : Code} {past away : Int} (he : exits = some (past, away))
      (h : Patched m exits c c') :
      Patched m exits (jumpCode .slots .leave :: c) (withNumber .skip (m.length c + away) :: c')
  | recording {b c c' : Code} (hb : Balanced b) (h : Patched m exits c c') :
      Patched m exits (plain .record :: (b ++ plain .endRecord :: c))
        (plain .record :: (b ++ plain .endRecord :: c'))

namespace Patched

variable {m : Measure} {exits : Option (Int × Int)} {c c' : Code}

protected theorem refl (m : Measure) (h : Balanced c) : Patched m none c c := by
  induction h with
  | nil => exact .nil
  | cons hi _ ih => exact .same hi (fun _ => rfl) ih
  | recording hb _ _ ih => exact .recording hb ih

theorem length_eq (h : Patched m exits c c') : c'.length = c.length := by
  induction h with
  | nil => rfl
  | recording _ _ ih => simp [ih]
  | _ => simpa

theorem measure_eq (h : Patched m exits c c') : m.length c' = m.length c := by
  induction h with
  | nil => rfl
  | same _ _ _ ih => simp [ih]
  | next _ _ ih => cases m <;> simp [ih, Measure.width, width, jumpCode, withNumber]
  | leave _ _ ih => cases m <;> simp [ih, Measure.width, width, jumpCode, withNumber]
  | recording _ _ ih => simp [ih]

theorem balanced (h : Patched m exits c c') : Balanced c := by
  induction h with
  | nil => exact .nil
  | same hi _ _ ih => exact .cons hi ih
  | next _ _ ih => exact .cons rfl ih
  | leave _ _ ih => exact .cons rfl ih
  | recording hb _ ih => exact .recording hb ih

theorem balanced_right (h : Patched m exits c c') : Balanced c' := by
  induction h with
  | nil => exact .nil
  | same hi _ _ ih => exact .cons hi ih
  | next _ _ ih => exact .cons rfl ih
  | leave _ _ ih => exact .cons rfl ih
  | recording hb _ ih => exact .recording hb ih

/-- Balanced prefixes of the two codes correspond to each other. -/
theorem split {a b : Code} (ha : Balanced a) (h : Patched m exits (a ++ b) c') :
    ∃ a' b', c' = a' ++ b' ∧ a'.length = a.length ∧ m.length a' = m.length a ∧ Balanced a' ∧
      Patched m exits b b' := by
  induction ha generalizing c' with
  | nil => exact ⟨[], c', rfl, rfl, rfl, .nil, h⟩
  | @cons i a hi ha ih =>
    generalize hd : i :: a ++ b = d at h
    cases h with
    | nil => cases hd
    | same _ _ h =>
      obtain ⟨rfl, rfl⟩ := List.cons.inj hd
      obtain ⟨a', b', rfl, hl, hm, hb, h'⟩ := ih h
      exact ⟨_ :: a', b', rfl, by simp [hl], by simp [hm], .cons hi hb, h'⟩
    | next he h =>
      obtain ⟨rfl, rfl⟩ := List.cons.inj hd
      obtain ⟨a', b', rfl, hl, hm, hb, h'⟩ := ih h
      refine ⟨_ :: a', b', rfl, by simp [hl], ?_, .cons rfl hb, h'⟩
      cases m <;> simp [hm, Measure.width, width, jumpCode, withNumber]
    | leave he h =>
      obtain ⟨rfl, rfl⟩ := List.cons.inj hd
      obtain ⟨a', b', rfl, hl, hm, hb, h'⟩ := ih h
      refine ⟨_ :: a', b', rfl, by simp [hl], ?_, .cons rfl hb, h'⟩
      cases m <;> simp [hm, Measure.width, width, jumpCode, withNumber]
    | recording =>
      obtain ⟨rfl, _⟩ := List.cons.inj hd
      cases hi
  | @recording e a he ha ihe ih =>
    generalize hd : plain .record :: (e ++ plain .endRecord :: a) ++ b = d at h
    cases h with
    | nil => cases hd
    | same hi =>
      obtain ⟨rfl, _⟩ := List.cons.inj hd
      cases hi
    | next => cases (List.cons.inj hd).1
    | leave => cases (List.cons.inj hd).1
    | recording he' h =>
      have h₁ := (List.cons.inj hd).2
      rw [List.append_eq, List.append_assoc, List.cons_append] at h₁
      obtain ⟨rfl, rfl⟩ := recording_unique he he' h₁
      obtain ⟨a', b', rfl, hl, hm, hb, h'⟩ := ih h
      exact ⟨plain .record :: (e ++ plain .endRecord :: a'), b', by simp, by simp [hl],
        by simp [hm], .recording he hb, h'⟩

/-- Balanced prefixes of the code with skips correspond to those of the code with jumps. -/
theorem split_right {a' b' : Code} (ha : Balanced a') (h : Patched m exits c (a' ++ b')) :
    ∃ a b, c = a ++ b ∧ m.length a = m.length a' ∧ Balanced a ∧ Patched m exits b b' := by
  induction ha generalizing c with
  | nil => exact ⟨[], c, rfl, rfl, .nil, h⟩
  | @cons i a' hi ha ih =>
    generalize hd : i :: a' ++ b' = d at h
    cases h with
    | nil => cases hd
    | same _ _ h =>
      obtain ⟨rfl, rfl⟩ := List.cons.inj hd
      obtain ⟨a, b, rfl, hm, hb, h'⟩ := ih h
      exact ⟨_ :: a, b, rfl, by simp [hm], .cons hi hb, h'⟩
    | next he h =>
      obtain ⟨rfl, rfl⟩ := List.cons.inj hd
      obtain ⟨a, b, rfl, hm, hb, h'⟩ := ih h
      refine ⟨_ :: a, b, rfl, ?_, .cons rfl hb, h'⟩
      cases m <;> simp [hm, Measure.width, width, jumpCode, withNumber]
    | leave he h =>
      obtain ⟨rfl, rfl⟩ := List.cons.inj hd
      obtain ⟨a, b, rfl, hm, hb, h'⟩ := ih h
      refine ⟨_ :: a, b, rfl, ?_, .cons rfl hb, h'⟩
      cases m <;> simp [hm, Measure.width, width, jumpCode, withNumber]
    | recording =>
      obtain ⟨rfl, _⟩ := List.cons.inj hd
      cases hi
  | @recording e a' he ha ihe ih =>
    generalize hd : plain .record :: (e ++ plain .endRecord :: a') ++ b' = d at h
    cases h with
    | nil => cases hd
    | same hi =>
      obtain ⟨rfl, _⟩ := List.cons.inj hd
      cases hi
    | next => cases (List.cons.inj hd).1
    | leave => cases (List.cons.inj hd).1
    | recording he' h =>
      have h₁ := (List.cons.inj hd).2
      rw [List.append_eq, List.append_assoc, List.cons_append] at h₁
      obtain ⟨rfl, rfl⟩ := recording_unique he he' h₁
      obtain ⟨a, b, rfl, hm, hb, h'⟩ := ih h
      exact ⟨plain .record :: (e ++ plain .endRecord :: a), b, by simp, by simp [hm],
        .recording he hb, h'⟩

/-- What stands at a place of code with skips for its jumps. -/
theorem at_right {past away : Int} {pre' post' : Code} {i : Instruction}
    (h : Patched m (some (past, away)) c c') (hc : c' = pre' ++ i :: post') (hb : Balanced pre') :
    i.opcode.isJump = false ∧
      ((∃ pre post, c = pre ++ i :: post ∧ Balanced pre ∧ m.length pre = m.length pre') ∨
        i = withNumber .skip (m.length post' + past) ∨
        i = withNumber .skip (m.length post' + away)) := by
  obtain ⟨pre, post, hpp, hm, hbal, hp⟩ := split_right hb (hc ▸ h)
  generalize hd : i :: post' = d at hp
  cases hp with
  | nil => cases hd
  | @same j _ _ _ hj _ =>
    obtain ⟨rfl, rfl⟩ := List.cons.inj hd
    refine ⟨?_, .inl ⟨pre, _, hpp, hbal, hm⟩⟩
    cases hk : i.opcode.isJump with
    | false => rfl
    | true => cases hj hk
  | next he hq =>
    cases he
    obtain ⟨rfl, rfl⟩ := List.cons.inj hd
    exact ⟨rfl, .inr (.inl (by rw [hq.measure_eq]))⟩
  | leave he hq =>
    cases he
    obtain ⟨rfl, rfl⟩ := List.cons.inj hd
    exact ⟨rfl, .inr (.inr (by rw [hq.measure_eq]))⟩
  | recording hb' _ =>
    obtain ⟨rfl, rfl⟩ := List.cons.inj hd
    exact ⟨rfl, .inl ⟨pre, _, hpp, hbal, hm⟩⟩

end Patched

end Code

end StackScript
