import StackScript.Proofs.Shapes

/-!
# StackScript.Proofs.Weighing — every rule makes the symbols lighter

A lexical tag weighs three, an expression two and a program one.  Whatever the pattern of a rule takes
weighs more than what the rule puts in its place, line breaks not counted: a rule may see those that
are detached, and these are no part of the weight of a stream.
-/

namespace StackScript

namespace Tag

/-- The weight of tags. -/
def total (ts : List Tag) : Nat := ts.foldr (fun t n => t.weight + n) 0

@[simp] theorem total_nil : total [] = 0 := rfl

@[simp] theorem total_cons (t : Tag) (ts : List Tag) : total (t :: ts) = t.weight + total ts := rfl

@[simp] theorem total_append (ts us : List Tag) : total (ts ++ us) = total ts + total us := by
  induction ts with
  | nil => simp
  | cons t ts ih => rw [List.cons_append, total_cons, total_cons, ih, Nat.add_assoc]

theorem weight_le (t : Tag) : t.weight ≤ 3 := by
  unfold weight
  split <;> decide

/-- Some of the tags weigh no more than all of them. -/
theorem total_filter_le (p : Tag → Bool) (ts : List Tag) : total (ts.filter p) ≤ total ts := by
  induction ts with
  | nil => exact Nat.le_refl _
  | cons t ts ih =>
    rw [List.filter_cons]
    split
    · rw [total_cons, total_cons]
      omega
    · rw [total_cons]
      omega

/-- The tag is no line break. -/
def isInk (t : Tag) : Bool := t != .newline

theorem total_filter_ink {t : Tag} (h : t ≠ .newline) (ts : List Tag) :
    total ((t :: ts).filter isInk) = t.weight + total (ts.filter isInk) := by
  have hink : t.isInk = true := bne_iff_ne.mpr h
  rw [List.filter_cons, if_pos hink, total_cons]

end Tag

/-- The weight of a stream is that of its active tags. -/
theorem Stream.weight_eq (s : Stream) : s.weight = Tag.total (s.active.map (·.tag)) := by
  rw [Stream.weight, Tag.total, List.foldr_map]

namespace Rule

variable {r : Rule}

/-- A shape is heavier than the result of its rule. -/
theorem Shape.result_lt {us : List Tag} (h : r.Shape us) :
    r.result.weight < Tag.total (us.filter Tag.isInk) := by
  cases h with
  | literal h =>
    simp only [List.mem_cons, List.not_mem_nil, or_false] at h
    rcases h with rfl | rfl | rfl | rfl | rfl | rfl <;> decide
  | unary h =>
    simp only [List.mem_cons, List.not_mem_nil, or_false] at h
    rcases h with rfl | rfl | rfl <;> decide
  | @binary t _ _ h hr =>
    subst hr
    cases t <;> cases h <;> decide
  | jump h => rcases h with rfl | rfl <;> decide
  | functionHead | list | map =>
    simp only [List.filter_append, Tag.total_filter_ink, ne_eq, reduceCtorEq,
      not_false_eq_true, Tag.total_append, Tag.weight, result]
    omega
  | arguments h =>
    rcases h with rfl | rfl <;>
      · simp only [List.filter_append, Tag.total_filter_ink, ne_eq, reduceCtorEq, not_false_eq_true,
          Tag.total_append, Tag.weight, result]
        omega
  | branch h | elseIf h | otherwise h | loop h | functionEnd h | classEnd h => cases h <;> decide
  | _ => decide

open Pattern in
/-- The pattern for sequences takes two programs at least, and what it takes ends in one. -/
theorem programs_of_rest?_sequence {ts ts' : List Tag}
    (h : Rule.sequence.pattern.rest? ts = some ts') :
    ∃ us, ts = .program :: (us ++ .program :: ts') := by
  have hseparated : separated.Yields fun us => us = [] ∨ ∃ vs, us = vs ++ [.program] := by
    intro ts ts' h
    obtain ⟨ts'', hseparators, hprogram⟩ := Option.bind_eq_some_iff.mp h
    obtain ⟨vs, rfl⟩ := rest?_suffix hseparators
    exact ⟨vs ++ [.program], .inr ⟨vs, rfl⟩, by rw [rest?_tag_eq_some hprogram]; simp⟩
  have happend : ∀ us vs : List Tag, (us = [] ∨ ∃ ws, us = ws ++ [.program]) →
      (vs = [] ∨ ∃ ws, vs = ws ++ [.program]) → us ++ vs = [] ∨ ∃ ws, us ++ vs = ws ++ [.program] := by
    rintro us vs hus (rfl | ⟨ws, rfl⟩)
    · rwa [List.append_nil]
    · exact .inr ⟨us ++ ws, (List.append_assoc _ _ _).symm⟩
  rw [pattern_sequence] at h
  obtain ⟨ts₁, h₁, h⟩ := Option.bind_eq_some_iff.mp h
  obtain ⟨ts₂, h₂, h⟩ := Option.bind_eq_some_iff.mp h
  obtain ⟨ts₃, h₃, h₄⟩ := Option.bind_eq_some_iff.mp h
  obtain ⟨us, hus⟩ := rest?_suffix h₂
  obtain ⟨vs, hvs, rfl⟩ := hseparated.many (.inl rfl) happend ts₃ ts' h₄
  rw [rest?_tag_eq_some h₁, ← hus, rest?_tag_eq_some h₃]
  rcases hvs with rfl | ⟨ws, rfl⟩
  · exact ⟨us, rfl⟩
  · exact ⟨us ++ .program :: ws, by simp⟩

/-- What a pattern takes is heavier than the result of its rule. -/
theorem result_lt_of_rest? {us ts : List Tag} (h : r.pattern.rest? (us ++ ts) = some ts) :
    r.result.weight < Tag.total (us.filter Tag.isInk) := by
  by_cases hr : r = .sequence
  · subst hr
    obtain ⟨vs, hvs⟩ := programs_of_rest?_sequence h
    have heq : us ++ ts = (.program :: (vs ++ [.program])) ++ ts := by
      rw [hvs]
      simp
    rw [List.append_cancel_right heq]
    simp only [List.filter_append, Tag.total_filter_ink, ne_eq, reduceCtorEq, not_false_eq_true,
      Tag.total_append, Tag.weight, result]
    omega
  · obtain ⟨vs, hvs, heq⟩ := shape_of_rest? hr h
    rw [List.append_cancel_right heq]
    exact hvs.result_lt

end Rule

end StackScript
