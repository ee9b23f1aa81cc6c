import StackScript.Proofs.Phrases

/-!
# StackScript.Proofs.Margins — how a phrase begins and ends

Whatever symbols derive a phrase, the tag of the first and that of the last are of a few that the
tag of the phrase determines.
-/

namespace StackScript

namespace Tag

/-- A program that is not reduced yet can begin here. -/
def startsProgram : Tag → Bool
  | program | varWord | assignmentHead | continueWord | breakWord | printWord | returnWord | ifWord
  | whileWord | funcWord | functionHead | classWord | classHead => true
  | t => t.startsExpression

/-- A program can end here. -/
def endsProgram : Tag → Bool
  | program | rightBrace | continueWord | breakWord | returnWord => true
  | t => t.endsOperand

/-- A phrase of the tag can begin with the other tag. -/
def starts : Tag → Tag → Bool
  | expression, t => t.startsExpression
  | program, t => t.startsProgram
  | assignmentHead, t => t == .assignmentHead || t == .varWord || t.startsExpression
  | callHead, t => t.startsExpression
  | newHead, t => t == .newHead || t == .newWord
  | functionHead, t => t == .functionHead || t == .funcWord
  | classHead, t => t == .classHead || t == .classWord
  | w, t => t == w

/-- A phrase of the tag can end with the other tag. -/
def ends : Tag → Tag → Bool
  | expression, t => t.endsOperand
  | program, t => t.endsProgram
  | assignmentHead, t => t == .assignmentHead || t == .equals
  | callHead, t => t == .callHead || t == .leftParen
  | newHead, t => t == .newHead || t == .leftParen
  | functionHead, t => t == .functionHead || t == .leftBrace
  | classHead, t => t == .classHead || t == .leftBrace
  | w, t => t == w

theorem starts_self (t : Tag) : t.starts t = true := by
  cases t <;> simp [starts, startsExpression, startsProgram]

theorem ends_self (t : Tag) : t.ends t = true := by
  cases t <;> simp [ends, endsOperand, endsProgram]

theorem startsProgram_of_startsExpression {t : Tag} (h : t.startsExpression = true) :
    t.startsProgram = true := by
  cases t <;> first | rfl | exact h

theorem endsProgram_of_endsOperand {t : Tag} (h : t.endsOperand = true) :
    t.endsProgram = true := by
  cases t <;> first | rfl | exact h

end Tag

namespace Leaf

/-- The tags of literals, `this` and `super`. -/
theorem literal?_tag {l : Leaf} {e : Expr} (h : l.literal? = some e) :
    l.tag ∈ [Tag.number, .text, .boolean, .null, .thisWord, .superWord] := by
  unfold literal? at h
  split at h <;> first | cases h; done | simp_all

end Leaf

/-- The tags of binary operators. -/
theorem Tag.operator?_mem {t : Tag} {p : Operator} (h : t.operator? = some p) :
    t ∈ [Tag.logic, .comparison, .term, .factor, .power] := by
  cases t <;> first | cases h; done | simp

/-! ### First and last symbols -/

/-- A token begins only with itself. -/
theorem Tag.starts_of_token {t w q : Tag} (ht : t = w) (hw : ∀ u, w.starts u = (u == w))
    (hq : q.starts w = true) (u : Tag) (hu : t.starts u = true) : q.starts u = true := by
  rw [ht, hw, beq_iff_eq] at hu
  rwa [hu]

/-- A token ends only with itself. -/
theorem Tag.ends_of_token {t w q : Tag} (ht : t = w) (hw : ∀ u, w.ends u = (u == w))
    (hq : q.ends w = true) (u : Tag) (hu : t.ends u = true) : q.ends u = true := by
  rw [ht, hw, beq_iff_eq] at hu
  rwa [hu]

/-- What a production gives begins as the first of its phrases. -/
theorem Production.first {r : Rule} {qs : List Phrase} {q : Phrase} (h : Production r qs q) :
    ∃ p ps, qs = p :: ps ∧ p.start = q.start ∧
      ∀ t, p.tag.starts t = true → q.tag.starts t = true := by
  cases h with
  | literal h =>
    refine ⟨_, _, rfl, rfl, ?_⟩
    have hmem := Leaf.literal?_tag h
    simp only [List.mem_cons, List.not_mem_nil, or_false] at hmem
    rcases hmem with h | h | h | h | h | h <;>
      exact Tag.starts_of_token h (fun _ => rfl) rfl
  | unary ho =>
    refine ⟨_, _, rfl, rfl, ?_⟩
    have hmem := ho.tag_mem
    simp only [List.mem_cons, List.not_mem_nil, or_false] at hmem
    rcases hmem with h | h | h <;> exact Tag.starts_of_token h (fun _ => rfl) rfl
  | jump hw =>
    refine ⟨_, _, rfl, rfl, ?_⟩
    rcases hw with h | h <;> exact Tag.starts_of_token h (fun _ => rfl) rfl
  | arguments ht =>
    refine ⟨_, _, rfl, rfl, ?_⟩
    rcases ht with rfl | rfl
    · exact fun _ h => h
    · intro t h
      simp only [Phrase.tag_whole, Tag.starts, Bool.or_eq_true, beq_iff_eq] at h ⊢
      rcases h with rfl | rfl <;> rfl
  | methodHead | field | binary => exact ⟨_, _, rfl, rfl, fun _ h => h⟩
  | fieldAssignmentHead =>
    refine ⟨_, _, rfl, rfl, fun t h => ?_⟩
    simp only [Phrase.tag_whole, Tag.starts] at h ⊢
    rw [h, Bool.or_true]
  | assignment =>
    refine ⟨_, _, rfl, rfl, fun t h => ?_⟩
    simp only [Phrase.tag_whole, Tag.starts, Bool.or_eq_true, beq_iff_eq] at h ⊢
    rcases h with (rfl | rfl) | h
    · rfl
    · rfl
    · exact Tag.startsProgram_of_startsExpression h
  | statement =>
    exact ⟨_, _, rfl, rfl, fun _ h => Tag.startsProgram_of_startsExpression h⟩
  | block hhead =>
    cases hhead with
    | branch h => exact ⟨_, _, rfl, rfl, Tag.starts_of_token h (fun _ => rfl) rfl⟩
    | loop h => exact ⟨_, _, rfl, rfl, Tag.starts_of_token h (fun _ => rfl) rfl⟩
    | elseIf | otherwise => exact ⟨_, _, rfl, rfl, fun _ h => h⟩
    | functionEnd | classEnd =>
      refine ⟨_, _, rfl, rfl, fun t h => ?_⟩
      simp only [Phrase.tag_whole, Tag.starts, Bool.or_eq_true, beq_iff_eq] at h ⊢
      rcases h with rfl | rfl <;> rfl
  | assignmentHead h | declaringHead h | declaration h | functionHead h | classHead h
  | extendingHead h | newHead h | callHead h | «variable» h | list h | group h | print h
  | returnsBare h | returns h =>
    exact ⟨_, _, rfl, rfl, Tag.starts_of_token h (fun _ => rfl) rfl⟩

/-- What a production gives ends as the last of its phrases. -/
theorem Production.last {r : Rule} {qs : List Phrase} {q : Phrase} (h : Production r qs q) :
    ∃ ps p, qs = ps ++ [p] ∧ ∀ t, p.tag.ends t = true → q.tag.ends t = true := by
  cases h with
  | literal h =>
    refine ⟨[], _, rfl, ?_⟩
    have hmem := Leaf.literal?_tag h
    simp only [List.mem_cons, List.not_mem_nil, or_false] at hmem
    rcases hmem with h | h | h | h | h | h <;>
      exact Tag.ends_of_token h (fun _ => rfl) rfl
  | unary => exact ⟨[_], _, rfl, fun _ h => h⟩
  | binary => exact ⟨[_, _], _, rfl, fun _ h => h⟩
  | jump hw =>
    refine ⟨[], _, rfl, ?_⟩
    rcases hw with h | h <;> exact Tag.ends_of_token h (fun _ => rfl) rfl
  | print | returns | assignment =>
    exact ⟨[_], _, rfl, fun _ h => Tag.endsProgram_of_endsOperand h⟩
  | statement => exact ⟨[], _, rfl, fun _ h => Tag.endsProgram_of_endsOperand h⟩
  | assignmentHead _ h | declaration _ h | callHead _ h =>
    exact ⟨[_], _, rfl, Tag.ends_of_token h (fun _ => rfl) rfl⟩
  | declaringHead _ _ h | classHead _ _ h | newHead _ _ h | field _ _ h =>
    exact ⟨[_, _], _, rfl, Tag.ends_of_token h (fun _ => rfl) rfl⟩
  | extendingHead _ _ _ _ h =>
    exact ⟨[_, _, _, _], _, rfl, Tag.ends_of_token h (fun _ => rfl) rfl⟩
  | methodHead _ _ _ h | fieldAssignmentHead _ _ _ h =>
    exact ⟨[_, _, _], _, rfl, Tag.ends_of_token h (fun _ => rfl) rfl⟩
  | @functionHead w x l r b ps _ _ _ _ _ _ h =>
    exact ⟨.token w :: .token x :: .token l :: (ps ++ [.token r]), .token b, by simp,
      Tag.ends_of_token h (fun _ => rfl) rfl⟩
  | «variable» h | returnsBare h =>
    exact ⟨[], _, rfl, Tag.ends_of_token h (fun _ => rfl) rfl⟩
  | list _ _ h | arguments _ _ _ h =>
    exact ⟨_ :: _, _, rfl, Tag.ends_of_token h (fun _ => rfl) rfl⟩
  | group _ h => exact ⟨[_, _], _, rfl, Tag.ends_of_token h (fun _ => rfl) rfl⟩
  | block _ _ h =>
    exact ⟨_ ++ _, _, (List.append_assoc _ _ _).symm, Tag.ends_of_token h (fun _ => rfl) rfl⟩

namespace Derives

variable {gone : List Rule} {p : Phrase} {xs : List Leaf}

/-- The first of the symbols that derive a phrase. -/
theorem head (h : Derives gone p xs) :
    ∃ l ys, xs = l :: ys ∧ l.start = p.start ∧ p.tag.starts l.tag = true := by
  refine inductOn (Q := fun p xs => ∃ l ys, xs = l :: ys ∧ l.start = p.start ∧
    p.tag.starts l.tag = true) ?_ ?_ h
  · intro l p hl
    exact ⟨l, [], rfl, hl.start_eq.symm, hl.tag_eq ▸ Tag.starts_self _⟩
  · intro r qs q xs hr _ hqs
    obtain ⟨p, ps, rfl, hst, hstarts⟩ := hr.first
    obtain ⟨ys, zs, rfl, ⟨-, l, us, rfl, hl, hlt⟩, -⟩ := Each.cons_iff.mp hqs
    exact ⟨l, us ++ zs, rfl, hl.trans hst, hstarts _ hlt⟩

/-- The last of the symbols that derive a phrase. -/
theorem last (h : Derives gone p xs) : ∃ ys l, xs = ys ++ [l] ∧ p.tag.ends l.tag = true := by
  refine inductOn (Q := fun p xs => ∃ ys l, xs = ys ++ [l] ∧ p.tag.ends l.tag = true) ?_ ?_ h
  · intro l p hl
    exact ⟨[], l, rfl, hl.tag_eq ▸ Tag.ends_self _⟩
  · intro r qs q xs hr _ hqs
    obtain ⟨ps, p, rfl, hends⟩ := hr.last
    obtain ⟨ys, zs, rfl, -, hp⟩ := hqs.split
    obtain ⟨us, vs, rfl, ⟨-, ws, l, rfl, hl⟩, hnil⟩ := Each.cons_iff.mp hp
    obtain rfl := Each.nil_iff.mp hnil
    exact ⟨ys ++ ws, l, by simp, hends _ hl⟩

end Derives

end StackScript
