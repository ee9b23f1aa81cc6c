import StackScript.Proofs.Patterns
import StackScript.Proofs.Phrases

/-!
# StackScript.Proofs.AdmittedMatches — a rule accepts a match for the leaves around it

The active symbols of a stream are leaves, each with the line break before it if there is one.  A
match is a run of leaves between those before it and those after it, and whether a rule accepts it
is a matter of these three lists (`Rule.admits`).  A reduction puts one leaf for the run.
-/

namespace StackScript

/-! ### Neighbours among leaves -/

namespace Leaf

/-- The tag of the last leaf. -/
def lastTag (xs : List Leaf) : Option Tag := xs.getLast?.map Leaf.tag

/-- The tag of the first leaf. -/
def firstTag (xs : List Leaf) : Option Tag := xs.head?.map Leaf.tag

@[simp] theorem lastTag_nil : lastTag [] = none := rfl

@[simp] theorem lastTag_concat (xs : List Leaf) (l : Leaf) : lastTag (xs ++ [l]) = some l.tag := by
  simp [lastTag]

theorem lastTag_append (xs ys : List Leaf) :
    lastTag (xs ++ ys) = (lastTag ys).or (lastTag xs) := by
  rw [lastTag, lastTag, lastTag, List.getLast?_append]
  cases ys.getLast? <;> rfl

@[simp] theorem firstTag_nil : firstTag [] = none := rfl

@[simp] theorem firstTag_cons (l : Leaf) (xs : List Leaf) : firstTag (l :: xs) = some l.tag := rfl

/-- The leaf, behind these, is a minus that is no binary operator. -/
def isPrefixMinus (pre : List Leaf) (o : Leaf) : Bool :=
  (decide (o.tag = .term) && decide (o.text = "-")) &&
    match lastTag pre with
    | some before => !before.endsOperand || o.broken
    | none => true

/-- The leaf, behind these, is a prefix operator. -/
def isPrefixOperator (pre : List Leaf) (o : Leaf) : Bool :=
  isPrefixMinus pre o || o.tag == .negation || o.tag == .tilde

/-- The leaves go on with a binary operator or a point on the same line. -/
def continues : List Leaf → Bool
  | [] => false
  | l :: _ => (l.tag.level?.isSome || l.tag == .dot) && !l.broken

/-- Nothing before takes the left operand from an operator of this level. -/
def fitsBefore (pre : List Leaf) (level : Nat) (rightAssociative : Bool) : Bool :=
  match pre.getLast? with
  | none => true
  | some o =>
    if isPrefixOperator pre.dropLast o then decide (5 ≤ level)
    else o.tag.level?.all fun other =>
      decide (other < level) || (other == level && rightAssociative)

/-- Nothing after takes the right operand from an operator of this level. -/
def fitsAfter (post : List Leaf) (level : Nat) (rightAssociative : Bool) : Bool :=
  match firstTag post with
  | none => true
  | some tag => tag != .dot && tag.level?.all fun other =>
      decide (other < level) || (other == level && !rightAssociative)

theorem fitsBefore_concat (zs : List Leaf) (o : Leaf) (level : Nat) (right : Bool) :
    fitsBefore (zs ++ [o]) level right =
      if isPrefixOperator zs o then decide (5 ≤ level)
      else o.tag.level?.all fun other => decide (other < level) || (other == level && right) := by
  rw [fitsBefore, List.getLast?_concat, List.dropLast_concat]

theorem fitsAfter_cons (o : Leaf) (ys : List Leaf) (level : Nat) (right : Bool) :
    fitsAfter (o :: ys) level right = (o.tag != .dot && o.tag.level?.all fun other =>
      decide (other < level) || (other == level && !right)) := rfl

end Leaf

/-- Of what is detached, a rule sees line breaks alone. -/
theorem Rule.tag_of_included {r : Rule} {t : Tag} (h : t ∈ r.included) : t = .newline := by
  cases r <;> simp [Rule.included] at h
  exact h

/-- Only the rule for sequences sees them. -/
theorem Rule.included_eq_nil {r : Rule} (hr : r ≠ .sequence) : r.included = [] := by
  cases r <;> first | rfl | exact absurd rfl hr

open Leaf

/-- A rule accepts a match between these leaves. -/
def Rule.admits (rule : Rule) (pre run post : List Leaf) : Bool :=
  let before := lastTag pre
  let next := firstTag post
  match rule with
  | assignmentHead | callHead => before != some .dot
  | .variable => !before.any Tag.namesMember
  | field => next != some .leftParen && next != some .equals
  | group => before != some .name
  | map => before.any Tag.expectsValue
  | unary =>
    (firstTag run != some .term || run.head?.any (isPrefixMinus pre))
      && next != some .dot && next != some .power
  | power => fitsBefore pre 5 true && fitsAfter post 5 true
  | factor => fitsBefore pre 4 false && fitsAfter post 4 false
  | term => fitsBefore pre 3 false && fitsAfter post 3 false
  | comparison => fitsBefore pre 2 false && fitsAfter post 2 false
  | logic => fitsBefore pre 1 false && fitsAfter post 1 false
  | print | assignment => !continues post
  | returns =>
    if 1 < run.length then !continues post
    else match post with
      | [] => true
      | l :: _ => l.broken || !l.tag.startsExpression
  | sequence => next != some .elseWord && next != some .elseIfWord
  | trailing => next == none || next == some .rightBrace
  | statement =>
    before.all Tag.opensStatement && !next.any Tag.holdsExpression && !continues post
  | literal | declaration | functionHead | classHead | newHead | methodHead
  | fieldAssignmentHead | list | arguments | jump | branch | elseIf | otherwise | loop
  | functionEnd | classEnd => true

namespace Stream

variable {s : Stream} {pre run post rest : List Leaf}

/-- The active symbols, with the line breaks before them. -/
def leaves (s : Stream) : List Leaf := s.active.zipIdx.map fun p => ⟨p.1, s.lineBreakBefore p.2⟩

theorem getElem?_leaves (s : Stream) (i : Nat) :
    s.leaves[i]? = s.active[i]?.map fun a => ⟨a, s.lineBreakBefore i⟩ := by
  rw [leaves, List.getElem?_map, List.getElem?_zipIdx, Option.map_map, Nat.zero_add]
  rfl

@[simp] theorem length_leaves (s : Stream) : s.leaves.length = s.active.length := by
  simp [leaves]

theorem map_symbol_leaves (s : Stream) : s.leaves.map Leaf.symbol = s.active := by
  refine List.ext_getElem? fun i => ?_
  rw [List.getElem?_map, getElem?_leaves, Option.map_map]
  cases s.active[i]? <;> rfl

theorem tagAt?_leaves (s : Stream) (i : Nat) : s.tagAt? i = s.leaves[i]?.map Leaf.tag := by
  rw [tagAt?, getElem?_leaves, Option.map_map]
  rfl

theorem tagAt?_of_leaves (h : s.leaves = pre ++ rest) : s.tagAt? pre.length = firstTag rest := by
  rw [tagAt?_leaves, h, List.getElem?_append_right (Nat.le_refl _), Nat.sub_self, firstTag,
    List.head?_eq_getElem?]

theorem tagBefore?_of_leaves (h : s.leaves = pre ++ rest) :
    s.tagBefore? pre.length = lastTag pre := by
  cases hp : pre.getLast? with
  | none =>
    obtain rfl := List.getLast?_eq_none_iff.mp hp
    rfl
  | some o =>
    obtain ⟨ys, rfl⟩ := List.getLast?_eq_some_iff.mp hp
    rw [List.append_assoc] at h
    rw [List.length_append, lastTag_concat]
    exact (tagAt?_of_leaves h).trans rfl

theorem lineBreakBefore_of_leaves {l : Leaf} (h : s.leaves = pre ++ l :: rest) :
    s.lineBreakBefore pre.length = l.broken := by
  have hl := getElem?_leaves s pre.length
  rw [h, List.getElem?_append_right (Nat.le_refl _), Nat.sub_self, List.getElem?_cons_zero] at hl
  obtain ⟨a, -, ha⟩ := Option.map_eq_some_iff.mp hl.symm
  rw [← ha]

theorem active_of_leaves {l : Leaf} (h : s.leaves = pre ++ l :: rest) :
    s.active[pre.length]? = some l.symbol := by
  rw [← map_symbol_leaves, h, List.getElem?_map, List.getElem?_append_right (Nat.le_refl _),
    Nat.sub_self]
  rfl

theorem isPrefixMinus_of_leaves {o : Leaf} (h : s.leaves = pre ++ o :: rest) :
    s.isPrefixMinus pre.length = Leaf.isPrefixMinus pre o := by
  rw [Stream.isPrefixMinus, active_of_leaves h, tagBefore?_of_leaves h,
    lineBreakBefore_of_leaves h, Option.any_some]
  rfl

theorem continues_of_leaves (h : s.leaves = pre ++ post) :
    s.continues pre.length = Leaf.continues post := by
  rw [Stream.continues, tagAt?_of_leaves h]
  cases post with
  | nil => rfl
  | cons l post => rw [lineBreakBefore_of_leaves h]; rfl

theorem binaryFits_of_leaves (h : s.leaves = pre ++ (run ++ post)) (level : Nat) (right : Bool) :
    s.binaryFits ⟨pre.length, run.length⟩ level right =
      (fitsBefore pre level right && fitsAfter post level right) := by
  have hafter : s.tagAt? (pre.length + run.length) = firstTag post := by
    rw [← List.length_append]
    exact tagAt?_of_leaves (by rw [h, List.append_assoc])
  unfold binaryFits
  dsimp only [Site.after]
  rw [hafter]
  congr 1
  cases hp : pre.getLast? with
  | none =>
    obtain rfl := List.getLast?_eq_none_iff.mp hp
    rfl
  | some o =>
    obtain ⟨ys, rfl⟩ := List.getLast?_eq_some_iff.mp hp
    rw [List.append_assoc] at h
    have hlen : (ys ++ [o]).length = ys.length + 1 := by simp
    rw [hlen]
    dsimp only
    rw [tagAt?_of_leaves h, isPrefixMinus_of_leaves h, fitsBefore, hp, List.dropLast_concat]
    rfl

/-- Whether a rule accepts a match is a matter of the leaves. -/
theorem accepts_of_leaves (h : s.leaves = pre ++ (run ++ post)) (hrun : run ≠ []) (rule : Rule) :
    rule.accepts s ⟨pre.length, run.length⟩ = rule.admits pre run post := by
  have hbefore := tagBefore?_of_leaves h
  have hnext : s.leaves = (pre ++ run) ++ post := by rw [h, List.append_assoc]
  have hafter : s.tagAt? (pre.length + run.length) = firstTag post := by
    rw [← List.length_append]
    exact tagAt?_of_leaves hnext
  have hcontinues : s.continues (pre.length + run.length) = Leaf.continues post := by
    rw [← List.length_append]
    exact continues_of_leaves hnext
  cases rule with
  | power => exact binaryFits_of_leaves h 5 true
  | factor => exact binaryFits_of_leaves h 4 false
  | term => exact binaryFits_of_leaves h 3 false
  | comparison => exact binaryFits_of_leaves h 2 false
  | logic => exact binaryFits_of_leaves h 1 false
  | unary =>
    obtain ⟨o, run, rfl⟩ := List.exists_cons_of_ne_nil hrun
    have hfirst := tagAt?_of_leaves h
    have hminus : s.isPrefixMinus pre.length = Leaf.isPrefixMinus pre o := isPrefixMinus_of_leaves h
    unfold Rule.accepts Rule.admits
    dsimp only [Site.after]
    rw [hafter, hfirst, hminus]
    rfl
  | returns =>
    unfold Rule.accepts Rule.admits
    dsimp only [Site.after]
    rw [hafter, hcontinues]
    split
    · rfl
    · cases post with
      | nil => rfl
      | cons l post =>
        have hbreak := lineBreakBefore_of_leaves hnext
        rw [List.length_append] at hbreak
        rw [hbreak]
        rfl
  | statement =>
    unfold Rule.accepts Rule.admits statementStarts
    dsimp only [Site.after]
    rw [hbefore, hafter, hcontinues]
  | assignmentHead | callHead | «variable» | group | map =>
    unfold Rule.accepts Rule.admits
    dsimp only
    rw [hbefore]
  | field | sequence | trailing =>
    unfold Rule.accepts Rule.admits
    dsimp only [Site.after]
    rw [hafter]
  | print | assignment =>
    unfold Rule.accepts Rule.admits
    dsimp only [Site.after]
    rw [hcontinues]
  | _ => rfl

end Stream

end StackScript
