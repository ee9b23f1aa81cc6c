import StackScript.Proofs.Consuming

/-!
# StackScript.Proofs.Fixpoint — passes end where no rule has a match

Nothing is assumed of the rules of a grammar, which may be any of them in any order, nor of the
symbols.  Every reduction makes the symbols lighter, so applying a rule ends, and a pass leaves the
tags as they are only if it reduces nothing.  Tokens weigh three each at most: this bounds the
reductions in all passes together, hence the passes that change the tags.
-/

namespace StackScript

/-! ### Applying a rule -/

/-- Reductions by a rule, one after the other. -/
inductive Parsing.Reduces (r : Rule) : Nat → Parsing → Parsing → Prop where
  | done (p : Parsing) : Reduces r 0 p p
  | step {n : Nat} {p p' q : Parsing} (h : p.reduceOnce r = some p') (rest : Reduces r n p' q) :
      Reduces r (n + 1) p q

namespace Parsing

variable {p p' q : Parsing} {r : Rule} {rules : List Rule} {n : Nat}

/-- A reduction makes the symbols lighter, whatever they are. -/
theorem weight_lt_of_reduceOnce (h : p.reduceOnce r = some p') :
    p'.stream.weight < p.stream.weight := by
  obtain ⟨e⟩ := reduction_of_reduceOnce h
  exact e.weight_lt

/-- However many reductions are made, each takes from the weight. -/
theorem Reduces.weight_le (h : Reduces r n p q) : q.stream.weight + n ≤ p.stream.weight := by
  induction h with
  | done => exact Nat.le_refl _
  | step h _ ih =>
    have := weight_lt_of_reduceOnce h
    omega

/-- With the weight for fuel, a rule is applied until it has no match. -/
theorem applyFor_reduces {fuel : Nat} (hfuel : p.stream.weight ≤ fuel) :
    Reduces r (applyFor r fuel p).2 p (applyFor r fuel p).1 ∧
      (applyFor r fuel p).1.reduceOnce r = none := by
  induction fuel generalizing p with
  | zero =>
    refine ⟨.done p, ?_⟩
    cases hstep : p.reduceOnce r with
    | none => exact hstep
    | some p' =>
      have := weight_lt_of_reduceOnce hstep
      omega
  | succ fuel ih =>
    rw [applyFor]
    cases hstep : p.reduceOnce r with
    | none => exact ⟨.done p, hstep⟩
    | some p' =>
      have := weight_lt_of_reduceOnce hstep
      obtain ⟨hreduces, hnone⟩ := ih (p := p') (by omega)
      exact ⟨.step hstep hreduces, hnone⟩

theorem apply_reduces (p : Parsing) (r : Rule) :
    Reduces r (p.apply r).2 p (p.apply r).1 ∧ (p.apply r).1.reduceOnce r = none :=
  applyFor_reduces (Nat.le_refl _)

/-- A rule that reduces nothing changes nothing. -/
theorem apply_of_zero (h : (p.apply r).2 = 0) : p.apply r = (p, 0) := by
  obtain ⟨hreduces, -⟩ := p.apply_reduces r
  rw [h] at hreduces
  generalize hq : (p.apply r).1 = q at hreduces
  cases hreduces
  rw [← h]
  exact Prod.ext hq rfl

/-! ### A pass -/

/-- Each reduction of a pass takes from the weight. -/
theorem applyAll_weight_le (p : Parsing) (rules : List Rule) :
    (p.applyAll rules).1.stream.weight + (p.applyAll rules).2 ≤ p.stream.weight := by
  induction rules generalizing p with
  | nil => exact Nat.le_refl _
  | cons r rules ih =>
    have hfirst := (p.apply_reduces r).1.weight_le
    have hrest := ih (p.apply r).1
    rw [applyAll]
    dsimp only
    omega

/-- Rules are applied one list after the other. -/
theorem applyAll_append (p : Parsing) (rules rules' : List Rule) :
    (p.applyAll (rules ++ rules')).1 = ((p.applyAll rules).1.applyAll rules').1 := by
  induction rules generalizing p with
  | nil => rfl
  | cons r rules ih => exact ih (p.apply r).1

/-- A pass that reduces nothing changes nothing. -/
theorem applyAll_of_zero (h : (p.applyAll rules).2 = 0) : p.applyAll rules = (p, 0) := by
  induction rules with
  | nil => rfl
  | cons r rules ih =>
    rw [applyAll] at h ⊢
    obtain ⟨hfirst, hrest⟩ := Nat.add_eq_zero_iff.mp h
    rw [apply_of_zero hfirst] at hrest ⊢
    dsimp only at hrest ⊢
    rw [ih hrest]
    rfl

/-- A pass that reduces nothing finds no match for any rule. -/
theorem reduceOnce_of_zero (h : (p.applyAll rules).2 = 0) : ∀ r ∈ rules, p.reduceOnce r = none := by
  induction rules with
  | nil => exact fun r hr => absurd hr List.not_mem_nil
  | cons r rules ih =>
    rw [applyAll] at h
    obtain ⟨hfirst, hrest⟩ := Nat.add_eq_zero_iff.mp h
    have hnone := (p.apply_reduces r).2
    rw [apply_of_zero hfirst] at hrest hnone
    exact List.forall_mem_cons.mpr ⟨hnone, ih hrest⟩

/-- The weight is a matter of the tags. -/
theorem weight_of_tags (h : p.tags = q.tags) : p.stream.weight = q.stream.weight := by
  rw [Stream.weight_eq, Stream.weight_eq]
  exact congrArg Tag.total h

/-- A pass leaves the tags as they are if and only if it reduces nothing. -/
theorem tags_applyAll (p : Parsing) (rules : List Rule) :
    (p.applyAll rules).1.tags = p.tags ↔ (p.applyAll rules).2 = 0 := by
  constructor
  · intro htags
    have hweight := weight_of_tags htags
    have hle := p.applyAll_weight_le rules
    omega
  · intro hzero
    rw [applyAll_of_zero hzero]

/-! ### The start -/

end Parsing

/-! ### Passes -/

namespace Grammar

open Parsing

variable {g : Grammar} {p : Parsing}

/-- A number of passes, and the reductions in all of them together. -/
def after (g : Grammar) (p : Parsing) : Nat → Parsing × Nat
  | 0 => (p, 0)
  | k + 1 =>
    let r := g.after p k
    let next := g.runPass r.1
    (next.1, r.2 + next.2)

/-- The passes stop before the limit, at one that leaves the tags as they are. -/
def Settles (g : Grammar) (p : Parsing) : Prop :=
  ∃ k, k < g.maxPasses ∧ (g.after p (k + 1)).1.tags = (g.after p k).1.tags ∧
    g.reduce p = ((g.after p (k + 1)).1, k + 1)

end Grammar

end StackScript
