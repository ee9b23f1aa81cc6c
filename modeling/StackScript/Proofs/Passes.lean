import StackScript.Proofs.Fixpoint
import StackScript.Proofs.Progress

/-!
# StackScript.Proofs.Passes — passes up to the fixpoint

Each rule of the grammar comes after those it needs to have nothing left to do, so a pass keeps the
tree.  The pass that leaves the tags unchanged reduces nothing; so no rule takes anything then, and
one program is left.
-/

namespace StackScript

open Leaf

/-! ### Rules in order -/

/-- Each rule has what it needs when its turn comes. -/
def Rule.staged : List Rule → List Rule → Bool
  | _, [] => true
  | gone, r :: rules =>
    decide (r.needs ⊆ gone) && staged (if r ∈ ofTokens then r :: gone else gone) rules

theorem Rule.staged_standard : staged [] standard = true := by decide

theorem Rule.mem_standard (r : Rule) : r ∈ standard := by cases r <;> decide

theorem Forest.weaken {gone : List Rule} {ps : List Phrase} {xs : List Leaf}
    (h : Forest gone ps xs) : Forest [] ps xs := by
  induction h with
  | nil => exact .nil
  | leaf hl _ ih => exact .leaf hl ih
  | node hr _ _ _ ihq ih => exact .node hr List.not_mem_nil ihq ih

namespace Parsing

variable {p : Parsing} {r : Rule} {gone rules : List Rule} {cs : List Chunk}

theorem Reads.weaken (h : p.Reads gone cs) : p.Reads [] cs :=
  ⟨h.tidy, ⟨h.reading.forest.weaken, h.reading.chunks, h.reading.apart⟩, h.clean⟩

/-! ### One rule -/

/-- Applying a rule keeps the tree. -/
theorem Reads.reduces {n : Nat} {q : Parsing} (h : p.Reads gone cs) (hneeds : r.needs ⊆ gone)
    (hreduces : Reduces r n p q) :
    ∃ cs', q.Reads gone cs' ∧ ∀ line, blockOf line cs' = blockOf line cs := by
  induction hreduces generalizing cs with
  | done => exact ⟨cs, h, fun _ => rfl⟩
  | step hstep _ ih =>
    obtain ⟨cs', h', hblock'⟩ := h.step hneeds hstep
    obtain ⟨cs'', h'', hblock''⟩ := ih h'
    exact ⟨cs'', h'', fun line => (hblock'' line).trans (hblock' line)⟩

/-! ### A pass -/

/-- A pass keeps the tree. -/
theorem Reads.applyAll (h : p.Reads gone cs) (hstaged : Rule.staged gone rules = true) :
    ∃ cs', (p.applyAll rules).1.Reads [] cs' ∧ ∀ line, blockOf line cs' = blockOf line cs := by
  induction rules generalizing p gone cs with
  | nil => exact ⟨cs, h.weaken, fun _ => rfl⟩
  | cons r rules ih =>
    rw [Rule.staged, Bool.and_eq_true, decide_eq_true_eq] at hstaged
    obtain ⟨hreduces, hnone⟩ := p.apply_reduces r
    obtain ⟨cs', h', hblock'⟩ := h.reduces hstaged.1 hreduces
    have hafter : ∃ gone', (p.apply r).1.Reads gone' cs' ∧ Rule.staged gone' rules = true := by
      by_cases hr : r ∈ Rule.ofTokens
      · have hrest := hstaged.2
        rw [if_pos hr] at hrest
        exact ⟨_, h'.exhausted hr hnone, hrest⟩
      · have hrest := hstaged.2
        rw [if_neg hr] at hrest
        exact ⟨_, h', hrest⟩
    obtain ⟨gone', h', hrest⟩ := hafter
    obtain ⟨cs'', h'', hblock''⟩ := ih h' hrest
    exact ⟨cs'', h'', fun line => (hblock'' line).trans (hblock' line)⟩

/-! ### All passes -/

/-- Where the passes end before the limit, the tree is kept and no rule has a match. -/
theorem Reads.passes (h : p.Reads [] cs) (hstaged : Rule.staged [] rules = true) {limit : Nat}
    (hlimit : (passes rules limit p).2 < limit) :
    ∃ cs', (passes rules limit p).1.Reads [] cs' ∧ (∀ line, blockOf line cs' = blockOf line cs) ∧
      ∀ r ∈ rules, (passes rules limit p).1.reduceOnce r = none := by
  induction limit generalizing p cs with
  | zero => cases hlimit
  | succ limit ih =>
    obtain ⟨cs', h', hblock'⟩ := h.applyAll hstaged
    rw [Parsing.passes] at hlimit ⊢
    dsimp only at hlimit ⊢
    split
    case isTrue htags =>
      have hzero := (p.tags_applyAll rules).1 htags
      refine ⟨cs', h', hblock', ?_⟩
      rw [applyAll_of_zero hzero]
      exact reduceOnce_of_zero hzero
    case isFalse htags =>
      rw [if_neg htags] at hlimit
      obtain ⟨cs'', h'', hblock'', hnone⟩ := ih h' (by omega)
      exact ⟨cs'', h'', fun line => (hblock'' line).trans (hblock' line), hnone⟩

end Parsing

/-! ### A whole parse -/

open Parsing in
/-- A parse that ends before the limit gives the block of the chunks, and reports nothing. -/
theorem Parsing.Reads.parse {tokens : List Token} {cs : List Chunk}
    (h : (Parsing.start tokens).Reads [] cs)
    (hlimit : (Grammar.standard.reduce (Parsing.start tokens)).2 < Grammar.standard.maxPasses) :
    (Grammar.standard.parse tokens).root = blockOf 1 cs ∧
      (Grammar.standard.parse tokens).record.diagnostics = [] := by
  have hstaged : Rule.staged [] Grammar.standard.rules = true := Rule.staged_standard
  obtain ⟨cs', h', hblock, hnone⟩ := h.passes hstaged hlimit
  rw [← hblock 1, Grammar.parse, Grammar.reduce]
  dsimp only
  generalize (Parsing.passes Grammar.standard.rules Grammar.standard.maxPasses
    (Parsing.start tokens)).1 = q at h' hnone ⊢
  have hactive := (Stream.map_symbol_leaves q.stream).symm
  have hclean := h'.clean
  rcases h'.reading.progress fun r pre run post hs htakes =>
    reduceOnce_ne_none (h'.tidy.sees r) hs htakes (hnone r (Rule.mem_standard r)) with
    ⟨rfl, hleaves⟩ | ⟨c, l, rfl, hleaves, hl⟩
  · rw [hleaves] at hactive
    rw [hactive, hclean]
    exact ⟨rfl, rfl⟩
  · rw [hleaves] at hactive
    have htag : l.symbol.tag = .program := hl.tag_eq.symm
    have hprograms : ([l.symbol].filter (·.tag = .program)).filterMap (·.program?) = [c.2] := by
      simp [htag, hl.program?_eq]
    have hleftovers : leftovers [l.symbol] = [] := by simp [leftovers, htag]
    rw [hactive, List.map_singleton, hprograms, hclean, hleftovers]
    exact ⟨rfl, rfl⟩

end StackScript
