import StackScript.Proofs.Completeness
import StackScript.Proofs.Reducing

/-!
# StackScript.Proofs.Exhaustion — rules that have nothing left to do

A property of phrases that goes from the parts of a phrase to the phrase holds wherever the phrase
stands (`Reading.sweep`).  In this way a rule whose productions have tokens only has nothing left to
do once it has no match.
-/

namespace StackScript

open Leaf

variable {gone : List Rule} {cs : List Chunk} {xs : List Leaf}

/-- Each phrase of a reading has a property that goes from the parts to the whole. -/
theorem Reading.sweep {P : Phrase → List Leaf → Prop} (h : Reading gone cs xs)
    (leaf : ∀ {l p}, Stands l p → P p [l])
    (node : ∀ {pre post ys r qs q}, Spot gone cs pre q post → xs = pre ++ (ys ++ post) →
      Production r qs q → r ∉ gone → Forest gone qs ys → Each P qs ys → P q ys) :
    Each P (cs.map Chunk.phrase) xs := by
  have hspot : ∀ {p ys}, Derives gone p ys → ∀ pre post, Spot gone cs pre p post →
      xs = pre ++ (ys ++ post) → P p ys := by
    intro p ys hp
    refine Derives.inductOn (Q := fun p ys => ∀ pre post, Spot gone cs pre p post →
      xs = pre ++ (ys ++ post) → P p ys) ?_ ?_ hp
    · intro l p hl _ _ _ _
      exact leaf hl
    · intro r qs q ys hr hgone hqs pre post hq hxs
      have hforest : Forest gone qs ys := Forest.each_iff.mpr (hqs.mono fun _ _ _ h => h.1)
      refine node hq hxs hr hgone hforest (hqs.context ?_)
      rintro qs₁ p qs₂ us vs ws rfl rfl h₁ ⟨-, hP⟩ h₂
      have h₁ : Forest gone qs₁ us := Forest.each_iff.mpr (h₁.mono fun _ _ _ h => h.1)
      have h₂ : Forest gone qs₂ ws := Forest.each_iff.mpr (h₂.mono fun _ _ _ h => h.1)
      exact hP _ _ (.part hq hr hgone h₁ h₂) (by rw [hxs]; simp)
  refine (Forest.each_iff.mp h.forest).context ?_
  rintro qs₁ p qs₂ us vs ws hps hxs h₁ hp h₂
  obtain ⟨cs₁, cs₂, rfl, rfl, hcs⟩ := List.map_eq_append_iff.mp hps
  obtain ⟨c, cs₂, rfl, rfl, rfl⟩ := List.map_eq_cons_iff.mp hcs
  exact hspot hp _ _ (.chunk rfl (Forest.each_iff.mpr h₁) (Forest.each_iff.mpr h₂)) hxs

/-- Rules whose productions have tokens only. -/
def Rule.ofTokens : List Rule := [.assignmentHead, .functionHead, .newHead, .callHead]

/-- Their productions have no parts that are to be reduced. -/
theorem Production.tokens {r : Rule} {qs : List Phrase} {q : Phrase} (h : Production r qs q)
    (hr : r ∈ Rule.ofTokens) : ∀ p ∈ qs, p.fragment? = none := by
  cases h with
  | assignmentHead | declaringHead | newHead | callHead => simp
  | functionHead _ _ _ hps =>
    obtain ⟨xs, rfl, -, -⟩ := hps.tokens
    simp [or_imp, forall_and]
  | @binary _ _ o _ _ _ _ _ _ ho hr' =>
    subst hr'
    generalize o.tag = t at ho
    cases t <;> cases ho <;> simp [Rule.ofTokens] at hr
  | block hhead => cases hhead <;> simp [Rule.ofTokens] at hr
  | _ => simp [Rule.ofTokens] at hr

/-- Tokens are derived by the symbols that stand for them. -/
theorem Forest.stands {ps : List Phrase} (h : Forest gone ps xs)
    (hps : ∀ p ∈ ps, p.fragment? = none) : List.Forall₂ Stands xs ps := by
  induction h with
  | nil => exact .nil
  | leaf hl _ ih => exact .cons hl (ih fun p hp => hps p (List.mem_cons_of_mem _ hp))
  | node hr =>
    obtain ⟨st, k, f, rfl⟩ := hr.whole
    cases hps _ List.mem_cons_self

namespace Parsing

variable {p : Parsing} {r : Rule}

/-- Where such a rule has no match, no phrase is left for it. -/
theorem Reads.exhausted (h : p.Reads gone cs) (hr : r ∈ Rule.ofTokens)
    (hnone : p.reduceOnce r = none) : p.Reads (r :: gone) cs := by
  refine ⟨h.tidy, ⟨Forest.each_iff.mpr ?_, h.reading.chunks, h.reading.apart⟩, h.clean⟩
  refine h.reading.sweep (P := Derives (r :: gone)) (fun hl => .of_stands hl) ?_
  intro pre post ys r' qs q hq hxs hprod hgone hforest hqs
  refine .of_production hprod ?_ (Forest.each_iff.mpr hqs)
  intro hmem
  rcases List.mem_cons.mp hmem with rfl | hmem
  · have htokens := hprod.tokens hr
    have hapart := h.reading.apart
    rw [hxs] at hapart
    obtain ⟨st, k, f, rfl⟩ := hprod.whole
    refine reduceOnce_ne_none (h.tidy.sees _) hxs (hprod.takes (hforest.stands htokens)
      (hq.before h.reading.chunks rfl) (hq.after h.reading.chunks rfl ?_) ?_ ?_ ?_) hnone
    · exact fun l hl => hapart l (List.mem_append_right _ (List.mem_append_right _ hl))
    · exact fun l hl => hapart l (List.mem_append_right _ (List.mem_append_left _ hl))
    · rintro rfl
      simp [Rule.ofTokens] at hr
    · rintro head st make cs b - - - rfl
      cases cs with
      | nil => exact Nat.zero_le 1
      | cons c cs => cases htokens c.phrase (by simp)
  · exact hgone hmem

end Parsing

end StackScript
