import StackScript.Proofs.Contexts
import StackScript.Proofs.Shapes

/-!
# StackScript.Proofs.PhrasePositions — every symbol stands in a phrase that can be replaced

`Spot gone cs pre p post` says that in a derivation of the chunks `cs` the phrase `p` is derived by
what stands between `pre` and `post`.  Anything else that derives the phrase may be put there
instead (`Spot.plug`).  Every symbol has a spot (`locate`), which is how a match of a rule is found
to be what the rule takes it for: one symbol of the match tells which production it belongs to.
-/

namespace StackScript

open Leaf

/-- In a derivation of the chunks, the phrase stands between these leaves. -/
inductive Spot (gone : List Rule) (cs : List Chunk) : List Leaf → Phrase → List Leaf → Prop
  /-- a chunk of the file -/
  | chunk {cs₁ cs₂ : List Chunk} {c : Chunk} {ys zs : List Leaf} (hcs : cs = cs₁ ++ c :: cs₂)
    (h₁ : Forest gone (cs₁.map Chunk.phrase) ys) (h₂ : Forest gone (cs₂.map Chunk.phrase) zs) :
    Spot gone cs ys c.phrase zs
  /-- a part of another phrase -/
  | part {pre post ys zs : List Leaf} {r : Rule} {qs₁ qs₂ : List Phrase} {p q : Phrase}
    (hq : Spot gone cs pre q post) (hr : Production r (qs₁ ++ p :: qs₂) q) (hgone : r ∉ gone)
    (h₁ : Forest gone qs₁ ys) (h₂ : Forest gone qs₂ zs) : Spot gone cs (pre ++ ys) p (zs ++ post)

namespace Spot

variable {gone : List Rule} {cs : List Chunk} {pre post xs : List Leaf} {p : Phrase}

/-- Whatever derives a phrase may stand at its spot. -/
theorem plug (h : Spot gone cs pre p post) (hp : Derives gone p xs) :
    Forest gone (cs.map Chunk.phrase) (pre ++ (xs ++ post)) := by
  induction h generalizing xs with
  | chunk hcs h₁ h₂ =>
    rw [hcs, List.map_append, List.map_cons]
    exact h₁.append (.cons hp h₂)
  | @part pre post ys zs r qs₁ qs₂ p q hq hr hgone h₁ h₂ ih =>
    have hnode := ih (.of_production hr hgone (h₁.append (.cons hp h₂)))
    simpa only [List.append_assoc] using hnode

theorem before (h : Spot gone cs pre p post) (hcs : Chunks cs) (hp : p.fragment?.isSome) :
    Before pre p := by
  induction h with
  | @chunk cs₁ cs₂ c ys zs h h₁ h₂ =>
    cases cs₁ with
    | nil =>
      obtain rfl := Each.nil_iff.mp (Forest.each_iff.mp h₁)
      refine ⟨?_, .inr ?_, fun _ => .nil⟩ <;>
        · rintro t ⟨⟩
    | cons c' cs₁ =>
      have hbefore : Before ([] ++ ys) c.phrase := Before.of_chunks (h ▸ hcs) h₁ (by simp)
      exact hbefore
  | part hq hr hgone h₁ h₂ ih =>
    obtain ⟨st, k, f, rfl⟩ := hr.whole
    exact (ih rfl).part (hr.part rfl hp) h₁

theorem after (h : Spot gone cs pre p post) (hcs : Chunks cs) (hp : p.fragment?.isSome)
    (hpost : Apart post) : After p post := by
  induction h with
  | @chunk cs₁ cs₂ c ys zs h h₁ h₂ =>
    cases cs₂ with
    | nil =>
      obtain rfl := Each.nil_iff.mp (Forest.each_iff.mp h₂)
      exact .nil
    | cons c' cs₂ =>
      have hafter : After c.phrase (zs ++ []) := After.of_chunks (h ▸ hcs) h₂ hpost (by simp)
      rwa [List.append_nil] at hafter
  | part hq hr hgone h₁ h₂ ih =>
    obtain ⟨st, k, f, rfl⟩ := hr.whole
    exact (ih rfl fun l hl => hpost l (List.mem_append_right _ hl)).part (hr.part rfl hp) h₂
      fun l hl => hpost l (List.mem_append_left _ hl)

end Spot

section Locate

/-- An element of two lists one after the other is in one of them. -/
theorem mem_split {α : Type} {xs ys u v : List α} {a : α} (h : xs ++ ys = u ++ a :: v) :
    (∃ w, u = xs ++ w ∧ ys = w ++ a :: v) ∨ ∃ w, xs = u ++ a :: w ∧ v = w ++ ys := by
  rcases List.append_eq_append_iff.mp h with ⟨w, rfl, hw⟩ | ⟨w, rfl, hw⟩
  · exact .inl ⟨w, rfl, hw⟩
  · cases w with
    | nil => exact .inl ⟨[], (List.append_nil _).symm ▸ (List.append_nil u).symm, hw.symm⟩
    | cons b w =>
      obtain ⟨rfl, rfl⟩ := List.cons.inj hw
      exact .inr ⟨w, rfl, rfl⟩

variable {gone : List Rule} {cs : List Chunk}

/-- Every symbol of a derivation is at the spot of a phrase that it stands for. -/
theorem locate_forest {ps : List Phrase} {xs : List Leaf} (h : Forest gone ps xs)
    {u v : List Leaf} {l : Leaf} (hxs : xs = u ++ l :: v) (pre post : List Leaf)
    (hspots : ∀ qs₁ p qs₂ ys zs, ps = qs₁ ++ p :: qs₂ → Forest gone qs₁ ys → Forest gone qs₂ zs →
      Spot gone cs (pre ++ ys) p (zs ++ post)) :
    ∃ p, Spot gone cs (pre ++ u) p (v ++ post) ∧ Stands l p := by
  induction h generalizing u v pre post with
  | nil => simp at hxs
  | @leaf l' p ps xs hl hs ih =>
    cases u with
    | nil =>
      obtain ⟨rfl, rfl⟩ := List.cons.inj hxs
      exact ⟨p, hspots [] p ps [] xs rfl .nil hs, hl⟩
    | cons l'' u =>
      obtain ⟨rfl, rfl⟩ := List.cons.inj hxs
      obtain ⟨p', hp', hl'⟩ := ih rfl (pre ++ [l']) post (by
        rintro qs₁ p' qs₂ ys zs rfl h₁ h₂
        have hspot := hspots (p :: qs₁) p' qs₂ (l' :: ys) zs rfl (.leaf hl h₁) h₂
        rwa [List.append_cons] at hspot)
      exact ⟨p', by rwa [List.append_cons], hl'⟩
  | @node r qs q ps ys xs hr hgone h hs ihq ih =>
    rcases mem_split hxs with ⟨w, rfl, hw⟩ | ⟨w, hw, rfl⟩
    · obtain ⟨p', hp', hl'⟩ := ih hw (pre ++ ys) post (by
        rintro qs₁ p' qs₂ us zs rfl h₁ h₂
        have hspot := hspots (q :: qs₁) p' qs₂ (ys ++ us) zs rfl (.node hr hgone h h₁) h₂
        rwa [← List.append_assoc] at hspot)
      exact ⟨p', by rwa [← List.append_assoc], hl'⟩
    · have hq := hspots [] q ps [] xs rfl .nil hs
      rw [List.append_nil] at hq
      obtain ⟨p', hp', hl'⟩ := ihq hw pre (xs ++ post) (by
        rintro qs₁ p' qs₂ us zs rfl h₁ h₂
        exact .part hq hr hgone h₁ h₂)
      exact ⟨p', by rwa [List.append_assoc], hl'⟩

/-- Every symbol of a file is at the spot of a phrase that it stands for. -/
theorem locate {u v : List Leaf} {l : Leaf} (h : Forest gone (cs.map Chunk.phrase) (u ++ l :: v)) :
    ∃ p, Spot gone cs u p v ∧ Stands l p := by
  obtain ⟨p, hp, hl⟩ : ∃ p, Spot gone cs ([] ++ u) p (v ++ []) ∧ Stands l p := by
    refine locate_forest h rfl [] [] fun qs₁ p qs₂ ys zs hps h₁ h₂ => ?_
    obtain ⟨cs₁, cs₂, rfl, rfl, hcs⟩ := List.map_eq_append_iff.mp hps
    obtain ⟨c, cs₂, rfl, rfl, rfl⟩ := List.map_eq_cons_iff.mp hcs
    rw [List.append_nil]
    exact .chunk rfl h₁ h₂
  rw [List.append_nil] at hp
  exact ⟨p, hp, hl⟩

/-- A symbol other than a program belongs to a production. -/
theorem locate_part {u v : List Leaf} {l : Leaf}
    (h : Forest gone (cs.map Chunk.phrase) (u ++ l :: v)) (hl : l.tag ≠ .program) :
    ∃ pre post ys zs r qs₁ p qs₂ q, Spot gone cs pre q post ∧ Production r (qs₁ ++ p :: qs₂) q ∧
      r ∉ gone ∧ Forest gone qs₁ ys ∧ Forest gone qs₂ zs ∧ Stands l p ∧ u = pre ++ ys ∧
      v = zs ++ post := by
  obtain ⟨p, hp, hlp⟩ := locate h
  cases hp with
  | chunk => exact absurd hlp.tag_eq.symm hl
  | part hq hr hgone h₁ h₂ => exact ⟨_, _, _, _, _, _, _, _, _, hq, hr, hgone, h₁, h₂, hlp, rfl, rfl⟩

end Locate

end StackScript
