import StackScript.Proofs.Exhaustion

/-!
# StackScript.Proofs.Progress — symbols that no rule reduces are reduced

If no rule takes anything, every phrase is derived by one symbol.  A phrase that is not has parts,
and those that are derived by one symbol each are a match of the rule of the phrase.  The rule for
statements alone asks more, that a statement may begin where its match does; so an expression that
is to become one is counted as reduced, and the first of them in a block is the match.
-/

namespace StackScript

open Leaf

variable {gone : List Rule} {cs : List Chunk}

/-- An expression that is yet to become a statement. -/
def Pending (l : Leaf) (p : Phrase) : Prop :=
  ∃ st k e, p = .program st (.single (.value e)) ∧ Stands l (.expr st k e)

/-- The phrase is derived by one symbol, which stands for it or is yet to become a statement. -/
structure Settled (gone : List Rule) (p : Phrase) (xs : List Leaf) : Prop where
  derives : Derives gone p xs
  single : ∃ l, xs = [l] ∧ (Stands l p ∨ Pending l p)

/-- Among settled phrases the symbols stand for all, or there is a first one that is pending. -/
theorem Settled.first {ps : List Phrase} {xs : List Leaf} (h : Each (Settled gone) ps xs) :
    List.Forall₂ Stands xs ps ∨ ∃ ps₁ p ps₂ ys l zs, ps = ps₁ ++ p :: ps₂ ∧ xs = ys ++ l :: zs ∧
      List.Forall₂ Stands ys ps₁ ∧ Pending l p ∧ Forest gone ps₂ zs := by
  induction h with
  | nil => exact .inl .nil
  | @cons p ps us zs hp hs ih =>
    obtain ⟨-, l, rfl, hl | hl⟩ := hp
    · rcases ih with hall | ⟨ps₁, p', ps₂, ys, l', ws, rfl, rfl, hys, hl', hws⟩
      · exact .inl (.cons hl hall)
      · exact .inr ⟨p :: ps₁, p', ps₂, l :: ys, l', ws, rfl, rfl, .cons hl hys, hl', hws⟩
    · exact .inr ⟨[], p, ps, [], l, zs, rfl, rfl, .nil, hl,
        Forest.each_iff.mpr (hs.mono fun _ _ _ h => h.derives)⟩

/-- Symbols derive what they stand for. -/
theorem Forest.of_stands {ps : List Phrase} {xs : List Leaf} (h : List.Forall₂ Stands xs ps) :
    Forest gone ps xs := by
  induction h with
  | nil => exact .nil
  | cons hl _ ih => exact .leaf hl ih

/-- The last of symbols that stand for phrases. -/
theorem Stands.lastTag {ys : List Leaf} {ps : List Phrase} {p : Phrase}
    (h : List.Forall₂ Stands ys (ps ++ [p])) : Leaf.lastTag ys = some p.tag := by
  rw [Leaf.lastTag, ← List.getLast?_map]
  have htags := Stands.map_tag h
  rw [List.map_append, List.map_singleton] at htags
  exact htags ▸ List.getLast?_concat

/-- A statement may begin behind a program, and where the body of a block begins. -/
theorem opensStatement_of_chunk {r : Rule} {head : List Phrase} {st : Start}
    {make : (Nat → Block) → Option Stmt} (hhead : Heading r head st make) {cs : List Chunk}
    {ys : List Leaf} (hys : List.Forall₂ Stands ys (head ++ cs.map Chunk.phrase)) :
    ∃ t, lastTag ys = some t ∧ t.opensStatement = true := by
  rcases List.eq_nil_or_concat' cs with rfl | ⟨cs, c, rfl⟩
  · obtain ⟨hs, p, rfl, hends⟩ := hhead.last
    rw [List.map_nil, List.append_nil] at hys
    refine ⟨p.tag, Stands.lastTag hys, ?_⟩
    rcases hends p.tag (Tag.ends_self _) with h | h | h <;> rw [h] <;> rfl
  · rw [List.map_append, List.map_singleton, ← List.append_assoc] at hys
    exact ⟨_, Stands.lastTag hys, rfl⟩

/-- A statement may begin behind the parts before a chunk. -/
theorem Part.opensStatement {qs₁ qs₂ : List Phrase} {p q : Phrase} (h : Part qs₁ p qs₂ q)
    {l : Leaf} (hp : Pending l p) {ys : List Leaf} (hys : List.Forall₂ Stands ys qs₁) :
    ∃ t, lastTag ys = some t ∧ t.opensStatement = true := by
  obtain ⟨st, k, e, rfl, -⟩ := hp
  generalize hc : Phrase.program st (.single (.value e)) = p at h
  cases h with
  | chunk hhead => exact opensStatement_of_chunk hhead hys
  | head ht =>
    cases hc
    simp at ht
  | _ => cases hc

/-- All chunks but the first are on lines of their own. -/
theorem Chunks.broken {c : Chunk} (h : Chunks (c :: cs)) : ∀ d ∈ cs, d.1.broken = true := by
  induction cs generalizing c with
  | nil => simp
  | cons c' cs ih =>
    obtain ⟨hfollows, hrest⟩ := List.isChain_cons_cons.mp h
    intro d hd
    rcases List.mem_cons.mp hd with rfl | hd
    · exact hfollows.1
    · exact ih hrest d hd

theorem joins_of_broken {ys : List Leaf} (hys : List.Forall₂ Stands ys (cs.map Chunk.phrase))
    (hcs : ∀ d ∈ cs, d.1.broken = true) : ∀ l ∈ ys, l.joins = true := by
  induction cs generalizing ys with
  | nil =>
    obtain ⟨⟩ := hys
    simp
  | cons d cs ih =>
    obtain ⟨⟩ | @⟨l, _, _, _, hl, hrest⟩ := hys
    intro l' hl'
    rcases List.mem_cons.mp hl' with rfl | hl'
    · have hbroken : l'.broken = true :=
        (congrArg Start.broken hl.start_eq).symm.trans (hcs d List.mem_cons_self)
      have htag : l'.tag = .program := hl.tag_eq.symm
      rw [Leaf.joins, htag, hbroken]
      rfl
    · exact ih hrest (fun d hd => hcs d (List.mem_cons_of_mem _ hd)) l' hl'

/-- Several chunks are taken as a sequence where a brace or nothing is behind them. -/
theorem takes_sequence {ys pre post : List Leaf}
    (hys : List.Forall₂ Stands ys (cs.map Chunk.phrase)) (hcs : Chunks cs) (htwo : 1 < cs.length)
    (hpost : ∀ l, post.head? = some l → l.tag = .rightBrace) :
    Rule.sequence.Takes pre ys post := by
  match cs, htwo with
  | c :: d :: cs, _ =>
    obtain ⟨⟩ | @⟨a, _, ys, _, ha, hrest⟩ := hys
    have hjoins := joins_of_broken hrest hcs.broken
    refine ⟨.sequence ⟨⟨a, ys, rfl, ha.tag_eq.symm, ?_, hjoins⟩, ?_⟩, ?_⟩
    · rintro rfl
      cases hrest
    · intro l hl
      rw [Leaf.joins, hpost l hl]
      rfl
    · rw [Rule.admits]
      cases post with
      | nil => rfl
      | cons l post =>
        rw [firstTag_cons, hpost l rfl]
        rfl

/-- Symbols that stand for two lists of phrases are two lists. -/
theorem Stands.split {xs : List Leaf} {ps qs : List Phrase}
    (h : List.Forall₂ Stands xs (ps ++ qs)) :
    ∃ ys zs, xs = ys ++ zs ∧ List.Forall₂ Stands ys ps ∧ List.Forall₂ Stands zs qs :=
  ⟨_, _, (List.take_append_drop ps.length xs).symm, List.forall₂_take_append _ _ _ h,
    List.forall₂_drop_append _ _ _ h⟩

/-- A settled expression is a statement that is pending. -/
theorem Production.settled_statement {qs : List Phrase} {q : Phrase} {xs : List Leaf}
    (h : Production .statement qs q) (hqs : Each (Settled gone) qs xs) :
    ∃ l, xs = [l] ∧ (Stands l q ∨ Pending l q) := by
  cases h with
  | @statement st k e =>
    obtain ⟨ys, zs, rfl, ⟨-, l, rfl, hl⟩, hnil⟩ := Each.cons_iff.mp hqs
    obtain rfl := Each.nil_iff.mp hnil
    rcases hl with hl | ⟨st', k', e', hp, -⟩
    · exact ⟨l, rfl, .inr ⟨st, k, e, rfl, hl⟩⟩
    · cases hp
  | @binary _ _ o _ _ _ _ _ _ ho hr =>
    generalize o.tag = t at ho
    cases t <;> cases ho <;> cases hr
  | block hhead => cases hhead

/-- If no rule takes anything, there is at most one symbol, which stands for all chunks. -/
theorem Reading.progress {xs : List Leaf} (h : Reading gone cs xs)
    (hnone : ∀ r pre run post, xs = pre ++ (run ++ post) → ¬ Rule.Takes r pre run post) :
    cs = [] ∧ xs = [] ∨ ∃ c l, cs = [c] ∧ xs = [l] ∧ Stands l c.phrase := by
  have hafter : ∀ {pre post ys p}, Spot gone cs pre p post → xs = pre ++ (ys ++ post) →
      p.fragment?.isSome → After p post := by
    intro pre post ys p hp hxs hwhole
    refine hp.after h.chunks hwhole fun l hl => h.apart l ?_
    simp [hxs, hl]
  have hpending : ∀ {pre post l p}, Spot gone cs pre p post → xs = pre ++ l :: post →
      Pending l p → ¬ (lastTag pre).all Tag.opensStatement = true := by
    rintro pre post l _ hp hxs ⟨st, k, e, rfl, hl⟩ hopens
    have hapart : Apart [l] := by
      intro l' hl'
      rw [List.mem_singleton.mp hl']
      exact h.apart l (by simp [hxs])
    have hxs' : xs = pre ++ ([l] ++ post) := hxs
    refine hnone .statement pre [l] post hxs (Production.statement.takes (.cons hl .nil)
      (hp.before h.chunks rfl) (hafter hp hxs' rfl) hapart (fun _ => hopens) ?_)
    intro head st make cs b hhead
    cases hhead
  have hsettled := h.sweep (P := Settled gone) (fun hl => ⟨.of_stands hl, _, rfl, .inl hl⟩) (by
    intro pre post ys r qs q hq hxs hprod hr hforest hqs
    refine ⟨.of_production hprod hr hforest, ?_⟩
    obtain ⟨st, k, f, rfl⟩ := hprod.whole
    by_cases hstatement : r = .statement
    · subst hstatement
      exact hprod.settled_statement hqs
    exfalso
    rcases Settled.first hqs with hall | ⟨ps₁, p, ps₂, us, l, zs, rfl, rfl, hus, hl, hzs⟩
    · by_cases hone : r.OneChunk qs
      · refine hnone r pre ys post hxs (hprod.takes hall (hq.before h.chunks rfl)
          (hafter hq hxs rfl) (fun l hl => h.apart l ?_) (fun h => absurd h hstatement) hone)
        simp [hxs, hl]
      · simp only [Rule.OneChunk, not_forall, Nat.not_le] at hone
        obtain ⟨head, st', make, cs', b, -, hcs', hb, rfl, htwo⟩ := hone
        obtain ⟨yh, ys, rfl, -, hbody⟩ := Stands.split hall
        obtain ⟨yc, ys, rfl, hchunks, hbrace⟩ := Stands.split hbody
        obtain ⟨⟩ | @⟨l, _, _, _, hl, ⟨⟩⟩ := hbrace
        refine hnone .sequence (pre ++ yh) yc (l :: post) (by simp [hxs])
          (takes_sequence hchunks hcs' htwo ?_)
        rintro _ ⟨⟩
        exact hl.tag_eq.symm.trans hb
    · have hspot : Spot gone cs (pre ++ us) p (zs ++ post) :=
        .part hq hprod hr (Forest.of_stands hus) hzs
      have hwhole : p.fragment?.isSome := by
        obtain ⟨st, k, e, rfl, -⟩ := hl
        rfl
      obtain ⟨t, ht, hopens⟩ := (hprod.part rfl hwhole).opensStatement hl hus
      refine hpending hspot (by simp [hxs]) hl ?_
      rw [lastTag_append, ht]
      exact hopens)
  rcases Settled.first hsettled with hall | ⟨ps₁, p, ps₂, ys, l, zs, hps, rfl, hys, hl, hzs⟩
  · match cs with
    | [] =>
      obtain ⟨⟩ := hall
      exact .inl ⟨rfl, rfl⟩
    | [c] =>
      obtain ⟨⟩ | ⟨hl, ⟨⟩⟩ := hall
      exact .inr ⟨c, _, rfl, rfl, hl⟩
    | c :: d :: cs =>
      refine absurd (takes_sequence hall h.chunks (by simp) ?_)
        (hnone .sequence [] xs [] (by simp))
      simp
  · obtain ⟨cs₁, cs₂, rfl, rfl, hcs₂⟩ := List.map_eq_append_iff.mp hps
    obtain ⟨c, cs₂, rfl, rfl, rfl⟩ := List.map_eq_cons_iff.mp hcs₂
    refine absurd ?_ (hpending (.chunk rfl (Forest.of_stands hys) hzs) rfl hl)
    rcases List.eq_nil_or_concat' cs₁ with rfl | ⟨cs₁, c', rfl⟩
    · obtain ⟨⟩ := hys
      rfl
    · rw [List.map_append, List.map_singleton] at hys
      rw [Stands.lastTag hys]
      rfl

end StackScript
