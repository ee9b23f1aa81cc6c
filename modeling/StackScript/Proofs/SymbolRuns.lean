import Mathlib.Data.List.Chain
import StackScript.Grammar.Stream

/-!
# StackScript.Proofs.SymbolRuns — joining neighbours of one tag

Neighbours of one tag become one symbol, which begins with the first of them and ends with the last.
What is joined of symbols one after the other stands one after the other too
(`Stream.pairwise_joinRuns`), and what ends a run ends the joining (`Stream.joinRuns_append`).
-/

namespace StackScript

/-- One symbol for two. -/
def Symbol.join (a b : Symbol) : Symbol :=
  { a with text := a.text ++ b.text, span := ⟨a.span.start, max a.span.stop b.span.stop⟩ }

namespace Stream

/-! ### Joining neighbours -/

/-- A symbol before others, with neighbours joined that have the same tag, if `p` holds for it. -/
def joinInto (p : Tag → Bool) (a : Symbol) : List Symbol → List Symbol
  | [] => [a]
  | b :: bs =>
    if a.tag = b.tag ∧ p a.tag = true then joinInto p (a.join b) bs else a :: joinInto p b bs

/-- Symbols with neighbours joined that have the same tag, if `p` holds for it. -/
def joinRuns (p : Tag → Bool) : List Symbol → List Symbol
  | [] => []
  | a :: as => joinInto p a as

/-- Symbols with all neighbours joined that have the same tag. -/
abbrev joined : List Symbol → List Symbol := joinRuns fun _ => true

variable {p q : Tag → Bool} {a b c : Symbol} {as bs : List Symbol}

theorem joinInto_eq_cons (p : Tag → Bool) (a : Symbol) (as : List Symbol) :
    ∃ c cs, joinInto p a as = c :: cs ∧ c.tag = a.tag ∧ c.span.start = a.span.start := by
  fun_induction joinInto p a as with
  | case1 a => exact ⟨a, [], rfl, rfl, rfl⟩
  | case2 a b bs _ ih => exact ih
  | case3 a b bs => exact ⟨a, _, rfl, rfl, rfl⟩

/-- A joined symbol begins with one that was there. -/
theorem origin_of_mem_joinInto (h : c ∈ joinInto p a as) : ∃ b ∈ a :: as,
    b.tag = c.tag ∧ b.span.start = c.span.start ∧ b.span.stop ≤ c.span.stop := by
  fun_induction joinInto p a as with
  | case1 a =>
    obtain rfl := List.mem_singleton.mp h
    exact ⟨c, List.mem_singleton_self c, rfl, rfl, Nat.le_refl _⟩
  | case2 a b bs _ ih =>
    obtain ⟨d, hd, htag, hstart, hstop⟩ := ih h
    rcases List.mem_cons.mp hd with rfl | hd
    · exact ⟨a, List.mem_cons_self, htag, hstart, Nat.le_trans (Nat.le_max_left _ _) hstop⟩
    · exact ⟨d, List.mem_cons_of_mem _ (List.mem_cons_of_mem _ hd), htag, hstart, hstop⟩
  | case3 a b bs _ ih =>
    rcases List.mem_cons.mp h with rfl | h
    · exact ⟨c, List.mem_cons_self, rfl, rfl, Nat.le_refl _⟩
    · obtain ⟨d, hd, hd'⟩ := ih h
      exact ⟨d, List.mem_cons_of_mem _ hd, hd'⟩

theorem origin_of_mem_joinRuns (h : c ∈ joinRuns p as) : ∃ b ∈ as,
    b.tag = c.tag ∧ b.span.start = c.span.start ∧ b.span.stop ≤ c.span.stop := by
  cases as with
  | nil => cases h
  | cons => exact origin_of_mem_joinInto h

/-- What was there is in a joined symbol. -/
theorem exists_mem_joinInto (h : b ∈ a :: as) :
    ∃ c ∈ joinInto p a as, c.tag = b.tag ∧ b.span.stop ≤ c.span.stop := by
  fun_induction joinInto p a as generalizing b with
  | case1 a =>
    obtain rfl := List.mem_singleton.mp h
    exact ⟨b, List.mem_singleton_self b, rfl, Nat.le_refl _⟩
  | case2 a c cs hsame ih =>
    obtain ⟨d, hd, htag, hstop⟩ := ih List.mem_cons_self
    rcases List.mem_cons.mp h with rfl | h
    · exact ⟨d, hd, htag, Nat.le_trans (Nat.le_max_left _ _) hstop⟩
    rcases List.mem_cons.mp h with rfl | h
    · exact ⟨d, hd, htag.trans hsame.1, Nat.le_trans (Nat.le_max_right _ _) hstop⟩
    · exact ih (List.mem_cons_of_mem _ h)
  | case3 a c cs _ ih =>
    rcases List.mem_cons.mp h with rfl | h
    · exact ⟨b, List.mem_cons_self, rfl, Nat.le_refl _⟩
    · obtain ⟨d, hd, hd'⟩ := ih h
      exact ⟨d, List.mem_cons_of_mem _ hd, hd'⟩

/-- Joined symbols stand one after the other if all symbols do so. -/
theorem pairwise_joinInto (h : (a :: as).Pairwise fun a b => a.span.stop ≤ b.span.start) :
    (joinInto p a as).Pairwise fun a b => a.span.stop ≤ b.span.start := by
  fun_induction joinInto p a as with
  | case1 a => exact h
  | case2 a b bs _ ih =>
    obtain ⟨ha, hb, hbs⟩ := List.pairwise_cons.mp h |>.imp_right List.pairwise_cons.mp
    refine ih (.cons (fun c hc => Nat.max_le.mpr ⟨?_, hb c hc⟩) hbs)
    exact ha c (List.mem_cons_of_mem _ hc)
  | case3 a b bs _ ih =>
    obtain ⟨ha, hbs⟩ := List.pairwise_cons.mp h
    refine .cons (fun c hc => ?_) (ih hbs)
    obtain ⟨d, hd, -, hstart, -⟩ := origin_of_mem_joinInto hc
    exact hstart ▸ ha d hd

theorem pairwise_joinRuns (h : as.Pairwise fun a b => a.span.stop ≤ b.span.start) :
    (joinRuns p as).Pairwise fun a b => a.span.stop ≤ b.span.start := by
  cases as with
  | nil => exact h
  | cons => exact pairwise_joinInto h

/-- Nothing is joined across a border that no run crosses. -/
theorem joinInto_append
    (h : ∀ c ∈ a :: as, ∀ b ∈ bs.head?, c.tag = b.tag → p c.tag = false) :
    joinInto p a (as ++ bs) = joinInto p a as ++ joinRuns p bs := by
  fun_induction joinInto p a as with
  | case1 a =>
    cases bs with
    | nil => rfl
    | cons b bs =>
      have hborder := h a (List.mem_singleton_self a) b rfl
      rw [List.nil_append, joinInto, if_neg fun hsame => ?_]
      · rfl
      · rw [hborder hsame.1] at hsame
        exact Bool.false_ne_true hsame.2
  | case2 a c cs hsame ih =>
    rw [List.cons_append, joinInto, if_pos hsame]
    refine ih (List.forall_mem_cons.mpr ⟨h a List.mem_cons_self, fun d hd => ?_⟩)
    exact h d (List.mem_cons_of_mem _ (List.mem_cons_of_mem _ hd))
  | case3 a c cs hother ih =>
    rw [List.cons_append, joinInto, if_neg hother, List.cons_append]
    rw [ih fun d hd => h d (List.mem_cons_of_mem _ hd)]

theorem joinRuns_append (h : ∀ c ∈ as, ∀ b ∈ bs.head?, c.tag = b.tag → p c.tag = false) :
    joinRuns p (as ++ bs) = joinRuns p as ++ joinRuns p bs := by
  cases as with
  | nil => rfl
  | cons => exact joinInto_append h

/-- Where no neighbours have the same tag, there is nothing to join. -/
theorem joinInto_eq_self (h : (a :: as).IsChain fun a b => a.tag ≠ b.tag) :
    joinInto p a as = a :: as := by
  induction as generalizing a with
  | nil => rfl
  | cons b bs ih =>
    obtain ⟨hab, hbs⟩ := List.isChain_cons_cons.mp h
    rw [joinInto, if_neg fun hsame => hab hsame.1, ih hbs]

theorem joinRuns_eq_self (h : as.IsChain fun a b => a.tag ≠ b.tag) : joinRuns p as = as := by
  cases as with
  | nil => rfl
  | cons => exact joinInto_eq_self h

theorem isChain_joined (as : List Symbol) : (joined as).IsChain fun a b => a.tag ≠ b.tag := by
  cases as with
  | nil => exact .nil
  | cons a as =>
    show (joinInto (fun _ => true) a as).IsChain _
    fun_induction joinInto (fun _ => true) a as with
    | case1 a => exact .singleton a
    | case2 a b bs _ ih => exact ih
    | case3 a b bs hother ih =>
      obtain ⟨c, cs, hcs, htag, -⟩ := joinInto_eq_cons (fun _ => true) b bs
      rw [hcs] at ih ⊢
      refine .cons_cons (fun hsame => hother ⟨hsame.trans htag, rfl⟩) ih

theorem joinRuns_congr (h : ∀ a ∈ as, p a.tag = q a.tag) : joinRuns p as = joinRuns q as := by
  cases as with
  | nil => rfl
  | cons a as =>
    show joinInto p a as = joinInto q a as
    induction as generalizing a with
    | nil => rfl
    | cons b bs ih =>
      obtain ⟨ha, hbs⟩ := List.forall_mem_cons.mp h
      obtain ⟨-, hrest⟩ := List.forall_mem_cons.mp hbs
      rw [joinInto, joinInto, ha, ih (a.join b) (List.forall_mem_cons.mpr ⟨ha, hrest⟩), ih b hbs]

theorem exists_mem_joinRuns (h : b ∈ as) :
    ∃ c ∈ joinRuns p as, c.tag = b.tag ∧ b.span.stop ≤ c.span.stop := by
  cases as with
  | nil => cases h
  | cons => exact exists_mem_joinInto h

theorem eq_nil_of_joinRuns (h : joinRuns p as = []) : as = [] := by
  cases as with
  | nil => rfl
  | cons a as =>
    obtain ⟨c, cs, hcs, -⟩ := joinInto_eq_cons p a as
    exact absurd (hcs.symm.trans h) (List.cons_ne_nil c cs)

end Stream

end StackScript
