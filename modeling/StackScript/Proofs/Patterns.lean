import StackScript.Grammar.Rule

/-!
# StackScript.Proofs.Patterns — what patterns take

A pattern takes tags off the front of a list.  For the patterns of the rules this says what the list
begins with: what a pattern of single tags takes, a list with commas, and programs with separators
between them.
-/

namespace StackScript.Pattern

/-! ### Repetition -/

/-- A step that takes something whenever it succeeds. -/
def Consumes (step : List Tag → Option (List Tag)) : Prop :=
  ∀ ts ts', step ts = some ts' → ts'.length < ts.length

/-- As many repetitions are enough as the list has tags. -/
theorem repeated_eq {step : List Tag → Option (List Tag)} (hstep : Consumes step) {n : Nat}
    {ts : List Tag} (hn : ts.length ≤ n) : repeated step n ts = repeated step ts.length ts := by
  induction n using Nat.strongRecOn generalizing ts with
  | ind n ih =>
    cases n with
    | zero =>
      obtain rfl : ts = [] := List.length_eq_zero_iff.mp (by omega)
      rfl
    | succ n =>
      cases hs : step ts with
      | none =>
        have hend : ∀ k, repeated step k ts = ts := by
          intro k
          cases k with
          | zero => rfl
          | succ k => rw [repeated, hs]
        rw [hend, hend]
      | some ts' =>
        have hlt := hstep ts ts' hs
        obtain ⟨k, hk⟩ : ∃ k, ts.length = k + 1 := ⟨ts.length - 1, by omega⟩
        rw [hk, repeated, repeated, hs]
        dsimp only
        rw [ih n (by omega) (by omega), ih k (by omega) (by omega)]

theorem rest?_many_of_none {p : Pattern} {ts : List Tag} (h : p.rest? ts = none) :
    (many p).rest? ts = some ts := by
  rw [rest?]
  cases ts.length with
  | zero => rfl
  | succ n => rw [repeated, h]

theorem rest?_many_of_some {p : Pattern} (hp : Consumes p.rest?) {ts ts' : List Tag}
    (h : p.rest? ts = some ts') : (many p).rest? ts = (many p).rest? ts' := by
  have hlt := hp ts ts' h
  obtain ⟨k, hk⟩ : ∃ k, ts.length = k + 1 := ⟨ts.length - 1, by omega⟩
  rw [rest?, rest?, hk, repeated, h]
  dsimp only
  rw [repeated_eq hp (by omega)]

/-! ### Single tags -/

@[simp] theorem rest?_one_cons (of : List Tag) (t : Tag) (ts : List Tag) :
    (one of).rest? (t :: ts) = if of.contains t then some ts else none := rfl

@[simp] theorem rest?_one_nil (of : List Tag) : (one of).rest? [] = none := rfl

@[simp] theorem rest?_tag_nil (t : Tag) : (tag t).rest? [] = none := rfl

@[simp] theorem rest?_tag_cons (t u : Tag) (ts : List Tag) :
    (tag t).rest? (u :: ts) = if u = t then some ts else none := by
  rw [tag, rest?_one_cons]
  simp only [List.contains_cons, List.contains_nil, Bool.or_false, beq_iff_eq]

@[simp] theorem rest?_andThen (p q : Pattern) (ts : List Tag) :
    (andThen p q).rest? ts = (p.rest? ts).bind q.rest? := rfl

@[simp] theorem rest?_optional (p : Pattern) (ts : List Tag) :
    (optional p).rest? ts = some ((p.rest? ts).getD ts) := rfl

@[simp] theorem all_singleton (p : Pattern) : all [p] = p := rfl

@[simp] theorem all_cons (p q : Pattern) (ps : List Pattern) :
    all (p :: q :: ps) = andThen p (all (q :: ps)) := rfl

theorem rest?_tag_eq_some {t : Tag} {ts ts' : List Tag} (h : (tag t).rest? ts = some ts') :
    ts = t :: ts' := by
  cases ts with
  | nil => cases h
  | cons u ts =>
    rw [rest?_tag_cons] at h
    by_cases hu : u = t
    · rw [if_pos hu] at h
      rw [hu, Option.some.inj h]
    · rw [if_neg hu] at h
      cases h

/-- What a pattern leaves is the end of what it was given. -/
theorem rest?_suffix {p : Pattern} {ts ts' : List Tag} (h : p.rest? ts = some ts') :
    ts' <:+ ts := by
  induction p generalizing ts ts' with
  | nothing =>
    obtain rfl := Option.some.inj h
    exact List.suffix_refl _
  | one of =>
    cases ts with
    | nil => cases h
    | cons t ts =>
      rw [rest?_one_cons] at h
      split at h
      · rw [← Option.some.inj h]
        exact List.suffix_cons _ _
      · cases h
  | andThen p q ihp ihq =>
    obtain ⟨us, hp, hq⟩ := Option.bind_eq_some_iff.mp h
    exact (ihq hq).trans (ihp hp)
  | optional p ih =>
    rw [rest?_optional, Option.some.injEq] at h
    rw [← h]
    cases hp : p.rest? ts with
    | none => exact List.suffix_refl _
    | some us => exact ih hp
  | many p ih =>
    have hrepeated : ∀ n us, repeated p.rest? n us <:+ us := by
      intro n
      induction n with
      | zero => exact fun us => List.suffix_refl _
      | succ n ihn =>
        intro us
        rw [repeated]
        split
        · exact List.suffix_refl _
        · rename_i vs hvs
          exact (ihn vs).trans (ih hvs)
    rw [← Option.some.inj h]
    exact hrepeated _ _

/-! ### Lists with commas -/

/-- What is left after as many pairs of a comma and the tag as there are. -/
def commaRest (t : Tag) : List Tag → List Tag
  | .comma :: u :: ts => if u = t then commaRest t ts else .comma :: u :: ts
  | ts => ts

theorem consumes_comma (t : Tag) : Consumes (andThen (tag .comma) (tag t)).rest? := by
  intro ts ts' h
  obtain ⟨us, hu, ht⟩ := Option.bind_eq_some_iff.mp h
  rw [rest?_tag_eq_some hu, rest?_tag_eq_some ht, List.length_cons, List.length_cons]
  omega

theorem rest?_many_comma (t : Tag) (ts : List Tag) :
    (many (andThen (tag .comma) (tag t))).rest? ts = some (commaRest t ts) := by
  fun_induction commaRest t ts with
  | case1 ts ih =>
    have hstep : (andThen (tag .comma) (tag t)).rest? (.comma :: t :: ts) = some ts := by simp
    rw [rest?_many_of_some (consumes_comma t) hstep]
    exact ih
  | case2 u ts hu => exact rest?_many_of_none (by simp [hu])
  | case3 ts hts =>
    refine rest?_many_of_none ?_
    match ts, hts with
    | [], _ => rfl
    | [u], _ =>
      by_cases hu : u = .comma <;> simp [hu]
    | u :: v :: ts, hts =>
      have hu : u ≠ .comma := by
        rintro rfl
        exact hts v ts rfl
      simp [hu]

/-- A list with commas ends where no comma follows, and may have nothing in it. -/
theorem rest?_commaList_cons (t u : Tag) (ts : List Tag) :
    (commaList (tag t)).rest? (u :: ts) =
      some (if u = t then commaRest t ts else u :: ts) := by
  rw [commaList, rest?_optional, rest?_andThen, rest?_tag_cons]
  split
  · rw [Option.bind_some, rest?_many_comma]
    rfl
  · rfl

/-! ### Separators -/

/-- A line break or a semicolon. -/
def separator : Pattern := one [.newline, .semicolon]

theorem consumes_separator : Consumes separator.rest? := by
  intro ts ts' h
  cases ts with
  | nil => cases h
  | cons t ts =>
    rw [separator, rest?_one_cons] at h
    split at h
    · cases h
      simp
    · cases h

/-- Line breaks are taken up to the first tag that is no separator. -/
theorem rest?_many_newlines (k : Nat) {ts : List Tag} (h : separator.rest? ts = none) :
    (many separator).rest? (List.replicate k .newline ++ ts) = some ts := by
  induction k with
  | zero => exact rest?_many_of_none h
  | succ k ih =>
    have hstep : separator.rest? (.newline :: (List.replicate k .newline ++ ts)) =
        some (List.replicate k .newline ++ ts) := by simp [separator]
    rw [List.replicate_succ, List.cons_append, rest?_many_of_some consumes_separator hstep]
    exact ih

/-- Separators and a program after them. -/
def separated : Pattern := all [atLeastOnce separator, tag .program]

theorem pattern_sequence : Rule.sequence.pattern =
    andThen (tag .program) (andThen (atLeastOnce separator)
      (andThen (tag .program) (many separated))) := rfl

theorem rest?_separators (k : Nat) {ts : List Tag} (h : separator.rest? ts = none) :
    (atLeastOnce separator).rest? (List.replicate k .newline ++ ts) =
      if k = 0 then none else some ts := by
  cases k with
  | zero =>
    rw [List.replicate_zero, List.nil_append, atLeastOnce, rest?_andThen, h]
    rfl
  | succ k =>
    rw [List.replicate_succ, List.cons_append, atLeastOnce, rest?_andThen]
    have htake : separator.rest? (.newline :: (List.replicate k .newline ++ ts)) =
        some (List.replicate k .newline ++ ts) := by simp [separator]
    rw [htake, Option.bind_some, rest?_many_newlines k h]
    rfl

theorem consumes_separated : Consumes separated.rest? := by
  intro ts ts' h
  obtain ⟨us, hu, ht⟩ := Option.bind_eq_some_iff.mp h
  obtain ⟨vs, hv, hw⟩ := Option.bind_eq_some_iff.mp hu
  have hlt := consumes_separator _ _ hv
  have hle := (rest?_suffix hw).length_le
  rw [rest?_tag_eq_some ht] at hle
  simp only [List.length_cons] at hle
  omega

end StackScript.Pattern
