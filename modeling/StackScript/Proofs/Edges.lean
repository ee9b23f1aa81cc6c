import StackScript.Proofs.Margins
import StackScript.Proofs.AdmittedMatches

/-!
# StackScript.Proofs.Edges — expressions with a reduced operand at an edge

An expression whose symbols begin with an operand that is reduced already is that operand alone, or
goes on with what takes the operand: a point, or a binary operator of a level that is not below the
level of the expression.  At the other end there is such an operator before the last operand, or a
prefix operator.  This is what the rules look for before they take an operand from its neighbour.
-/

namespace StackScript

open Leaf

/-- The least level of an operator, as rules compare them, at the top of a phrase. -/
def Phrase.floor : Phrase → Nat
  | whole .expression _ k _ => min k 5
  | _ => 5

/-- The leaf takes the operand before it, in a phrase with this floor. -/
def Leaf.Takes (o : Leaf) (floor : Nat) : Prop :=
  o.broken = false ∧ (o.tag = .dot ∨ ∃ n, o.tag.level? = some n ∧ floor ≤ n)

theorem Leaf.Takes.mono {o : Leaf} {m n : Nat} (h : o.Takes n) (hm : m ≤ n) : o.Takes m := by
  obtain ⟨hb, hd | ⟨k, hk, hn⟩⟩ := h
  · exact ⟨hb, .inl hd⟩
  · exact ⟨hb, .inr ⟨k, hk, Nat.le_trans hm hn⟩⟩

/-- The level by which rules compare an operator. -/
theorem Tag.level?_of_operator? {t : Tag} {p : Operator} (h : t.operator? = some p) :
    t.level? = some (min p.level 5) := by
  cases t <;> cases h <;> rfl

theorem Operator.floor_left {t : Tag} {p : Operator} (h : t.operator? = some p) :
    min p.level 5 ≤ min p.left 5 := by
  cases t <;> cases h <;> decide

theorem Operator.floor_right {t : Tag} {p : Operator} (h : t.operator? = some p) :
    min p.level 5 ≤ min p.right 5 := by
  cases t <;> cases h <;> decide

theorem Operator.level_le_left {t : Tag} {p : Operator} (h : t.operator? = some p) :
    p.level ≤ p.left := by
  cases t <;> cases h <;> decide

theorem Operator.level_lt {t : Tag} {p : Operator} (h : t.operator? = some p) : p.level < 7 := by
  cases t <;> cases h <;> decide

/-- A call or an expression that begins with a reduced operand is that operand, or goes on with what
takes it. -/
theorem Derives.opening {gone : List Rule} {p : Phrase} {xs : List Leaf} (h : Derives gone p xs)
    (hp : p.tag = .expression ∨ p.tag = .callHead) {a : Leaf} {ys : List Leaf} (hxs : xs = a :: ys)
    (ha : a.tag = .expression) :
    (ys = [] ∧ Stands a p) ∨ ∃ o zs, ys = o :: zs ∧ o.Takes p.floor := by
  suffices hQ : (p.tag = .expression ∨ p.tag = .callHead) → ∀ a ys, xs = a :: ys →
      a.tag = .expression → (ys = [] ∧ Stands a p) ∨ ∃ o zs, ys = o :: zs ∧ o.Takes p.floor from
    hQ hp a ys hxs ha
  refine Derives.inductOn (Q := fun p xs => (p.tag = .expression ∨ p.tag = .callHead) →
    ∀ a ys, xs = a :: ys → a.tag = .expression →
      (ys = [] ∧ Stands a p) ∨ ∃ o zs, ys = o :: zs ∧ o.Takes p.floor) ?_ ?_ h
  · rintro l p hl - a ys hxs -
    obtain ⟨rfl, rfl⟩ := List.cons.inj hxs
    exact .inl ⟨rfl, hl⟩
  · intro r qs q xs hr _ hqs hq a ys hxs ha
    -- a token at the front is no operand
    have htoken : ∀ {l : Leaf} {ps : List Phrase}, qs = .token l :: ps → l.tag ≠ .expression →
        False := by
      rintro l ps rfl hl
      obtain ⟨us, vs, rfl, ⟨hd, -⟩, -⟩ := Each.cons_iff.mp hqs
      obtain ⟨rfl, -⟩ := hd.token
      rw [List.singleton_append, List.cons.injEq] at hxs
      exact hl (hxs.1 ▸ ha)
    -- an operand at the front is taken by the token after it, or goes on by itself
    have htaken : ∀ {p' : Phrase} {o : Leaf} {ps : List Phrase}, qs = p' :: .token o :: ps →
        (p'.tag = .expression ∨ p'.tag = .callHead) → q.floor ≤ p'.floor → o.Takes q.floor →
        ∃ o zs, ys = o :: zs ∧ o.Takes q.floor := by
      rintro p' o ps rfl hp' hfloor ho
      obtain ⟨us, vs, rfl, ⟨hd, ih⟩, hvs⟩ := Each.cons_iff.mp hqs
      obtain ⟨ws, zs, rfl, ⟨hd', -⟩, -⟩ := Each.cons_iff.mp hvs
      obtain ⟨rfl, -⟩ := hd'.token
      obtain ⟨l, us, rfl, -, -⟩ := hd.head
      rw [List.cons_append, List.cons.injEq] at hxs
      obtain ⟨rfl, rfl⟩ := hxs
      rcases ih hp' _ _ rfl ha with ⟨rfl, -⟩ | ⟨o', zs', rfl, ho'⟩
      · exact ⟨o, zs, rfl, ho⟩
      · exact ⟨o', zs' ++ ([o] ++ zs), rfl, ho'.mono hfloor⟩
    cases hr with
    | literal h =>
      refine (htoken rfl fun h' => ?_).elim
      have hmem := literal?_tag h
      rw [h'] at hmem
      simp at hmem
    | callHead h | «variable» h | list h | group h =>
      refine (htoken rfl ?_).elim
      rw [h]
      decide
    | unary ho =>
      refine (htoken rfl fun h' => ?_).elim
      have hmem := ho.tag_mem
      rw [h'] at hmem
      simp at hmem
    | methodHead hd hb | field hd hb =>
      exact .inr (htaken rfl (.inl rfl) (Nat.le_refl _) ⟨hb, .inl hd⟩)
    | binary ho hr hb hi hj =>
      refine .inr (htaken rfl (.inl rfl) ?_ ⟨hb, .inr ⟨_, Tag.level?_of_operator? ho, Nat.le_refl _⟩⟩)
      have hleft := Operator.floor_left ho
      simp only [Phrase.floor]
      omega
    | arguments ht =>
      obtain ⟨us, vs, rfl, ⟨hd, ih⟩, -⟩ := Each.cons_iff.mp hqs
      obtain ⟨l, us, rfl, -, hstarts⟩ := hd.head
      rw [List.cons_append, List.cons.injEq] at hxs
      obtain ⟨rfl, rfl⟩ := hxs
      rcases ht with rfl | rfl
      · rcases ih (.inr rfl) _ _ rfl ha with ⟨-, hl⟩ | ⟨o, zs, rfl, ho⟩
        · have htag := hl.tag_eq
          rw [ha] at htag
          cases htag
        · exact .inr ⟨o, zs ++ vs, rfl, ho⟩
      · rw [ha] at hstarts
        cases hstarts
    | _ => rcases hq with hq | hq <;> cases hq

/-- The leaf, behind these, takes the operand after it, in a phrase with this floor. -/
def Leaf.TakesNext (zs : List Leaf) (o : Leaf) (floor : Nat) : Prop :=
  (o.IsPrefix ∧ (zs = [] ∨ ∃ t, lastTag zs = some t ∧ t.endsOperand = false)) ∨
    ∃ n, o.tag.level? = some n ∧ floor ≤ n

theorem Leaf.TakesNext.mono {zs : List Leaf} {o : Leaf} {m n : Nat} (h : TakesNext zs o n)
    (hm : m ≤ n) : TakesNext zs o m := by
  rcases h with h | ⟨k, hk, hn⟩
  · exact .inl h
  · exact .inr ⟨k, hk, Nat.le_trans hm hn⟩

/-- Behind an operator it makes no difference what stands before that. -/
theorem Leaf.TakesNext.behind {xs zs : List Leaf} {o b : Leaf} {n : Nat} (h : TakesNext zs o n)
    (hb : b.tag.endsOperand = false) : TakesNext (xs ++ [b] ++ zs) o n := by
  rcases h with ⟨ho, rfl | ⟨t, hzs, ht⟩⟩ | h
  · refine .inl ⟨ho, .inr ⟨b.tag, ?_, hb⟩⟩
    rw [List.append_nil, lastTag_concat]
  · refine .inl ⟨ho, .inr ⟨t, ?_, ht⟩⟩
    rw [lastTag_append, hzs, Option.some_or]
  · exact .inr h

theorem Leaf.IsPrefix.not_endsOperand {o : Leaf} (h : o.IsPrefix) : o.tag.endsOperand = false := by
  rcases h with ⟨h, -⟩ | h | h <;> rw [h] <;> rfl

theorem Tag.not_endsOperand_of_operator? {t : Tag} {p : Operator} (h : t.operator? = some p) :
    t.endsOperand = false := by
  cases t <;> first | cases h; done | rfl

theorem Tag.not_namesMember_of_operator? {t : Tag} {p : Operator} (h : t.operator? = some p) :
    t.namesMember = false := by
  cases t <;> first | cases h; done | rfl

/-- An expression that ends with a reduced operand is that operand, or there is an operator before
the operand that takes it. -/
theorem Derives.closing {gone : List Rule} {st : Start} {k : Nat} {e : Expr} {xs ys : List Leaf}
    {a : Leaf} (h : Derives gone (.expr st k e) xs) (hxs : xs = ys ++ [a])
    (ha : a.tag = .expression) :
    (ys = [] ∧ Stands a (.expr st k e)) ∨
      ∃ zs o, ys = zs ++ [o] ∧ k < 7 ∧ TakesNext zs o (min k 5) := by
  refine Derives.inductOn (Q := fun p xs => ∀ st k e, p = .expr st k e → ∀ a ys, xs = ys ++ [a] →
    a.tag = .expression → (ys = [] ∧ Stands a (.expr st k e)) ∨
      ∃ zs o, ys = zs ++ [o] ∧ k < 7 ∧ TakesNext zs o (min k 5)) ?_ ?_ h st k e rfl a ys hxs ha
  · rintro l p hl st k e rfl a ys hxs -
    have hxs' : [] ++ [l] = ys ++ [a] := hxs
    obtain ⟨rfl, hla⟩ := List.append_inj' hxs' rfl
    rw [← List.head_eq_of_cons_eq hla]
    exact .inl ⟨rfl, hl⟩
  · rintro r qs q xs hr _ hqs st k e rfl a ys hxs ha
    -- a token at the end is no operand
    have htoken : ∀ {l : Leaf} (ps : List Phrase), qs = ps ++ [.token l] → l.tag ≠ .expression →
        False := by
      rintro l ps rfl hl
      obtain ⟨us, vs, rfl, -, hvs⟩ := hqs.split
      obtain ⟨ws, zs, rfl, ⟨hd, -⟩, hnil⟩ := Each.cons_iff.mp hvs
      obtain ⟨rfl, -⟩ := hd.token
      obtain rfl := Each.nil_iff.mp hnil
      rw [List.append_nil] at hxs
      exact hl (List.head_eq_of_cons_eq (List.append_inj' hxs rfl).2 ▸ ha)
    -- an operand at the end is taken by the token before it, or has an operator of its own
    have htaken : ∀ {o : Leaf} (ps : List Phrase) {st' : Start} {j : Nat} {e' : Expr},
        qs = ps ++ [.token o, .expr st' j e'] → o.tag.endsOperand = false → min k 5 ≤ min j 5 →
        (∀ us, Each (Derives gone) ps us → TakesNext us o (min k 5)) →
        ∃ zs o, ys = zs ++ [o] ∧ TakesNext zs o (min k 5) := by
      rintro o ps st' j e' rfl hend hfloor ho
      obtain ⟨us, vs, rfl, hus, hvs⟩ := hqs.split
      obtain ⟨ws, zs, rfl, ⟨hd, -⟩, hzs⟩ := Each.cons_iff.mp hvs
      obtain ⟨rfl, -⟩ := hd.token
      obtain ⟨ws, ts, rfl, ⟨hd', ih⟩, hnil⟩ := Each.cons_iff.mp hzs
      obtain rfl := Each.nil_iff.mp hnil
      obtain ⟨ws, l, rfl, -⟩ := hd'.last
      have heq : us ++ [o] ++ ws = ys ∧ l = a := by
        have h' : (us ++ [o] ++ ws) ++ [l] = ys ++ [a] := by rw [← hxs]; simp
        obtain ⟨h₁, h₂⟩ := List.append_inj' h' rfl
        exact ⟨h₁, List.head_eq_of_cons_eq h₂⟩
      obtain ⟨rfl, rfl⟩ := heq
      rcases ih _ _ _ rfl _ _ rfl ha with ⟨rfl, -⟩ | ⟨zs, o', rfl, -, ho'⟩
      · exact ⟨us, o, List.append_nil _, ho us (hus.mono fun _ _ _ h => h.1)⟩
      · exact ⟨us ++ [o] ++ zs, o', (List.append_assoc _ _ _).symm,
          (ho'.mono hfloor).behind hend⟩
    generalize hq : Phrase.expr st k e = q at hr
    cases hr with
    | literal h =>
      refine (htoken [] rfl fun h' => ?_).elim
      have hmem := literal?_tag h
      rw [h'] at hmem
      simp at hmem
    | field _ _ h | group _ h =>
      refine (htoken [_, _] rfl ?_).elim
      rw [h]
      decide
    | «variable» h =>
      refine (htoken [] rfl ?_).elim
      rw [h]
      decide
    | list _ _ h | arguments _ _ _ h =>
      refine (htoken (_ :: _) rfl ?_).elim
      rw [h]
      decide
    | unary ho hk =>
      obtain ⟨-, rfl, -⟩ := Phrase.whole.inj hq |>.2
      obtain ⟨zs, o, hys, hzs⟩ := htaken [] rfl ho.not_endsOperand (by omega) (by
        intro us hus
        obtain rfl := Each.nil_iff.mp hus
        exact .inl ⟨ho, .inl rfl⟩)
      exact .inr ⟨zs, o, hys, by omega, hzs⟩
    | binary ho hr hb hi hj =>
      obtain ⟨-, rfl, -⟩ := Phrase.whole.inj hq |>.2
      have hright := Operator.floor_right ho
      obtain ⟨zs, o, hys, hzs⟩ := htaken [_] rfl (Tag.not_endsOperand_of_operator? ho)
        (by omega) fun _ _ => .inr ⟨_, Tag.level?_of_operator? ho, Nat.le_refl _⟩
      exact .inr ⟨zs, o, hys, Operator.level_lt ho, hzs⟩
    | _ => cases hq

/-- A program that begins with a reduced one is that program alone, or goes on with an `else`. -/
theorem Derives.opening_program {gone : List Rule} {p : Phrase} {xs : List Leaf}
    (h : Derives gone p xs) (hp : p.tag = .program) {a : Leaf} {ys : List Leaf} (hxs : xs = a :: ys)
    (ha : a.tag = .program) :
    (ys = [] ∧ Stands a p) ∨
      ∃ o zs, ys = o :: zs ∧ (o.tag = .elseWord ∨ o.tag = .elseIfWord) := by
  suffices hQ : p.tag = .program → ∀ a ys, xs = a :: ys → a.tag = .program →
      (ys = [] ∧ Stands a p) ∨ ∃ o zs, ys = o :: zs ∧ (o.tag = .elseWord ∨ o.tag = .elseIfWord) from
    hQ hp a ys hxs ha
  refine Derives.inductOn (Q := fun p xs => p.tag = .program → ∀ a ys, xs = a :: ys →
    a.tag = .program → (ys = [] ∧ Stands a p) ∨
      ∃ o zs, ys = o :: zs ∧ (o.tag = .elseWord ∨ o.tag = .elseIfWord)) ?_ ?_ h
  · rintro l p hl - a ys hxs -
    obtain ⟨rfl, rfl⟩ := List.cons.inj hxs
    exact .inl ⟨rfl, hl⟩
  · intro r qs q xs hr _ hqs hq a ys hxs ha
    -- only a program begins with a program
    have hfront : ∀ {p : Phrase} {ps : List Phrase}, qs = p :: ps →
        p.tag.starts .program = true := by
      rintro p ps rfl
      obtain ⟨us, vs, rfl, ⟨hd, -⟩, -⟩ := Each.cons_iff.mp hqs
      obtain ⟨l, us, rfl, -, hstarts⟩ := hd.head
      rw [List.cons_append, List.cons.injEq] at hxs
      rwa [hxs.1, ha] at hstarts
    have hchain : ∀ {p : Phrase} {o : Leaf} {ps : List Phrase}, qs = p :: .token o :: ps →
        p.tag = .program → (o.tag = .elseWord ∨ o.tag = .elseIfWord) →
        ∃ o zs, ys = o :: zs ∧ (o.tag = .elseWord ∨ o.tag = .elseIfWord) := by
      rintro p o ps rfl hp ho
      obtain ⟨us, vs, rfl, ⟨hd, ih⟩, hvs⟩ := Each.cons_iff.mp hqs
      obtain ⟨ws, zs, rfl, ⟨hd', -⟩, -⟩ := Each.cons_iff.mp hvs
      obtain ⟨rfl, -⟩ := hd'.token
      obtain ⟨l, us, rfl, -, -⟩ := hd.head
      rw [List.cons_append, List.cons.injEq] at hxs
      obtain ⟨rfl, rfl⟩ := hxs
      rcases ih hp _ _ rfl ha with ⟨rfl, -⟩ | ⟨o', zs', rfl, ho'⟩
      · exact ⟨o, zs, rfl, ho⟩
      · exact ⟨o', zs' ++ ([o] ++ zs), rfl, ho'⟩
    cases hr with
    | declaration h | print h | returnsBare h | returns h =>
      have hstarts := hfront rfl
      rw [Phrase.tag_token, h] at hstarts
      cases hstarts
    | jump h =>
      have hstarts := hfront rfl
      rcases h with h | h <;>
        · rw [Phrase.tag_token, h] at hstarts
          cases hstarts
    | assignment | statement => cases hfront rfl
    | block hhead =>
      cases hhead with
      | branch h | loop h =>
        have hstarts := hfront rfl
        rw [Phrase.tag_token, h] at hstarts
        cases hstarts
      | functionEnd | classEnd => cases hfront rfl
      | elseIf ho => exact .inr (hchain rfl rfl (.inr ho))
      | otherwise ho => exact .inr (hchain rfl rfl (.inl ho))
    | _ => cases hq

/-- A program that ends with a reduced one is that program alone. -/
theorem Derives.closing_program {gone : List Rule} {p : Phrase} {xs ys : List Leaf}
    (h : Derives gone p xs) (hp : p.tag = .program) {a : Leaf} (hxs : xs = ys ++ [a])
    (ha : a.tag = .program) : ys = [] ∧ Stands a p := by
  rcases h.cases with ⟨l, rfl, hl⟩ | ⟨r, qs, hr, -, hqs⟩
  · have hxs' : [] ++ [l] = ys ++ [a] := hxs
    obtain ⟨rfl, hla⟩ := List.append_inj' hxs' rfl
    rw [← List.head_eq_of_cons_eq hla]
    exact ⟨rfl, hl⟩
  · -- nothing that a production of a program ends with can end with a program
    have hback : ∀ (ps : List Phrase) {p : Phrase}, qs = ps ++ [p] →
        p.tag.ends .program = true := by
      rintro ps p rfl
      obtain ⟨us, vs, rfl, -, hvs⟩ := hqs.split
      obtain ⟨vs, l, rfl, hl⟩ := Derives.last hvs
      rw [← List.append_assoc] at hxs
      obtain ⟨-, hla⟩ := List.append_inj' hxs rfl
      rwa [List.head_eq_of_cons_eq hla, ha] at hl
    cases hr with
    | declaration _ hx =>
      have hends := hback [_] rfl
      rw [Phrase.tag_token, hx] at hends
      cases hends
    | returnsBare hw =>
      have hends := hback [] rfl
      rw [Phrase.tag_token, hw] at hends
      cases hends
    | jump hw =>
      have hends := hback [] rfl
      rcases hw with hw | hw <;>
        · rw [Phrase.tag_token, hw] at hends
          cases hends
    | print | returns | assignment => cases hback [_] rfl
    | statement => cases hback [] rfl
    | block hhead hcs hb =>
      have hends := hback _ (List.append_assoc _ _ _).symm
      rw [Phrase.tag_token, hb] at hends
      cases hends
    | _ => cases hp

end StackScript
