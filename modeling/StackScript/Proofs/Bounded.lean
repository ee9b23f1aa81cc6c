import StackScript.Machine.Run

/-!
# StackScript.Proofs.Bounded — computations with a limit on their steps

A run of code takes a limit on its steps and is exhausted if it needs more.  `Bounded` is such a
family of effects in which a higher limit only changes results that are exhausted, so that it has at
most one result, `Ends`, or none, `Diverges`.

`Follows A B` says that `A` does what `B` does in at least as many steps, and `Tracks` says of
computations on states of two kinds, of which the one is a view of the other, that a result of
either below a limit is reached by the other.
-/

namespace StackScript

open EStateM (Result)

variable {σ τ α γ : Type}

/-! ### Results -/

/-- The steps were used up. -/
def Exhausted (r : Result Stop σ α) : Prop := ∃ s, r = .error .exhausted s

/-- A result with another state. -/
def mapState (view : σ → τ) : Result Stop σ α → Result Stop τ α
  | .ok a s => .ok a (view s)
  | .error e s => .error e (view s)

@[simp] theorem mapState_ok (view : σ → τ) (a : α) (s : σ) :
    mapState view (.ok a s : Result Stop σ α) = .ok a (view s) := rfl

@[simp] theorem mapState_error (view : σ → τ) (e : Stop) (s : σ) :
    mapState view (.error e s : Result Stop σ α) = .error e (view s) := rfl

@[simp] theorem not_exhausted_ok {a : α} {s : σ} : ¬ Exhausted (.ok a s : Result Stop σ α) :=
  fun ⟨_, h⟩ => nomatch h

@[simp] theorem exhausted_error_iff {e : Stop} {s : σ} :
    Exhausted (.error e s : Result Stop σ α) ↔ e = .exhausted := by
  constructor
  · rintro ⟨t, h⟩
    cases h
    rfl
  · rintro rfl
    exact ⟨s, rfl⟩

theorem exhausted_mapState_iff {view : σ → τ} {r : Result Stop σ α} :
    Exhausted (mapState view r) ↔ Exhausted r := by
  cases r <;> simp

theorem bind_of_ok {x : EStateM Stop σ α} {f : α → EStateM Stop σ γ} {a : α} {s s' : σ}
    (h : x s = .ok a s') : (x >>= f) s = f a s' := by
  show EStateM.bind x f s = f a s'
  rw [EStateM.bind, h]

theorem bind_of_error {x : EStateM Stop σ α} {f : α → EStateM Stop σ γ} {e : Stop} {s s' : σ}
    (h : x s = .error e s') : (x >>= f) s = .error e s' := by
  show EStateM.bind x f s = .error e s'
  rw [EStateM.bind, h]

theorem ok_of_bind {x : EStateM Stop σ α} {f : α → EStateM Stop σ γ} {b : γ} {s s' : σ}
    (h : (x >>= f) s = .ok b s') : ∃ a s₁, x s = .ok a s₁ ∧ f a s₁ = .ok b s' := by
  cases hx : x s with
  | error e s₁ =>
    rw [bind_of_error hx] at h
    cases h
  | ok a s₁ =>
    rw [bind_of_ok hx] at h
    exact ⟨a, s₁, rfl, h⟩

/-! ### Families of effects -/

/-- `x` is `y` unless it is exhausted. -/
def Below (x y : EStateM Stop σ α) : Prop := ∀ s, Exhausted (x s) ∨ x s = y s

theorem Below.refl (x : EStateM Stop σ α) : Below x x := fun _ => .inr rfl

theorem Below.trans {x y z : EStateM Stop σ α} (h : Below x y) (h' : Below y z) : Below x z := by
  intro s
  rcases h s with h₁ | h₁
  · exact .inl h₁
  · rw [h₁]
    exact h' s

theorem Below.of_exhausted {x y : EStateM Stop σ α} (h : ∀ s, Exhausted (x s)) : Below x y :=
  fun s => .inl (h s)

theorem Below.bind {x y : EStateM Stop σ α} {f g : α → EStateM Stop σ γ} (h : Below x y)
    (hf : ∀ a, Below (f a) (g a)) : Below (x >>= f) (y >>= g) := by
  intro s
  rcases h s with ⟨s', h₁⟩ | h₁
  · exact .inl ⟨s', bind_of_error h₁⟩
  cases hx : x s with
  | error e s' =>
    refine .inr ?_
    rw [bind_of_error hx, bind_of_error (h₁ ▸ hx)]
  | ok a s' =>
    rw [bind_of_ok hx, bind_of_ok (h₁ ▸ hx)]
    exact hf a s'

/-- A family of effects by the limit on their steps. -/
structure Bounded (σ α : Type) where
  run : Nat → EStateM Stop σ α
  rises : ∀ n, Below (run n) (run (n + 1))

/-- The family has a result. -/
def Ends (run : Nat → EStateM Stop σ α) (s : σ) (r : Result Stop σ α) : Prop :=
  (∃ n, run n s = r) ∧ ¬ Exhausted r

/-- Every limit is used up. -/
def Diverges (run : Nat → EStateM Stop σ α) (s : σ) : Prop := ∀ n, Exhausted (run n s)

namespace Bounded

theorem below (A : Bounded σ α) {n n' : Nat} (h : n ≤ n') : Below (A.run n) (A.run n') := by
  induction h with
  | refl => exact Below.refl _
  | step _ ih => exact ih.trans (A.rises _)

/-- A result that is not exhausted stays at every higher limit. -/
theorem run_le (A : Bounded σ α) {n n' : Nat} (h : n ≤ n') {s : σ} {r : Result Stop σ α}
    (hr : A.run n s = r) (hf : ¬ Exhausted r) : A.run n' s = r := by
  rcases A.below h s with h₁ | h₁
  · exact absurd (hr ▸ h₁) hf
  · rw [← h₁, hr]

theorem ends_unique (A : Bounded σ α) {s : σ} {r r' : Result Stop σ α} (h : Ends A.run s r)
    (h' : Ends A.run s r') : r = r' := by
  obtain ⟨⟨n, hn⟩, hf⟩ := h
  obtain ⟨⟨n', hn'⟩, hf'⟩ := h'
  rw [← A.run_le (Nat.le_max_left n n') hn hf, A.run_le (Nat.le_max_right n n') hn' hf']

/-- What gives a value at some limit is given up at none. -/
theorem ne_abandoned_of_ok (A : Bounded σ α) {s t : σ} {n : Nat} {a : α}
    (h : A.run n s = .ok a t) (n' : Nat) (t' : σ) : A.run n' s ≠ .error .abandoned t' := by
  intro h'
  have hf : ¬ Exhausted (A.run n' s) := by
    rw [h', exhausted_error_iff]
    exact fun h => nomatch h
  have hmax := A.run_le (Nat.le_max_right n n') rfl hf
  rw [A.run_le (Nat.le_max_left n n') h not_exhausted_ok, h'] at hmax
  cases hmax

/-- An effect that takes no steps. -/
def of (x : EStateM Stop σ α) : Bounded σ α := ⟨fun _ => x, fun _ => Below.refl x⟩

instance : Monad (Bounded σ) where
  pure a := of (pure a)
  bind A F :=
    ⟨fun n => A.run n >>= fun a => (F a).run n, fun n => (A.rises n).bind fun a => (F a).rises n⟩

theorem of_bind_ok {x : EStateM Stop σ α} {F : α → Bounded σ γ} {a : α} {s s' : σ}
    (h : x s = .ok a s') (n : Nat) : (of x >>= F).run n s = (F a).run n s' :=
  bind_of_ok (f := fun a => (F a).run n) h

theorem of_bind_error {x : EStateM Stop σ α} {F : α → Bounded σ γ} {e : Stop} {s s' : σ}
    (h : x s = .error e s') (n : Nat) : (of x >>= F).run n s = .error e s' :=
  bind_of_error (f := fun a => (F a).run n) h

/-- The family with a step of its own before. -/
def later (A : Bounded σ α) : Bounded σ α where
  run
    | 0 => throw .exhausted
    | n + 1 => A.run n
  rises
    | 0 => Below.of_exhausted fun s => ⟨s, rfl⟩
    | n + 1 => A.rises n

theorem bind_run (A : Bounded σ α) (F : α → Bounded σ γ) (n : Nat) :
    (A >>= F).run n = A.run n >>= fun a => (F a).run n := rfl

/-- What comes after a normal end begins where that ended. -/
theorem ends_bind_of_ok {A : Bounded σ α} {F : α → Bounded σ γ} {a : α} {s t : σ}
    (h : Ends A.run s (.ok a t)) {r : Result Stop σ γ} :
    Ends (A >>= F).run s r ↔ Ends (F a).run t r := by
  obtain ⟨⟨n, hn⟩, -⟩ := h
  have hrun : ∀ k, (A >>= F).run (max n k) s = (F a).run (max n k) t := fun k =>
    bind_of_ok (f := fun a => (F a).run (max n k)) (A.run_le (Nat.le_max_left n k) hn not_exhausted_ok)
  constructor
  · rintro ⟨⟨k, hk⟩, hf⟩
    exact ⟨⟨max n k, (hrun k).symm.trans ((A >>= F).run_le (Nat.le_max_right n k) hk hf)⟩, hf⟩
  · rintro ⟨⟨k, hk⟩, hf⟩
    exact ⟨⟨max n k, (hrun k).trans ((F a).run_le (Nat.le_max_right n k) hk hf)⟩, hf⟩

/-- Nothing comes after a failure. -/
theorem ends_bind_of_error {A : Bounded σ α} {F : α → Bounded σ γ} {e : Stop} {s t : σ}
    (h : Ends A.run s (.error e t)) : Ends (A >>= F).run s (.error e t) := by
  obtain ⟨⟨n, hn⟩, hf⟩ := h
  refine ⟨⟨n, bind_of_error (f := fun a => (F a).run n) hn⟩, ?_⟩
  rwa [exhausted_error_iff] at hf ⊢

@[ext] theorem ext {A B : Bounded σ α} (h : ∀ n s, A.run n s = B.run n s) : A = B := by
  obtain ⟨f, _⟩ := A
  obtain ⟨g, _⟩ := B
  have hfg : f = g := funext fun n => funext fun s => h n s
  subst hfg
  rfl

theorem bind_pure (A : Bounded σ α) : A >>= pure = A := by
  ext n s
  rw [bind_run]
  cases h : A.run n s with
  | error e s' => rw [bind_of_error h]
  | ok a s' =>
    rw [bind_of_ok h]
    rfl

theorem bind_assoc (A : Bounded σ α) {δ : Type} (F : α → Bounded σ γ) (G : γ → Bounded σ δ) :
    A >>= F >>= G = A >>= fun a => F a >>= G :=
  ext fun n s => congrFun
    (LawfulMonad.bind_assoc (A.run n) (fun a => (F a).run n) fun b => (G b).run n) s

theorem pure_bind (a : α) (F : α → Bounded σ γ) : pure a >>= F = F a := rfl

end Bounded

/-! ### Results that another computation reaches -/

/-- On the view of a state, `A` has the result that `x` has on the state. -/
def Reached (view : τ → σ) (x : EStateM Stop τ α) (A : Bounded σ α) : Prop :=
  ∀ t, Exhausted (x t) ∨ ∃ N, A.run N (view t) = mapState view (x t)

/-- The result of `x` on the view of a state is one that `B` has on the state. -/
def Covered (view : τ → σ) (x : EStateM Stop σ α) (B : Bounded τ α) : Prop :=
  ∀ t, Exhausted (x (view t)) ∨ ∃ N, x (view t) = mapState view (B.run N t)

variable {view : τ → σ}

theorem mapState_id (r : Result Stop σ α) : mapState id r = r := by
  cases r <;> rfl

theorem Reached.bind {x : EStateM Stop τ α} {A : Bounded σ α} {f : α → EStateM Stop τ γ}
    {F : α → Bounded σ γ} (h : Reached view x A) (hf : ∀ a, Reached view (f a) (F a)) :
    Reached view (x >>= f) (A >>= F) := by
  intro t
  rcases h t with ⟨t', h₁⟩ | ⟨N, h₁⟩
  · exact .inl ⟨t', bind_of_error h₁⟩
  cases hx : x t with
  | error e t' =>
    rw [hx, mapState_error] at h₁
    refine .inr ⟨N, ?_⟩
    rw [bind_of_error hx, Bounded.bind_run, bind_of_error h₁, mapState_error]
  | ok a t' =>
    rw [hx, mapState_ok] at h₁
    rw [bind_of_ok hx]
    by_cases hfin : Exhausted (f a t')
    · exact .inl hfin
    obtain h₂ | ⟨M, h₂⟩ := hf a t'
    · exact absurd h₂ hfin
    refine .inr ⟨max N M, ?_⟩
    rw [Bounded.bind_run, bind_of_ok (A.run_le (Nat.le_max_left N M) h₁ not_exhausted_ok)]
    exact (F a).run_le (Nat.le_max_right N M) h₂ fun h₃ => hfin (exhausted_mapState_iff.mp h₃)

theorem Covered.bind {x : EStateM Stop σ α} {B : Bounded τ α} {f : α → EStateM Stop σ γ}
    {G : α → Bounded τ γ} (h : Covered view x B) (hf : ∀ a, Covered view (f a) (G a)) :
    Covered view (x >>= f) (B >>= G) := by
  intro t
  rcases h t with ⟨s', h₁⟩ | ⟨N, h₁⟩
  · exact .inl ⟨s', bind_of_error h₁⟩
  cases hB : B.run N t with
  | error e t' =>
    rw [hB, mapState_error] at h₁
    refine .inr ⟨N, ?_⟩
    rw [bind_of_error h₁, Bounded.bind_run, bind_of_error hB, mapState_error]
  | ok a t' =>
    rw [hB, mapState_ok] at h₁
    rw [bind_of_ok h₁]
    by_cases hfin : Exhausted (f a (view t'))
    · exact .inl hfin
    obtain h₂ | ⟨M, h₂⟩ := hf a t'
    · exact absurd h₂ hfin
    refine .inr ⟨max N M, ?_⟩
    rw [Bounded.bind_run, bind_of_ok (B.run_le (Nat.le_max_left N M) hB not_exhausted_ok), h₂]
    rw [h₂, exhausted_mapState_iff] at hfin
    rw [(G a).run_le (Nat.le_max_right N M) rfl hfin]

theorem Reached.of_view {x : EStateM Stop τ α} {A : Bounded σ α} {n : Nat}
    (h : ∀ t, A.run n (view t) = mapState view (x t)) : Reached view x A :=
  fun t => .inr ⟨n, h t⟩

theorem Covered.of_view {x : EStateM Stop σ α} {B : Bounded τ α} {n : Nat}
    (h : ∀ t, x (view t) = mapState view (B.run n t)) : Covered view x B :=
  fun t => .inr ⟨n, h t⟩

theorem Reached.of_exhausted {x : EStateM Stop τ α} {A : Bounded σ α}
    (h : ∀ t, Exhausted (x t)) : Reached view x A := fun t => .inl (h t)

theorem Covered.of_exhausted {x : EStateM Stop σ α} {B : Bounded τ α}
    (h : ∀ s, Exhausted (x s)) : Covered view x B := fun t => .inl (h (view t))

theorem Reached.of_id {x : EStateM Stop σ α} {A : Bounded σ α}
    (h : ∀ s, Exhausted (x s) ∨ ∃ N, A.run N s = x s) : Reached id x A := by
  intro s
  rw [mapState_id]
  exact h s

theorem Reached.of_below {x : EStateM Stop σ α} {A : Bounded σ α} {n : Nat}
    (h : Below x (A.run n)) : Reached id x A := by
  refine .of_id fun s => ?_
  rcases h s with h₁ | h₁
  · exact .inl h₁
  · exact .inr ⟨n, h₁.symm⟩

/-- What fewer steps reach is reached too. -/
theorem Reached.of_fewer {x y : EStateM Stop τ α} {A : Bounded σ α} (h : Below x y)
    (h' : Reached view y A) : Reached view x A := by
  intro t
  rcases h t with h₁ | h₁
  · exact .inl h₁
  · rw [h₁]
    exact h' t

/-- Fewer steps are covered too. -/
theorem Covered.of_below {x y : EStateM Stop σ α} {B : Bounded τ α} (h : Below x y)
    (h' : Covered view y B) : Covered view x B := by
  intro t
  rcases h (view t) with h₁ | h₁
  · exact .inl h₁
  · rw [h₁]
    exact h' t

/-! ### One computation follows another -/

/-- `A` has the results of `B`, and each of them at no lower limit. -/
structure Follows (A B : Bounded σ α) : Prop where
  below : ∀ n, Below (A.run n) (B.run n)
  reaches : ∀ n, Reached id (B.run n) A

/-- What `B` reaches is reached by what follows `B`. -/
theorem Reached.of_follows {x : EStateM Stop τ α} {A B : Bounded σ α} (h : Follows A B)
    (h' : Reached view x B) : Reached view x A := by
  intro t
  rcases h' t with h₁ | ⟨N, h₁⟩
  · exact .inl h₁
  rcases h.reaches N (view t) with h₂ | ⟨M, h₂⟩
  · exact .inl (exhausted_mapState_iff.mp (h₁ ▸ h₂))
  · exact .inr ⟨M, h₂.trans ((mapState_id _).trans h₁)⟩

/-- What `B` covers is covered by what follows `B`. -/
theorem Covered.of_follows {x : EStateM Stop σ α} {A B : Bounded τ α} (h : Follows A B)
    (h' : Covered view x B) : Covered view x A := by
  intro t
  rcases h' t with h₁ | ⟨N, h₁⟩
  · exact .inl h₁
  rcases h.reaches N t with h₂ | ⟨M, h₂⟩
  · exact .inl (by rwa [h₁, exhausted_mapState_iff])
  · rw [mapState_id] at h₂
    exact .inr ⟨M, by rw [h₁, ← h₂, id]⟩

theorem Bounded.later_follows (A : Bounded σ α) : Follows A.later A := by
  refine ⟨fun n => ?_, fun n => .of_id fun s => .inr ⟨n + 1, rfl⟩⟩
  cases n with
  | zero => exact .of_exhausted fun s => ⟨s, rfl⟩
  | succ n => exact A.rises n

namespace Follows

variable {A B C : Bounded σ α}

theorem refl (A : Bounded σ α) : Follows A A :=
  ⟨fun _ => Below.refl _, fun _ => .of_view fun _ => (mapState_id _).symm⟩

theorem trans (h : Follows A B) (h' : Follows B C) : Follows A C :=
  ⟨fun n => (h.below n).trans (h'.below n), fun n => (h'.reaches n).of_follows h⟩

theorem bind {F G : α → Bounded σ γ} (h : Follows A B) (hF : ∀ a, Follows (F a) (G a)) :
    Follows (A >>= F) (B >>= G) :=
  ⟨fun n => (h.below n).bind fun a => (hF a).below n,
    fun n => (h.reaches n).bind fun a => (hF a).reaches n⟩

theorem ends_iff (h : Follows A B) {s : σ} {r : Result Stop σ α} :
    Ends A.run s r ↔ Ends B.run s r := by
  constructor
  · rintro ⟨⟨n, hn⟩, hf⟩
    rcases h.below n s with h₁ | h₁
    · exact absurd (hn ▸ h₁) hf
    · exact ⟨⟨n, by rw [← h₁, hn]⟩, hf⟩
  · rintro ⟨⟨n, hn⟩, hf⟩
    rcases h.reaches n s with h₁ | ⟨N, h₁⟩
    · exact absurd (hn ▸ h₁) hf
    · exact ⟨⟨N, h₁.trans ((mapState_id _).trans hn)⟩, hf⟩

theorem diverges_iff (h : Follows A B) {s : σ} : Diverges A.run s ↔ Diverges B.run s := by
  constructor
  · intro hA n
    rcases h.reaches n s with h₁ | ⟨N, h₁⟩
    · exact h₁
    · rw [mapState_id] at h₁
      rw [← h₁]
      exact hA N
  · intro hB n
    rcases h.below n s with h₁ | h₁
    · exact h₁
    · rw [h₁]
      exact hB n

end Follows

/-! ### One computation tracks another on other states -/

/-- On the view of a state, `A` below limit `j` has a result of `B` on the state, and reaches what
`B` has below limit `k`. -/
structure Tracks (view : τ → σ) (j k : Nat) (A : Bounded σ α) (B : Bounded τ α) : Prop where
  below : ∀ n ≤ j, Covered view (A.run n) B
  reaches : ∀ n ≤ k, Reached view (B.run n) A

namespace Tracks

variable {j k : Nat} {A A' : Bounded σ α} {B : Bounded τ α}

theorem of_view {x : EStateM Stop σ α} {y : EStateM Stop τ α}
    (h : ∀ t, x (view t) = mapState view (y t)) : Tracks view j k (.of x) (.of y) :=
  ⟨fun n _ => .of_view (n := n) h, fun n _ => .of_view (n := n) h⟩

protected theorem pure (a : α) : Tracks view j k (pure a) (pure a) := of_view fun _ => rfl

theorem of_follows (h : Follows A A') (h' : Tracks view j k A' B) : Tracks view j k A B :=
  ⟨fun n hn => .of_below (h.below n) (h'.below n hn), fun n hn => (h'.reaches n hn).of_follows h⟩

theorem bind {F : α → Bounded σ γ} {G : α → Bounded τ γ} (h : Tracks view j k A B)
    (hF : ∀ a, Tracks view j k (F a) (G a)) : Tracks view j k (A >>= F) (B >>= G) :=
  ⟨fun n hn => (h.below n hn).bind fun a => (hF a).below n hn,
    fun n hn => (h.reaches n hn).bind fun a => (hF a).reaches n hn⟩

/-- A step before the first computation lets it track one step further. -/
theorem later_left (h : Tracks view j k A B) : Tracks view (j + 1) k A.later B := by
  refine ⟨fun n hn => ?_, (h.of_follows A.later_follows).reaches⟩
  cases n with
  | zero => exact .of_exhausted fun s => ⟨s, rfl⟩
  | succ n => exact h.below n (by omega)

/-- A step before the second computation lets it be reached one step further. -/
theorem later_right (h : Tracks view j k A B) : Tracks view j (k + 1) A B.later := by
  refine ⟨fun n hn => (h.below n hn).of_follows B.later_follows, fun n hn => ?_⟩
  cases n with
  | zero => exact .of_exhausted fun t => ⟨t, rfl⟩
  | succ n => exact h.reaches n (by omega)

theorem ends_iff (h : ∀ k, Tracks view k k A B) {t : τ} {r : Result Stop σ α} :
    Ends A.run (view t) r ↔ ∃ r', Ends B.run t r' ∧ r = mapState view r' := by
  constructor
  · rintro ⟨⟨n, rfl⟩, hf⟩
    obtain h₁ | ⟨N, h₁⟩ := (h n).below n (Nat.le_refl n) t
    · exact absurd h₁ hf
    · rw [h₁, exhausted_mapState_iff] at hf
      exact ⟨_, ⟨⟨N, rfl⟩, hf⟩, h₁⟩
  · rintro ⟨_, ⟨⟨n, rfl⟩, hf⟩, rfl⟩
    obtain h₁ | ⟨N, h₁⟩ := (h n).reaches n (Nat.le_refl n) t
    · exact absurd h₁ hf
    · exact ⟨⟨N, h₁⟩, fun h₂ => hf (exhausted_mapState_iff.mp h₂)⟩

theorem diverges_iff (h : ∀ k, Tracks view k k A B) {t : τ} :
    Diverges A.run (view t) ↔ Diverges B.run t := by
  constructor
  · intro hA n
    obtain h₁ | ⟨N, h₁⟩ := (h n).reaches n (Nat.le_refl n) t
    · exact h₁
    · have h₂ := hA N
      rw [h₁] at h₂
      exact exhausted_mapState_iff.mp h₂
  · intro hB n
    obtain h₁ | ⟨N, h₁⟩ := (h n).below n (Nat.le_refl n) t
    · exact h₁
    · rw [h₁, exhausted_mapState_iff]
      exact hB N

end Tracks

end StackScript
