import StackScript.Proofs.Bounded

/-!
# StackScript.Proofs.Lockstep — two effects that end alike

`Lockstep exempt P Q E x y` says of states related by `P` that `x` and `y` end alike: both with
values, then related by `Q` with the states, or for the same reason, then with states related by
`E`.  Nothing is said where `x` stops for an exempt reason.  Effects that are put together of parts
in lockstep are in lockstep.

`Commutes φ view x y` says that `x` does on the view of every state what `y` does on the state.
-/

namespace StackScript

open EStateM (Result)

variable {σ τ α α' γ γ' : Type}

/-! ### Lockstep -/

/-- Two results that are alike, unless the first is exempt. -/
inductive Alike (exempt : Stop → Prop) (Q : α → σ → γ → τ → Prop) (E : σ → τ → Prop) :
    Result Stop σ α → Result Stop τ γ → Prop
  | exempt {e : Stop} {s : σ} {r : Result Stop τ γ} (h : exempt e) : Alike exempt Q E (.error e s) r
  | ok {a : α} {s : σ} {b : γ} {t : τ} (h : Q a s b t) : Alike exempt Q E (.ok a s) (.ok b t)
  | error {e : Stop} {s : σ} {t : τ} (h : E s t) : Alike exempt Q E (.error e s) (.error e t)

/-- Two effects that end alike on related states. -/
def Lockstep (exempt : Stop → Prop) (P : σ → τ → Prop) (Q : α → σ → γ → τ → Prop)
    (E : σ → τ → Prop) (x : EStateM Stop σ α) (y : EStateM Stop τ γ) : Prop :=
  ∀ s t, P s t → Alike exempt Q E (x s) (y t)

/-- The same value with related states. -/
def Both (P : σ → τ → Prop) (a : α) (s : σ) (b : α) (t : τ) : Prop := a = b ∧ P s t

namespace Lockstep

variable {exempt : Stop → Prop} {P P' : σ → τ → Prop} {Q Q' : α → σ → γ → τ → Prop}
  {E E' : σ → τ → Prop} {x : EStateM Stop σ α} {y : EStateM Stop τ γ}

theorem bind {R : α' → σ → γ' → τ → Prop} {f : α → EStateM Stop σ α'}
    {g : γ → EStateM Stop τ γ'} (h : Lockstep exempt P Q E x y)
    (hf : ∀ a b, Lockstep exempt (fun s t => Q a s b t) R E (f a) (g b)) :
    Lockstep exempt P R E (x >>= f) (y >>= g) := by
  intro s t hp
  have h' := h s t hp
  cases hx : x s with
  | error e s' =>
    rw [bind_of_error hx]
    rw [hx] at h'
    cases hy : y t with
    | error e' t' =>
      rw [bind_of_error hy]
      rw [hy] at h'
      cases h' with
      | exempt he => exact .exempt he
      | error he => exact .error he
    | ok b t' =>
      rw [hy] at h'
      cases h' with
      | exempt he => exact .exempt he
  | ok a s' =>
    rw [bind_of_ok hx]
    rw [hx] at h'
    cases hy : y t with
    | error e' t' =>
      rw [hy] at h'
      cases h'
    | ok b t' =>
      rw [bind_of_ok hy]
      rw [hy] at h'
      cases h' with
      | ok hq => exact hf a b s' t' hq

theorem pure {a : α} {b : γ} (h : ∀ s t, P s t → Q a s b t) :
    Lockstep exempt P Q E (pure a) (pure b) := fun s t hp => .ok (h s t hp)

theorem throw {e : Stop} (h : ∀ s t, P s t → E s t) :
    Lockstep exempt P Q E (throw e) (throw e) := fun s t hp => .error (h s t hp)

theorem of_exempt {e : Stop} (h : exempt e) : Lockstep exempt P Q E (MonadExcept.throw e) y :=
  fun _ _ _ => .exempt h

theorem weaken (h : Lockstep exempt P Q E x y) (hp : ∀ s t, P' s t → P s t)
    (hq : ∀ a s b t, Q a s b t → Q' a s b t) (he : ∀ s t, E s t → E' s t) :
    Lockstep exempt P' Q' E' x y := by
  intro s t h'
  have h₀ := h s t (hp s t h')
  generalize x s = r at h₀ ⊢
  generalize y t = r' at h₀ ⊢
  cases h₀ with
  | exempt h₁ => exact .exempt h₁
  | ok h₁ => exact .ok (hq _ _ _ _ h₁)
  | error h₁ => exact .error (he _ _ h₁)

/-- The first effect goes on with another value. -/
theorem map_left {R : α' → σ → γ → τ → Prop} {f : α → α'} (h : Lockstep exempt P Q E x y)
    (hf : ∀ a s b t, Q a s b t → R (f a) s b t) :
    Lockstep exempt P R E (x >>= fun a => Pure.pure (f a)) y := by
  have h' := h.bind (R := R) (g := Pure.pure) fun a b => .pure fun s t hq => hf a s b t hq
  rwa [bind_pure] at h'

/-- A change of the second state alone, before the rest. -/
theorem of_step {γ' : Type} {z : EStateM Stop τ γ'} {g : γ' → EStateM Stop τ γ} {b : γ'}
    (hz : ∀ s t, P s t → ∃ t', z t = .ok b t' ∧ P' s t')
    (h : Lockstep exempt P' Q E x (g b)) : Lockstep exempt P Q E x (z >>= g) := by
  intro s t hp
  obtain ⟨t', ht, hp'⟩ := hz s t hp
  rw [bind_of_ok ht]
  exact h s t' hp'

end Lockstep

/-- The reason is that the steps were used up. -/
def UsedUp (e : Stop) : Prop := e = .exhausted

/-- The reason is that the one who watches gave up. -/
def GivenUp (e : Stop) : Prop := e = .abandoned

/-- Below is in lockstep on equal states, except for the steps. -/
theorem below_iff_lockstep {x y : EStateM Stop σ α} :
    Below x y ↔ Lockstep UsedUp Eq (Both Eq) Eq x y := by
  constructor
  · rintro h s _ rfl
    rcases h s with ⟨s', h'⟩ | h'
    · rw [h']
      exact .exempt rfl
    · rw [h']
      cases y s with
      | ok a s' => exact .ok ⟨rfl, rfl⟩
      | error e s' => exact .error rfl
  · intro h s
    have h' := h s s rfl
    generalize x s = r at h'
    generalize y s = r' at h'
    cases h' with
    | exempt he =>
      cases he
      exact .inl ⟨_, rfl⟩
    | ok hq =>
      obtain ⟨rfl, rfl⟩ := hq
      exact .inr rfl
    | error he =>
      cases he
      exact .inr rfl

/-! ### Effects that commute with a view -/

/-- A result with another value and another state. -/
def mapResult (φ : α → α') (view : σ → τ) : Result Stop σ α → Result Stop τ α'
  | .ok a s => .ok (φ a) (view s)
  | .error e s => .error e (view s)

theorem mapResult_id (view : σ → τ) (r : Result Stop σ α) :
    mapResult id view r = mapState view r := by
  cases r <;> rfl

/-- On the view of a state, `x` does what `y` does on the state. -/
def Commutes (φ : α → α') (view : σ → τ) (x : EStateM Stop τ α') (y : EStateM Stop σ α) : Prop :=
  ∀ s, x (view s) = mapResult φ view (y s)

namespace Commutes

variable {φ : α → α'} {ψ : γ → γ'} {view : σ → τ}

theorem bind {x : EStateM Stop τ α'} {y : EStateM Stop σ α} {f : α' → EStateM Stop τ γ'}
    {g : α → EStateM Stop σ γ} (h : Commutes φ view x y)
    (hf : ∀ a, Commutes ψ view (f (φ a)) (g a)) : Commutes ψ view (x >>= f) (y >>= g) := by
  intro s
  have h' := h s
  cases hy : y s with
  | error e s' =>
    rw [hy] at h'
    rw [bind_of_error hy, bind_of_error h']
    rfl
  | ok a s' =>
    rw [hy] at h'
    rw [bind_of_ok hy, bind_of_ok h']
    exact hf a s'

theorem pure (a : α) : Commutes φ view (pure (φ a)) (pure a) := fun _ => rfl

theorem throw (e : Stop) : Commutes φ view (throw e) (throw e) := fun _ => rfl

theorem eq {x : EStateM Stop τ α} {y : EStateM Stop σ α} (h : Commutes id view x y) (s : σ) :
    x (view s) = mapState view (y s) := (h s).trans (mapResult_id view _)

end Commutes

end StackScript
