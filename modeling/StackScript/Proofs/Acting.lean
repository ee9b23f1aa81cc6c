import StackScript.Proofs.Marked

/-!
# StackScript.Proofs.Acting — instructions on machines with other bodies

The machine that runs code is a view of the one that runs blocks, with function bodies replaced by
their code.  An instruction that calls does the same on both if the bodies do.  In code it takes a
step of its own, so that it tracks one step further than the bodies, and an induction on the limit
goes through.
-/

namespace StackScript

open EStateM (Result)
open Instruction Code Machine

/-! ### Results that come with another value -/

section
variable {σ τ α α' γ : Type} {view : τ → σ} {φ : α → α'} {j k : Nat}

theorem Tracks.of_commutes {x : EStateM Stop σ α} {y : EStateM Stop τ α}
    (h : Commutes id view x y) : Tracks view j k (.of x) (.of y) := .of_view h.eq

theorem Tracks.bind_commutes {x : EStateM Stop σ α'} {y : EStateM Stop τ α}
    {F : α' → Bounded σ γ} {G : α → Bounded τ γ} (h : Commutes φ view x y)
    (hF : ∀ a, Tracks view j k (F (φ a)) (G a)) :
    Tracks view j k (.of x >>= F) (.of y >>= G) := by
  have herror : ∀ {t e t'}, y t = .error e t' → ∀ n, (Bounded.of x >>= F).run n (view t) =
      mapState view ((Bounded.of y >>= G).run n t) := by
    intro t e t' hy n
    have hx : x (view t) = .error e (view t') := by
      rw [h t, hy]
      rfl
    rw [Bounded.of_bind_error hx, Bounded.of_bind_error hy]
    rfl
  have hok : ∀ {t a t'}, y t = .ok a t' → x (view t) = .ok (φ a) (view t') := by
    intro t a t' hy
    rw [h t, hy]
    rfl
  refine ⟨fun n hn t => ?_, fun n hn t => ?_⟩
  · cases hy : y t with
    | error e t' => exact .inr ⟨n, herror hy n⟩
    | ok a t' =>
      rw [Bounded.of_bind_ok (hok hy)]
      rcases (hF a).below n hn t' with h' | ⟨N, h'⟩
      · exact .inl h'
      · exact .inr ⟨N, by rw [h', Bounded.of_bind_ok hy]⟩
  · cases hy : y t with
    | error e t' => exact .inr ⟨n, herror hy n⟩
    | ok a t' =>
      rw [Bounded.of_bind_ok hy]
      rcases (hF a).reaches n hn t' with h' | ⟨N, h'⟩
      · exact .inl h'
      · exact .inr ⟨N, by rw [Bounded.of_bind_ok (hok hy), h']⟩

end

/-! ### Calls -/

section
variable {β γ : Type}

/-- A call around the run of its body. -/
def callingFor (f : Function β) (this : Option Nat) (A : Bounded (Machine β) Flow) :
    Bounded (Machine β) Value :=
  ⟨fun n => calling f this (A.run n), fun n => calling_below f this (A.rises n)⟩

variable [Body β] [Body γ] {v : View β γ} (hs : ∀ st, v.stack st = st) {j k : Nat}

include hs

/-- What a call does when its body does the same in the state where it begins. -/
theorem calling_view {f : Function β} {this : Option Nat} {body : Effect γ Flow}
    {body' : Effect β Flow} (t : Machine β)
    (h : body (v.see (t.enter f this)) = mapState v.see (body' (t.enter f this))) :
    calling (f.mapBody v.body) this body (v.see t) = mapState v.see (calling f this body' t) := by
  have hstack : (v.see t).stack = t.stack := hs t.stack
  have henter : (v.see t).enter (f.mapBody v.body) this = v.see (t.enter f this) := by
    simp only [enter, View.see, hs]
    rfl
  have hleave : ∀ (m : Machine β) (base : Nat) (saved : Saved),
      (v.see m).leave base saved = v.see (m.leave base saved) := by
    intro m base saved
    simp only [Machine.leave, View.see, hs]
  unfold calling
  by_cases hd : t.maxDepth ≤ t.callers.length
  · have hd' : (v.see t).maxDepth ≤ (v.see t).callers.length := hd
    rw [if_pos hd, if_pos hd']
    rfl
  have hd' : ¬ (v.see t).maxDepth ≤ (v.see t).callers.length := hd
  rw [if_neg hd, if_neg hd', hstack]
  by_cases ha : t.stack.length < f.arity
  · have ha' : t.stack.length < (f.mapBody v.body).arity := ha
    rw [if_pos ha, if_pos ha']
    rfl
  have ha' : ¬ t.stack.length < (f.mapBody v.body).arity := ha
  rw [if_neg ha, if_neg ha', henter]
  simp only [h]
  cases body' (t.enter f this) with
  | ok flow m =>
    show Result.ok (valueOf flow) ((v.see m).leave _ _) = Result.ok (valueOf flow) (v.see _)
    rw [hleave]
    rfl
  | error e m =>
    show Result.error e ((v.see m).leave _ _) = Result.error e (v.see _)
    rw [hleave]
    rfl

omit hs [Body β] [Body γ] in
/-- A call that does not begin does not depend on its body. -/
theorem calling_refused {f : Function β} {this : Option Nat} {t : Machine β}
    (h : t.maxDepth ≤ t.callers.length ∨ t.stack.length < f.arity) (body body' : Effect β Flow) :
    calling f this body t = calling f this body' t := by
  unfold calling
  by_cases hd : t.maxDepth ≤ t.callers.length
  · rw [if_pos hd, if_pos hd]
  · have ha : t.stack.length < f.arity := h.resolve_left hd
    rw [if_neg hd, if_neg hd, if_pos ha, if_pos ha]

omit hs [Body β] [Body γ] in
theorem calling_exhausted {f : Function β} {this : Option Nat} {body : Effect β Flow}
    {t : Machine β} (hd : ¬ (t.maxDepth ≤ t.callers.length ∨ t.stack.length < f.arity))
    (h : Exhausted (body (t.enter f this))) : Exhausted (calling f this body t) := by
  obtain ⟨m, h⟩ := h
  unfold calling
  rw [if_neg fun h => hd (.inl h), if_neg fun h => hd (.inr h)]
  simp only [h]
  exact ⟨_, rfl⟩

theorem callingFor_tracks {A : Bounded (Machine γ) Flow} {B : Bounded (Machine β) Flow}
    (h : Tracks v.see j k A B) (f : Function β) (this : Option Nat) :
    Tracks v.see j k (callingFor (f.mapBody v.body) this A) (callingFor f this B) := by
  have hrefused : ∀ {t : Machine β} (n : Nat),
      t.maxDepth ≤ t.callers.length ∨ t.stack.length < f.arity →
      (callingFor (f.mapBody v.body) this A).run n (v.see t) =
        mapState v.see ((callingFor f this B).run n t) := by
    intro t n hg
    have hg' : (v.see t).maxDepth ≤ (v.see t).callers.length ∨
        (v.see t).stack.length < (f.mapBody v.body).arity := by
      rwa [show (v.see t).stack = t.stack from hs t.stack]
    exact (calling_refused hg' _ fun _ => mapState v.see (B.run n (t.enter f this))).trans
      (calling_view hs t rfl)
  refine ⟨fun n hn t => ?_, fun n hn t => ?_⟩
  · by_cases hg : t.maxDepth ≤ t.callers.length ∨ t.stack.length < f.arity
    · exact .inr ⟨n, hrefused n hg⟩
    rcases h.below n hn (t.enter f this) with h' | ⟨N, h'⟩
    · have hg' : ¬ ((v.see t).maxDepth ≤ (v.see t).callers.length ∨
          (v.see t).stack.length < (f.mapBody v.body).arity) := by
        rwa [show (v.see t).stack = t.stack from hs t.stack]
      refine .inl (calling_exhausted hg' ?_)
      rwa [show (v.see t).enter (f.mapBody v.body) this = v.see (t.enter f this) by
        simp only [enter, View.see, hs]; rfl]
    · exact .inr ⟨N, calling_view hs t h'⟩
  · by_cases hg : t.maxDepth ≤ t.callers.length ∨ t.stack.length < f.arity
    · exact .inr ⟨n, hrefused n hg⟩
    rcases h.reaches n hn (t.enter f this) with h' | ⟨N, h'⟩
    · exact .inl (calling_exhausted hg h')
    · exact .inr ⟨N, calling_view hs t h'⟩

end

/-! ### Instructions that act -/

variable {keeps : Bool} {marking : Marking}

/-- The machine that runs code, as a view of the one that runs blocks. -/
def compiled (keeps : Bool) (marking : Marking) : View Block Code where
  body b := (b.mark marking).code (discarding keeps) .slots
  stack := id
  recordings := List.map fun b => (b.mark marking).code (discarding keeps) .slots
  body_default := rfl
  body_slots b := congrArg ascending (b.freedSlots_code .slots)

/-- The effect of an instruction that leads to the next one, on the machine that runs blocks. -/
def effecting (keeps : Bool) (marking : Marking) (i : Instruction) :
    Bounded (Machine Block) Unit :=
  ⟨fun n => act (executing (onStack keeps marking) n) i,
    fun n => act_below (executing_rises (onStack_rising keeps marking) n) i⟩

/-- The effects of instructions that lead to the next one. -/
def effectingAll (keeps : Bool) (marking : Marking) (c : Code) : Bounded (Machine Block) Unit :=
  ⟨fun n => actAll (executing (onStack keeps marking) n) c,
    fun n => below_iff_lockstep.mpr (actAll_lockstep eq_tolerant (fun b =>
      below_iff_lockstep.mp (executing_rises (onStack_rising keeps marking) n b)) c)⟩

/-- The bodies of functions do up to a limit what their code does. -/
def BodiesTrack (keeps : Bool) (marking : Marking) (k : Nat) : Prop :=
  ∀ b : Block, Tracks (compiled keeps marking).see k k
    (running .slots ((compiled keeps marking).body b)) (b.structured keeps marking)

variable {k : Nat}

/-- What happens behind the preparation of an instruction. -/
def afterPrepare {β : Type} (bodies : β → Bounded (Machine β) Flow) :
    Option (Call β) → Bounded (Machine β) Unit
  | none => pure ()
  | some c => callingFor c.function c.this (bodies c.function.body) >>= fun v =>
    .of (push (c.made.getD v))

theorem acted_eq (i : Instruction) :
    acted i = (.of (prepare i) >>= afterPrepare fun c => running .slots c) := by
  ext n s
  show (prepare i >>= _) s = (prepare i >>= _) s
  refine congrFun (congrArg (prepare i >>= ·) (funext fun c => ?_)) s
  cases c <;> rfl

theorem effecting_eq (i : Instruction) :
    effecting keeps marking i =
      (.of (prepare i) >>= afterPrepare fun b => b.structured keeps marking) := by
  ext n s
  show (prepare i >>= _) s = (prepare i >>= _) s
  refine congrFun (congrArg (prepare i >>= ·) (funext fun c => ?_)) s
  cases c <;> rfl

/-- The step of an instruction tracks one step further than the bodies that it calls. -/
theorem acting_tracks (H : BodiesTrack keeps marking k) (i : Instruction) :
    Tracks (compiled keeps marking).see (k + 1) k (acting i) (effecting keeps marking i) := by
  have hs : ∀ st, (compiled keeps marking).stack st = st := fun _ => rfl
  refine Tracks.later_left ?_
  rw [acted_eq, effecting_eq]
  refine Tracks.bind_commutes (prepare_commutes hs (fun _ => rfl) i) fun c => ?_
  cases c with
  | none => exact .pure ()
  | some c =>
    exact (callingFor_tracks hs (H c.function.body) c.function c.this).bind fun v =>
      .of_commutes (push_commutes hs _)

theorem actingAll_tracks (H : BodiesTrack keeps marking k) (c : Code) :
    Tracks (compiled keeps marking).see (k + 1) k (actingAll c) (effectingAll keeps marking c) := by
  induction c with
  | nil => exact .pure ()
  | cons i c ih => exact (acting_tracks H i).bind fun _ => ih

/-- Code without jumps does the effects of its instructions. -/
theorem running_acts_tracks (H : BodiesTrack keeps marking k) (m : Measure) {c : Code}
    (h : Acts c) :
    Tracks (compiled keeps marking).see (k + 1) k (running m c)
      (effectingAll keeps marking c >>= fun _ => pure .done) :=
  ((actingAll_tracks H c).bind fun _ => .pure Flow.done).of_follows (running_acts h)

end StackScript
