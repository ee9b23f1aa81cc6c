import StackScript.Proofs.Compiled

/-!
# StackScript.Proofs.Outcome — what can be seen of a run

Two machines look alike if they differ in nothing but the stack, the recordings and the bodies of
functions: they have printed the same, and have the same globals, objects and classes.  `Shows` is
the result of a program in a state, as far as it can be seen; a program that has none diverges.
-/

namespace StackScript

open EStateM (Result)
open Machine

variable {β γ : Type}

/-- What can be seen of a machine: all but the stack, the recordings and the bodies. -/
def Machine.visible (m : Machine β) : Machine Unit :=
  { m with stack := [], recordings := [], heap := m.heap.mapBodies fun _ => () }

theorem Heap.mapBodies_mapBodies {δ : Type} (g : β → γ) (g' : γ → δ) (h : Heap β) :
    (h.mapBodies g).mapBodies g' = h.mapBodies fun b => g' (g b) := by
  unfold Heap.mapBodies
  simp only [Array.map_map]
  rfl

theorem View.visible_see [Body β] [Body γ] (v : View β γ) (m : Machine β) :
    (v.see m).visible = m.visible := by
  unfold Machine.visible
  rw [View.see_heap, Heap.mapBodies_mapBodies]
  rfl

/-! ### Results as far as they can be seen -/

/-- The runs of a program by the limit on their steps. -/
abbrev Runs (β : Type) := Nat → Effect β Unit

/-- The program ends, with a result that looks like this. -/
def Shows (p : Runs β) (s : Machine β) (r : Result Stop (Machine Unit) Unit) : Prop :=
  ∃ r', Ends p s r' ∧ mapState visible r' = r

/-- The results of a program look alike. -/
theorem shows_unique (A : Bounded (Machine β) Unit) {s : Machine β}
    {r r' : Result Stop (Machine Unit) Unit} (h : Shows A.run s r) (h' : Shows A.run s r') :
    r = r' := by
  obtain ⟨q, hq, rfl⟩ := h
  obtain ⟨q', hq', rfl⟩ := h'
  rw [A.ends_unique hq hq']

section
variable {δ : Type} {φ : Machine β → δ} {φ' : Machine γ → δ} {p : Runs β} {q : Runs γ}
  {s : Machine β} {t : Machine γ}

theorem exhausted_of_alike {r : Result Stop (Machine β) Unit} {r' : Result Stop (Machine γ) Unit}
    (h : mapState φ r = mapState φ' r') (he : Exhausted r) : Exhausted r' := by
  have hv : Exhausted (mapState φ r) := exhausted_mapState_iff.mpr he
  rw [h] at hv
  exact exhausted_mapState_iff.mp hv

/-- Programs whose results look alike at every limit end alike. -/
theorem ends_iff_of_alike (h : ∀ n, mapState φ (p n s) = mapState φ' (q n t))
    {r : Result Stop δ Unit} :
    (∃ r', Ends p s r' ∧ mapState φ r' = r) ↔ ∃ r', Ends q t r' ∧ mapState φ' r' = r := by
  constructor
  · rintro ⟨_, ⟨⟨n, rfl⟩, hf⟩, rfl⟩
    exact ⟨q n t, ⟨⟨n, rfl⟩, fun he => hf (exhausted_of_alike (h n).symm he)⟩, (h n).symm⟩
  · rintro ⟨_, ⟨⟨n, rfl⟩, hf⟩, rfl⟩
    exact ⟨p n s, ⟨⟨n, rfl⟩, fun he => hf (exhausted_of_alike (h n) he)⟩, h n⟩

theorem diverges_iff_of_alike (h : ∀ n, mapState φ (p n s) = mapState φ' (q n t)) :
    Diverges p s ↔ Diverges q t :=
  ⟨fun hd n => exhausted_of_alike (h n) (hd n), fun hd n => exhausted_of_alike (h n).symm (hd n)⟩

end

/-- Two programs on two machines have results that look alike, or none. -/
structure SameOutcome (p : Runs β) (s : Machine β) (q : Runs γ) (t : Machine γ) : Prop where
  shows_iff : ∀ r, Shows p s r ↔ Shows q t r
  diverges_iff : Diverges p s ↔ Diverges q t

namespace SameOutcome

variable {δ : Type} {p : Runs β} {q : Runs γ} {u : Runs δ} {s : Machine β}
  {t : Machine γ} {w : Machine δ}

theorem symm (h : SameOutcome p s q t) : SameOutcome q t p s :=
  ⟨fun r => (h.shows_iff r).symm, h.diverges_iff.symm⟩

theorem trans (h : SameOutcome p s q t) (h' : SameOutcome q t u w) : SameOutcome p s u w :=
  ⟨fun r => (h.shows_iff r).trans (h'.shows_iff r), h.diverges_iff.trans h'.diverges_iff⟩

/-- Programs whose results look alike at every limit. -/
theorem of_alike (h : ∀ n, mapState visible (p n s) = mapState visible (q n t)) :
    SameOutcome p s q t where
  shows_iff _ := ends_iff_of_alike h
  diverges_iff := diverges_iff_of_alike h

end SameOutcome

/-! ### Programs -/

/-- The run of code as a program. -/
def Machine.programOf (code : Code) : Bounded Machine Unit :=
  running .instructions code >>= fun flow => .of (finish flow)

/-- An execution of blocks as a program. -/
def executionProgram {basis : Nat → (Block → Effect Block Flow) → Basis Block} (h : Rising basis)
    (root : Block) : Bounded (Machine Block) Unit :=
  execution h root >>= fun flow => .of (finish flow)

/-- The code of a program tracks the execution of its tree by instructions. -/
theorem program_tracks (keeps : Bool) (marking : Marking) (root : Block) (k : Nat) :
    Tracks (compiled keeps marking).see k k
      (programOf ((root.mark marking).generate (discarding keeps)))
      (executionProgram (onStack_rising keeps marking) root) := by
  refine (root.generate_tracks keeps marking k).bind fun flow => .of_view fun t => ?_
  cases flow <;> rfl

/-- What is seen at the end of the code of a program is seen at the end of the execution of its
tree. -/
theorem program_ends_iff (keeps : Bool) (marking : Marking) (root : Block) (s : Machine Block)
    {δ : Type} {φ : Machine → δ} {φ' : Machine Block → δ}
    (hφ : ∀ t, φ ((compiled keeps marking).see t) = φ' t) {r : Result Stop δ Unit} :
    (∃ r', Ends (fun n => runFor n ((root.mark marking).generate (discarding keeps)))
        ((compiled keeps marking).see s) r' ∧ mapState φ r' = r) ↔
      ∃ r', Ends (executionProgram (onStack_rising keeps marking) root).run s r' ∧
        mapState φ' r' = r := by
  have h := program_tracks keeps marking root
  have hview : ∀ r : Result Stop (Machine Block) Unit,
      mapState φ (mapState (compiled keeps marking).see r) = mapState φ' r := by
    intro r
    cases r with
    | ok a t => exact congrArg (Result.ok a) (hφ t)
    | error e t => exact congrArg (Result.error e) (hφ t)
  constructor
  · rintro ⟨_, hr, rfl⟩
    obtain ⟨r', hr', rfl⟩ := (Tracks.ends_iff h).mp hr
    exact ⟨r', hr', (hview r').symm⟩
  · rintro ⟨r', hr', rfl⟩
    exact ⟨_, (Tracks.ends_iff h).mpr ⟨r', hr', rfl⟩, hview r'⟩

/-- The code of a program ends as the execution of its tree by instructions. -/
theorem program_outcome (keeps : Bool) (marking : Marking) (root : Block) (s : Machine Block) :
    SameOutcome (fun n => runFor n ((root.mark marking).generate (discarding keeps)))
      ((compiled keeps marking).see s)
      (executionProgram (onStack_rising keeps marking) root).run s where
  shows_iff _ := program_ends_iff keeps marking root s (View.visible_see _)
  diverges_iff := Tracks.diverges_iff (program_tracks keeps marking root)

end StackScript
