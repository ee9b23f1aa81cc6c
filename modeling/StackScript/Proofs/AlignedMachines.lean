import StackScript.Proofs.Aligned
import StackScript.Proofs.Secure

/-!
# StackScript.Proofs.AlignedMachines — two machines that run aligned trees

Two machines are twins if they differ in nothing but their local variables and in the bodies of
functions, which are aligned.  Both are guises of one machine whose bodies are pairs of blocks, so
that whatever commutes with guises is in lockstep on twins.

While aligned trees run, twins are `Abreast`: each local variable in reach has the same value in
both.  Calls do not disturb this, since the body of a function assigns only slots that it declares,
and the call gives these their values back.
-/

namespace StackScript

open EStateM (Result)
open Instruction (withNumber withName plain)
open Machine

/-- The body of a function in two aligned trees. -/
structure Twin (keeps : Bool) where
  left : Block
  right : Block
  aligned : left.Aligned keeps [] right

namespace Twin

variable {keeps : Bool}

instance : Body (Twin keeps) where
  default := ⟨default, default, .mk .nil fun _ h => nomatch h⟩
  slots _ := []

/-- The machine of the left tree, with these local variables. -/
def onLeft (locals : List Value) : Guise (Twin keeps) Block where
  body := left
  slots f := Body.slots f.body.left
  stack := id
  locals _ := locals
  recordings := List.map left
  body_default := rfl
  slots_default := rfl
  slots_made _ _ _ := rfl

/-- The machine of the right tree, with these local variables. -/
def onRight (locals : List Value) : Guise (Twin keeps) Block where
  body := right
  slots f := Body.slots f.body.right
  stack := id
  locals _ := locals
  recordings := List.map right
  body_default := rfl
  slots_default := rfl
  slots_made _ _ _ := rfl

end Twin

/-- Machines that differ in their local variables and the bodies of functions only. -/
def Twins (keeps : Bool) (m t : Machine Block) : Prop :=
  ∃ u : Machine (Twin keeps), (Twin.onLeft m.locals).see u = m ∧ (Twin.onRight t.locals).see u = t

/-! ### Local variables -/

/-- A running body: the slots that it may assign, and the local variables when it began. -/
structure Activation where
  slots : List Nat
  start : List Value

/-- All other local variables that were set at the beginning are as they were. -/
structure Activation.Kept (z : Activation) (locals : List Value) : Prop where
  length : z.start.length ≤ locals.length
  get : ∀ i, i ∉ z.slots → i < z.start.length → locals[i]? = z.start[i]?

/-- A local variable that was written, and no other one that was set. -/
structure Writes (slot : Nat) (v : Value) (locals locals' : List Value) : Prop where
  length : locals.length ≤ locals'.length
  here : locals'[slot]? = some v
  other : ∀ i, i ≠ slot → i < locals.length → locals'[i]? = locals[i]?

theorem writes_putLocal (slot : Nat) (v : Value) (locals : List Value) :
    Writes slot v locals (putLocal slot v locals) := by
  have hlength := length_putLocal slot v locals
  refine ⟨by omega, ?_, fun i hi hlt => ?_⟩
  · rw [putLocal, List.getElem?_set_self]
    rw [putLocal, List.length_set] at hlength
    omega
  · rw [putLocal, List.getElem?_set_ne hi.symm, List.getElem?_append_left hlt]

theorem writes_set {slot : Nat} {locals : List Value} (h : slot < locals.length) (v : Value) :
    Writes slot v locals (locals.set slot v) :=
  ⟨Nat.le_of_eq List.length_set.symm, List.getElem?_set_self h,
    fun _ hi _ => List.getElem?_set_ne hi.symm⟩

theorem Activation.Kept.writes {z : Activation} {locals locals' : List Value} {slot : Nat}
    {v : Value} (h : z.Kept locals) (hw : Writes slot v locals locals') (hz : slot ∈ z.slots) :
    z.Kept locals' := by
  refine ⟨Nat.le_trans h.length hw.length, fun i hi hlt => ?_⟩
  rw [hw.other i (fun heq => hi (heq ▸ hz)) (Nat.lt_of_lt_of_le hlt h.length)]
  exact h.get i hi hlt

/-- Giving saved values back puts those of the slots in their place. -/
theorem getElem?_restore (start : List Value) (slots : List Nat) (locals : List Value) {i : Nat}
    (hi : i < start.length) (hlt : i < locals.length) :
    (restore (slots.map fun slot => (slot, start[slot]?)) locals)[i]? =
      if i ∈ slots then start[i]? else locals[i]? := by
  induction slots generalizing locals with
  | nil => rfl
  | cons slot slots ih =>
    show (restore _ (locals.set slot (start[slot]?.getD .null)))[i]? = _
    rw [ih _ (by rwa [List.length_set])]
    by_cases hmem : i ∈ slots
    · rw [if_pos hmem, if_pos (List.mem_cons_of_mem _ hmem)]
    rw [if_neg hmem]
    by_cases heq : i = slot
    · subst heq
      rw [if_pos List.mem_cons_self, List.getElem?_set_self hlt, List.getElem?_eq_getElem hi]
      rfl
    · rw [if_neg fun h => (List.mem_cons.mp h).elim heq hmem,
        List.getElem?_set_ne fun h => heq h.symm]

/-- After a call the local variables that were set before it are as they were. -/
theorem Activation.Kept.restore {slots : List Nat} {start locals : List Value}
    (h : Kept ⟨slots, start⟩ locals) {i : Nat} (hi : i < start.length) :
    (Machine.restore (slots.map fun slot => (slot, start[slot]?)) locals)[i]? = start[i]? := by
  rw [getElem?_restore start slots locals hi (Nat.lt_of_lt_of_le hi h.length)]
  by_cases hmem : i ∈ slots
  · rw [if_pos hmem]
  · rw [if_neg hmem]
    exact h.get i hmem hi

/-- A call does not disturb the activation of its caller. -/
theorem Activation.Kept.call {z : Activation} {slots : List Nat} {start locals : List Value}
    (h : z.Kept start) (hcall : Kept ⟨slots, start⟩ locals) :
    z.Kept (Machine.restore (slots.map fun slot => (slot, start[slot]?)) locals) := by
  refine ⟨?_, fun i hi hlt => ?_⟩
  · rw [length_restore]
    exact Nat.le_trans h.length hcall.length
  · rw [hcall.restore (Nat.lt_of_lt_of_le hlt h.length)]
    exact h.get i hi hlt

/-! ### Machines that run aligned trees -/

/-- Twins in two activations of aligned bodies, with the variables in reach. -/
structure Abreast (keeps : Bool) (ps : Pairs) (z z' : Activation) (m t : Machine Block) : Prop where
  twins : Twins keeps m t
  agree : ∀ p ∈ ps, ∃ v, m.locals[p.1]? = some v ∧ t.locals[p.2]? = some v
  kept : z.Kept m.locals
  kept' : z'.Kept t.locals

variable {keeps : Bool} {ps qs : Pairs} {z z' : Activation} {m t : Machine Block}
  {exempt : Stop → Prop}

/-- Twins whose local variables are replaced. -/
theorem Twins.withLocals (h : Twins keeps m t) (locals locals' : List Value) :
    Twins keeps { m with locals } { t with locals := locals' } := by
  obtain ⟨u, hm, ht⟩ := h
  refine ⟨u, ?_, ?_⟩
  · show (Twin.onLeft locals).see u = _
    rw [← hm]
    rfl
  · show (Twin.onRight locals').see u = _
    rw [← ht]
    rfl

theorem Abreast.subset (h : Abreast keeps qs z z' m t) (hq : ps ⊆ qs) : Abreast keeps ps z z' m t :=
  ⟨h.twins, fun p hp => h.agree p (hq hp), h.kept, h.kept'⟩

/-- A variable is written: one in reach, or one that comes in reach by it. -/
theorem Abreast.writes (h : Abreast keeps ps z z' m t) {a b : Nat} {v : Value}
    {locals locals' : List Value} (hw : Writes a v m.locals locals)
    (hw' : Writes b v t.locals locals') (ha : a ∈ z.slots) (hb : b ∈ z'.slots)
    (hq : ∀ q ∈ qs, q = (a, b) ∨ q ∈ ps ∧ q.1 ≠ a ∧ q.2 ≠ b) :
    Abreast keeps qs z z' { m with locals } { t with locals := locals' } := by
  refine ⟨h.twins.withLocals _ _, fun q hmem => ?_, h.kept.writes hw ha, h.kept'.writes hw' hb⟩
  rcases hq q hmem with rfl | ⟨hp, hne, hne'⟩
  · exact ⟨v, hw.here, hw'.here⟩
  · obtain ⟨w, hm, ht⟩ := h.agree q hp
    refine ⟨w, ?_, ?_⟩
    · exact (hw.other _ hne (List.getElem?_eq_some_iff.mp hm).1).trans hm
    · exact (hw'.other _ hne' (List.getElem?_eq_some_iff.mp ht).1).trans ht

/-- What commutes with guises on a machine of twin bodies is in lockstep on twins. -/
theorem lockstep_of_commutes {α α₁ α₂ : Type} {φ : α → α₁} {φ' : α → α₂} {x : Effect Block α₁}
    {x' : Effect Block α₂} {y : Effect (Twin keeps) α}
    (h : ∀ locals, Commutes φ (Twin.onLeft locals).see x y)
    (h' : ∀ locals, Commutes φ' (Twin.onRight locals).see x' y) :
    Lockstep exempt (Abreast keeps ps z z')
      (fun a m b t => (∃ c, a = φ c ∧ b = φ' c) ∧ Abreast keeps ps z z' m t) (Twins keeps) x x' := by
  rintro m t ⟨⟨u, hm, ht⟩, hagree, hkept, hkept'⟩
  have hx := h m.locals u
  have hx' := h' t.locals u
  rw [hm] at hx
  rw [ht] at hx'
  rw [hx, hx']
  cases y u with
  | ok c u' => exact .ok ⟨⟨c, rfl, rfl⟩, ⟨u', rfl, rfl⟩, hagree, hkept, hkept'⟩
  | error e u' => exact .error ⟨u', rfl, rfl⟩

/-- The same effect on both machines. -/
theorem both_of_commutes {α : Type} {x x' : Effect Block α} {y : Effect (Twin keeps) α}
    (h : ∀ locals, Commutes id (Twin.onLeft locals).see x y)
    (h' : ∀ locals, Commutes id (Twin.onRight locals).see x' y) :
    Lockstep exempt (Abreast keeps ps z z') (Both (Abreast keeps ps z z')) (Twins keeps) x x' := by
  refine (lockstep_of_commutes h h').weaken (fun _ _ h => h) ?_ fun _ _ h => h
  rintro _ m _ t ⟨⟨c, rfl, rfl⟩, h⟩
  exact ⟨rfl, h⟩

/-! ### Instructions -/

section
variable {a b : Nat}

theorem read_abreast (h : (a, b) ∈ ps) :
    Lockstep exempt (Abreast keeps ps z z') (Both (Abreast keeps ps z z')) (Twins keeps)
      (read (.slot a)) (read (.slot b)) := by
  intro m t hmt
  obtain ⟨v, hm, ht⟩ := hmt.agree _ h
  have hread : ∀ {slot : Nat} {m : Machine Block}, m.locals[slot]? = some v →
      (read (.slot slot) : Effect Block Value) m = .ok v m := by
    intro slot m hslot
    have hget : (get : Effect Block (Machine Block)) m = .ok m m := rfl
    unfold Machine.read
    rw [bind_of_ok hget]
    dsimp only
    rw [hslot]
    rfl
  rw [hread hm, hread ht]
  exact .ok ⟨rfl, hmt⟩

/-- A declaration brings the variable in reach. -/
theorem write_abreast (ha : a ∈ z.slots) (hb : b ∈ z'.slots)
    (hq : ∀ q ∈ qs, q = (a, b) ∨ q ∈ ps ∧ q.1 ≠ a ∧ q.2 ≠ b) (v : Value) :
    Lockstep exempt (Abreast keeps ps z z') (Both (Abreast keeps qs z z')) (Twins keeps)
      (write (.slot a) v) (write (.slot b) v) := fun _ _ h =>
  .ok ⟨rfl, h.writes (writes_putLocal a v _) (writes_putLocal b v _) ha hb hq⟩

theorem Pairs.Apart.others (hp : ps.Apart) (h : (a, b) ∈ ps) :
    ∀ q ∈ ps, q = (a, b) ∨ q ∈ ps ∧ q.1 ≠ a ∧ q.2 ≠ b := fun _ hq =>
  (hp.eq_or hq h).imp_right fun hne => ⟨hq, hne⟩

theorem clearSlot_abreast (hp : ps.Apart) (h : (a, b) ∈ ps) (ha : a ∈ z.slots)
    (hb : b ∈ z'.slots) :
    Lockstep exempt (Abreast keeps ps z z') (Both (Abreast keeps ps z z')) (Twins keeps)
      (clearSlot a) (clearSlot b) := by
  intro m t hmt
  obtain ⟨v, hm, ht⟩ := hmt.agree _ h
  exact .ok ⟨rfl, hmt.writes (writes_set (List.getElem?_eq_some_iff.mp hm).1 .null)
    (writes_set (List.getElem?_eq_some_iff.mp ht).1 .null) ha hb (hp.others h)⟩

theorem take_abreast : Lockstep exempt (Abreast keeps ps z z') (Both (Abreast keeps ps z z'))
    (Twins keeps) take take :=
  both_of_commutes (fun _ => Guise.take_commutes fun _ => rfl)
    fun _ => Guise.take_commutes fun _ => rfl

theorem push_abreast (v : Value) :
    Lockstep exempt (Abreast keeps ps z z') (Both (Abreast keeps ps z z')) (Twins keeps)
      (push v) (push v) :=
  both_of_commutes (fun _ => Guise.push_commutes (fun _ => rfl) v)
    fun _ => Guise.push_commutes (fun _ => rfl) v

/-- The activations may assign the variables in reach. -/
def Pairs.Within (ps : Pairs) (z z' : Activation) : Prop := ∀ p ∈ ps, p.1 ∈ z.slots ∧ p.2 ∈ z'.slots

/-- An instruction that addresses the same variable in both trees. -/
theorem perform_moved {o : Opcode} (ho : o.addresses = true) (hp : ps.Apart) (hz : ps.Within z z')
    (h : (a, b) ∈ ps) :
    Lockstep exempt (Abreast keeps ps z z') (Both (Abreast keeps ps z z')) (Twins keeps)
      (perform (withNumber o a)) (perform (withNumber o b)) := by
  obtain ⟨ha, hb⟩ := hz _ h
  have hupdate : ∀ op, Lockstep exempt (Abreast keeps ps z z') (Both (Abreast keeps ps z z'))
      (Twins keeps) (performUpdate op (some (.integer a))) (performUpdate op (some (.integer b))) := by
    intro op
    refine take_abreast.both_bind fun right => (read_abreast h).both_bind fun current => ?_
    refine (both_of_commutes (y := compute op current right)
      (fun _ => Guise.compute_commutes _ op current right)
      fun _ => Guise.compute_commutes _ op current right).both_bind fun v => ?_
    exact write_abreast ha hb (hp.others h) v
  cases o with
  | load => exact (read_abreast h).both_bind fun v => push_abreast v
  | store => exact take_abreast.both_bind fun v => write_abreast ha hb (hp.others h) v
  | clear => exact clearSlot_abreast hp h ha hb
  | addTo | subFrom | mulBy | divBy | modBy | powBy | bitAndWith | bitOrWith | bitXorWith
  | shiftLeftBy | shiftRightBy => exact hupdate _
  | _ => cases ho

end

/-! ### Calls -/

/-- Aligned bodies leave twins abreast. -/
def BodiesAbreast (exempt : Stop → Prop) (keeps : Bool) (run run' : Block → Effect Block Flow) :
    Prop :=
  ∀ (b : Twin keeps) (start start' : List Value),
    Lockstep exempt (Abreast keeps [] ⟨Body.slots b.left, start⟩ ⟨Body.slots b.right, start'⟩)
      (Both (Abreast keeps [] ⟨Body.slots b.left, start⟩ ⟨Body.slots b.right, start'⟩))
      (Twins keeps) (run b.left) (run' b.right)

variable {run run' : Block → Effect Block Flow}

/-- The end of a call on twins. -/
theorem Twins.leave (h : Twins keeps m t) (base : Nat) (saved saved' : Saved) :
    Twins keeps (m.leave base saved) (t.leave base saved') := by
  obtain ⟨u, hm, ht⟩ := h
  refine ⟨u.leave base [], ?_, ?_⟩
  · show (Twin.onLeft (restore saved m.locals)).see _ = _
    rw [← hm]
    rfl
  · show (Twin.onRight (restore saved' t.locals)).see _ = _
    rw [← ht]
    rfl

/-- A call leaves the local variables of the caller as they were. -/
theorem calling_abreast (H : BodiesAbreast exempt keeps run run') (f : Function (Twin keeps))
    (this : Option Nat) :
    Lockstep exempt (Abreast keeps ps z z') (Both (Abreast keeps ps z z')) (Twins keeps)
      (calling ((Twin.onLeft []).function f) this (run f.body.left))
      (calling ((Twin.onRight []).function f) this (run' f.body.right)) := by
  intro m t hmt
  obtain ⟨u, hm, ht⟩ := hmt.twins
  have hdepth : m.maxDepth ≤ m.callers.length ↔ t.maxDepth ≤ t.callers.length := by
    rw [← hm, ← ht]
    rfl
  have hstack : m.stack = t.stack := by
    rw [← hm, ← ht]
    rfl
  unfold calling
  by_cases hd : m.maxDepth ≤ m.callers.length
  · rw [if_pos hd, if_pos (hdepth.mp hd)]
    exact .error hmt.twins
  rw [if_neg hd, if_neg fun h => hd (hdepth.mpr h)]
  have harity : m.stack.length < ((Twin.onLeft []).function f).arity ↔
      t.stack.length < ((Twin.onRight []).function f).arity := by
    rw [hstack]
    exact Iff.rfl
  by_cases ha : m.stack.length < ((Twin.onLeft []).function f).arity
  · rw [if_pos ha, if_pos (harity.mp ha)]
    exact .error hmt.twins
  rw [if_neg ha, if_neg fun h => ha (harity.mpr h)]
  have henter : Abreast keeps [] ⟨Body.slots f.body.left, m.locals⟩
      ⟨Body.slots f.body.right, t.locals⟩ (m.enter ((Twin.onLeft []).function f) this)
      (t.enter ((Twin.onRight []).function f) this) := by
    refine ⟨⟨u.enter f this, ?_, ?_⟩, List.forall_mem_nil _, ⟨Nat.le_refl _, fun _ _ _ => rfl⟩,
      ⟨Nat.le_refl _, fun _ _ _ => rfl⟩⟩
    · show (Twin.onLeft m.locals).see _ = _
      rw [← hm]
      rfl
    · show (Twin.onRight t.locals).see _ = _
      rw [← ht]
      rfl
  have hbody := H f.body m.locals t.locals _ _ henter
  dsimp only
  generalize run f.body.left (m.enter ((Twin.onLeft []).function f) this) = r at hbody ⊢
  generalize run' f.body.right (t.enter ((Twin.onRight []).function f) this) = r' at hbody ⊢
  have hbase : m.stack.length - ((Twin.onLeft []).function f).arity =
      t.stack.length - ((Twin.onRight []).function f).arity := by
    rw [hstack]
    rfl
  rw [hbase]
  cases hbody with
  | exempt he => exact .exempt he
  | error he => exact .error (he.leave _ _ _)
  | ok hq =>
    obtain ⟨rfl, htwins, -, hkept, hkept'⟩ := hq
    refine .ok ⟨rfl, htwins.leave _ _ _, fun p hp => ?_, ?_, ?_⟩
    · obtain ⟨v, hv, hv'⟩ := hmt.agree p hp
      exact ⟨v, (hkept.restore (List.getElem?_eq_some_iff.mp hv).1).trans hv,
        (hkept'.restore (List.getElem?_eq_some_iff.mp hv').1).trans hv'⟩
    · exact hmt.kept.call hkept
    · exact hmt.kept'.call hkept'

end StackScript
