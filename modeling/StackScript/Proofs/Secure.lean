import StackScript.Proofs.Agreement
import StackScript.Proofs.Scoped

/-!
# StackScript.Proofs.Secure — effects that stop for no malformed code

`Secure P x Q` says that the effect `x` leads from states with `P` to states with `Q`, or stops, but
not for one of the faults that only malformed code makes.  Most operations of the machine touch
neither the local variables nor the bodies of functions; they are `Steady`.

A machine is `Ready k` if the slots below `k` are written and each function that has been made reads
no slot that is not.  Slots are never unwritten, so the functions stay as they are.
-/

namespace StackScript

open EStateM (Result)
open Machine

/-! ### Faults of malformed code -/

/-- The faults that no values of a program give: marks of recordings, skips, operands and slots that
do not fit.  (That a machine has no frame is not among them, since it has one at all times.) -/
def Fault.malformed : Fault → Bool
  | .jumpInCondition | .unclosedRecording | .unopenedRecording | .noRecording | .badSkip _
  | .unsupported _ | .needsInteger _ | .needsText _ | .badVariable _ | .badSlot _ | .unsetSlot _
  | .noFunction => true
  | .strayReturn | .strayNext | .strayLeave | .stackUnderflow | .missingParameter _
  | .undefinedVariable _ | .undefinedFunction _ | .undefinedClass _ | .undefinedParent _
  | .notNumber _ _ | .unordered _ _ | .badIndex _ | .cannotRead _ _ | .cannotAssign _ _
  | .noField _ _ | .noParent _ | .cannotCall _ _ | .noMethod _ _ | .noThis | .tooDeep _
  | .missingArguments _ | .badDescriptor _ | .badMember _ _ => false

/-- A stop that is no fault of malformed code. -/
def Stop.Sound (e : Stop) : Prop := ∀ f, e = .fault f → f.malformed = false

theorem Stop.sound_fault {f : Fault} (h : f.malformed = false) : (Stop.fault f).Sound := by
  intro f' hf
  cases hf
  exact h

theorem Stop.sound_exhausted : Stop.exhausted.Sound := fun _ h => nomatch h

theorem Stop.sound_crashed : Stop.crashed.Sound := fun _ h => nomatch h

/-! ### Secure effects -/

variable {σ α γ : Type}

/-- From states with `P` the effect leads to states with `Q`, or its stop is sound. -/
def Secure (P : σ → Prop) (x : EStateM Stop σ α) (Q : α → σ → Prop) : Prop :=
  ∀ s, P s → match x s with
    | .ok a s' => Q a s'
    | .error e _ => e.Sound

namespace Secure

variable {P P' : σ → Prop} {Q Q' : α → σ → Prop} {R : γ → σ → Prop} {x : EStateM Stop σ α}

theorem pure {a : α} (h : ∀ s, P s → Q a s) : Secure P (Pure.pure a) Q := h

theorem bind {f : α → EStateM Stop σ γ} (h : Secure P x Q) (hf : ∀ a, Secure (Q a) (f a) R) :
    Secure P (x >>= f) R := by
  intro s hs
  have hx := h s hs
  cases hr : x s with
  | ok a s' =>
    rw [hr] at hx
    rw [bind_of_ok hr]
    exact hf a s' hx
  | error e s' =>
    rw [hr] at hx
    rw [bind_of_error hr]
    exact hx

theorem weaken (h : Secure P x Q) (hp : ∀ s, P' s → P s) (hq : ∀ a s, Q a s → Q' a s) :
    Secure P' x Q' := by
  intro s hs
  have hx := h s (hp s hs)
  cases hr : x s with
  | ok a s' =>
    rw [hr] at hx
    exact hq a s' hx
  | error e s' =>
    rw [hr] at hx
    exact hx

theorem throw {e : Stop} (h : e.Sound) : Secure P (MonadExcept.throw e : EStateM Stop σ α) Q :=
  fun _ _ => h

/-- An effect that reads the state first. -/
theorem get {f : σ → EStateM Stop σ α} (h : ∀ s, P s → Secure (· = s) (f s) Q) :
    Secure P (MonadState.get >>= f) Q := fun s hs => h s hs s rfl

end Secure

variable {β : Type} {P : Machine β → Prop} {Q : α → Machine β → Prop}

theorem Secure.stopWith {f : Fault} (h : f.malformed = false) :
    Secure P (Machine.stopWith f : Effect β α) Q := .throw (Stop.sound_fault h)

theorem Secure.set {m : Machine β} {R : Unit → Machine β → Prop} (h : R () m) :
    Secure P (MonadStateOf.set m) R := fun _ _ => h

/-- The operation has a result with `R`, or a fault that values give. -/
def Gives (x : Except Fault α) (R : α → Prop) : Prop :=
  match x with
  | .ok a => R a
  | .error f => f.malformed = false

theorem Gives.map {x : Except Fault α} {R : α → Prop} {R' : γ → Prop} {g : α → γ}
    (h : Gives x R) (hg : ∀ a, R a → R' (g a)) : Gives (x.map g) R' := by
  cases x with
  | ok a => exact hg a h
  | error f => exact h

theorem Gives.ok {x : Except Fault α} {R : α → Prop} {a : α} (h : Gives x R) (hx : x = .ok a) :
    R a := by
  rw [hx] at h
  exact h

theorem Secure.ofResult {x : Except Fault α} {R : α → Prop} (h : Gives x R) :
    Secure P (Machine.ofResult x) fun a s => R a ∧ P s := by
  cases x with
  | ok a => exact .pure fun s hs => ⟨h, hs⟩
  | error f => exact .stopWith h

/-! ### Operations on values -/

/-- No fault of the operation comes from malformed code. -/
abbrev Always (x : Except Fault α) : Prop := Gives x fun _ => True

theorem Value.asNumber_gives (operation : String) (v : Value) : Always (v.asNumber operation) := by
  cases v with
  | number | boolean => trivial
  | _ => exact rfl

theorem onNumbers_gives (op : BinaryOp) (f : Float → Float → Float) (v w : Value) :
    Always (onNumbers op f v w) := by
  have hboth : Always (v.bothNumbers (Opcode.compute op).name w) := by
    have hv := v.asNumber_gives (Opcode.compute op).name
    have hw := w.asNumber_gives (Opcode.compute op).name
    unfold Value.bothNumbers
    cases hx : v.asNumber (Opcode.compute op).name with
    | error e =>
      rw [hx] at hv
      exact hv
    | ok x =>
      cases hy : w.asNumber (Opcode.compute op).name with
      | error e =>
        rw [hy] at hw
        exact hw
      | ok y => trivial
  exact hboth.map fun _ h => h

theorem onWords_gives (op : BinaryOp) (f : Int64 → Int64 → Int64) (v w : Value) :
    Always (onWords op f v w) := onNumbers_gives op _ v w

theorem onOrder_gives (f : Ordering → Bool) (v w : Value) : Always (onOrder f v w) := by
  unfold onOrder
  cases Heap.order? v w with
  | some o => trivial
  | none => exact rfl

namespace Heap

variable (h : Heap β)

theorem unary_gives (op : UnaryOp) (v : Value) : Always (h.unary op v) := by
  cases op with
  | not => trivial
  | _ => exact (v.asNumber_gives _).map fun _ h => h

theorem parentView_gives (objectId classId : Nat) : Always (h.parentView objectId classId) := by
  unfold parentView
  split
  · trivial
  · exact rfl

theorem field_gives (objectId : Nat) (name : String) : Always (h.field objectId name) := by
  unfold field
  dsimp only
  split
  · trivial
  · split
    · trivial
    · exact rfl

theorem combine_gives (op : BinaryOp) (v w : Value) : Always (h.combine op v w) := by
  cases op with
  | equal | notEqual | and | or => trivial
  | greater | greaterEqual | less | lessEqual => exact onOrder_gives _ v w
  | bitAnd | bitOr | bitXor | shiftLeft | shiftRight => exact onWords_gives _ _ v w
  | _ => exact onNumbers_gives _ _ v w

variable [Inhabited β]

/-- The functions and the classes are the same. -/
def SameMade (h h' : Heap β) : Prop := h'.functions = h.functions ∧ h'.classes = h.classes

theorem sum_gives (v w : Value) : Gives (h.sum v w) fun r => h.SameMade r.2 := by
  unfold sum
  split
  · exact ⟨rfl, rfl⟩
  · exact ⟨rfl, rfl⟩
  · exact ⟨rfl, rfl⟩
  · exact (onNumbers_gives _ _ v w).map fun _ _ => ⟨rfl, rfl⟩

theorem binary_gives (op : BinaryOp) (v w : Value) :
    Gives (h.binary op v w) fun r => h.SameMade r.2 := by
  have hcombine : Gives ((h.combine op v w).map (·, h)) fun r => h.SameMade r.2 :=
    (h.combine_gives op v w).map fun _ _ => ⟨rfl, rfl⟩
  cases op with
  | add => exact h.sum_gives v w
  | _ => exact hcombine

theorem index_gives (key : Value) (length : Nat) : Always (h.index key length) := by
  cases key with
  | number x =>
    unfold index
    dsimp only
    split
    · trivial
    · exact rfl
  | _ => exact rfl

theorem get_gives (container key : Value) : Always (h.get container key) := by
  unfold get
  split
  · split
    · trivial
    · exact (h.index_gives _ _).map fun _ h => h
  · split
    · trivial
    · exact (h.index_gives _ _).map fun _ h => h
  · trivial
  · exact h.parentView_gives _ _
  · exact h.parentView_gives _ _
  · exact h.field_gives _ _
  · exact h.field_gives _ _
  · exact rfl

theorem set_gives (container key v : Value) :
    Gives (h.set container key v) fun h' => h.SameMade h' := by
  unfold set
  split
  · rename_i id
    have hitem : Always (h.putItem (h.list id) key v) := by
      unfold putItem
      extract_lets atEnd
      cases atEnd with
      | true => trivial
      | false => exact (h.index_gives key _).map fun _ h => h
    exact hitem.map fun _ _ => ⟨rfl, rfl⟩
  · exact ⟨rfl, rfl⟩
  · exact ⟨rfl, rfl⟩
  · exact ⟨rfl, rfl⟩
  · exact rfl

end Heap

theorem Machine.readDescriptor_gives (m : Machine β) [Body β] (className : String)
    (entries : List (Value × Value)) : Always (m.readDescriptor className entries) := by
  fun_induction readDescriptor m className entries with
  | case1 => trivial
  | case2 parent rest hparent => exact rfl
  | case3 parent rest id hid ih => exact ih.map fun _ h => h
  | case4 name v rest ih => exact ih.map fun _ h => h
  | case5 => exact rfl

/-! ### Steady effects -/

/-- The local variables and the functions are these. -/
def Holds (locals : List Value) (functions : Array (Function Block)) (m : Machine Block) : Prop :=
  m.locals = locals ∧ m.heap.functions = functions

/-- The effect changes neither local variables nor functions, and its stops are sound. -/
def Steady (x : Effect Block α) : Prop :=
  ∀ locals functions, Secure (Holds locals functions) x fun _ => Holds locals functions

namespace Steady

theorem pure (a : α) : Steady (Pure.pure a) := fun _ _ => .pure fun _ h => h

theorem bind {x : Effect Block α} {f : α → Effect Block γ} (h : Steady x)
    (hf : ∀ a, Steady (f a)) : Steady (x >>= f) := fun ls fs => (h ls fs).bind fun a => hf a ls fs

theorem stopWith {f : Fault} (h : f.malformed = false) :
    Steady (Machine.stopWith f : Effect Block α) := fun _ _ => .stopWith h

theorem modify {t : Machine Block → Machine Block}
    (h : ∀ m, (t m).locals = m.locals ∧ (t m).heap.functions = m.heap.functions) :
    Steady (modify t : Effect Block Unit) := by
  intro ls fs m hm
  exact ⟨(h m).1.trans hm.1, (h m).2.trans hm.2⟩

theorem set {m t : Machine Block} (hl : t.locals = m.locals)
    (hf : t.heap.functions = m.heap.functions) (ls : List Value) (fs : Array (Function Block))
    (hm : Holds ls fs m) : Secure (· = m) (MonadStateOf.set t) fun _ => Holds ls fs :=
  .set ⟨hl.trans hm.1, hf.trans hm.2⟩

/-- An effect that reads the state first. -/
theorem get {f : Machine Block → Effect Block α}
    (h : ∀ m ls fs, Holds ls fs m → Secure (· = m) (f m) fun _ => Holds ls fs) :
    Steady (MonadState.get >>= f) := fun ls fs => .get fun m hm => h m ls fs hm

theorem push (v : Value) : Steady (Machine.push v) := .modify fun _ => ⟨rfl, rfl⟩

theorem constant (o : Option Operand) : Steady (Machine.constant o) := by
  unfold Machine.constant
  split
  · exact .pure _
  · exact fun _ _ => .throw Stop.sound_crashed

theorem take : Steady Machine.take := by
  refine .get fun m ls fs hm => ?_
  split
  · exact .stopWith rfl
  · exact (Steady.set rfl rfl ls fs hm).bind fun _ => .pure fun _ h => h

theorem takeMany (n : Nat) : Steady (Machine.takeMany n) := by
  induction n with
  | zero => exact .pure []
  | succ n ih => exact take.bind fun v => ih.bind fun vs => .pure (v :: vs)

theorem takePairs (n : Nat) (taken : List (Value × Value)) :
    Steady (Machine.takePairs n taken) := by
  induction n generalizing taken with
  | zero => exact .pure taken
  | succ n ih => exact take.bind fun v => take.bind fun k => ih _

theorem takeTruth : Steady Machine.takeTruth :=
  take.bind fun _ => .get fun _ _ _ hm => .pure fun _ he => he ▸ hm

theorem compute (op : BinaryOp) (v w : Value) : Steady (Machine.compute op v w) := by
  refine .get fun m ls fs hm => (Secure.ofResult (m.heap.binary_gives op v w)).bind fun r => ?_
  obtain ⟨result, heap⟩ := r
  rintro _ ⟨hr, rfl⟩
  exact ⟨hm.1, hr.1.trans hm.2⟩

theorem computePrefix (op : UnaryOp) (v : Value) : Steady (Machine.computePrefix op v) :=
  .get fun m _ _ hm =>
    (Secure.ofResult (m.heap.unary_gives op v)).weaken (fun _ h => h) fun _ _ h => h.2 ▸ hm

theorem newList (items : List Value) : Steady (Machine.newList items) :=
  .get fun _ ls fs hm => (Steady.set rfl rfl ls fs hm).bind fun _ => .pure fun _ h => h

theorem newMap (entries : List (Value × Value)) : Steady (Machine.newMap entries) :=
  .get fun _ ls fs hm => (Steady.set rfl rfl ls fs hm).bind fun _ => .pure fun _ h => h

theorem member (container key : Value) : Steady (Machine.member container key) :=
  .get fun m _ _ hm =>
    (Secure.ofResult (m.heap.get_gives container key)).weaken (fun _ h => h) fun _ _ h => h.2 ▸ hm

theorem writeMember (container key v : Value) : Steady (Machine.writeMember container key v) := by
  refine .get fun m ls fs hm =>
    (Secure.ofResult (m.heap.set_gives container key v)).bind fun heap => ?_
  rintro _ ⟨hr, rfl⟩
  exact ⟨hm.1, hr.1.trans hm.2⟩

theorem defineClass (name : String) (v : Value) : Steady (Machine.defineClass name v) := by
  cases v with
  | map id =>
    refine .get fun m ls fs hm =>
      (Secure.ofResult (m.readDescriptor_gives name (m.heap.map id))).bind fun r => ?_
    obtain ⟨parent, members⟩ := r
    rintro _ ⟨-, rfl⟩
    exact ⟨hm.1, hm.2⟩
  | _ => exact .stopWith rfl

theorem self : Steady Machine.self := by
  refine .get fun m ls fs hm => ?_
  split
  · exact .pure fun _ he => he ▸ hm
  · exact .stopWith rfl

theorem print (v : Value) : Steady (Machine.print v) := .modify fun _ => ⟨rfl, rfl⟩

theorem finish (flow : Flow) : Steady (Machine.finish flow) := by
  cases flow with
  | done => exact .pure ()
  | _ => exact .stopWith rfl

/-- Reading what is no local variable. -/
theorem read {place : Place} (h : ∀ id, place ≠ .slot id) : Steady (Machine.read place) := by
  refine .get fun m ls fs hm => ?_
  cases place with
  | slot id => exact absurd rfl (h id)
  | param index =>
    dsimp only
    split
    · exact .pure fun _ he => he ▸ hm
    · exact .stopWith rfl
  | global name =>
    dsimp only
    split
    · exact .pure fun _ he => he ▸ hm
    · exact .stopWith rfl

/-- Writing what is no local variable. -/
theorem write {place : Place} (h : ∀ id, place ≠ .slot id) (v : Value) :
    Steady (Machine.write place v) := by
  refine .get fun m ls fs hm => ?_
  cases place with
  | slot id => exact absurd rfl (h id)
  | param index =>
    dsimp only
    split
    · exact Steady.set rfl rfl ls fs hm
    · exact .stopWith rfl
  | global name => exact Steady.set rfl rfl ls fs hm

end Steady

/-! ### Machines that are ready -/

/-- The slots below `k` are written, and the functions read no others than written ones. -/
structure Ready (k : Nat) (m : Machine Block) : Prop where
  written : k ≤ m.locals.length
  functions : ∀ f ∈ m.heap.functions, f.body.Scoped m.locals.length

/-- The effect leaves slots written, and its stops are sound. -/
def Keeps (k k' : Nat) (x : Effect Block α) : Prop := Secure (Ready k) x fun _ => Ready k'

namespace Ready

variable {k k' : Nat} {m : Machine Block}

theorem mono (hk : k' ≤ k) (h : Ready k m) : Ready k' m := ⟨Nat.le_trans hk h.written, h.functions⟩

/-- Slots may be written beside. -/
theorem extend {t : Machine Block} (h : Ready k m) (hk : k' ≤ t.locals.length)
    (hl : m.locals.length ≤ t.locals.length) (hf : t.heap.functions = m.heap.functions) :
    Ready k' t :=
  ⟨hk, fun f hmem => f.body.scoped_mono hl (h.functions f (hf ▸ hmem))⟩

theorem function (h : Ready k m) (id : Nat) :
    (m.heap.function id).body.Scoped m.locals.length := by
  unfold Heap.function
  cases hf : m.heap.functions[id]? with
  | none => trivial
  | some f => exact h.functions f (Array.mem_of_getElem? hf)

end Ready

namespace Keeps

variable {k k' k'' : Nat}

theorem of_steady {x : Effect Block α} (h : Steady x) : Keeps k k x := by
  intro m hm
  have hx := h m.locals m.heap.functions m ⟨rfl, rfl⟩
  cases hr : x m with
  | ok a m' =>
    rw [hr] at hx
    exact hm.extend (hx.1 ▸ hm.written) (Nat.le_of_eq (congrArg _ hx.1.symm)) hx.2
  | error e m' =>
    rw [hr] at hx
    exact hx

theorem bind {x : Effect Block α} {f : α → Effect Block γ} (h : Keeps k k' x)
    (hf : ∀ a, Keeps k' k'' (f a)) : Keeps k k'' (x >>= f) := Secure.bind h hf

theorem pure (a : α) : Keeps k k (Pure.pure a) := .of_steady (.pure a)

/-- Less may be promised. -/
theorem weaken {x : Effect Block α} (h : Keeps k k' x) (hk : k'' ≤ k') : Keeps k k'' x :=
  Secure.weaken h (fun _ hm => hm) fun _ _ hm => hm.mono hk

end Keeps

/-! ### Variables -/

theorem length_putLocal (id : Nat) (v : Value) (locals : List Value) :
    (putLocal id v locals).length = max locals.length (id + 1) := by
  simp only [putLocal, List.length_set, List.length_append, List.length_replicate]
  omega

/-- The place of a local variable is its slot. -/
theorem placeFor_of_setBelow {k : Nat} {binding : Option Binding}
    (h : ∀ b ∈ binding, b.SetBelow k) (name : String) {id : Nat}
    (hp : placeFor name binding = .slot id) : id < k := by
  rcases binding with _ | ⟨slot⟩ | ⟨ordinal⟩ | _
  · cases hp
  · cases hp
    exact h _ rfl
  · cases ordinal with
    | zero => exact absurd (h _ rfl) (Nat.lt_irrefl 0)
    | succ n => cases hp
  · cases hp

theorem Machine.read_keeps_ready {k : Nat} {place : Place}
    (h : ∀ id, place = .slot id → id < k) : Keeps k k (Machine.read place) := by
  cases place with
  | slot id =>
    refine .get fun m hm => ?_
    have hlt : id < m.locals.length := Nat.lt_of_lt_of_le (h id rfl) hm.written
    dsimp only
    rw [List.getElem?_eq_getElem hlt]
    exact .pure fun _ he => he ▸ hm
  | param index => exact .of_steady (.read fun _ h => by cases h)
  | global name => exact .of_steady (.read fun _ h => by cases h)

/-- A written slot counts as written. -/
theorem Machine.write_slot_keeps_ready (k id : Nat) (v : Value) :
    Keeps k (max k (id + 1)) (Machine.write (.slot id) v) := by
  refine .get fun m hm => .set (hm.extend ?_ ?_ rfl)
  · rw [length_putLocal]
    have := hm.written
    omega
  · rw [length_putLocal]
    omega

theorem Machine.write_keeps_ready (k : Nat) (place : Place) (v : Value) :
    Keeps k k (Machine.write place v) := by
  cases place with
  | slot id => exact (write_slot_keeps_ready k id v).weaken (Nat.le_max_left _ _)
  | param index => exact .of_steady (.write (fun _ h => by cases h) v)
  | global name => exact .of_steady (.write (fun _ h => by cases h) v)

theorem Machine.clearSlot_keeps_ready (k slot : Nat) : Keeps k k (Machine.clearSlot slot) := by
  intro m hm
  have hlen : (m.locals.set slot .null).length = m.locals.length := List.length_set
  exact hm.extend (hlen ▸ hm.written) (Nat.le_of_eq hlen.symm) rfl

/-! ### Calls -/

variable {k : Nat}

/-- The bodies of functions keep what is written. -/
def BodiesKeep (run : Block → Effect Block Flow) : Prop :=
  ∀ k b, b.Scoped k → Keeps k k (run b)

/-- The machine is ready to call a function. -/
def Callable (k : Nat) (f : Function Block) (m : Machine Block) : Prop :=
  Ready k m ∧ f.body.Scoped m.locals.length

theorem Machine.functionNamed_secure (name : String) :
    Secure (Ready k) (functionNamed name) (Callable k) := by
  refine .get fun m hm => ?_
  split
  · rename_i id _
    rintro _ rfl
    exact ⟨hm, hm.function id⟩
  · exact .stopWith rfl

theorem Machine.methodOf_secure (key : String) (receiver : Value) :
    Secure (Ready k) (methodOf key receiver) fun r => Callable k r.1 := by
  refine .get fun m hm => ?_
  split
  · exact .stopWith rfl
  · split
    · rename_i id _
      rintro _ rfl
      exact ⟨hm, hm.function id⟩
    · exact .stopWith rfl

theorem Machine.makeObject_secure (name : String) :
    Secure (Ready k) (makeObject name) fun r m => Ready k m ∧ ∀ f ∈ r.2, Callable k f m := by
  refine .get fun m hm => ?_
  split
  · exact .stopWith rfl
  · rename_i classId _
    rintro _ rfl
    refine ⟨⟨hm.written, hm.functions⟩, fun f hf => ⟨⟨hm.written, hm.functions⟩, ?_⟩⟩
    obtain ⟨id, -, rfl⟩ := Option.map_eq_some_iff.mp hf
    exact hm.function id

theorem length_restore (saved : Saved) (locals : List Value) :
    (restore saved locals).length = locals.length := by
  unfold restore
  induction saved generalizing locals with
  | nil => rfl
  | cons s saved ih => exact (ih _).trans List.length_set

/-- What a body writes stays written after the call. -/
theorem Machine.calling_secure {run : Block → Effect Block Flow} (H : BodiesKeep run)
    (f : Function Block) (this : Option Nat) :
    Secure (Callable k f) (calling f this (run f.body)) fun _ => Ready k := by
  rintro m ⟨hm, hf⟩
  unfold calling
  by_cases hd : m.maxDepth ≤ m.callers.length
  · rw [if_pos hd]
    exact Stop.sound_fault rfl
  rw [if_neg hd]
  by_cases ha : m.stack.length < f.arity
  · rw [if_pos ha]
    exact Stop.sound_fault rfl
  rw [if_neg ha]
  have henter : Ready m.locals.length (m.enter f this) := ⟨Nat.le_refl _, hm.functions⟩
  have hbody := H m.locals.length f.body hf (m.enter f this) henter
  dsimp only
  cases hr : run f.body (m.enter f this) with
  | error e m' =>
    rw [hr] at hbody
    exact hbody
  | ok flow m' =>
    rw [hr] at hbody
    have hlen : (m'.leave (m.stack.length - f.arity) (m.save f)).locals.length =
        m'.locals.length := length_restore _ _
    exact hbody.extend (hlen ▸ Nat.le_trans hm.written hbody.written) (Nat.le_of_eq hlen.symm) rfl

theorem callingPut_secure {run : Block → Effect Block Flow} (H : BodiesKeep run)
    (f : Function Block) (this : Option Nat) (made : Option Value) :
    Secure (Callable k f) (callingPut run f this made) fun _ => Ready k :=
  (calling_secure H f this).bind fun _ => Keeps.of_steady (.push _)

/-! ### Functions that are made -/

theorem Ready.newFunction {m : Machine Block} (hm : Ready k m) {f : Function Block}
    (hf : f.body.Scoped k) :
    ∀ g ∈ (m.heap.newFunction f).2.functions, g.body.Scoped m.locals.length := by
  intro g hg
  rcases Array.mem_push.mp hg with hg | rfl
  · exact hm.functions g hg
  · exact g.body.scoped_mono hm.written hf

/-- The machine has made a function. -/
def Made (k : Nat) (m : Machine Block) : Prop := Ready k m ∧ m.lastFunction.isSome

/-- The recording that a function is made of is the one just kept. -/
theorem recorded_function_secure (run : Block → Effect Block Flow) {body : Block}
    (hb : body.Scoped k) (arity : Int) (name : String) :
    Secure (Ready k) (do
      keepRecording body
      actAll run [putConstant (.integer arity), Instruction.withName .makeFunction name])
      fun _ => Made k := by
  intro m hm
  exact ⟨⟨hm.written, hm.newFunction hb⟩, rfl⟩

theorem Made.push (v : Value) : Secure (Made k) (Machine.push v) fun _ => Made k :=
  fun _ hm => ⟨⟨hm.1.written, hm.1.functions⟩, hm.2⟩

/-- The function that was made is there. -/
theorem Machine.latestFunction_secure : Secure (Made k) latestFunction fun _ => Ready k := by
  refine .get fun m hm => ?_
  split
  · exact .pure fun _ he => he ▸ hm.1
  · rename_i hnone
    exact absurd hm.2 (by rw [hnone]; exact Bool.false_ne_true)

end StackScript
