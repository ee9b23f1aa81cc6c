import StackScript.Proofs.CallStack

/-!
# StackScript.Proofs.Upholding — what instructions do to variables

`Upholds S I x` says that the effect `x` keeps states with `I` however it ends, and that it stops
for reasons in `S` only.  A property of machines may be about nothing but variables, running calls
and classes, and its reasons may be all but that a variable is not defined (`OnClasses`).  Then an
instruction upholds it, up to the call that it asks for, if it does so where it reads, writes or
ends a variable or defines a class (`OnClasses.prepare`).  If calls do so too, any run does
(`KeepsRunning.runFrom`).
-/

namespace StackScript

open EStateM (Result)
open Instruction Code Machine

variable {σ α γ β : Type}

/-! ### Effects, however they end -/

/-- The state at the end, normal or not. -/
def endState : Result Stop σ α → σ
  | .ok _ s => s
  | .error _ s => s

/-- From states with `P` the effect leads to states with `Q`, or stops in states with `E`. -/
def Ensures (P : σ → Prop) (x : EStateM Stop σ α) (Q : α → σ → Prop) (E : Stop → σ → Prop) : Prop :=
  ∀ s, P s → match x s with
    | .ok a s' => Q a s'
    | .error e s' => E e s'

/-- The effect keeps states with `I`, and stops for reasons in `S` only. -/
def Upholds (S : Stop → Prop) (I : σ → Prop) (x : EStateM Stop σ α) : Prop :=
  Ensures I x (fun _ => I) fun e s => S e ∧ I s

namespace Ensures

variable {P P' : σ → Prop} {Q Q' : α → σ → Prop} {R : γ → σ → Prop} {E E' : Stop → σ → Prop}
  {x : EStateM Stop σ α}

theorem pure {a : α} (h : ∀ s, P s → Q a s) : Ensures P (Pure.pure a) Q E := h

theorem throw {e : Stop} (h : ∀ s, P s → E e s) :
    Ensures P (MonadExcept.throw e : EStateM Stop σ α) Q E := h

theorem bind {f : α → EStateM Stop σ γ} (h : Ensures P x Q E)
    (hf : ∀ a, Ensures (Q a) (f a) R E) : Ensures P (x >>= f) R E := by
  intro s hs
  have hx := h s hs
  cases hr : x s with
  | ok a s' =>
    rw [hr] at hx
    rw [bind_of_ok hr]
    exact hf a s' hx
  | error e s' =>
    rw [hr] at hx
    rw [bind_of_error hr]
    exact hx

theorem weaken (h : Ensures P x Q E) (hp : ∀ s, P' s → P s) (hq : ∀ a s, Q a s → Q' a s)
    (he : ∀ e s, E e s → E' e s) : Ensures P' x Q' E' := by
  intro s hs
  have hx := h s (hp s hs)
  cases hr : x s with
  | ok a s' =>
    rw [hr] at hx
    exact hq a s' hx
  | error e s' =>
    rw [hr] at hx
    exact he e s' hx

theorem and (h : Ensures P x Q E) (h' : Ensures P' x Q' E') :
    Ensures (fun s => P s ∧ P' s) x (fun a s => Q a s ∧ Q' a s) fun e s => E e s ∧ E' e s := by
  rintro s ⟨hp, hp'⟩
  have hx := h s hp
  have hx' := h' s hp'
  cases hr : x s with
  | ok a s' =>
    rw [hr] at hx hx'
    exact ⟨hx, hx'⟩
  | error e s' =>
    rw [hr] at hx hx'
    exact ⟨hx, hx'⟩

/-- An effect that reads the state first. -/
theorem get {f : σ → EStateM Stop σ α} (h : ∀ s, P s → Ensures (· = s) (f s) Q E) :
    Ensures P (MonadState.get >>= f) Q E := fun s hs => h s hs s rfl

theorem ok (h : Ensures P x Q E) {s s' : σ} {a : α} (hs : P s) (hr : x s = .ok a s') : Q a s' := by
  have hx := h s hs
  rwa [hr] at hx

/-- The state at the end, however the effect ends. -/
theorem endState {I : σ → Prop} (h : Ensures P x (fun _ => I) fun _ => I) {s : σ} (hs : P s) :
    I (endState (x s)) := by
  have hx := h s hs
  cases hr : x s with
  | ok a s' =>
    rw [hr] at hx
    exact hx
  | error e s' =>
    rw [hr] at hx
    exact hx

end Ensures

namespace Upholds

variable {S : Stop → Prop} {I : σ → Prop} {x : EStateM Stop σ α}

theorem pure (a : α) : Upholds S I (Pure.pure a) := Ensures.pure fun _ h => h

theorem throw {e : Stop} (h : S e) : Upholds S I (MonadExcept.throw e : EStateM Stop σ α) :=
  Ensures.throw fun _ hs => ⟨h, hs⟩

theorem bind {f : α → EStateM Stop σ γ} (h : Upholds S I x) (hf : ∀ a, Upholds S I (f a)) :
    Upholds S I (x >>= f) := Ensures.bind h hf

/-- The state is looked at only. -/
theorem still {s : σ} (h : Upholds S I x) (hs : I s) :
    Ensures (· = s) x (fun _ => I) fun e s => S e ∧ I s :=
  h.weaken (fun _ heq => heq ▸ hs) (fun _ _ h => h) fun _ _ h => h

theorem get {f : σ → EStateM Stop σ α}
    (h : ∀ s, I s → Ensures (· = s) (f s) (fun _ => I) fun e s => S e ∧ I s) :
    Upholds S I (MonadState.get >>= f) := Ensures.get h

/-- The state at the end, however the effect ends. -/
theorem endState (h : Upholds S I x) {s : σ} (hs : I s) : I (endState (x s)) :=
  Ensures.endState (h.weaken (fun _ h => h) (fun _ _ h => h) fun _ _ h => h.2) hs

end Upholds

/-! ### The fault of an undefined variable -/

/-- The fault is that a variable is not defined. -/
def Fault.isUndefined : Fault → Bool
  | .undefinedVariable _ => true
  | _ => false

/-- If the operation has a fault, it is not that of an undefined variable. -/
def Spares (x : Except Fault α) : Prop :=
  match x with
  | .ok _ => True
  | .error f => f.isUndefined = false

theorem Spares.map {x : Except Fault α} (h : Spares x) (g : α → γ) : Spares (x.map g) := by
  cases x with
  | ok a => trivial
  | error f => exact h

theorem Value.asNumber_spares (operation : String) (v : Value) :
    Spares (v.asNumber operation) := by
  cases v with
  | number | boolean => trivial
  | _ => exact rfl

theorem onNumbers_spares (op : BinaryOp) (f : Float → Float → Float) (v w : Value) :
    Spares (onNumbers op f v w) := by
  have hboth : Spares (v.bothNumbers (Opcode.compute op).name w) := by
    have hv := v.asNumber_spares (Opcode.compute op).name
    have hw := w.asNumber_spares (Opcode.compute op).name
    unfold Value.bothNumbers
    cases hx : v.asNumber (Opcode.compute op).name with
    | error e =>
      rw [hx] at hv
      exact hv
    | ok x =>
      cases hy : w.asNumber (Opcode.compute op).name with
      | error e =>
        rw [hy] at hw
        exact hw
      | ok y => trivial
  exact hboth.map _

theorem onWords_spares (op : BinaryOp) (f : Int64 → Int64 → Int64) (v w : Value) :
    Spares (onWords op f v w) := onNumbers_spares op _ v w

theorem onOrder_spares (f : Ordering → Bool) (v w : Value) : Spares (onOrder f v w) := by
  unfold onOrder
  cases Heap.order? v w with
  | some o => trivial
  | none => exact rfl

namespace Heap

variable (h : Heap β)

theorem unary_spares (op : UnaryOp) (v : Value) : Spares (h.unary op v) := by
  cases op with
  | not => trivial
  | _ => exact (v.asNumber_spares _).map _

theorem parentView_spares (objectId classId : Nat) : Spares (h.parentView objectId classId) := by
  unfold parentView
  split
  · trivial
  · exact rfl

theorem field_spares (objectId : Nat) (name : String) : Spares (h.field objectId name) := by
  unfold field
  dsimp only
  split
  · trivial
  · split
    · trivial
    · exact rfl

theorem combine_spares (op : BinaryOp) (v w : Value) : Spares (h.combine op v w) := by
  cases op with
  | equal | notEqual | and | or => trivial
  | greater | greaterEqual | less | lessEqual => exact onOrder_spares _ v w
  | bitAnd | bitOr | bitXor | shiftLeft | shiftRight => exact onWords_spares _ _ v w
  | _ => exact onNumbers_spares _ _ v w

variable [Inhabited β]

theorem binary_spares (op : BinaryOp) (v w : Value) : Spares (h.binary op v w) := by
  have hcombine : Spares ((h.combine op v w).map (·, h)) := (h.combine_spares op v w).map _
  cases op with
  | add =>
    show Spares (h.sum v w)
    unfold sum
    split
    · trivial
    · trivial
    · trivial
    · exact (onNumbers_spares _ _ v w).map _
  | _ => exact hcombine

theorem index_spares (key : Value) (length : Nat) : Spares (h.index key length) := by
  cases key with
  | number x =>
    unfold index
    dsimp only
    split
    · trivial
    · exact rfl
  | _ => exact rfl

theorem get_spares (container key : Value) : Spares (h.get container key) := by
  unfold get
  split
  · split
    · trivial
    · exact (h.index_spares _ _).map _
  · split
    · trivial
    · exact (h.index_spares _ _).map _
  · trivial
  · exact h.parentView_spares _ _
  · exact h.parentView_spares _ _
  · exact h.field_spares _ _
  · exact h.field_spares _ _
  · exact rfl

theorem set_spares (container key v : Value) : Spares (h.set container key v) := by
  unfold set
  split
  · rename_i id
    have hitem : Spares (h.putItem (h.list id) key v) := by
      unfold putItem
      extract_lets atEnd
      cases atEnd with
      | true => trivial
      | false => exact (h.index_spares key _).map _
    exact hitem.map _
  · trivial
  · trivial
  · trivial
  · exact rfl

end Heap

theorem Machine.readDescriptor_spares [Body β] (m : Machine β) (className : String)
    (entries : List (Value × Value)) : Spares (m.readDescriptor className entries) := by
  fun_induction readDescriptor m className entries with
  | case1 => trivial
  | case2 => exact rfl
  | case3 parent rest id hid ih => exact ih.map _
  | case4 name v rest ih => exact ih.map _
  | case5 => exact rfl

/-! ### Effects on the stack -/

namespace Machine

/-- The property says nothing of the stack, and the machine may break down and any fault come up, but
that a variable is not defined. -/
structure OffStack (S : Stop → Prop) (I : Machine β → Prop) : Prop where
  restack : ∀ {m : Machine β} (stack : List Value), I m → I { m with stack }
  fault : ∀ {f : Fault}, f.isUndefined = false → S (.fault f)
  crashed : S .crashed

namespace OffStack

variable {S : Stop → Prop} {I : Machine β → Prop} (h : OffStack S I)

include h

theorem stopWith {f : Fault} (hf : f.isUndefined = false) :
    Upholds S I (stopWith f : Effect β α) := .throw (h.fault hf)

theorem push (v : Value) : Upholds S I (push v : Effect β Unit) := fun _ hm => h.restack _ hm

theorem take : Upholds S I (take : Effect β Value) := by
  refine .get fun m hm => ?_
  split
  · exact (h.stopWith rfl).still hm
  · exact fun _ _ => h.restack _ hm

theorem takeMany (n : Nat) : Upholds S I (takeMany n : Effect β (List Value)) := by
  induction n with
  | zero => exact .pure []
  | succ n ih => exact h.take.bind fun v => ih.bind fun vs => .pure (v :: vs)

theorem takePairs (n : Nat) (taken : List (Value × Value)) :
    Upholds S I (takePairs n taken : Effect β (List (Value × Value))) := by
  induction n generalizing taken with
  | zero => exact .pure taken
  | succ n ih => exact h.take.bind fun v => h.take.bind fun k => ih _

theorem takeTruth : Upholds S I (takeTruth : Effect β Bool) :=
  h.take.bind fun _ => .get fun _ hm => (Upholds.pure _).still hm

theorem integerOf (i : Instruction) : Upholds S I (integerOf i : Effect β Int) := by
  unfold Machine.integerOf
  split
  · exact .pure _
  · exact h.stopWith rfl

theorem nameOf (i : Instruction) : Upholds S I (nameOf i : Effect β String) := by
  unfold Machine.nameOf
  split
  · exact .pure _
  · exact h.stopWith rfl

end OffStack

/-! ### Effects, variables and calls -/

/-- The variables, and the calls that are running. -/
def store (m : Machine β) : List Value × Names Value × CallFrame × List CallFrame × Nat :=
  (m.locals, m.globals, m.frame, m.callers, m.maxDepth)

/-- The property is one of the variables, the calls and the classes alone. -/
structure OnClasses (S : Stop → Prop) (I : Machine β → Prop) : Prop extends OffStack S I where
  carry : ∀ {m t : Machine β}, I m → t.store = m.store → t.classes = m.classes →
    t.heap.classes = m.heap.classes → I t
  restack _ h := carry h rfl rfl rfl

/-- The property is one of the variables and the calls alone. -/
structure OnStore (S : Stop → Prop) (I : Machine β → Prop) : Prop extends OnClasses S I where
  transfer : ∀ {m t : Machine β}, I m → t.store = m.store → I t
  carry h hs _ _ := transfer h hs
  restack _ h := transfer h rfl

/-- The property is one of the variables alone. -/
structure OnVariables (S : Stop → Prop) (I : Machine β → Prop) : Prop extends OnStore S I where
  congr : ∀ {m t : Machine β}, I m → t.locals = m.locals → t.globals = m.globals → I t
  transfer h hs := congr h (congrArg Prod.fst hs) (congrArg (fun s => s.2.1) hs)
  restack _ h := congr h rfl rfl

namespace OnClasses

variable {S : Stop → Prop} {I : Machine β → Prop} (h : OnClasses S I)

include h

theorem set {m t : Machine β} (hm : I m) (hs : t.store = m.store) (hn : t.classes = m.classes)
    (hc : t.heap.classes = m.heap.classes) :
    Ensures (· = m) (MonadStateOf.set t : Effect β Unit) (fun _ => I) fun e m => S e ∧ I m :=
  fun _ _ => h.carry hm hs hn hc

/-- An operation on the heap. -/
theorem ofResult {x : Except Fault γ} {f : γ → Effect β α} {m : Machine β} (hm : I m)
    (hx : Spares x)
    (hf : ∀ r, x = .ok r → Ensures (· = m) (f r) (fun _ => I) fun e m => S e ∧ I m) :
    Ensures (· = m) (Machine.ofResult x >>= f) (fun _ => I) fun e m => S e ∧ I m := by
  cases x with
  | ok r => exact hf r rfl
  | error e => exact (h.stopWith hx).still hm

theorem ofResult_still {x : Except Fault α} (hx : Spares x) :
    Upholds S I (Machine.ofResult x : Effect β α) := by
  cases x with
  | ok a => exact .pure a
  | error f => exact h.stopWith hx

theorem takeRecording : Upholds S I (takeRecording : Effect β β) := by
  refine .get fun m hm => ?_
  split
  · exact (h.stopWith rfl).still hm
  · exact Ensures.bind (h.set hm rfl rfl rfl) fun _ => Upholds.pure _

theorem constant (o : Option Operand) : Upholds S I (constant o : Effect β Value) := by
  unfold Machine.constant
  split
  · exact .pure _
  · exact .throw h.crashed

theorem latestFunction : Upholds S I (latestFunction : Effect β Value) := by
  refine .get fun m hm => Upholds.still ?_ hm
  split
  · exact .pure _
  · exact h.stopWith rfl

theorem self : Upholds S I (self : Effect β Value) := by
  refine .get fun m hm => Upholds.still ?_ hm
  split
  · exact .pure _
  · exact h.stopWith rfl

theorem newList (items : List Value) : Upholds S I (newList items : Effect β Value) :=
  .get fun _ hm => Ensures.bind (h.set hm rfl rfl rfl) fun _ => Upholds.pure _

theorem newMap (entries : List (Value × Value)) : Upholds S I (newMap entries : Effect β Value) :=
  .get fun _ hm => Ensures.bind (h.set hm rfl rfl rfl) fun _ => Upholds.pure _

theorem computePrefix (op : UnaryOp) (v : Value) :
    Upholds S I (computePrefix op v : Effect β Value) :=
  .get fun m hm => (h.ofResult_still (m.heap.unary_spares op v)).still hm

variable [Body β]

theorem print (v : Value) : Upholds S I (print v : Effect β Unit) :=
  fun _ hm => h.carry hm rfl rfl rfl

theorem compute (op : BinaryOp) (v w : Value) : Upholds S I (compute op v w : Effect β Value) := by
  refine .get fun m hm => h.ofResult hm (m.heap.binary_spares op v w) fun r hr => ?_
  obtain ⟨-, hclasses⟩ := (m.heap.binary_gives op v w).ok hr
  exact Ensures.bind (h.set hm rfl rfl hclasses) fun _ => Upholds.pure _

theorem member (container key : Value) : Upholds S I (member container key : Effect β Value) :=
  .get fun m hm => (h.ofResult_still (m.heap.get_spares container key)).still hm

theorem writeMember (container key v : Value) :
    Upholds S I (writeMember container key v : Effect β Unit) :=
  .get fun m hm => h.ofResult hm (m.heap.set_spares container key v) fun _ hr =>
    h.set hm rfl rfl ((m.heap.set_gives container key v).ok hr).2

theorem defineFunction (name : String) (arity : Nat) (body : β) :
    Upholds S I (defineFunction name arity body) := .get fun _ hm => h.set hm rfl rfl rfl

theorem makeFunction (name : String) : Upholds S I (makeFunction name : Effect β Unit) :=
  h.take.bind fun v => (h.ofResult_still (v.asNumber_spares _)).bind fun _ =>
    h.takeRecording.bind fun body => h.defineFunction name _ body

theorem functionNamed (name : String) : Upholds S I (functionNamed name : Effect β _) := by
  refine .get fun m hm => Upholds.still ?_ hm
  split
  · exact .pure _
  · exact h.stopWith rfl

theorem methodOf (key : String) (receiver : Value) :
    Upholds S I (methodOf key receiver : Effect β _) := by
  refine .get fun m hm => Upholds.still ?_ hm
  split
  · exact h.stopWith rfl
  · split
    · exact .pure _
    · exact h.stopWith rfl

theorem makeObject (name : String) : Upholds S I (makeObject name : Effect β _) := by
  refine .get fun m hm => ?_
  split
  · exact (h.stopWith rfl).still hm
  · exact Ensures.bind (h.set hm rfl rfl rfl) fun _ => Upholds.pure _

end OnClasses

/-! ### Instructions -/

/-- The place that an operand addresses. -/
def Place.ofOperand? : Option Operand → Option Place
  | some (.integer (.ofNat id)) => some (.slot id)
  | some (.integer (.negSucc index)) => some (.param index)
  | some (.text name) => some (.global name)
  | _ => none

/-- The place whose value an instruction reads. -/
def Place.readBy? (i : Instruction) : Option Place :=
  match i.opcode, i.operand with
  | .load, operand => ofOperand? operand
  | .loadParam, some (.integer n) => ofOperand? (some (.integer (-n)))
  | o, operand => if o.updated?.isSome then ofOperand? operand else none

/-- The place that an instruction writes. -/
def Place.writtenBy? (i : Instruction) : Option Place :=
  if i.opcode = .store ∨ i.opcode.updated?.isSome then ofOperand? i.operand else none

namespace OnClasses

variable {S : Stop → Prop} {I : Machine β → Prop} (h : OnClasses S I)

include h

/-- What is done with the place that an operand addresses. -/
theorem placeOf {o : Option Operand} {f : Place → Effect β α}
    (hf : ∀ place, Place.ofOperand? o = some place → Upholds S I (f place)) :
    Upholds S I (placeOf o >>= f) := by
  unfold Machine.placeOf
  split
  · exact hf _ rfl
  · exact hf _ rfl
  · exact hf _ rfl
  · exact .throw (h.fault rfl)

variable [Body β]

theorem performBinary (op : BinaryOp) : Upholds S I (performBinary op : Effect β Unit) :=
  h.take.bind fun right => h.take.bind fun left => (h.compute op left right).bind h.push

theorem performUpdate (op : BinaryOp) {o : Option Operand}
    (hread : ∀ place, Place.ofOperand? o = some place → Upholds S I (read place : Effect β Value))
    (hwrite : ∀ place v, Place.ofOperand? o = some place →
      Upholds S I (write place v : Effect β Unit)) :
    Upholds S I (performUpdate op o : Effect β Unit) :=
  h.take.bind fun right => h.placeOf fun place hplace => (hread place hplace).bind fun current =>
    (h.compute op current right).bind fun v => hwrite place v hplace

variable {i : Instruction}
  (hread : ∀ place, Place.readBy? i = some place → Upholds S I (read place : Effect β Value))
  (hwrite : ∀ place v, Place.writtenBy? i = some place →
    Upholds S I (write place v : Effect β Unit))
  (hclear : ∀ slot : Nat, i = withNumber .clear slot → Upholds S I (clearSlot slot : Effect β Unit))
  (hclass : ∀ name v, Upholds S I (defineClass name v : Effect β Unit))

include hread hwrite hclear hclass

/-- An instruction that neither jumps nor calls. -/
theorem perform : Upholds S I (perform i : Effect β Unit) := by
  obtain ⟨o, operand⟩ := i
  unfold Machine.perform
  split <;> rename_i ho <;> try (change o = _ at ho; subst ho)
  · exact (h.constant operand).bind h.push
  · exact h.take.bind fun _ => .pure _
  · exact h.placeOf fun place hplace => (hread place hplace).bind h.push
  · rcases operand with _ | operand
    · exact h.stopWith rfl
    cases operand with
    | integer n =>
      exact h.placeOf (o := some (.integer (-n))) fun place hplace =>
        (hread place hplace).bind h.push
    | _ => exact h.stopWith rfl
  · exact h.take.bind fun v => h.placeOf fun place hplace => hwrite place v hplace
  · rcases operand with _ | operand
    · exact h.stopWith rfl
    cases operand with
    | integer n =>
      cases n with
      | ofNat slot => exact hclear slot rfl
      | negSucc n => exact h.stopWith rfl
    | _ => exact h.stopWith rfl
  · exact h.take.bind fun v => (h.computePrefix _ v).bind h.push
  · exact h.take.bind fun v => (h.computePrefix _ v).bind h.push
  · exact h.take.bind fun v => (h.computePrefix _ v).bind h.push
  · exact (h.integerOf _).bind fun n => (h.takeMany _).bind fun items =>
      (h.newList items).bind h.push
  · exact (h.integerOf _).bind fun n => (h.takePairs _ _).bind fun entries =>
      (h.newMap entries).bind h.push
  · exact h.take.bind fun key => h.take.bind fun container => (h.member container key).bind h.push
  · exact h.take.bind fun v => h.take.bind fun key => h.take.bind fun container =>
      (h.writeMember container key v).bind fun _ => h.push container
  · exact (h.nameOf _).bind h.makeFunction
  · exact (h.nameOf _).bind fun name => h.take.bind (hclass name)
  · exact h.latestFunction.bind h.push
  · exact h.self.bind h.push
  · split
    · exact h.performBinary _
    · rename_i op _ hupdate
      have hsome : o.updated?.isSome = true := hupdate ▸ rfl
      refine h.performUpdate op (fun place hplace => hread place ?_) fun place v hplace =>
        hwrite place v ?_
      · clear hread hwrite hclear hclass hsome
        revert hupdate hplace
        cases o <;> first | exact fun _ h => h | exact fun h => nomatch h
      · exact (if_pos (.inr hsome)).trans hplace
    · exact h.stopWith rfl

/-- An instruction up to the call that it asks for. -/
theorem prepare : Upholds S I (prepare i : Effect β (Option (Call β))) := by
  unfold Machine.prepare
  split
  · split
    · exact h.take.bind fun v => (h.print v).bind fun _ => .pure _
    · exact (h.nameOf i).bind fun name => (h.functionNamed name).bind fun f => .pure _
  · exact (h.nameOf i).bind fun key => h.take.bind fun object => (h.methodOf key object).bind
      fun r => .pure _
  · refine (h.nameOf i).bind fun name => (h.makeObject name).bind fun made => ?_
    obtain ⟨this, init⟩ := made
    cases init with
    | some f => exact .pure _
    | none => exact (h.push _).bind fun _ => .pure _
  · exact (h.perform hread hwrite hclear hclass).bind fun _ => .pure _

omit hread hwrite hclear hclass [Body β] in
/-- A place can be read if it is no global, or one that is defined. -/
theorem read {place : Place} (hglobal : ∀ name, place = .global name →
    ∀ m, I m → S (.fault (.undefinedVariable name)) ∨ ∃ v, m.named? name = some v) :
    Upholds S I (read place : Effect β Value) := by
  refine .get fun m hm => Upholds.still ?_ hm
  cases place with
  | slot id =>
    dsimp only
    split
    · exact .pure _
    · exact h.stopWith rfl
  | param index =>
    dsimp only
    split
    · exact .pure _
    · exact h.stopWith rfl
  | global name =>
    dsimp only
    split
    · exact .pure _
    · rename_i hnone
      rcases hglobal name rfl m hm with hs | ⟨v, hv⟩
      · exact .throw hs
      · rw [hnone] at hv
        cases hv

end OnClasses

namespace OnStore

variable [Body β] {S : Stop → Prop} {I : Machine β → Prop} (h : OnStore S I)

include h

theorem defineClass (name : String) (v : Value) :
    Upholds S I (defineClass name v : Effect β Unit) := by
  cases v with
  | map id =>
    exact .get fun m hm => h.ofResult hm (m.readDescriptor_spares name _) fun _ _ =>
      fun _ _ => h.transfer hm rfl
  | _ => exact h.stopWith rfl

/-- An instruction up to the call that it asks for. -/
theorem prepare {i : Instruction}
    (hread : ∀ place, Place.readBy? i = some place → Upholds S I (read place : Effect β Value))
    (hwrite : ∀ place v, Place.writtenBy? i = some place →
      Upholds S I (write place v : Effect β Unit))
    (hclear : ∀ slot : Nat, i = withNumber .clear slot →
      Upholds S I (clearSlot slot : Effect β Unit)) :
    Upholds S I (prepare i : Effect β (Option (Call β))) :=
  h.toOnClasses.prepare hread hwrite hclear h.defineClass

end OnStore

/-! ### Calls -/

/-- A call that is made leads from the begin of its body to the state behind it. -/
theorem calling_ensures {f : Function β} {this : Option Nat} {body : Effect β Flow}
    {P : Machine β → Prop} {Q : Value → Machine β → Prop} {E : Stop → Machine β → Prop}
    (hrefused : ∀ fault m, fault.isUndefined = false → P m → E (.fault fault) m)
    (hbody : ∀ m, P m → Ensures (· = m.enter f this) body
      (fun flow t => Q (valueOf flow) (t.leave (m.stack.length - f.arity) (m.save f)))
      fun e t => E e (t.leave (m.stack.length - f.arity) (m.save f))) :
    Ensures P (calling f this body) Q E := by
  intro m hm
  unfold Machine.calling
  by_cases hd : m.maxDepth ≤ m.callers.length
  · rw [if_pos hd]
    exact hrefused _ m rfl hm
  by_cases ha : m.stack.length < f.arity
  · rw [if_neg hd, if_pos ha]
    exact hrefused _ m rfl hm
  rw [if_neg hd, if_neg ha]
  have hrun := hbody m hm (m.enter f this) rfl
  dsimp only
  cases hr : body (m.enter f this) with
  | ok flow t =>
    rw [hr] at hrun
    exact hrun
  | error e t =>
    rw [hr] at hrun
    exact hrun

/-! ### Runs -/

theorem OffStack.skipFrom {S : Stop → Prop} {I : Machine → Prop} (h : OffStack S I)
    (measure : Measure) (code : Code) (pc : Nat) (i : Instruction) :
    Upholds S I (skipFrom measure code pc i) := by
  refine (h.integerOf i).bind fun offset => ?_
  split
  · exact .pure _
  · exact h.stopWith rfl

/-- The rounds of a loop. -/
theorem OffStack.rounds {S : Stop → Prop} {I : Machine → Prop} (h : OffStack S I)
    (hexhausted : S .exhausted) {condition body : Exec Flow} (hc : Upholds S I condition)
    (hb : Upholds S I body) (n : Nat) :
    Upholds S I (rounds condition body n) := by
  induction n with
  | zero => exact .throw hexhausted
  | succ n ih =>
    refine hc.bind fun flow => ?_
    cases flow with
    | done =>
      refine h.takeTruth.bind fun t => ?_
      cases t with
      | false => exact .pure _
      | true =>
        refine hb.bind fun flow => ?_
        cases flow with
        | done => exact ih
        | next => exact ih
        | leave => exact .pure _
        | gaveBack v => exact .pure _
    | gaveBack v => exact .pure _
    | next => exact h.stopWith rfl
    | leave => exact h.stopWith rfl

/-- One instruction, if it does so too where it keeps or takes recordings. -/
theorem OffStack.advance {S : Stop → Prop} {I : Machine → Prop} (h : OffStack S I)
    {run : Code → Exec Flow} {limit : Nat} {measure : Measure} {code : Code} {pc : Nat} {i : Instruction}
    (hrecord : i.opcode = .record → Upholds S I (advance run limit measure code pc i))
    (hloop : i.opcode = .loop → Upholds S I (advance run limit measure code pc i))
    (hact : Upholds S I (act run i)) : Upholds S I (advance run limit measure code pc i) := by
  have hskip := (h.skipFrom measure code pc i).bind fun target => .pure (Move.to target)
  by_cases ho : i.opcode = .record
  · exact hrecord ho
  by_cases ho' : i.opcode = .loop
  · exact hloop ho'
  unfold Machine.advance
  split
  · contradiction
  · exact h.stopWith rfl
  · exact hskip
  · refine h.takeTruth.bind fun t => ?_
    cases t with
    | true => exact hskip
    | false => exact .pure _
  · refine h.takeTruth.bind fun t => ?_
    cases t with
    | true => exact .pure _
    | false => exact hskip
  · contradiction
  · exact .pure _
  · exact .pure _
  · exact h.take.bind fun v => .pure _
  · exact hact.bind fun _ => .pure _

/-- What an instruction does up to a call keeps the properties, and so does a call whose body keeps
them all. -/
structure KeepsRunning {ι : Type} (S : Stop → Prop) (I : ι → Machine → Prop) : Prop where
  onClasses : ∀ z, OnClasses S (I z)
  exhausted : S .exhausted
  prepare : ∀ z i, Upholds S (I z) (prepare i : Exec (Option (Call Code)))
  calling : ∀ z (f : Function) (this : Option Nat) {body : Exec Flow},
    (∀ z, Upholds S (I z) body) → Upholds S (I z) (calling f this body)

namespace KeepsRunning

variable {ι : Type} {S : Stop → Prop} {I : ι → Machine → Prop} (h : KeepsRunning S I)
  {run : Code → Exec Flow} (hrun : ∀ z c, Upholds S (I z) (run c)) (z : ι)

include h hrun

theorem act (i : Instruction) : Upholds S (I z) (act run i) := by
  refine (h.prepare z i).bind fun c => ?_
  cases c with
  | none => exact .pure _
  | some c =>
    exact (h.calling z _ _ fun z => hrun z _).bind fun v => (h.onClasses z).push _

/-- One instruction of any code. -/
theorem advance (limit : Nat) (measure : Measure) (code : Code) (pc : Nat) (i : Instruction) :
    Upholds S (I z) (advance run limit measure code pc i) := by
  have hz := h.onClasses z
  refine hz.advance (fun ho => ?_) (fun ho => ?_) (h.act hrun z i)
  · rw [Machine.advance, ho]
    dsimp only
    split
    · exact hz.stopWith rfl
    · exact Upholds.bind (fun _ hm => hz.carry hm rfl rfl rfl) fun _ => .pure _
  · rw [Machine.advance, ho]
    refine hz.takeRecording.bind fun condition => hz.takeRecording.bind fun body => ?_
    refine (hz.rounds h.exhausted (hrun z condition) (hrun z body) limit).bind fun flow => ?_
    cases flow <;> exact .pure _

omit hrun in
/-- Any code, however its run ends. -/
theorem runFrom (measure : Measure) (code : Code) (n pc : Nat) :
    Upholds S (I z) (runFrom measure code n pc) := by
  induction n generalizing z measure code pc with
  | zero => exact .throw h.exhausted
  | succ n ih =>
    cases hi : code[pc]? with
    | none =>
      rw [runFrom_end hi]
      exact .pure _
    | some i =>
      rw [runFrom_succ hi]
      refine (h.advance (fun z c => ih z .slots c 0) z n measure code pc i).bind fun move => ?_
      rcases move with pc | flow
      · exact ih z measure code pc
      · exact .pure _

omit hrun in
/-- Any program, however its run ends. -/
theorem runFor (steps : Nat) (code : Code) : Upholds S (I z) (runFor steps code) := by
  refine (h.runFrom z .instructions code steps 0).bind fun flow => ?_
  cases flow with
  | done => exact .pure _
  | _ => exact (h.onClasses z).stopWith rfl

end KeepsRunning

end Machine

end StackScript
