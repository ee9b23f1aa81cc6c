import StackScript.Machine.Run
import StackScript.Proofs.Lockstep

/-!
# StackScript.Proofs.OperationsCommute — operations commute with a change of guise

What the machine does with values depends neither on the bodies of functions, nor on the stack, the
recordings and the local variables.  A `Guise` replaces these; every operation on values commutes
with it, and so does every instruction that addresses no local variable.
-/

namespace StackScript

open EStateM (Result)

variable {β γ : Type}

/-- A heap with other functions. -/
def Heap.mapFunctions (φ : Function β → Function γ) (h : Heap β) : Heap γ :=
  ⟨h.lists, h.maps, h.functions.map φ, h.classes, h.objects⟩

/-- A machine with other bodies, another stack, other local variables and other recordings. -/
structure Guise (β γ : Type) [Body β] [Body γ] where
  body : β → γ
  /-- the local variables that a function has in this guise -/
  slots : Function β → List Nat
  stack : List Value → List Value
  locals : List Value → List Value
  recordings : List β → List γ
  body_default : body default = default
  slots_default : slots default = []
  slots_made : ∀ name arity b, slots ⟨name, arity, Body.slots b, b⟩ = Body.slots (body b)

namespace Guise

variable [Body β] [Body γ] (v : Guise β γ)

/-- A function in a guise. -/
def function (f : Function β) : Function γ := ⟨f.name, f.arity, v.slots f, v.body f.body⟩

/-- A machine in a guise. -/
def see (m : Machine β) : Machine γ :=
  { m with
    stack := v.stack m.stack
    locals := v.locals m.locals
    recordings := v.recordings m.recordings
    heap := m.heap.mapFunctions v.function }

theorem function_name (f : Function β) : (v.function f).name = f.name := rfl

theorem function_default : v.function default = default := by
  show Function.mk _ _ (v.slots default) (v.body default) = _
  rw [v.slots_default, v.body_default]
  rfl

theorem function_made (name : String) (arity : Nat) (b : β) :
    v.function ⟨name, arity, Body.slots b, b⟩ =
      ⟨name, arity, Body.slots (v.body b), v.body b⟩ := by
  rw [function, v.slots_made]

end Guise

/-! ### The heap -/

namespace Heap

variable {φ : Function β → Function γ}

theorem mapFunctions_sameWithin (h : Heap β) (n : Nat) :
    (h.mapFunctions φ).sameWithin n = h.sameWithin n := by
  induction n with
  | zero => rfl
  | succ n ih =>
    funext v w
    unfold sameWithin
    rw [ih]
    rfl

theorem mapFunctions_looselyEqual (h : Heap β) :
    (h.mapFunctions φ).looselyEqual = h.looselyEqual := by
  have hs : (h.mapFunctions φ).same = h.same :=
    funext fun v => funext fun w => congrFun (congrFun (mapFunctions_sameWithin h _) v) w
  funext v w
  unfold looselyEqual
  rw [hs]

theorem mapFunctions_lookup? (h : Heap β) : (h.mapFunctions φ).lookup? = h.lookup? := by
  funext entries key
  unfold lookup?
  rw [mapFunctions_looselyEqual]

theorem mapFunctions_putEntry (h : Heap β) (key v : Value) (entries : List (Value × Value)) :
    (h.mapFunctions φ).putEntry key v entries = h.putEntry key v entries := by
  induction entries with
  | nil => rfl
  | cons e rest ih => rw [putEntry, putEntry, ih, mapFunctions_looselyEqual]

theorem mapFunctions_combine (h : Heap β) (op : BinaryOp) (v w : Value) :
    (h.mapFunctions φ).combine op v w = h.combine op v w := by
  cases op <;> first
    | rfl
    | rw [combine, combine, mapFunctions_looselyEqual]

variable [Inhabited β] [Inhabited γ] (hd : φ default = default)

include hd

theorem mapFunctions_function (h : Heap β) (id : Nat) :
    (h.mapFunctions φ).function id = φ (h.function id) := by
  show ((h.functions.map φ)[id]?).getD default = _
  rw [Array.getElem?_map, Heap.function]
  cases h.functions[id]? with
  | some f => rfl
  | none => exact hd.symm

variable (hn : ∀ f, (φ f).name = f.name)

include hn

theorem mapFunctions_textWithin (h : Heap β) (n : Nat) :
    (h.mapFunctions φ).textWithin n = h.textWithin n := by
  induction n with
  | zero => rfl
  | succ n ih =>
    funext inside v
    cases v with
    | list id => rw [textWithin, textWithin, ih]; rfl
    | map id => rw [textWithin, textWithin, ih]; rfl
    | function id =>
      show "<func " ++ ((h.mapFunctions φ).function id).name ++ ">" = _
      rw [mapFunctions_function hd, hn]
      rfl
    | _ => rfl

theorem mapFunctions_text (h : Heap β) : (h.mapFunctions φ).text = h.text :=
  funext fun v => congrFun (congrFun (mapFunctions_textWithin hd hn h _) false) v

theorem mapFunctions_sum (h : Heap β) (v w : Value) :
    (h.mapFunctions φ).sum v w = (h.sum v w).map fun r => (r.1, r.2.mapFunctions φ) := by
  have hr : ∀ r : Except Fault Value, r.map (·, h.mapFunctions φ) =
      (r.map (·, h)).map fun r => (r.1, r.2.mapFunctions φ) := by
    intro r
    cases r <;> rfl
  cases v <;> cases w <;> first
    | exact hr _
    | (simp only [sum, mapFunctions_text hd hn]; rfl)

theorem mapFunctions_binary (h : Heap β) (op : BinaryOp) (v w : Value) :
    (h.mapFunctions φ).binary op v w =
      (h.binary op v w).map fun r => (r.1, r.2.mapFunctions φ) := by
  unfold binary
  split
  · exact mapFunctions_sum hd hn h v w
  · rw [mapFunctions_combine]
    cases h.combine _ v w <;> rfl

theorem mapFunctions_index (h : Heap β) : (h.mapFunctions φ).index = h.index := by
  funext key length
  unfold index
  rw [mapFunctions_text hd hn]

theorem mapFunctions_get (h : Heap β) (container key : Value) :
    (h.mapFunctions φ).get container key = h.get container key := by
  unfold get
  rw [mapFunctions_index hd hn, mapFunctions_lookup?, mapFunctions_text hd hn]
  rfl

theorem mapFunctions_set (h : Heap β) (container key v : Value) :
    (h.mapFunctions φ).set container key v = (h.set container key v).map (·.mapFunctions φ) := by
  have hp : (h.mapFunctions φ).putItem = h.putItem := by
    funext items key v
    unfold putItem
    rw [mapFunctions_index hd hn]
  unfold set
  split
  · rw [hp]
    show (h.putItem (h.list _) key v).map _ = _
    cases h.putItem (h.list _) key v <;> rfl
  · rw [mapFunctions_putEntry]
    rfl
  · rfl
  · rfl
  · rw [mapFunctions_text hd hn]
    rfl

end Heap

namespace Guise

variable [Body β] [Body γ] (v : Guise β γ) (m : Machine β)

@[simp] theorem see_frame : (v.see m).frame = m.frame := rfl

@[simp] theorem see_callers : (v.see m).callers = m.callers := rfl

@[simp] theorem see_functions : (v.see m).functions = m.functions := rfl

@[simp] theorem see_classes : (v.see m).classes = m.classes := rfl

@[simp] theorem see_lastFunction : (v.see m).lastFunction = m.lastFunction := rfl

@[simp] theorem see_heap : (v.see m).heap = m.heap.mapFunctions v.function := rfl

@[simp] theorem see_named? (name : String) : (v.see m).named? name = m.named? name := rfl

theorem see_text : (v.see m).heap.text = m.heap.text :=
  Heap.mapFunctions_text v.function_default v.function_name m.heap

end Guise

/-! ### Operations on values -/

namespace Guise

open Machine

variable [Body β] [Body γ] (v : Guise β γ)

theorem get_commutes {α α' : Type} {φ : α → α'} {f : Machine γ → Effect γ α'}
    {g : Machine β → Effect β α} (h : ∀ m, f (v.see m) (v.see m) = mapResult φ v.see (g m m)) :
    Commutes φ v.see (get >>= f) (get >>= g) := h

/-- The place is kept in the guise: only local variables may be replaced. -/
def Keeps (place : Place) : Prop := ∀ id, place = .slot id → ∀ locals, v.locals locals = locals

theorem read_commutes {place : Place} (h : v.Keeps place) :
    Commutes id v.see (read place) (read place) := by
  refine v.get_commutes fun m => ?_
  cases place with
  | slot id =>
    have hl : (v.see m).locals = m.locals := h id rfl m.locals
    simp only [hl]
    cases m.locals[id]? <;> rfl
  | param index =>
    simp only [see_frame]
    cases m.frame.params[index]? <;> rfl
  | global name =>
    simp only [see_named?]
    cases m.named? name <;> rfl

theorem write_commutes {place : Place} (h : v.Keeps place) (w : Value) :
    Commutes id v.see (write place w) (write place w) := by
  refine v.get_commutes fun m => ?_
  cases place with
  | slot id =>
    show Result.ok () { v.see m with locals := putLocal id w (v.locals m.locals) } =
      Result.ok () (v.see { m with locals := putLocal id w m.locals })
    simp only [see, h id rfl]
  | param index =>
    by_cases h : index < m.frame.params.length
    · have h' : index < (v.see m).frame.params.length := h
      simp only [if_pos h, if_pos h']
      rfl
    · have h' : ¬ index < (v.see m).frame.params.length := h
      simp only [if_neg h, if_neg h']
      rfl
  | global name => rfl

theorem compute_commutes (op : BinaryOp) (a b : Value) :
    Commutes id v.see (compute op a b) (compute op a b) := by
  refine v.get_commutes fun m => ?_
  simp only [see_heap, Heap.mapFunctions_binary v.function_default v.function_name]
  cases m.heap.binary op a b <;> rfl

theorem computePrefix_commutes (op : UnaryOp) (a : Value) :
    Commutes id v.see (computePrefix op a) (computePrefix op a) := by
  refine v.get_commutes fun m => ?_
  have h : (v.see m).heap.unary op a = m.heap.unary op a := by
    cases op <;> rfl
  rw [h]
  cases m.heap.unary op a <;> rfl

theorem newList_commutes (items : List Value) :
    Commutes id v.see (newList items) (newList items) := fun _ => rfl

theorem newMap_commutes (entries : List (Value × Value)) :
    Commutes id v.see (newMap entries) (newMap entries) := fun _ => rfl

theorem member_commutes (container key : Value) :
    Commutes id v.see (member container key) (member container key) := by
  refine v.get_commutes fun m => ?_
  simp only [see_heap, Heap.mapFunctions_get v.function_default v.function_name]
  cases m.heap.get container key <;> rfl

theorem writeMember_commutes (container key w : Value) :
    Commutes id v.see (writeMember container key w) (writeMember container key w) := by
  refine v.get_commutes fun m => ?_
  simp only [see_heap, Heap.mapFunctions_set v.function_default v.function_name]
  cases m.heap.set container key w <;> rfl

theorem defineFunction_commutes (name : String) (arity : Nat) (b : β) :
    Commutes id v.see (defineFunction name arity (v.body b)) (defineFunction name arity b) := by
  refine v.get_commutes fun m => ?_
  rw [← v.function_made]
  show Result.ok _ _ = Result.ok _ _
  congr 1
  simp [see, Heap.mapFunctions]

theorem readDescriptor_see (m : Machine β) (name : String) (entries : List (Value × Value)) :
    (v.see m).readDescriptor name entries = m.readDescriptor name entries := by
  fun_induction readDescriptor m name entries with
  | case1 => rfl
  | case2 parent rest h => simp only [readDescriptor, see_classes, h]
  | case3 parent rest id h ih => simp only [readDescriptor, see_classes, h, ih]
  | case4 member w rest ih => simp only [readDescriptor, ih]
  | case5 key w rest h h' =>
    rw [readDescriptor, v.see_text]
    · exact h
    · exact h'

theorem defineClass_commutes (name : String) (w : Value) :
    Commutes id v.see (defineClass name w) (defineClass name w) := by
  cases w with
  | map id =>
    refine v.get_commutes fun m => ?_
    simp only [readDescriptor_see]
    show (ofResult (m.readDescriptor name (m.heap.map id)) >>= _) (v.see m) = _
    cases m.readDescriptor name (m.heap.map id) <;> rfl
  | _ => exact fun _ => rfl

theorem constant_commutes (o : Option Operand) :
    Commutes id v.see (constant o) (constant o) := by
  unfold constant
  cases Value.ofOperand? o <;> exact fun _ => rfl

theorem latestFunction_commutes : Commutes id v.see latestFunction latestFunction := by
  refine v.get_commutes fun m => ?_
  simp only [see_lastFunction]
  cases m.lastFunction <;> rfl

theorem self_commutes : Commutes id v.see self self := by
  refine v.get_commutes fun m => ?_
  simp only [see_frame]
  cases m.frame.this <;> rfl

theorem clearSlot_commutes (hl : ∀ locals, v.locals locals = locals) (slot : Nat) :
    Commutes id v.see (clearSlot slot) (clearSlot slot) := by
  intro m
  show Result.ok () { v.see m with locals := (v.locals m.locals).set slot .null } =
    Result.ok () (v.see { m with locals := m.locals.set slot .null })
  simp only [see, hl]

theorem print_commutes (w : Value) : Commutes id v.see (print w) (print w) := by
  intro m
  show Result.ok () { v.see m with output := m.output ++ (v.see m).heap.text w ++ "\n" } = _
  rw [v.see_text]
  rfl

theorem functionNamed_commutes (name : String) :
    Commutes v.function v.see (functionNamed name) (functionNamed name) := by
  refine v.get_commutes fun m => ?_
  simp only [see_functions, see_heap, Heap.mapFunctions_function v.function_default]
  cases m.functions.find? name <;> rfl

theorem methodOf_commutes (key : String) (receiver : Value) :
    Commutes (fun r => (v.function r.1, r.2)) v.see (methodOf key receiver)
      (methodOf key receiver) := by
  refine v.get_commutes fun m => ?_
  have hi : (v.see m).heap.instance? receiver = m.heap.instance? receiver := by
    cases receiver <;> rfl
  rw [hi]
  cases m.heap.instance? receiver with
  | none => rfl
  | some r =>
    have hm : (v.see m).heap.method? r.2 key = m.heap.method? r.2 key := rfl
    simp only [hm]
    cases m.heap.method? r.2 key with
    | none => rfl
    | some f =>
      simp only [see_heap, Heap.mapFunctions_function v.function_default]
      rfl

theorem makeObject_commutes (name : String) :
    Commutes (fun r => (r.1, r.2.map v.function)) v.see (makeObject name) (makeObject name) := by
  refine v.get_commutes fun m => ?_
  simp only [see_classes]
  cases m.classes.find? name with
  | none => rfl
  | some classId =>
    show Result.ok _ _ = Result.ok _ _
    congr 2
    show (m.heap.method? classId "<init>").map _ = ((m.heap.method? classId "<init>").map _).map _
    cases m.heap.method? classId "<init>" with
    | none => rfl
    | some f => exact congrArg some (Heap.mapFunctions_function v.function_default _ f)

/-! ### Instructions

The effect of an instruction uses the stack and the recordings, so it only commutes with guises that
keep the former and give the latter their other bodies.  If it addresses a local variable, these must
be kept too. -/

/-- The call that is asked for, of the function in a guise. -/
def call (c : Call β) : Call γ := ⟨v.function c.function, c.this, c.made⟩

end Guise

/-- The local variable that an operand addresses. -/
def Operand.slot? : Option Operand → Option Nat
  | some (.integer (.ofNat id)) => some id
  | _ => none

/-- Instructions that address a variable by their operand. -/
def Opcode.addresses : Opcode → Bool
  | .load | .store | .clear => true
  | o => o.updated?.isSome

/-- The local variable that an instruction reads, assigns or ends; the ordinal of a parameter counts
from one. -/
def Instruction.slot? (i : Instruction) : Option Nat :=
  match i.opcode, i.operand with
  | .loadParam, some (.integer n) => Operand.slot? (some (.integer (-n)))
  | o, operand => if o.addresses then Operand.slot? operand else none

namespace Guise

open Machine

variable [Body β] [Body γ] (v : Guise β γ)

theorem integerOf_commutes (i : Instruction) :
    Commutes id v.see (integerOf i) (integerOf i) := by
  unfold integerOf
  split <;> exact fun _ => rfl

theorem nameOf_commutes (i : Instruction) : Commutes id v.see (nameOf i) (nameOf i) := by
  unfold nameOf
  split <;> exact fun _ => rfl

/-- What is done with the place that an operand addresses. -/
theorem placeOf_bind_commutes {α α' : Type} {φ : α → α'} {o : Option Operand}
    {f : Place → Effect γ α'} {g : Place → Effect β α}
    (ho : ∀ slot, Operand.slot? o = some slot → ∀ locals, v.locals locals = locals)
    (h : ∀ place, v.Keeps place → Commutes φ v.see (f place) (g place)) :
    Commutes φ v.see (placeOf o >>= f) (placeOf o >>= g) := by
  unfold placeOf
  split
  · rename_i id
    refine h (.slot id) fun slot hslot => ?_
    exact ho id rfl
  · exact h _ fun slot hslot => nomatch hslot
  · exact h _ fun slot hslot => nomatch hslot
  · exact fun _ => rfl

variable {v} (hs : ∀ st, v.stack st = st) (hr : ∀ rs, v.recordings rs = rs.map v.body)

section
include hr

theorem keepRecording_commutes (b : β) :
    Commutes id v.see (keepRecording (v.body b)) (keepRecording b) := by
  intro m
  show Result.ok () { v.see m with recordings := v.body b :: v.recordings m.recordings } =
    Result.ok () { v.see m with recordings := v.recordings (b :: m.recordings) }
  rw [hr, hr]
  rfl

theorem takeRecording_commutes : Commutes v.body v.see takeRecording takeRecording := by
  refine v.get_commutes fun m => ?_
  have hm : (v.see m).recordings = m.recordings.map v.body := hr m.recordings
  rw [hm]
  cases m.recordings with
  | nil => rfl
  | cons b rest =>
    show Result.ok (v.body b) { v.see m with recordings := rest.map v.body } =
      Result.ok (v.body b) { v.see m with recordings := v.recordings rest }
    rw [hr]

end

include hs

theorem push_commutes (w : Value) : Commutes id v.see (push w) (push w) := by
  intro m
  show Result.ok () { v.see m with stack := w :: v.stack m.stack } = Result.ok () (v.see _)
  rw [hs]
  show _ = Result.ok () { v.see m with stack := v.stack (w :: m.stack) }
  rw [hs]

theorem take_commutes : Commutes id v.see take take := by
  refine v.get_commutes fun m => ?_
  have hm : (v.see m).stack = m.stack := hs m.stack
  rw [hm]
  cases m.stack with
  | nil => rfl
  | cons w rest =>
    show Result.ok w { v.see m with stack := rest } =
      Result.ok w { v.see m with stack := v.stack rest }
    rw [hs]

theorem takeTruth_commutes : Commutes id v.see takeTruth takeTruth := by
  refine (take_commutes hs).bind fun w => v.get_commutes fun m => ?_
  have ht : (v.see m).heap.truth w = m.heap.truth w := by
    cases w <;> rfl
  show Result.ok ((v.see m).heap.truth w) (v.see m) = _
  rw [ht]
  rfl

theorem takeMany_commutes (n : Nat) : Commutes id v.see (takeMany n) (takeMany n) := by
  induction n with
  | zero => exact fun _ => rfl
  | succ n ih => exact (take_commutes hs).bind fun w => ih.bind fun ws => fun _ => rfl

theorem takePairs_commutes (n : Nat) (taken : List (Value × Value)) :
    Commutes id v.see (takePairs n taken) (takePairs n taken) := by
  induction n generalizing taken with
  | zero => exact fun _ => rfl
  | succ n ih => exact (take_commutes hs).bind fun w => (take_commutes hs).bind fun k => ih _

theorem performBinary_commutes (op : BinaryOp) :
    Commutes id v.see (performBinary op) (performBinary op) :=
  (take_commutes hs).bind fun right => (take_commutes hs).bind fun left =>
    (v.compute_commutes op left right).bind fun w => push_commutes hs w

theorem performUpdate_commutes (op : BinaryOp) {o : Option Operand}
    (ho : ∀ slot, Operand.slot? o = some slot → ∀ locals, v.locals locals = locals) :
    Commutes id v.see (performUpdate op o) (performUpdate op o) :=
  (take_commutes hs).bind fun right => v.placeOf_bind_commutes ho fun _ hplace =>
    (v.read_commutes hplace).bind fun current => (v.compute_commutes op current right).bind fun w =>
      v.write_commutes hplace w

include hr

theorem makeFunction_commutes (name : String) :
    Commutes id v.see (makeFunction name) (makeFunction name) := by
  refine (take_commutes hs).bind fun w => ?_
  refine Commutes.bind (φ := id) ?_ fun arity => ?_
  · intro m
    show ofResult (w.asNumber (Opcode.name .makeFunction)) (v.see m) = _
    cases w.asNumber (Opcode.name .makeFunction) <;> rfl
  · exact (takeRecording_commutes hr).bind fun b => v.defineFunction_commutes name _ b

/-- The effect of an instruction that neither jumps nor calls. -/
theorem perform_commutes {i : Instruction}
    (hi : ∀ slot, i.slot? = some slot → ∀ locals, v.locals locals = locals) :
    Commutes id v.see (perform i) (perform i) := by
  have hpush : ∀ w, Commutes id v.see (push w) (push w) := push_commutes hs
  have htake : Commutes id v.see take take := take_commutes hs
  obtain ⟨o, operand⟩ := i
  unfold perform
  split <;> rename_i ho <;> try (change o = _ at ho; subst ho)
  · exact (v.constant_commutes operand).bind hpush
  · exact htake.bind fun _ => fun _ => rfl
  · exact v.placeOf_bind_commutes hi fun _ hplace => (v.read_commutes hplace).bind hpush
  · rcases operand with _ | operand
    · exact fun _ => rfl
    cases operand with
    | integer n =>
      exact v.placeOf_bind_commutes (o := some (.integer (-n))) hi fun _ hplace =>
        (v.read_commutes hplace).bind hpush
    | _ => exact fun _ => rfl
  · exact htake.bind fun w => v.placeOf_bind_commutes hi fun _ hplace => v.write_commutes hplace w
  · rcases operand with _ | operand
    · exact fun _ => rfl
    cases operand with
    | integer n =>
      cases n with
      | ofNat slot => exact v.clearSlot_commutes (hi slot rfl) slot
      | negSucc n => exact fun _ => rfl
    | _ => exact fun _ => rfl
  · exact htake.bind fun w => (v.computePrefix_commutes _ w).bind hpush
  · exact htake.bind fun w => (v.computePrefix_commutes _ w).bind hpush
  · exact htake.bind fun w => (v.computePrefix_commutes _ w).bind hpush
  · exact (v.integerOf_commutes _).bind fun n => (takeMany_commutes hs _).bind fun items =>
      (v.newList_commutes items).bind hpush
  · exact (v.integerOf_commutes _).bind fun n => (takePairs_commutes hs _ _).bind fun entries =>
      (v.newMap_commutes entries).bind hpush
  · exact htake.bind fun key => htake.bind fun container =>
      (v.member_commutes container key).bind hpush
  · exact htake.bind fun w => htake.bind fun key => htake.bind fun container =>
      (v.writeMember_commutes container key w).bind fun _ => hpush container
  · exact (v.nameOf_commutes _).bind fun name => makeFunction_commutes hs hr name
  · exact (v.nameOf_commutes _).bind fun name => htake.bind fun w => v.defineClass_commutes name w
  · exact v.latestFunction_commutes.bind hpush
  · exact v.self_commutes.bind hpush
  · split
    · exact performBinary_commutes hs _
    · rename_i op _ hupdate
      refine performUpdate_commutes hs _ fun slot hslot => hi slot ?_
      revert hupdate hslot
      cases o <;> first | exact fun _ h => h | exact fun h => nomatch h
    · exact fun _ => rfl

/-- The effect of an instruction up to the call that it asks for. -/
theorem prepare_commutes {i : Instruction}
    (hi : ∀ slot, i.slot? = some slot → ∀ locals, v.locals locals = locals) :
    Commutes (Option.map v.call) v.see (prepare i) (prepare i) := by
  unfold prepare
  split
  · split
    · exact (take_commutes hs).bind fun w => (v.print_commutes w).bind fun _ => fun _ => rfl
    · exact (v.nameOf_commutes i).bind fun name => (v.functionNamed_commutes name).bind fun f =>
        fun _ => rfl
  · exact (v.nameOf_commutes i).bind fun key => (take_commutes hs).bind fun w =>
      (v.methodOf_commutes key w).bind fun r => fun _ => rfl
  · refine (v.nameOf_commutes i).bind fun name => (v.makeObject_commutes name).bind fun r => ?_
    obtain ⟨this, init⟩ := r
    cases init with
    | some f => exact fun _ => rfl
    | none => exact (push_commutes hs _).bind fun _ => fun _ => rfl
  · exact (perform_commutes hs hr hi).bind fun _ => fun _ => rfl

end Guise

end StackScript
