import StackScript.Proofs.CallState

/-!
# StackScript.Proofs.Ancestors — the classes that a class extends

Each class keeps the list of the classes that it extends.  No run changes a class once it is made,
and a new one has the list of its parent behind its parent (`chained_keepsRunning`).  So at any
moment of any run a `super` call runs the method that stands nearest above the class of the object
that it is made on, whichever class the running method is from.
-/

namespace StackScript

open EStateM (Result)
open Instruction Code Machine

variable {α β : Type}

/-! ### Chains of classes -/

/-- Each class extends none, or one that was made before it and those that this one extends. -/
def Heap.Chained (h : Heap β) : Prop :=
  ∀ c, (h.classAt c).ancestors = [] ∨ ∃ p < c, (h.classAt c).ancestors = h.lineage p

/-- The classes are chained, and the names of classes lead to classes. -/
structure Machine.Chained (m : Machine β) : Prop where
  named : ∀ name c, m.classes.find? name = some c → c < m.heap.classes.size
  heap : m.heap.Chained

theorem Machine.start_chained (maxDepth : Nat) : (Machine.start maxDepth : Machine β).Chained :=
  ⟨fun _ _ h => (nomatch h), fun _ => .inl rfl⟩

theorem Heap.Chained.congr {h h' : Heap β} (hh : h.Chained) (hc : h'.classes = h.classes) :
    h'.Chained := by
  have hclass : h'.classAt = h.classAt := by
    funext c
    rw [classAt, hc, classAt]
  intro c
  have h := hh c
  unfold lineage at h ⊢
  rwa [hclass]

/-- The chains stay as long as the classes and their names do. -/
theorem Machine.Chained.congr {m t : Machine β} (hm : m.Chained) (hn : t.classes = m.classes)
    (hc : t.heap.classes = m.heap.classes) : t.Chained := by
  refine ⟨fun name c h => ?_, hm.heap.congr hc⟩
  rw [hc]
  exact hm.named name c (hn ▸ h)

/-- A new class may extend a class that is there, and those that this one extends. -/
theorem Heap.Chained.newClass {h : Heap β} (hh : h.Chained) {c : Class}
    (hc : c.ancestors = [] ∨ ∃ p < h.classes.size, c.ancestors = h.lineage p) :
    (h.newClass c).2.Chained := by
  have hold : ∀ d, d ≠ h.classes.size → (h.newClass c).2.classAt d = h.classAt d := by
    intro d hd
    show (h.classes.push c)[d]?.getD default = h.classes[d]?.getD default
    rw [Array.getElem?_push, if_neg hd]
  have hnew : (h.newClass c).2.classAt h.classes.size = c := by
    show (h.classes.push c)[h.classes.size]?.getD default = c
    rw [Array.getElem?_push_size, Option.getD_some]
  have hlineage : ∀ p < h.classes.size, (h.newClass c).2.lineage p = h.lineage p := by
    intro p hp
    unfold lineage
    rw [hold p (Nat.ne_of_lt hp)]
  intro d
  by_cases hd : d = h.classes.size
  · rw [hd, hnew]
    rcases hc with hnone | ⟨p, hp, heq⟩
    · exact .inl hnone
    · exact .inr ⟨p, hp, heq.trans (hlineage p hp).symm⟩
  · rw [hold d hd]
    rcases hh d with hnone | ⟨p, hp, heq⟩
    · exact .inl hnone
    · -- a class that extends another one has been made
      have hsize : d < h.classes.size := Nat.lt_of_not_le fun hge => by
        rw [classAt, Array.getElem?_eq_none hge] at heq
        cases heq
      exact .inr ⟨p, hp, heq.trans (hlineage p (by omega)).symm⟩

namespace Machine

/-! ### The definition of a class -/

/-- The parent that a descriptor tells is a class. -/
theorem parent_lt_of_readDescriptor [Body β] {m : Machine β} (hm : m.Chained) {className : String}
    {entries : List (Value × Value)} {parent : Option Nat} {members : List (String × Value)}
    (h : m.readDescriptor className entries = .ok (parent, members)) :
    ∀ p ∈ parent, p < m.heap.classes.size := by
  fun_induction readDescriptor m className entries generalizing parent members with
  | case1 =>
    cases h
    rintro p ⟨⟩
  | case2 => cases h
  | case3 name rest id hid ih =>
    cases hrest : m.readDescriptor className rest with
    | error f =>
      rw [hrest] at h
      cases h
    | ok r =>
      rw [hrest] at h
      cases h
      rintro p ⟨⟩
      cases hparent : r.1 with
      | none => exact hm.named name id hid
      | some p => exact ih hrest p (by rw [hparent]; rfl)
  | case4 name v rest ih =>
    cases hrest : m.readDescriptor className rest with
    | error f =>
      rw [hrest] at h
      cases h
    | ok r =>
      rw [hrest] at h
      cases h
      exact ih hrest
  | case5 => cases h

/-- A class that is defined is chained like those before it. -/
theorem defineClass_keepsChained [Body β] (name : String) (v : Value) :
    Upholds (fun _ => True) Chained (defineClass name v : Effect β Unit) := by
  cases v with
  | map id =>
    refine .get fun m hm => ?_
    cases hd : m.readDescriptor name (m.heap.map id) with
    | error f => exact (Upholds.throw trivial).still hm
    | ok r =>
      obtain ⟨parent, members⟩ := r
      have hparent := parent_lt_of_readDescriptor hm hd
      refine fun _ _ => ⟨fun other c hc => ?_, hm.heap.newClass ?_⟩
      · show c < (m.heap.classes.push _).size
        rw [Array.size_push]
        have hc' : (m.classes.put name m.heap.classes.size).find? other = some c := hc
        rw [Names.find?_put] at hc'
        split at hc'
        · cases hc'
          exact Nat.lt_succ_self _
        · exact Nat.lt_succ_of_lt (hm.named other c hc')
      · cases parent with
        | none => exact .inl rfl
        | some p => exact .inr ⟨p, hparent p rfl, rfl⟩
  | _ => exact .throw trivial

/-! ### Runs -/

theorem chained_onClasses : OnClasses (fun _ => True) (Chained (β := β)) where
  carry hm _ hn hc := hm.congr hn hc
  fault _ := trivial
  crashed := trivial

theorem write_keepsChained (place : Place) (v : Value) :
    Upholds (fun _ => True) Chained (write place v : Effect β Unit) := by
  refine .get fun m hm => ?_
  cases place with
  | slot => exact fun _ _ => hm.congr rfl rfl
  | global => exact fun _ _ => hm.congr rfl rfl
  | param index =>
    dsimp only
    split
    · exact fun _ _ => hm.congr rfl rfl
    · exact (Upholds.throw trivial).still hm

theorem prepare_keepsChained [Body β] {i : Instruction} :
    Upholds (fun _ => True) Chained (prepare i : Effect β (Option (Call β))) :=
  chained_onClasses.prepare (fun _ _ => chained_onClasses.read fun _ _ _ _ => .inl trivial)
    (fun place v _ => write_keepsChained place v) (fun _ _ _ hm => hm.congr rfl rfl)
    defineClass_keepsChained

/-- Whatever code a machine runs, and however the run ends or has to stop, the classes stay
chained. -/
theorem chained_keepsRunning : KeepsRunning (fun _ => True) fun _ : Unit => Chained where
  onClasses _ := chained_onClasses
  exhausted := trivial
  prepare _ _ := prepare_keepsChained
  calling _ _ _ _ hbody :=
    calling_ensures (fun _ _ _ hm => ⟨trivial, hm⟩) fun _ hm =>
      (hbody ()).weaken (fun _ heq => heq ▸ hm.congr rfl rfl) (fun _ _ ht => ht.congr rfl rfl)
        fun _ _ ht => ⟨trivial, ht.2.congr rfl rfl⟩

/-- Whatever is done with a machine from outside, its classes are chained. -/
theorem handleAll_chained {m : Machine} (h : m.Chained) (events : List Event) :
    (m.handleAll events).Chained := by
  induction events generalizing m with
  | nil => exact h
  | cons event events ih =>
    refine ih (m := m.handle event) ?_
    cases event with
    | run steps code => exact (chained_keepsRunning.runFor () steps code).endState h
    | recover depth => exact h.congr rfl rfl
    | pop =>
      show m.pop.2.Chained
      unfold pop
      split
      · exact h
      · exact h.congr rfl rfl

end Machine

/-- While code runs, the classes are chained. -/
theorem Moment.Leads.chained {p q : Moment} (hleads : p.Leads q) (h : p.machine.Chained) :
    q.machine.Chained := by
  cases hleads with
  | @next measure code n pc _ i m t _ hadvance =>
    have hkeeps := chained_keepsRunning.advance
      (fun _ c => chained_keepsRunning.runFrom () .slots c n 0) () n measure code pc i
    exact hkeeps.ok h hadvance
  | @begins _ _ n _ _ m _ _ _ hbegins =>
    have hrun := fun c => chained_keepsRunning.runFrom () .slots c n 0
    have hstack : OffStack (fun _ => True) (Chained (β := Code)) := chained_onClasses.toOffStack
    cases hbegins with
    | call hprepare => exact (prepare_keepsChained.ok h hprepare).congr rfl rfl
    | @condition _ _ rest _ _ _ ht =>
      have hstart : Chained { m with recordings := rest } := h.congr rfl rfl
      exact ht.upheld hstack (hrun _) (hrun _) hstart
    | @body _ _ rest _ _ _ ht =>
      have hstart : Chained { m with recordings := rest } := h.congr rfl rfl
      exact ht.upheld hstack (hrun _) (hrun _) hstart

theorem Moment.Reaches.chained {p q : Moment} (hreach : p.Reaches q) (h : p.machine.Chained) :
    q.machine.Chained := by
  induction hreach with
  | refl => exact h
  | tail _ hleads ih => exact hleads.chained ih

/-! ### Calls of `super` -/

/-- The method under a key of the nearest class that has one among those that a class extends. -/
def Heap.above? (h : Heap β) (classId : Nat) (key : String) : Option Nat :=
  (h.classAt classId).ancestors.findSome? fun c => h.ownMethod? c key

/-- Why nothing above a class can be called. -/
def Heap.noneAbove (h : Heap β) (classId : Nat) (key : String) : Fault :=
  match (h.classAt classId).ancestors with
  | [] => .noParent (h.classAt classId).name
  | parent :: _ => .noMethod (h.classAt parent).name key

/-- What stands above a class is what its parent has. -/
theorem Heap.Chained.above?_eq {h : Heap β} (hh : h.Chained) {c parent : Nat} {rest : List Nat}
    (hc : (h.classAt c).ancestors = parent :: rest) (key : String) :
    h.above? c key = h.method? parent key := by
  rcases hh c with hnone | ⟨p, -, heq⟩
  · rw [hc] at hnone
    cases hnone
  · obtain ⟨rfl, -⟩ := List.cons_eq_cons.mp (hc.symm.trans heq)
    unfold above? method?
    rw [heq]

/-- What is put on the stack is taken from it. -/
theorem Machine.push_take (v : Value) (f : Value → Effect β α) :
    (push v >>= fun _ => take >>= f) = f v := rfl

/-- The instructions of a call on `super`, without what they put on the stack in between. -/
theorem actAll_super [Body β] (run : β → Effect β Flow) (line : Nat) (key : String) :
    actAll run ((Expr.super line).code ++ [withName .callMethod key]) = (do
      let this ← self
      let view ← member this (.boolean true)
      let method ← methodOf key view
      callingPut run method.1 (some method.2) none) := by
  show actAll run ([_] ++ ([_] ++ ([_] ++ [_]))) = _
  have hput : act run (putConstant (.boolean true)) = push (.boolean true) := act_put run _
  rw [actAll_append, actAll_append, actAll_append, actAll_single, actAll_single, actAll_single,
    actAll_single, act_this, hput, act_member, act_callMethod]
  simp only [bind_assoc, push_take]

/-- A method that is called on `super` is that of the nearest class above the class of the object of
the running method, and this object stays. -/
def Machine.SuperAbove [Body β] (run : β → Effect β Flow) (m : Machine β) : Prop :=
  ∀ object, m.frame.this = some object → ∀ (line : Nat) (name : String),
    let c := (m.heap.object object).classId
    actAll run ((Expr.super line).code ++ [withName .callMethod ("#" ++ name)]) m =
      match m.heap.above? c ("#" ++ name) with
      | some f => callingPut run (m.heap.function f) (some object) none m
      | none => .error (.fault (m.heap.noneAbove c ("#" ++ name))) m

theorem Machine.Chained.superAbove [Body β] {m : Machine β} (hm : m.Chained)
    (run : β → Effect β Flow) : m.SuperAbove run := by
  intro object hthis line name c
  have hself : (self : Effect β Value) m = .ok (.object object) m := by
    show (match m.frame.this with
      | some o => pure (.object o)
      | none => stopWith .noThis : Effect β Value) m = _
    rw [hthis]
    rfl
  rw [actAll_super, bind_of_ok hself]
  have hmember : (member (.object object) (.boolean true) : Effect β Value) m =
      ofResult (m.heap.parentView object c) m := rfl
  unfold Heap.parentView at hmember
  cases hc : (m.heap.classAt c).ancestors with
  | nil =>
    rw [hc] at hmember
    have hnone : m.heap.above? c ("#" ++ name) = none := by
      rw [Heap.above?, hc]
      rfl
    rw [bind_of_error hmember, hnone, Heap.noneAbove, hc]
  | cons parent rest =>
    rw [hc] at hmember
    rw [bind_of_ok hmember, hm.heap.above?_eq hc]
    have hmethod : (methodOf ("#" ++ name) (.view object parent) : Effect β _) m =
        (match m.heap.method? parent ("#" ++ name) with
          | some f => pure (m.heap.function f, object)
          | none => stopWith (.noMethod (m.heap.classAt parent).name ("#" ++ name)) :
          Effect β (Function β × Nat)) m := rfl
    cases hf : m.heap.method? parent ("#" ++ name) with
    | none =>
      rw [hf] at hmethod
      rw [bind_of_error hmethod, Heap.noneAbove, hc]
    | some f =>
      rw [hf] at hmethod
      rw [bind_of_ok hmethod]

/-- Where classes are chained, a call of `super` looks above the class of the object, not above the
class of the running method.  They are chained at every moment of every run of code, whatever has
been done with the machine before. -/
theorem super_calls_above_the_object [Body β] (run : β → Effect β Flow) (m : Machine β) :
    (m.Chained → m.SuperAbove run) ∧
    ∀ (limit : Nat) (events : List Event) (code : Code) (steps : Nat) (p : Moment),
      (Moment.start code steps ((start limit).handleAll events)).Reaches p →
        p.machine.Chained ∧ ∀ run, p.machine.SuperAbove run := by
  refine ⟨fun hm => hm.superAbove run, fun limit events code steps p hreach => ?_⟩
  have hm := hreach.chained (handleAll_chained (start_chained limit) events)
  exact ⟨hm, hm.superAbove⟩

/-- Three classes, each with a method of its own and extending the one before, and an object of the
last of them, on which a method is running. -/
def Machine.withChain : Machine Block :=
  let method (c : String) : Function Block := ⟨c ++ "#m", 0, [], .mk 1 []⟩
  { Machine.start 8 with
    frame := ⟨[], some 0⟩
    heap := {
      lists := #[], maps := #[]
      functions := #[method "A", method "B", method "C"]
      classes := #[⟨"A", [("#m", .function 0)], []⟩, ⟨"B", [("#m", .function 1)], [0]⟩,
        ⟨"C", [("#m", .function 2)], [1, 0]⟩]
      objects := #[⟨2, []⟩] } }

theorem Machine.withChain_chained : Machine.withChain.Chained := by
  refine ⟨fun _ _ h => (nomatch h), fun c => ?_⟩
  match c with
  | 0 => exact .inl rfl
  | 1 => exact .inr ⟨0, by decide, rfl⟩
  | 2 => exact .inr ⟨1, by decide, rfl⟩
  | c + 3 => exact .inl rfl

/-- Whichever of the three methods is running, `super.m()` runs the second one. -/
theorem super_calls_above_the_object_chain : Machine.withChain.Chained ∧
    actAll (instructing false 4) ((Expr.super 1).code ++ [withName .callMethod "#m"]) .withChain =
      callingPut (instructing false 4) ⟨"B#m", 0, [], .mk 1 []⟩ (some 0) none .withChain :=
  ⟨withChain_chained,
    (super_calls_above_the_object (instructing false 4) _).1 withChain_chained 0 rfl 1 "m"⟩

/-- In a chain of three classes the method of the middle one, called on an object of the last, calls
itself by `super`. -/
theorem super_call_does_not_leave_the_middle_class :
    let source := "class A \x7b\nfunc m() \x7b\nprint 1\n\x7d\n\x7d\nclass B extends A \x7b\n" ++
      "func m() \x7b\nsuper.m()\n\x7d\n\x7d\nclass C extends B \x7b\x7d\nnew C().m()"
    let compilation := Compiler.standard.compile [] source
    let code := compilation.root.generate dropValue
    Compiler.standard.generate compilation = .ok code ∧
      ∃ m, Ends (fun n => runFor n code) (.start 8) (.error (.fault (.tooDeep "B#m")) m) := by
  intro source compilation code
  have hboth : compilation.diagnostics = [] ∧
      fault? (runFor 60 code (.start 8)) = some (.tooDeep "B#m") := by
    simp only [code, compilation, Compiler.compile_eq]
    decide +kernel
  obtain ⟨hdiagnostics, hfault⟩ := hboth
  obtain ⟨m, hm⟩ := error_of_fault? hfault
  refine ⟨Compiler.generate_of_eq_nil hdiagnostics, m, ⟨60, hm⟩, ?_⟩
  rw [exhausted_error_iff]
  intro h
  cases h

end StackScript
