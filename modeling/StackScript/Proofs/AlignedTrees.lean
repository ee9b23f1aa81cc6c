import StackScript.Proofs.Aligning

/-!
# StackScript.Proofs.AlignedTrees — the trees of both ways of resolving are aligned

A tree that ends no local variable itself is resolved with and without giving slots back.  If the
functions of the first result name only local variables of their own, the two results are aligned.
Assignments keep the code that they have when they are marked: an update on one side is an update
on the other, since a variable that is read and set there is read and set here.
-/

namespace StackScript

open Instruction (withNumber withName plain)
open TwinFrame Resolve

variable {keeps : Bool} {fs : List TwinFrame} {own : List Nat}

/-! ### Assignments -/

/-- The code of a marked assignment. -/
abbrev Expr.assigned (name : String) (binding : Option Binding) (e : Expr) : Code :=
  assignCode name binding (e.withTarget (Marking.inPlace name binding e))

/-- Without an update, a marked assignment has the code of its value. -/
theorem Expr.assigned_plain {name : String} {binding : Option Binding} {e : Expr}
    (h : e.update? name binding = none) :
    e.assigned name binding = e.code ++ [⟨.store, some (targetOperand name binding)⟩] := by
  rw [assigned, Marking.inPlace, h]
  exact assignCode_plain name binding e

/-- With an update, it has the code of the right operand. -/
theorem Expr.assigned_update {name : String} {binding : Option Binding} {e : Expr} {u : Update}
    (h : e.update? name binding = some u) :
    ∃ o, Opcode.update? u.op = some o ∧
      e.assigned name binding = u.right.code ++ [⟨o, some (targetOperand name binding)⟩] := by
  obtain ⟨line, line', target, rfl, hbinding, hop⟩ := Expr.update?_eq_some h
  obtain ⟨o, ho⟩ := BinaryOp.update?_of_updates hop
  refine ⟨o, ho, ?_⟩
  rw [assigned, Marking.inPlace, h, hbinding]
  simp only [Option.map_some, Expr.withTarget, assignCode, ho]

theorem Opcode.addresses_of_update? {op : BinaryOp} {o : Opcode} (h : update? op = some o) :
    o.addresses = true := by
  cases op <;> cases h <;> rfl

/-- The code of a marked assignment names what the code of its value and its variable do. -/
theorem Expr.namesOwn_assigned {name : String} {binding : Option Binding} {e : Expr}
    (h : Code.namesOwn own (e.code ++ [⟨.store, some (targetOperand name binding)⟩]) = true) :
    Code.namesOwn own (e.assigned name binding) = true := by
  cases hu : e.update? name binding with
  | none =>
    rw [Expr.assigned_plain hu]
    exact h
  | some u =>
    obtain ⟨o, ho, hcode⟩ := Expr.assigned_update hu
    obtain ⟨line, line', target, rfl, -, -⟩ := Expr.update?_eq_some hu
    rw [Code.namesOwn_append] at h
    rw [hcode, Code.namesOwn_append]
    refine ⟨?_, ?_⟩
    · have hright := h.1
      rw [Expr.code, Code.namesOwn_append, Code.namesOwn_append] at hright
      exact hright.1.2
    · have hslot : Instruction.slot? ⟨o, some (targetOperand name binding)⟩ =
          Instruction.slot? ⟨.store, some (targetOperand name binding)⟩ := by
        cases hop : u.op <;> rw [hop] at ho <;> cases ho <;> rfl
      have hstore := h.2
      rw [Code.namesOwn_iff, List.forall_mem_singleton] at hstore ⊢
      rw [hslot]
      exact hstore

/-- Expressions with aligned code, also where they are assigned. -/
structure Expr.Assigns (ps : Pairs) (e e' : Expr) : Prop where
  code : Code.Aligned ps e.code e'.code
  assigned : ∀ {b b' : Option Binding} (name : String), Binding.Alike ps b b' →
    Code.Aligned ps (e.assigned name b) (e'.assigned name b')

theorem Expr.Assigns.of_plain {ps : Pairs} {e e' : Expr} (h : Code.Aligned ps e.code e'.code)
    (he : ∀ name b, e.update? name b = none) (he' : ∀ name b, e'.update? name b = none) :
    Expr.Assigns ps e e' := by
  refine ⟨h, fun {b b'} name hb => ?_⟩
  rw [Expr.assigned_plain (he name b), Expr.assigned_plain (he' name b')]
  exact h.append (hb.target name rfl)

/-- Operations on one variable and aligned code. -/
theorem Expr.Assigns.of_variable {ps : Pairs} (hp : ps.Apart) {line l : Nat} {op : BinaryOp}
    {read : String} {c c' : Option Binding} (hc : Binding.Alike ps c c') {right right' : Expr}
    (hright : Code.Aligned ps right.code right'.code) (target : Option Binding) :
    Expr.Assigns ps (.binary line op (.variable l read c) right target)
      (.binary line op (.variable l read c') right' target) := by
  have hcode : Code.Aligned ps (Expr.binary line op (.variable l read c) right target).code
      (Expr.binary line op (.variable l read c') right' target).code :=
    ((hc.load read).append hright).append (.single (.same (Instruction.slot?_plain _)))
  refine ⟨hcode, fun {b b'} name hb => ?_⟩
  have hiff : (op.updates && read == name && c == b) =
      (op.updates && read == name && c' == b') := by
    rw [Bool.eq_iff_iff, Bool.and_eq_true, Bool.and_eq_true _ (c' == b'), beq_iff_eq, beq_iff_eq,
      hc.eq_iff hp hb]
  have hupdate : ∀ {c b : Option Binding} {right : Expr},
      (Expr.binary line op (.variable l read c) right target).update? name b =
        if op.updates && read == name && c == b then b.map fun t => ⟨op, right, t⟩ else none :=
    rfl
  have hplain := hcode.append (hb.target name (o := .store) rfl)
  cases hcond : (op.updates && read == name && c == b) with
  | false =>
    rw [Expr.assigned_plain (by rw [hupdate, hcond]; rfl),
      Expr.assigned_plain (by rw [hupdate, ← hiff, hcond]; rfl)]
    exact hplain
  | true =>
    have hcond' := hiff.symm.trans hcond
    rcases hb.none_or_some with ⟨rfl, rfl⟩ | ⟨t, t', rfl, rfl⟩
    · rw [Expr.assigned_plain (by rw [hupdate, hcond]; rfl),
        Expr.assigned_plain (by rw [hupdate, hcond']; rfl)]
      exact hplain
    · obtain ⟨o, ho, hassigned⟩ := Expr.assigned_update (show Expr.update? name (some t)
        (.binary line op (.variable l read c) right target) = some ⟨op, right, t⟩ by
          rw [hupdate, hcond]; rfl)
      obtain ⟨o', ho', hassigned'⟩ := Expr.assigned_update (show Expr.update? name (some t')
        (.binary line op (.variable l read c') right' target) = some ⟨op, right', t'⟩ by
          rw [hupdate, hcond']; rfl)
      obtain rfl := Option.some.inj (ho.symm.trans ho')
      rw [hassigned, hassigned']
      exact hright.append (hb.target name (Opcode.addresses_of_update? ho))

/-- A value that is assigned is an operation on a variable, or no update on either side. -/
theorem Expr.resolve_assigns (fs : List TwinFrame) (e : Expr) :
    Relates fs e.resolve e.resolve (Expr.Assigns (allPairs fs)) := by
  have hcases : (∃ line op l read b right target,
      e = .binary line op (.variable l read b) right target) ∨
      ∀ s name b, (e.resolve s).1.update? name b = none := by
    cases e with
    | binary line op left right target =>
      cases left with
      | «variable» l read b => exact .inl ⟨line, op, l, read, b, right, target, rfl⟩
      | _ => exact .inr fun _ _ _ => rfl
    | _ => exact .inr fun _ _ _ => rfl
  refine .of_apart fun hp => ?_
  rcases hcases with ⟨line, op, l, read, b, right, target, rfl⟩ | hplain
  · refine ((use_relates fs read _).bind fun c c' hc => .pure
      (Q := fun e₁ e₂ => ∃ c c', e₁ = Expr.variable l read c ∧ e₂ = Expr.variable l read c' ∧
        Binding.Alike (allPairs fs) c c') ⟨c, c', rfl, rfl, hc⟩).bind ?_
    rintro _ _ ⟨c, c', rfl, rfl, hc⟩
    exact (right.resolve_relates fs).bind fun _ _ h => .pure (.of_variable hp hc h target)
  · intro s s' hs
    obtain ⟨hcode, hs'⟩ := e.resolve_relates fs s s' hs
    exact ⟨.of_plain hcode (hplain s) (hplain s'), hs'⟩

/-! ### Statements -/

/-- Two results of a member of a class. -/
def Stmt.Joins (keeps : Bool) (ps : Pairs) (own : List Nat) (s s₁ s₂ : Stmt) : Prop :=
  (s.isMethod = true → s.freedSlots = []) → s₁.namesOwn own = true →
    ∀ {ss₁ ss₂ : List Stmt}, Stmt.MembersAligned keeps ps ss₁ ss₂ →
      Stmt.MembersAligned keeps ps (s₁ :: ss₁) (s₂ :: ss₂)

/-- Two results of a statement that declares no variable. -/
structure Stmt.Settles (keeps : Bool) (ps : Pairs) (own : List Nat) (s s₁ s₂ : Stmt) : Prop where
  declared : s₁.declared = []
  statement : s.freedSlots = [] → s₁.namesOwn own = true → Stmt.Aligned keeps ps s₁ s₂ ps
  member : Stmt.Joins keeps ps own s s₁ s₂

/-- Two results of a statement, behind which its frame may have got a variable. -/
structure Stmt.Extends (keeps : Bool) (fs : List TwinFrame) (own : List Nat) (s : Stmt)
    (fs₂ : List TwinFrame) (s₁ s₂ : Stmt) : Prop where
  declared : s₁.declared ++ own ⊆ (reach fs₂).map Prod.fst
  statement : s.freedSlots = [] → s₁.namesOwn own = true →
    Stmt.Aligned keeps (reach fs) s₁ s₂ (reach fs₂)

/-- Two results of statements in sequence. -/
def Stmt.AllExtend (keeps : Bool) (fs : List TwinFrame) (own : List Nat) (ss : List Stmt)
    (fs₂ : List TwinFrame) (ss₁ ss₂ : List Stmt) : Prop :=
  Stmt.freedSlotsAll ss = [] → Stmt.allNameOwn own ss₁ = true →
    Stmt.AllAligned keeps (reach fs) ss₁ ss₂ (reach fs₂)

/-- Two results of what follows the body of an `if`. -/
def Rest.Settles (keeps : Bool) (ps : Pairs) (own : List Nat) (r r₁ r₂ : Rest) : Prop :=
  r.freedSlots = [] → r₁.namesOwn own = true → Rest.Aligned keeps ps r₁ r₂

/-- Two results of a body. -/
def Block.Settles (keeps : Bool) (ps : Pairs) (own : List Nat) (b b₁ b₂ : Block) : Prop :=
  b.freedSlots = [] → b₁.namesOwn own = true → Block.Aligned keeps ps b₁ b₂

/-- Two results of the members of a class. -/
def Block.MembersSettle (keeps : Bool) (ps : Pairs) (own : List Nat) (b b₁ b₂ : Block) : Prop :=
  b.memberSlots = [] → b₁.membersNameOwn own = true →
    Stmt.MembersAligned keeps ps b₁.statements b₂.statements

/-- A statement that makes no member of a class. -/
theorem Stmt.Settles.of_other {ps : Pairs} {s s₁ s₂ : Stmt} (declared : s₁.declared = [])
    (statement : s.freedSlots = [] → s₁.namesOwn own = true → Stmt.Aligned keeps ps s₁ s₂ ps)
    (hs : s₁.field? = none ∧ s₁.isMethod = false) (hs' : s₂.field? = none ∧ s₂.isMethod = false) :
    Stmt.Settles keeps ps own s s₁ s₂ :=
  ⟨declared, statement, fun _ _ => .other hs.1 hs.2 hs'.1 hs'.2⟩

theorem discarding_aligned {ps : Pairs} (keeps : Bool) :
    Code.Aligned ps (discarding keeps) (discarding keeps) := by
  cases keeps with
  | true => exact .nil
  | false => exact .single (.same rfl)

/-- Code that names only what is in reach. -/
theorem Code.Aligned.reached {c c' : Code} (h : Code.Aligned (allPairs fs) c c')
    (hp : (allPairs fs).Apart) (hown : own ⊆ (reach fs).map Prod.fst)
    (hc : c.namesOwn own = true) : Code.Aligned (reach fs) c c' :=
  h.restrict hp (reach_subset fs) hown hc

namespace Resolve

variable {α γ : Type}

/-- Two ways of resolving give results that are related, and add to the innermost frame. -/
def Extends (fs : List TwinFrame) (x y : Resolve α) (Q : List TwinFrame → α → α → Prop) : Prop :=
  ∀ s s' : Scope, s.Beside fs s' →
    ∃ ls, Q (extend ls fs) (x s).1 (y s').1 ∧ Scope.Beside (extend ls fs) (x s).2 (y s').2

theorem Relates.extends {x y : Resolve α} {P : α → α → Prop} {Q : List TwinFrame → α → α → Prop}
    (h : Relates fs x y P) (hQ : ∀ a b, P a b → Q fs a b) : Extends fs x y Q := by
  intro s s' hs
  obtain ⟨hp, hs⟩ := h s s' hs
  refine ⟨[], ?_⟩
  rw [extend_nil]
  exact ⟨hQ _ _ hp, hs⟩

theorem Relates.bind_extends {x y : Resolve α} {f g : α → Resolve γ} {P : α → α → Prop}
    {Q : List TwinFrame → γ → γ → Prop} (h : Relates fs x y P)
    (hf : ∀ a b, P a b → Extends fs (f a) (g b) Q) : Extends fs (x >>= f) (y >>= g) Q := by
  intro s s' hs
  obtain ⟨hp, hs⟩ := h s s' hs
  exact hf _ _ hp _ _ hs

theorem Extends.of_apart {x y : Resolve α} {Q : List TwinFrame → α → α → Prop}
    (h : (allPairs fs).Apart → Extends fs x y Q) : Extends fs x y Q :=
  fun s s' hs => h hs.apart s s' hs

theorem Extends.bind_pure {x y : Resolve α} {f g : α → γ} {P : List TwinFrame → α → α → Prop}
    {Q : List TwinFrame → γ → γ → Prop} (h : Extends fs x y P)
    (hQ : ∀ fs₂ a b, P fs₂ a b → Q fs₂ (f a) (g b)) :
    Extends fs (x >>= fun a => pure (f a)) (y >>= fun b => pure (g b)) Q := by
  intro s s' hs
  obtain ⟨ls, hp, hs⟩ := h s s' hs
  exact ⟨ls, hQ _ _ _ hp, hs⟩

/-- Bindings of a variable that is declared. -/
inductive Declared (fs : List TwinFrame) :
    List TwinFrame → Option Binding → Option Binding → Prop
  | global : Declared fs fs (some .global) (some .global)
  | again {a b : Nat} (h : (a, b) ∈ reach fs) : Declared fs fs (some (.slot a)) (some (.slot b))
  | new {fs₂ : List TwinFrame} {a b : Nat} (ha : a ∉ (reach fs).map Prod.fst)
    (hb : b ∉ (reach fs).map Prod.snd) (h : reach fs₂ = (a, b) :: reach fs) :
    Declared fs fs₂ (some (.slot a)) (some (.slot b))

/-- A name is declared. -/
theorem declare_extends (fs : List TwinFrame) (name : String) :
    Extends fs (declare name) (declare name) (Declared fs) := by
  intro s s' hs
  cases fs with
  | nil =>
    have hdeclare : ∀ {side : Nat × Nat → Nat} {s : Scope}, s.Shows side [] →
        s.declare name = (.global, { s with
          globals := if s.globals.contains name then s.globals else s.globals ++ [name] }) := by
      intro side s h
      unfold Scope.declare
      rw [h.frames]
      rfl
    unfold declare
    rw [hdeclare hs.left, hdeclare hs.right]
    refine ⟨[], .global, hs.left.of_eq rfl rfl, hs.right.of_eq rfl rfl, ?_⟩
    show ite _ _ _ = ite _ _ _
    rw [hs.globals]
  | cons f fs =>
    cases hlookup : f.locals.reverse.lookup name with
    | some p =>
      unfold declare
      rw [hs.left.redeclare hlookup, hs.right.redeclare hlookup]
      have hp : p ∈ f.pairs := List.mem_map_of_mem (f := Prod.snd)
        (List.mem_reverse.mp (mem_of_lookup_eq_some hlookup))
      exact ⟨[], .again (List.mem_append_left _ hp), hs.counted⟩
    | none =>
      obtain ⟨hb, hleft, hglobals⟩ :=
        hs.left.declare (p := (s.pool.allocate.1, s'.pool.allocate.1)) hlookup rfl
      obtain ⟨hb', hright, hglobals'⟩ :=
        hs.right.declare (p := (s.pool.allocate.1, s'.pool.allocate.1)) hlookup rfl
      have hbeside : Scope.Beside _ (s.declare name).2 (s'.declare name).2 :=
        ⟨hleft, hright, hglobals.trans (hs.globals.trans hglobals'.symm)⟩
      unfold declare
      refine ⟨[(name, s.pool.allocate.1, s'.pool.allocate.1)], ?_, hbeside.counted⟩
      dsimp only
      rw [hb, hb']
      have hsub := reach_subset (f :: fs)
      -- a new slot is held by nobody else, in reach or not
      exact .new
        (fun h => (List.nodup_cons.mp hbeside.apart.left).1 (List.map_subset Prod.fst hsub h))
        (fun h => (List.nodup_cons.mp hbeside.apart.right).1 (List.map_subset Prod.snd hsub h))
        (reach_extend_cons _ f fs)

end Resolve

/-! ### Bodies -/

theorem Stmt.AllAligned.append {ps qs rs : Pairs} {ss ss' ts ts' : List Stmt}
    (h : Stmt.AllAligned keeps ps ss ss' qs) (h' : Stmt.AllAligned keeps qs ts ts' rs) :
    Stmt.AllAligned keeps ps (ss ++ ts) (ss' ++ ts') rs := by
  induction ss generalizing ps ss' with
  | nil =>
    cases h
    exact h'
  | cons s ss ih =>
    cases h with
    | cons hs h => exact .cons hs (ih h)

theorem Stmt.freedSlotsAll_append (ss ts : List Stmt) :
    freedSlotsAll (ss ++ ts) = freedSlotsAll ss ++ freedSlotsAll ts := by
  induction ss with
  | nil => rfl
  | cons s ss ih => rw [List.cons_append, freedSlotsAll, freedSlotsAll, ih, List.append_assoc]

/-- The statements that end local variables. -/
theorem Stmt.freedSlotsAll_frees (line : Nat) (locals : List (String × Nat)) :
    freedSlotsAll (locals.map fun d => .free line d.1 d.2) = locals.map Prod.snd := by
  induction locals with
  | nil => rfl
  | cons d locals ih =>
    rw [List.map_cons, List.map_cons, freedSlotsAll, ih]
    rfl

/-- The statements that end the local variables of a frame, on one side. -/
def Stmt.frees (line : Nat) (side : Nat × Nat → Nat) (ls : List (String × Nat × Nat)) : List Stmt :=
  (ls.map fun d => (d.1, side d.2)).reverse.map fun d => .free line d.1 d.2

theorem Stmt.mem_freedSlotsAll_frees {line : Nat} {side : Nat × Nat → Nat}
    {ls : List (String × Nat × Nat)} {p : Nat × Nat} (hp : p ∈ ls.map Prod.snd) :
    side p ∈ freedSlotsAll (frees line side ls) := by
  rw [frees, freedSlotsAll_frees, List.map_reverse, List.mem_reverse, List.map_map]
  obtain ⟨d, hd, rfl⟩ := List.mem_map.mp hp
  exact List.mem_map_of_mem (f := fun d => side d.2) hd

theorem Stmt.frees_aligned {ps : Pairs} (line : Nat) {ls : List (String × Nat × Nat)}
    (h : ls.map Prod.snd ⊆ ps) :
    Stmt.AllAligned keeps ps (frees line Prod.fst ls) (frees line Prod.snd ls) ps := by
  induction ls with
  | nil => exact .nil
  | cons d ls ih =>
    obtain ⟨hd, h⟩ := List.cons_subset.mp h
    have hcons : ∀ side : Nat × Nat → Nat,
        frees line side (d :: ls) = frees line side ls ++ [.free line d.1 (side d.2)] := by
      intro side
      rw [frees, List.map_cons, List.reverse_cons, List.map_append]
      rfl
    rw [hcons, hcons]
    exact (ih h).append (.cons (.acts rfl rfl (.single (.moved hd rfl))) .nil)

/-- A body that ends the variables that it declares. -/
theorem Block.Aligned.of_frees {ps : Pairs} (line : Nat) {ls : List (String × Nat × Nat)}
    {ss ss' : List Stmt} (h : Stmt.AllAligned keeps ps ss ss' (ls.map Prod.snd ++ ps)) :
    Block.Aligned keeps ps (.mk line (ss ++ Stmt.frees line Prod.fst ls))
      (.mk line (ss' ++ Stmt.frees line Prod.snd ls)) := by
  refine .mk (h.append (Stmt.frees_aligned line (List.subset_append_left _ _))) fun q hq => ?_
  rw [Stmt.freedSlotsAll_append, Stmt.freedSlotsAll_append]
  rcases List.mem_append.mp hq with hq | hq
  · exact .inr ⟨List.mem_append_right _ (Stmt.mem_freedSlotsAll_frees hq),
      List.mem_append_right _ (Stmt.mem_freedSlotsAll_frees hq)⟩
  · exact .inl hq

theorem Scope.pop_globals (s : Scope) : s.pop.2.globals = s.globals := by
  unfold Scope.pop
  cases s.frames <;> rfl

/-- A body ends the variables that its frame has got. -/
theorem Resolve.inFrame_relates {x y : Resolve (List Stmt)} {params : List String}
    {ofFunction : Bool} {ss : List Stmt} (line : Nat)
    (h : Extends (opened params ofFunction :: fs) x y
      (Stmt.AllExtend keeps (opened params ofFunction :: fs) own ss)) :
    Relates fs (inFrame params line x) (inFrame params line y)
      (Block.Settles keeps (reach (opened params ofFunction :: fs)) own (.mk line ss)) := by
  intro s s' hs
  obtain ⟨ls, hss, hbeside⟩ := h (s.push params) (s'.push params)
    ⟨hs.left.push params ofFunction, hs.right.push params ofFunction, hs.globals⟩
  obtain ⟨hlocals, hleft⟩ := hbeside.left.pop
  obtain ⟨hlocals', hright⟩ := hbeside.right.pop
  refine ⟨fun hfreed hown => ?_, hleft, hright,
    (Scope.pop_globals _).trans (hbeside.globals.trans (Scope.pop_globals _).symm)⟩
  have hall := hss hfreed (Stmt.allNameOwn_of_append hown)
  rw [reach_extend_cons] at hall
  show Block.Aligned keeps _
    (.mk line ((x (s.push params)).1 ++ (x (s.push params)).2.pop.1.map _))
    (.mk line ((y (s'.push params)).1 ++ (y (s'.push params)).2.pop.1.map _))
  rw [hlocals, hlocals', show (opened params ofFunction).locals = [] from rfl, List.append_nil]
  exact .of_frees line hall

/-! ### Whole trees -/

/-- A statement that declares nothing is resolved in one way as a statement and as a member. -/
theorem Resolve.Relates.both {x y : Resolve Stmt} {s : Stmt}
    (hown : own ⊆ (reach fs).map Prod.fst)
    (h : Relates fs x y (Stmt.Settles keeps (reach fs) own s)) :
    Relates fs x y (Stmt.Joins keeps (reach fs) own s) ∧
      Extends fs x y (Stmt.Extends keeps fs own s) :=
  ⟨h.imp fun _ _ h => h.member,
    h.extends fun _ _ h => ⟨by rw [h.declared]; exact hown, h.statement⟩⟩

/-- Resolving a declaration. -/
theorem Stmt.resolve_declare_extends (hp : (allPairs fs).Apart)
    (hown : own ⊆ (reach fs).map Prod.fst) (line : Nat) (name : String) {e e₁ e₂ : Option Expr}
    {binding : Option Binding}
    (h : Code.Aligned (allPairs fs) (Expr.codeOrNull e₁) (Expr.codeOrNull e₂)) :
    Resolve.Extends fs (do return Stmt.declare line name e₁ (← Resolve.declare name))
      (do return Stmt.declare line name e₂ (← Resolve.declare name))
      (Stmt.Extends keeps fs own (.declare line name e binding)) := by
  refine (declare_extends fs name).bind_pure fun fs₂ b₁ b₂ hdeclared => ?_
  have hcode : ∀ {b : Option Binding}, (Stmt.declare line name e₁ b).namesOwn own = true →
      Code.Aligned (reach fs) (Expr.codeOrNull e₁) (Expr.codeOrNull e₂) :=
    fun hnames => h.reached hp hown hnames
  cases hdeclared with
  | global =>
    exact ⟨hown, fun _ hnames =>
      .acts rfl rfl ((hcode hnames).append (.single (.same rfl)))⟩
  | again hab =>
    exact ⟨List.cons_subset.mpr ⟨List.mem_map_of_mem (f := Prod.fst) hab, hown⟩, fun _ hnames =>
      .acts rfl rfl ((hcode hnames).append (.single (.moved hab rfl)))⟩
  | new ha hb hreach =>
    refine ⟨?_, fun _ hnames => ?_⟩
    · rw [hreach]
      exact List.cons_subset_cons _ hown
    · rw [hreach]
      exact .declare (hcode hnames) ha hb

theorem Code.namesOwn_and {c d : Code} (h : (c.namesOwn own && d.namesOwn own) = true) :
    c.namesOwn own = true ∧ d.namesOwn own = true := by rwa [Bool.and_eq_true] at h

mutual

/-- Resolving a statement, as a member of a class and as a statement of a body. -/
theorem Stmt.resolve_relates (keeps : Bool) (fs : List TwinFrame) (own : List Nat)
    (hown : own ⊆ (reach fs).map Prod.fst) : (s : Stmt) →
    Relates fs (s.resolve true) (s.resolve true) (Stmt.Joins keeps (reach fs) own s) ∧
      Resolve.Extends fs (s.resolve false) (s.resolve false) (Stmt.Extends keeps fs own s)
  | .declare line name init binding => by
    refine ⟨.of_apart fun hp => (Expr.resolveOption_relates fs init).bind fun _ _ h => .pure ?_,
      .of_apart fun hp => (Expr.resolveOption_relates fs init).bind_extends fun _ _ h =>
        Stmt.resolve_declare_extends hp hown line name h⟩
    exact fun _ hnames => .field rfl rfl (h.reached hp hown hnames)
  | .value e => by
    refine Relates.both hown (.of_apart fun hp => (e.resolve_relates fs).bind fun _ _ h => .pure ?_)
    exact .of_other rfl (fun _ hnames =>
      .acts rfl rfl ((h.reached hp hown hnames).append (discarding_aligned keeps)))
      ⟨rfl, rfl⟩ ⟨rfl, rfl⟩
  | .assign line name e _ => by
    refine Relates.both hown (.of_apart fun hp => (e.resolve_assigns fs).bind fun _ _ h =>
      (use_relates fs name _).bind fun _ _ h' => .pure ?_)
    refine ⟨rfl, fun _ hnames => ?_, fun _ hnames => ?_⟩
    · exact .acts rfl rfl ((h.assigned name h').reached hp hown (Expr.namesOwn_assigned hnames))
    · exact .field rfl rfl (h.code.reached hp hown (Code.namesOwn_append.mp hnames).1)
  | .setField line receiver name e => by
    refine Relates.both hown (.of_apart fun hp => (receiver.resolve_relates fs).bind fun _ _ h =>
      (e.resolve_relates fs).bind fun _ _ h' => .pure ?_)
    refine ⟨rfl, fun _ hnames => ?_, fun _ hnames => ?_⟩ <;>
      obtain ⟨hreceiver, hvalue⟩ := Code.namesOwn_and hnames
    · exact .acts rfl rfl ((((h.reached hp hown hreceiver).append (.single (.same rfl))).append
        (h'.reached hp hown hvalue)).append (.cons (.same rfl) (.cons (.same rfl) .nil)))
    · exact .field rfl rfl (h'.reached hp hown hvalue)
  | .print line e => by
    refine Relates.both hown (.of_apart fun hp => (e.resolve_relates fs).bind fun _ _ h => .pure ?_)
    exact .of_other rfl (fun _ hnames =>
      .acts rfl rfl ((h.reached hp hown hnames).append (.single (.same rfl))))
      ⟨rfl, rfl⟩ ⟨rfl, rfl⟩
  | .branch line condition body rest => by
    refine Relates.both hown (.of_apart fun hp => (condition.resolve_relates fs).bind fun _ _ h =>
      (body.resolveBody_relates keeps fs [] false own hown).bind fun _ _ h' =>
        (rest.resolve_relates keeps fs own hown).bind fun _ _ h'' => .pure ?_)
    refine .of_other rfl (fun hfreed hnames => ?_) ⟨rfl, rfl⟩ ⟨rfl, rfl⟩
    obtain ⟨hbody, hrest⟩ := List.append_eq_nil_iff.mp hfreed
    rw [Stmt.namesOwn, Bool.and_eq_true, Bool.and_eq_true] at hnames
    exact .branch (h.reached hp hown hnames.1) (h' hbody hnames.2.1) (h'' hrest hnames.2.2)
  | .loop line condition body => by
    refine Relates.both hown (.of_apart fun hp => (condition.resolve_relates fs).bind fun _ _ h =>
      (body.resolveBody_relates keeps fs [] false own hown).bind fun _ _ h' => .pure ?_)
    refine .of_other rfl (fun hfreed hnames => ?_) ⟨rfl, rfl⟩ ⟨rfl, rfl⟩
    rw [Stmt.namesOwn, Bool.and_eq_true] at hnames
    exact .loop (h.reached hp hown hnames.1) (h' hfreed hnames.2)
  | .function line name params body => by
    refine Relates.both hown
      ((body.resolveBody_relates keeps fs params true [] (List.nil_subset _)).bind fun _ _ h =>
        .pure ?_)
    exact ⟨rfl, fun hfreed hnames => .function (h hfreed hnames),
      fun hfreed hnames => .method (h (hfreed rfl) hnames)⟩
  | .classDecl line name parent members => by
    refine Relates.both hown
      ((members.resolveMembers_relates keeps fs own hown).bind fun b b' h => .pure ?_)
    obtain ⟨l, ss⟩ := b
    obtain ⟨l', ss'⟩ := b'
    exact .of_other rfl (fun hfreed hnames => .classDecl (h hfreed hnames)) ⟨rfl, rfl⟩ ⟨rfl, rfl⟩
  | .returns line e => by
    refine Relates.both hown
      (.of_apart fun hp => (Expr.resolveOption_relates fs e).bind fun _ _ h => .pure ?_)
    exact .of_other rfl (fun _ hnames => .returns (h.reached hp hown hnames))
      ⟨rfl, rfl⟩ ⟨rfl, rfl⟩
  | .continues _ => Relates.both hown (.pure
      (.of_other rfl (fun _ _ => .continues) ⟨rfl, rfl⟩ ⟨rfl, rfl⟩))
  | .breaks _ => Relates.both hown (.pure
      (.of_other rfl (fun _ _ => .breaks) ⟨rfl, rfl⟩ ⟨rfl, rfl⟩))
  | .free _ _ slot => Relates.both hown (.pure
      (.of_other rfl (fun hfreed => absurd hfreed (List.cons_ne_nil slot [])) ⟨rfl, rfl⟩ ⟨rfl, rfl⟩))

theorem Rest.resolve_relates (keeps : Bool) (fs : List TwinFrame) (own : List Nat)
    (hown : own ⊆ (reach fs).map Prod.fst) : (r : Rest) →
    Relates fs r.resolve r.resolve (Rest.Settles keeps (reach fs) own r)
  | .nothing => .pure fun _ _ => .nothing
  | .elseIf line condition body rest => by
    refine .of_apart fun hp => (condition.resolve_relates fs).bind fun _ _ h =>
      (body.resolveBody_relates keeps fs [] false own hown).bind fun _ _ h' =>
        (rest.resolve_relates keeps fs own hown).bind fun _ _ h'' => .pure fun hfreed hnames => ?_
    obtain ⟨hbody, hrest⟩ := List.append_eq_nil_iff.mp hfreed
    rw [Rest.namesOwn, Bool.and_eq_true, Bool.and_eq_true] at hnames
    exact .elseIf (h.reached hp hown hnames.1) (h' hbody hnames.2.1) (h'' hrest hnames.2.2)
  | .otherwise body =>
    (body.resolveBody_relates keeps fs [] false own hown).bind fun _ _ h =>
      .pure fun hfreed hnames => .otherwise (h hfreed hnames)

theorem Block.resolveBody_relates (keeps : Bool) (fs : List TwinFrame) (params : List String)
    (ofFunction : Bool) (own : List Nat)
    (hown : own ⊆ (reach (opened params ofFunction :: fs)).map Prod.fst) : (b : Block) →
    Relates fs (b.resolveBody params) (b.resolveBody params)
      (Block.Settles keeps (reach (opened params ofFunction :: fs)) own b)
  | .mk line ss => inFrame_relates line (Stmt.resolveAll_extends keeps _ own hown ss)

theorem Block.resolveMembers_relates (keeps : Bool) (fs : List TwinFrame) (own : List Nat)
    (hown : own ⊆ (reach fs).map Prod.fst) : (b : Block) →
    Relates fs (b.resolve true) (b.resolve true) (Block.MembersSettle keeps (reach fs) own b)
  | .mk _ ss => (Stmt.resolveEach_relates keeps fs own hown ss).bind fun _ _ h => .pure h

theorem Stmt.resolveAll_extends (keeps : Bool) (fs : List TwinFrame) (own : List Nat)
    (hown : own ⊆ (reach fs).map Prod.fst) : (ss : List Stmt) →
    Resolve.Extends fs (Stmt.resolveAll false ss) (Stmt.resolveAll false ss)
      (Stmt.AllExtend keeps fs own ss)
  | [] => by
    refine (Relates.pure (Q := fun ss₁ ss₂ => ss₁ = [] ∧ ss₂ = []) ⟨rfl, rfl⟩).extends ?_
    rintro _ _ ⟨rfl, rfl⟩
    exact fun _ _ => .nil
  | s :: ss => by
    intro scope scope' hs
    obtain ⟨ls, hstep, hs⟩ := (s.resolve_relates keeps fs own hown).2 scope scope' hs
    obtain ⟨ls', hall, hs⟩ := Stmt.resolveAll_extends keeps _ _ hstep.declared ss _ _ hs
    rw [extend_extend] at hall hs
    refine ⟨ls' ++ ls, fun hfreed hnames => ?_, hs⟩
    obtain ⟨hfirst, hrest⟩ := List.append_eq_nil_iff.mp hfreed
    obtain ⟨hnames, hnames'⟩ := (Bool.and_eq_true _ _).mp hnames
    exact .cons (hstep.statement hfirst hnames) (hall hrest hnames')

theorem Stmt.resolveEach_relates (keeps : Bool) (fs : List TwinFrame) (own : List Nat)
    (hown : own ⊆ (reach fs).map Prod.fst) : (ss : List Stmt) →
    Relates fs (Stmt.resolveAll true ss) (Stmt.resolveAll true ss)
      (fun ss₁ ss₂ => Stmt.memberSlotsAll ss = [] → Stmt.eachNamesOwn own ss₁ = true →
        Stmt.MembersAligned keeps (reach fs) ss₁ ss₂)
  | [] => .pure fun _ _ => .nil
  | s :: ss => by
    refine (s.resolve_relates keeps fs own hown).1.bind fun _ _ h =>
      (Stmt.resolveEach_relates keeps fs own hown ss).bind fun _ _ h' =>
        .pure fun hfreed hnames => ?_
    obtain ⟨hnames, hnames'⟩ := (Bool.and_eq_true _ _).mp hnames
    have hsplit : (s.isMethod = true → s.freedSlots = []) ∧ Stmt.memberSlotsAll ss = [] := by
      cases s with
      | function line name params body =>
        obtain ⟨hbody, hss⟩ := List.append_eq_nil_iff.mp hfreed
        exact ⟨fun _ => hbody, hss⟩
      | _ => exact ⟨(nomatch ·), hfreed⟩
    exact h hsplit.1 hnames (h' hsplit.2 hnames')

end

/-- A tree that is resolved with and without giving slots back. -/
theorem Block.resolve_aligned (keeps reuses reuses' : Bool) (globals : List String) {root : Block}
    (h : root.freedSlots = [])
    (hown : ((root.resolve false).run { Scope.start globals with reuses }).1.namesOwn [] = true) :
    Block.Aligned keeps [] ((root.resolve false).run { Scope.start globals with reuses }).1
      ((root.resolve false).run { Scope.start globals with reuses := reuses' }).1 := by
  obtain ⟨line, ss⟩ := root
  obtain ⟨ls, hall, -⟩ := Stmt.resolveAll_extends keeps [] [] (List.nil_subset _) ss _ _
    (.start globals reuses reuses')
  exact .mk (hall h hown) fun q hq => absurd hq List.not_mem_nil

end StackScript
