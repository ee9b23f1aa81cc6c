import StackScript.Scope

/-!
# StackScript.Proofs.Scoped — local variables are written before they are read

A tree is scoped at a number of slots if every local variable that it reads has a slot below that
number, or was declared before in the same block or in a block around it.  The functions declared
in a block are scoped at what is declared there before them.

Resolving gives a tree that is scoped: a frame lists only variables that were declared in it, and
the declaration stands before the names that refer to it.
-/

namespace StackScript

/-! ### Scoped trees -/

/-- A binding that is read needs a slot below `k`; a parameter has an ordinal. -/
def Binding.SetBelow (k : Nat) : Binding → Prop
  | .slot id => id < k
  | .param ordinal => 0 < ordinal
  | .global => True

theorem Binding.SetBelow.mono {k k' : Nat} (hk : k ≤ k') {b : Binding} (h : b.SetBelow k) :
    b.SetBelow k' := by
  cases b with
  | slot id => exact Nat.lt_of_lt_of_le h hk
  | param ordinal => exact h
  | global => trivial

mutual

/-- The local variables that an expression reads have slots below `k`. -/
def Expr.Scoped (k : Nat) : Expr → Prop
  | .variable _ _ binding => ∀ b ∈ binding, b.SetBelow k
  | .list _ items => Expr.ScopedAll k items
  | .map _ entries => Expr.ScopedPairs k entries
  | .field _ receiver _ => receiver.Scoped k
  | .binary _ _ left right _ => left.Scoped k ∧ right.Scoped k
  | .unary _ _ operand => operand.Scoped k
  | .call _ _ args => Expr.ScopedAll k args
  | .method _ receiver _ args => Expr.ScopedAll k args ∧ receiver.Scoped k
  | .create _ _ args => Expr.ScopedAll k args
  | .number _ _ | .text _ _ | .boolean _ _ | .null _ | .this _ | .super _ => True

/-- Expressions that are scoped. -/
def Expr.ScopedAll (k : Nat) : List Expr → Prop
  | [] => True
  | e :: es => e.Scoped k ∧ Expr.ScopedAll k es

/-- Keys and values that are scoped. -/
def Expr.ScopedPairs (k : Nat) : List (Expr × Expr) → Prop
  | [] => True
  | (key, e) :: es => key.Scoped k ∧ e.Scoped k ∧ Expr.ScopedPairs k es

end

/-- An expression that is scoped, if it is there. -/
def Expr.ScopedOption (k : Nat) (e : Option Expr) : Prop := ∀ e' ∈ e, e'.Scoped k

/-- How many slots are written at least, after a statement at which `k` are. -/
def Stmt.setting (k : Nat) : Stmt → Nat
  | .declare _ _ _ (some (.slot id)) => max k (id + 1)
  | _ => k

theorem Stmt.le_setting (k : Nat) (s : Stmt) : k ≤ s.setting k := by
  unfold setting
  split
  · exact Nat.le_max_left k _
  · exact Nat.le_refl k

theorem Stmt.setting_mono {k k' : Nat} (hk : k ≤ k') (s : Stmt) : s.setting k ≤ s.setting k' := by
  unfold setting
  split <;> omega

mutual

/-- Every local variable that a statement reads is written before, if `k` slots are. -/
def Stmt.Scoped (k : Nat) : Stmt → Prop
  | .value e => e.Scoped k
  | .declare _ _ init _ => Expr.ScopedOption k init
  | .assign _ _ e _ => e.Scoped k
  | .setField _ receiver _ e => receiver.Scoped k ∧ e.Scoped k
  | .print _ e => e.Scoped k
  | .branch _ condition body rest => condition.Scoped k ∧ body.Scoped k ∧ rest.Scoped k
  | .loop _ condition body => condition.Scoped k ∧ body.Scoped k
  | .function _ _ _ body => body.Scoped k
  | .classDecl _ _ _ members => members.ScopedMembers k
  | .returns _ e => Expr.ScopedOption k e
  | .continues _ | .breaks _ | .free _ _ _ => True

/-- What follows the body of an `if` is scoped. -/
def Rest.Scoped (k : Nat) : Rest → Prop
  | .nothing => True
  | .elseIf _ condition body rest => condition.Scoped k ∧ body.Scoped k ∧ rest.Scoped k
  | .otherwise body => body.Scoped k

/-- The statements of a block are scoped, each after those before it. -/
def Block.Scoped (k : Nat) : Block → Prop
  | .mk _ statements => Stmt.ScopedAll k statements

/-- Statements are scoped, each after those before it. -/
def Stmt.ScopedAll (k : Nat) : List Stmt → Prop
  | [] => True
  | s :: ss => s.Scoped k ∧ Stmt.ScopedAll (s.setting k) ss

/-- The members of a class are scoped; a member declares no variable. -/
def Block.ScopedMembers (k : Nat) : Block → Prop
  | .mk _ members => Stmt.ScopedEach k members

/-- Each of the statements is scoped by itself. -/
def Stmt.ScopedEach (k : Nat) : List Stmt → Prop
  | [] => True
  | s :: ss => s.Scoped k ∧ Stmt.ScopedEach k ss

end

/-! ### More slots -/

section
variable {k k' : Nat}

mutual

theorem Expr.scoped_mono (hk : k ≤ k') : (e : Expr) → e.Scoped k → e.Scoped k'
  | .variable _ _ _, h => fun b hb => (h b hb).mono hk
  | .list _ items, h => Expr.scopedAll_mono hk items h
  | .map _ entries, h => Expr.scopedPairs_mono hk entries h
  | .field _ receiver _, h => receiver.scoped_mono hk h
  | .binary _ _ left right _, h => ⟨left.scoped_mono hk h.1, right.scoped_mono hk h.2⟩
  | .unary _ _ operand, h => operand.scoped_mono hk h
  | .call _ _ args, h => Expr.scopedAll_mono hk args h
  | .method _ receiver _ args, h => ⟨Expr.scopedAll_mono hk args h.1, receiver.scoped_mono hk h.2⟩
  | .create _ _ args, h => Expr.scopedAll_mono hk args h
  | .number _ _, _ | .text _ _, _ | .boolean _ _, _ | .null _, _ | .this _, _ | .super _, _ =>
    trivial

theorem Expr.scopedAll_mono (hk : k ≤ k') :
    (es : List Expr) → Expr.ScopedAll k es → Expr.ScopedAll k' es
  | [], _ => trivial
  | e :: es, h => ⟨e.scoped_mono hk h.1, Expr.scopedAll_mono hk es h.2⟩

theorem Expr.scopedPairs_mono (hk : k ≤ k') :
    (es : List (Expr × Expr)) → Expr.ScopedPairs k es → Expr.ScopedPairs k' es
  | [], _ => trivial
  | (key, e) :: es, h =>
    ⟨key.scoped_mono hk h.1, e.scoped_mono hk h.2.1, Expr.scopedPairs_mono hk es h.2.2⟩

end

theorem Expr.ScopedOption.mono (hk : k ≤ k') {e : Option Expr} (h : Expr.ScopedOption k e) :
    Expr.ScopedOption k' e := fun e' he => e'.scoped_mono hk (h e' he)

end

mutual

theorem Stmt.scoped_mono {k k' : Nat} (hk : k ≤ k') : (s : Stmt) → s.Scoped k → s.Scoped k'
  | .value e, h => e.scoped_mono hk h
  | .declare _ _ _ _, h => Expr.ScopedOption.mono hk h
  | .assign _ _ e _, h => e.scoped_mono hk h
  | .setField _ receiver _ e, h => ⟨receiver.scoped_mono hk h.1, e.scoped_mono hk h.2⟩
  | .print _ e, h => e.scoped_mono hk h
  | .branch _ condition body rest, h =>
    ⟨condition.scoped_mono hk h.1, body.scoped_mono hk h.2.1, rest.scoped_mono hk h.2.2⟩
  | .loop _ condition body, h => ⟨condition.scoped_mono hk h.1, body.scoped_mono hk h.2⟩
  | .function _ _ _ body, h => body.scoped_mono hk h
  | .classDecl _ _ _ members, h => members.scopedMembers_mono hk h
  | .returns _ _, h => Expr.ScopedOption.mono hk h
  | .continues _, _ | .breaks _, _ | .free _ _ _, _ => trivial

theorem Rest.scoped_mono {k k' : Nat} (hk : k ≤ k') : (r : Rest) → r.Scoped k → r.Scoped k'
  | .nothing, _ => trivial
  | .elseIf _ condition body rest, h =>
    ⟨condition.scoped_mono hk h.1, body.scoped_mono hk h.2.1, rest.scoped_mono hk h.2.2⟩
  | .otherwise body, h => body.scoped_mono hk h

theorem Block.scoped_mono {k k' : Nat} (hk : k ≤ k') : (b : Block) → b.Scoped k → b.Scoped k'
  | .mk _ statements, h => Stmt.scopedAll_mono hk statements h

theorem Stmt.scopedAll_mono {k k' : Nat} (hk : k ≤ k') :
    (ss : List Stmt) → Stmt.ScopedAll k ss → Stmt.ScopedAll k' ss
  | [], _ => trivial
  | s :: ss, h => ⟨s.scoped_mono hk h.1, Stmt.scopedAll_mono (s.setting_mono hk) ss h.2⟩

theorem Block.scopedMembers_mono {k k' : Nat} (hk : k ≤ k') :
    (b : Block) → b.ScopedMembers k → b.ScopedMembers k'
  | .mk _ members, h => Stmt.scopedEach_mono hk members h

theorem Stmt.scopedEach_mono {k k' : Nat} (hk : k ≤ k') :
    (ss : List Stmt) → Stmt.ScopedEach k ss → Stmt.ScopedEach k' ss
  | [], _ => trivial
  | s :: ss, h => ⟨s.scoped_mono hk h.1, Stmt.scopedEach_mono hk ss h.2⟩

end

/-- The `free`s at the end of a block read nothing. -/
theorem Stmt.scopedAll_append_free {k : Nat} {ss : List Stmt} (h : Stmt.ScopedAll k ss)
    (line : Nat) (locals : List (String × Nat)) :
    Stmt.ScopedAll k (ss ++ locals.map fun d => .free line d.1 d.2) := by
  induction ss generalizing k with
  | cons s ss ih => exact ⟨h.1, ih h.2⟩
  | nil =>
    induction locals with
    | nil => trivial
    | cons d ds ih => exact ⟨trivial, ih⟩

/-! ### Frames -/

/-- The names of the open frames have slots below `k`. -/
def Scope.Covers (k : Nat) (s : Scope) : Prop :=
  ∀ f ∈ s.frames, (∀ p ∈ f.names, p.2.SetBelow k) ∧ ∀ d ∈ f.declared, d.2 < k

theorem Scope.Covers.mono {k k' : Nat} (hk : k ≤ k') {s : Scope} (h : s.Covers k) :
    s.Covers k' := fun f hf =>
  ⟨fun p hp => ((h f hf).1 p hp).mono hk, fun d hd => Nat.lt_of_lt_of_le ((h f hf).2 d hd) hk⟩

theorem Scope.Covers.of_frames {k : Nat} {s s' : Scope} (h : s.Covers k)
    (hs : s'.frames = s.frames) : s'.Covers k := fun f hf => h f (hs ▸ hf)

theorem mem_of_lookup_eq_some {α : Type} {name : String} {a : α} {ps : List (String × α)}
    (h : ps.lookup name = some a) : (name, a) ∈ ps := by
  induction ps with
  | nil => cases h
  | cons p ps ih =>
    rw [List.lookup_cons] at h
    by_cases hp : name == p.1
    · rw [hp] at h
      obtain rfl := Option.some.inj h
      rw [beq_iff_eq] at hp
      subst hp
      exact List.mem_cons_self
    · rw [Bool.not_eq_true] at hp
      rw [hp] at h
      exact List.mem_cons_of_mem _ (ih h)

theorem Scope.Covers.lookup {k : Nat} {s : Scope} (h : s.Covers k) {name : String} {b : Binding}
    (hb : s.lookup name = some b) : b.SetBelow k := by
  unfold Scope.lookup at hb
  cases hf : s.frames.findSome? (·.names.lookup name) with
  | some b' =>
    rw [hf] at hb
    obtain rfl := Option.some.inj hb
    obtain ⟨f, hmem, hlook⟩ := List.exists_of_findSome?_eq_some hf
    exact (h f hmem).1 _ (mem_of_lookup_eq_some hlook)
  | none =>
    rw [hf] at hb
    dsimp only at hb
    split at hb
    · obtain rfl := Option.some.inj hb
      trivial
    · cases hb

theorem Scope.Covers.push {k : Nat} {s : Scope} (h : s.Covers k) (params : List String) :
    (s.push params).Covers k := by
  intro f hf
  rcases List.mem_cons.mp hf with rfl | hf
  · refine ⟨fun p hp => ?_, fun d hd => nomatch hd⟩
    rw [List.mem_reverse, List.mem_map] at hp
    obtain ⟨q, hq, rfl⟩ := hp
    have hle : 1 ≤ q.2 := List.le_snd_of_mem_zipIdx hq
    exact hle
  · exact h f hf

/-- A declaration in a frame gives a slot; those declared before stay. -/
theorem Scope.Covers.declare {k : Nat} {s : Scope} (h : s.Covers k) (name : String) :
    ∃ k', (∀ line init, (Stmt.declare line name init (some (s.declare name).1)).setting k = k') ∧
      (s.declare name).2.Covers k' ∧ (s.declare name).2.frames.tail = s.frames.tail := by
  unfold Scope.declare
  cases hfs : s.frames with
  | nil =>
    exact ⟨k, fun _ _ => rfl, fun f hf => (List.not_mem_nil hf).elim, rfl⟩
  | cons f fs =>
    have hf := h f (hfs ▸ List.mem_cons_self)
    cases hd : f.declared.lookup name with
    | some slot =>
      refine ⟨max k (slot + 1), fun _ _ => ?_, ?_, ?_⟩
      · simp only [hd, Stmt.setting]
      · simp only [hd]
        exact h.mono (Nat.le_max_left _ _)
      · simp only [hd, hfs]
    | none =>
      refine ⟨max k (s.pool.allocate.1 + 1), fun _ _ => ?_, ?_, ?_⟩
      · simp only [hd, Stmt.setting]
      · simp only [hd]
        have hk : k ≤ max k (s.pool.allocate.1 + 1) := Nat.le_max_left _ _
        have hslot : s.pool.allocate.1 < max k (s.pool.allocate.1 + 1) := by omega
        intro g hg
        rcases List.mem_cons.mp hg with rfl | hg
        · constructor
          · intro p hp
            rcases List.mem_cons.mp hp with rfl | hp
            · exact hslot
            · exact (hf.1 p hp).mono hk
          · intro d hd'
            rcases List.mem_append.mp hd' with hd' | hd'
            · exact Nat.lt_of_lt_of_le (hf.2 d hd') hk
            · obtain rfl := List.mem_singleton.mp hd'
              exact hslot
        · exact (h.mono hk) g (hfs ▸ List.mem_cons_of_mem _ hg)
      · simp only [hd]
        rfl

/-! ### Resolving -/

/-- Resolving gives something with a property, and leaves the frames as they were. -/
def Resolve.Gives {α : Type} (k : Nat) (x : Resolve α) (P : α → Prop) : Prop :=
  ∀ s : Scope, s.Covers k → P (x s).1 ∧ (x s).2.frames = s.frames

namespace Resolve.Gives

variable {α γ : Type} {k : Nat}

theorem pure {a : α} {P : α → Prop} (h : P a) : Gives k (Pure.pure a) P := fun _ _ => ⟨h, rfl⟩

theorem bind {x : Resolve α} {f : α → Resolve γ} {P : α → Prop} {Q : γ → Prop} (h : Gives k x P)
    (hf : ∀ a, P a → Gives k (f a) Q) : Gives k (x >>= f) Q := by
  intro s hs
  obtain ⟨hp, hfr⟩ := h s hs
  obtain ⟨hq, hfr'⟩ := hf _ hp (x s).2 (hs.of_frames hfr)
  exact ⟨hq, hfr'.trans hfr⟩

end Resolve.Gives

theorem Resolve.use_gives {k : Nat} (name : String) (problem : Diagnostic) :
    Gives k (use name problem) fun binding => ∀ b ∈ binding, b.SetBelow k := by
  intro s hs
  unfold use
  cases hb : s.lookup name with
  | none => exact ⟨fun b hb => (Option.not_mem_none b hb).elim, rfl⟩
  | some b =>
    refine ⟨fun b' hb' => ?_, rfl⟩
    obtain rfl := Option.some.inj hb'
    exact hs.lookup hb

open Resolve in
mutual

theorem Expr.resolve_gives (k : Nat) : (e : Expr) → Gives k e.resolve (Expr.Scoped k)
  | .list _ items => (Expr.resolveAll_gives k items).bind fun _ h => .pure h
  | .map _ entries => (Expr.resolvePairs_gives k entries).bind fun _ h => .pure h
  | .variable _ name _ => (use_gives name _).bind fun _ h => .pure h
  | .field _ receiver _ => (receiver.resolve_gives k).bind fun _ h => .pure h
  | .binary _ _ left right _ =>
    (left.resolve_gives k).bind fun _ h => (right.resolve_gives k).bind fun _ h' => .pure ⟨h, h'⟩
  | .unary _ _ operand => (operand.resolve_gives k).bind fun _ h => .pure h
  | .call _ _ args => (Expr.resolveAll_gives k args).bind fun _ h => .pure h
  | .method _ receiver _ args =>
    (Expr.resolveAll_gives k args).bind fun _ h =>
      (receiver.resolve_gives k).bind fun _ h' => .pure ⟨h, h'⟩
  | .create _ _ args => (Expr.resolveAll_gives k args).bind fun _ h => .pure h
  | .number _ _ | .text _ _ | .boolean _ _ | .null _ | .this _ | .super _ => .pure trivial

theorem Expr.resolveAll_gives (k : Nat) :
    (es : List Expr) → Gives k (Expr.resolveAll es) (Expr.ScopedAll k)
  | [] => .pure trivial
  | e :: es =>
    (e.resolve_gives k).bind fun _ h =>
      (Expr.resolveAll_gives k es).bind fun _ h' => .pure ⟨h, h'⟩

theorem Expr.resolvePairs_gives (k : Nat) :
    (es : List (Expr × Expr)) → Gives k (Expr.resolvePairs es) (Expr.ScopedPairs k)
  | [] => .pure trivial
  | (key, e) :: es =>
    (key.resolve_gives k).bind fun _ h => (e.resolve_gives k).bind fun _ h' =>
      (Expr.resolvePairs_gives k es).bind fun _ h'' => .pure ⟨h, h', h''⟩

end

theorem Expr.resolveOption_gives (k : Nat) (e : Option Expr) :
    Resolve.Gives k (Expr.resolveOption e) (Expr.ScopedOption k) := by
  cases e with
  | none => exact .pure fun _ h => (Option.not_mem_none _ h).elim
  | some e =>
    refine (e.resolve_gives k).bind fun e' h => .pure fun e'' he => ?_
    obtain rfl := Option.some.inj he
    exact h

/-- Resolving gives a statement that is scoped, after which its frame has what it declares. -/
def Resolve.Declares {α : Type} (k : Nat) (x : Resolve α) (P : α → Prop) (after : α → Nat) : Prop :=
  ∀ s : Scope, s.Covers k → P (x s).1 ∧ (x s).2.Covers (after (x s).1) ∧
    (x s).2.frames.tail = s.frames.tail

theorem Resolve.Gives.declares {α : Type} {k : Nat} {x : Resolve α} {P : α → Prop}
    {after : α → Nat} (h : Gives k x P) (hk : ∀ a, k ≤ after a) : Declares k x P after := by
  intro s hs
  obtain ⟨hp, hfr⟩ := h s hs
  exact ⟨hp, (hs.of_frames hfr).mono (hk _), congrArg List.tail hfr⟩

/-- A body is resolved in a frame of its own, which is closed after it. -/
theorem Resolve.inFrame_gives {k : Nat} {x : Resolve (List Stmt)} {after : List Stmt → Nat}
    (h : Declares k x (Stmt.ScopedAll k) after) (params : List String) (line : Nat) :
    Gives k (inFrame params line x) (Block.Scoped k) := by
  intro s hs
  obtain ⟨hscoped, -, htail⟩ := h (s.push params) (hs.push params)
  refine ⟨Stmt.scopedAll_append_free hscoped _ _, ?_⟩
  have htail' : (x (s.push params)).2.frames.tail = s.frames := htail
  show (x (s.push params)).2.pop.2.frames = s.frames
  unfold Scope.pop
  cases hf : (x (s.push params)).2.frames with
  | nil =>
    rw [hf] at htail'
    simp only [hf]
    exact htail'
  | cons f fs =>
    rw [hf] at htail'
    exact htail'

theorem Resolve.Gives.bind_declares {α γ : Type} {k : Nat} {x : Resolve α} {f : α → Resolve γ}
    {P : α → Prop} {Q : γ → Prop} {after : γ → Nat} (h : Gives k x P)
    (hf : ∀ a, P a → Declares k (f a) Q after) : Declares k (x >>= f) Q after := by
  intro s hs
  obtain ⟨hp, hfr⟩ := h s hs
  obtain ⟨hq, hcov, htail⟩ := hf _ hp (x s).2 (hs.of_frames hfr)
  exact ⟨hq, hcov, htail.trans (congrArg List.tail hfr)⟩

theorem Resolve.declare_declares {k : Nat} (line : Nat) (name : String) {init : Option Expr}
    (h : Expr.ScopedOption k init) :
    Declares k (do return Stmt.declare line name init (← declare name)) (Stmt.Scoped k)
      (Stmt.setting k) := by
  intro s hs
  obtain ⟨k', hk', hcov, htail⟩ := hs.declare name
  have hrun : (do return Stmt.declare line name init (← declare name) : Resolve Stmt) s =
      (.declare line name init (some (s.declare name).1), (s.declare name).2.counted) := rfl
  rw [hrun, hk']
  exact ⟨h, hcov.of_frames rfl, htail⟩

/-- A statement that declares nothing leaves the frames as they were, as a member or not. -/
theorem Resolve.Gives.both {k : Nat} {x : Resolve Stmt} (h : Gives k x (Stmt.Scoped k)) :
    Gives k x (Stmt.Scoped k) ∧ Declares k x (Stmt.Scoped k) (Stmt.setting k) :=
  ⟨h, h.declares (Stmt.le_setting k)⟩

/-- How many slots are written at least, after statements at which `k` are. -/
def Stmt.settingAll (k : Nat) (ss : List Stmt) : Nat := ss.foldl Stmt.setting k

open Resolve in
mutual

/-- Resolving a statement, as a member of a class and as a statement of a body. -/
theorem Stmt.resolve_gives (k : Nat) : (s : Stmt) → Gives k (s.resolve true) (Stmt.Scoped k) ∧
    Declares k (s.resolve false) (Stmt.Scoped k) (Stmt.setting k)
  | .declare line name init _ =>
    ⟨(Expr.resolveOption_gives k init).bind fun _ h => .pure h,
      (Expr.resolveOption_gives k init).bind_declares fun _ h => declare_declares line name h⟩
  | .value e => ((e.resolve_gives k).bind fun _ h => .pure h).both
  | .assign _ name e _ =>
    ((e.resolve_gives k).bind fun _ h => (use_gives name _).bind fun _ _ => .pure h).both
  | .setField _ receiver _ e =>
    ((receiver.resolve_gives k).bind fun _ h =>
      (e.resolve_gives k).bind fun _ h' => .pure ⟨h, h'⟩).both
  | .print _ e => ((e.resolve_gives k).bind fun _ h => .pure h).both
  | .branch _ condition body rest =>
    ((condition.resolve_gives k).bind fun _ h => (body.resolveBody_gives k []).bind fun _ h' =>
      (rest.resolve_gives k).bind fun _ h'' => .pure ⟨h, h', h''⟩).both
  | .loop _ condition body =>
    ((condition.resolve_gives k).bind fun _ h =>
      (body.resolveBody_gives k []).bind fun _ h' => .pure ⟨h, h'⟩).both
  | .function _ _ params body =>
    ((body.resolveBody_gives k params).bind fun _ h => .pure h).both
  | .classDecl _ _ _ members => ((members.resolveMembers_gives k).bind fun _ h => .pure h).both
  | .returns _ e => ((Expr.resolveOption_gives k e).bind fun _ h => .pure h).both
  | .continues _ | .breaks _ | .free _ _ _ => (Gives.pure trivial).both

theorem Rest.resolve_gives (k : Nat) : (r : Rest) → Gives k r.resolve (Rest.Scoped k)
  | .nothing => .pure trivial
  | .elseIf _ condition body rest =>
    (condition.resolve_gives k).bind fun _ h => (body.resolveBody_gives k []).bind fun _ h' =>
      (rest.resolve_gives k).bind fun _ h'' => .pure ⟨h, h', h''⟩
  | .otherwise body => (body.resolveBody_gives k []).bind fun _ h => .pure h

theorem Block.resolveBody_gives (k : Nat) (params : List String) :
    (b : Block) → Gives k (b.resolveBody params) (Block.Scoped k)
  | .mk line statements => inFrame_gives (Stmt.resolveAll_declares k statements) params line

theorem Block.resolveMembers_gives (k : Nat) :
    (b : Block) → Gives k (b.resolve true) (Block.ScopedMembers k)
  | .mk _ members => (Stmt.resolveEach_gives k members).bind fun _ h => .pure h

theorem Stmt.resolveAll_declares (k : Nat) : (ss : List Stmt) →
    Declares k (Stmt.resolveAll false ss) (Stmt.ScopedAll k) (Stmt.settingAll k)
  | [] => fun _ hs => ⟨trivial, hs, rfl⟩
  | s :: ss => by
    intro scope hs
    obtain ⟨hscoped, hcov, htail⟩ := (s.resolve_gives k).2 scope hs
    obtain ⟨hrest, hcov', htail'⟩ := Stmt.resolveAll_declares _ ss _ hcov
    exact ⟨⟨hscoped, hrest⟩, hcov', htail'.trans htail⟩

theorem Stmt.resolveEach_gives (k : Nat) :
    (ss : List Stmt) → Gives k (Stmt.resolveAll true ss) (Stmt.ScopedEach k)
  | [] => .pure trivial
  | s :: ss =>
    (s.resolve_gives k).1.bind fun _ h =>
      (Stmt.resolveEach_gives k ss).bind fun _ h' => .pure ⟨h, h'⟩

end

/-- A resolved program reads no local variable that is not written before. -/
theorem Block.resolve_scoped (root : Block) (globals : List String) :
    ((root.resolve false).run (.start globals)).1.Scoped 0 := by
  cases root with
  | mk line statements =>
    have hcov : (Scope.start globals).Covers 0 := fun f hf => nomatch hf
    exact (Stmt.resolveAll_declares 0 statements _ hcov).1

end StackScript
