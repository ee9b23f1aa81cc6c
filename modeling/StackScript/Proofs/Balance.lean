import Mathlib.Data.Finset.Card
import StackScript.Proofs.Execution
import StackScript.Proofs.Resolution

/-!
# StackScript.Proofs.Balance — bodies end what they declare

A tree is balanced if every body ends the local variables that it declares, each while it has a
slot, and if a slot that a body takes belongs to no body around it.  All slots are below a bound.

Resolving gives a balanced tree.  The bound can be the largest number of locals that are declared
along one chain of nested bodies: a pool hands out the smallest number that nobody holds, so its
numbers stay below the largest number of slots that are held at one time, and a frame holds one for
each name that its body has declared so far.
-/

namespace StackScript

/-! ### Counting local variables -/

/-- The name of the local variable that a statement of a body declares. -/
def Stmt.localName? : Stmt → Option String
  | .declare _ name _ _ => some name
  | _ => none

/-- The names that the statements of a body declare. -/
def Stmt.localNames (ss : List Stmt) : Finset String := (ss.filterMap Stmt.localName?).toFinset

mutual

/-- The largest number of locals that are declared along one chain of nested bodies within a
statement. -/
def Stmt.mostLocals : Stmt → Nat
  | .branch _ _ body rest => max body.mostLocals rest.mostLocals
  | .loop _ _ body => body.mostLocals
  | .function _ _ _ body => body.mostLocals
  | .classDecl _ _ _ members => members.mostLocalsWithin
  | .value _ | .declare _ _ _ _ | .assign _ _ _ _ | .setField _ _ _ _ | .print _ _ | .returns _ _
  | .continues _ | .breaks _ | .free _ _ _ => 0

/-- The same for what follows the body of an `if`. -/
def Rest.mostLocals : Rest → Nat
  | .nothing => 0
  | .elseIf _ _ body rest => max body.mostLocals rest.mostLocals
  | .otherwise body => body.mostLocals

/-- The same for chains that begin with a body, which counts its distinct names. -/
def Block.mostLocals : Block → Nat
  | .mk _ ss => (Stmt.localNames ss).card + Stmt.mostLocalsAll ss

/-- The same for a block that opens no frame: what the program and classes declare is no local. -/
def Block.mostLocalsWithin : Block → Nat
  | .mk _ ss => Stmt.mostLocalsAll ss

/-- The same for statements. -/
def Stmt.mostLocalsAll : List Stmt → Nat
  | [] => 0
  | s :: ss => max s.mostLocals (Stmt.mostLocalsAll ss)

end

/-! ### Balanced trees -/

/-- The slots of the innermost body behind a statement, if it has these before. -/
def Stmt.holding (own : Finset Nat) : Stmt → Finset Nat
  | .declare _ _ _ (some (.slot id)) => insert id own
  | .free _ _ id => own.erase id
  | _ => own

mutual

/-- A statement is balanced where the innermost body has the slots `own` and the bodies around it
have the slots `outer`. -/
def Stmt.Balanced (k : Nat) (outer own : Finset Nat) : Stmt → Prop
  | .value e => e.Scoped k
  | .declare _ _ init binding =>
    Expr.ScopedOption k init ∧ ∀ b ∈ binding, b.SetBelow k ∧ ∀ id, b = .slot id → id ∉ outer
  | .assign _ _ e binding =>
    e.Scoped k ∧ ∀ b ∈ binding, b.SetBelow k ∧ ∀ id, b = .slot id → id ∈ outer ∪ own
  | .setField _ receiver _ e => receiver.Scoped k ∧ e.Scoped k
  | .print _ e => e.Scoped k
  | .branch _ condition body rest =>
    condition.Scoped k ∧ body.Balanced k (outer ∪ own) ∧ rest.Balanced k (outer ∪ own)
  | .loop _ condition body => condition.Scoped k ∧ body.Balanced k (outer ∪ own)
  | .function _ _ _ body => body.Balanced k (outer ∪ own)
  | .classDecl _ _ _ members => members.MembersBalanced k (outer ∪ own)
  | .returns _ e => Expr.ScopedOption k e
  | .continues _ | .breaks _ => True
  | .free _ _ id => id < k ∧ id ∈ own ∧ id ∉ outer

/-- What follows the body of an `if` is balanced. -/
def Rest.Balanced (k : Nat) (outer : Finset Nat) : Rest → Prop
  | .nothing => True
  | .elseIf _ condition body rest =>
    condition.Scoped k ∧ body.Balanced k outer ∧ rest.Balanced k outer
  | .otherwise body => body.Balanced k outer

/-- A body begins without slots and ends without slots. -/
def Block.Balanced (k : Nat) (outer : Finset Nat) : Block → Prop
  | .mk _ ss => Stmt.AllBalanced k outer ∅ ss ∧ ss.foldl Stmt.holding ∅ = ∅

/-- Statements are balanced, each behind those before it. -/
def Stmt.AllBalanced (k : Nat) (outer own : Finset Nat) : List Stmt → Prop
  | [] => True
  | s :: ss => s.Balanced k outer own ∧ Stmt.AllBalanced k outer (s.holding own) ss

/-- What makes a member of a class is balanced. -/
def Stmt.MemberBalanced (k : Nat) (outer : Finset Nat) : Stmt → Prop
  | .declare _ _ init _ => Expr.ScopedOption k init
  | .assign _ _ e _ => e.Scoped k
  | .setField _ _ _ e => e.Scoped k
  | .function _ _ _ body => body.Balanced k outer
  | _ => True

/-- The members of a class are balanced. -/
def Block.MembersBalanced (k : Nat) (outer : Finset Nat) : Block → Prop
  | .mk _ ss => Stmt.EachBalanced k outer ss

/-- Each of the statements makes a balanced member, or none. -/
def Stmt.EachBalanced (k : Nat) (outer : Finset Nat) : List Stmt → Prop
  | [] => True
  | s :: ss => s.MemberBalanced k outer ∧ Stmt.EachBalanced k outer ss

end

section
variable {k : Nat} {outer own : Finset Nat}

theorem Stmt.allBalanced_append {ss ts : List Stmt} :
    AllBalanced k outer own (ss ++ ts) ↔
      AllBalanced k outer own ss ∧ AllBalanced k outer (ss.foldl holding own) ts := by
  induction ss generalizing own with
  | nil => exact (and_iff_right trivial).symm
  | cons s ss ih => rw [List.cons_append, AllBalanced, ih, AllBalanced, and_assoc]; rfl

/-- The `free`s at the end of a body end what the body has. -/
theorem Stmt.allBalanced_frees (line : Nat) {locals : List (String × Nat)}
    (hnodup : (locals.map Prod.snd).Nodup) (hlt : ∀ d ∈ locals, d.2 < k ∧ d.2 ∉ outer) :
    let frees := locals.map fun d => Stmt.free line d.1 d.2
    AllBalanced k outer (locals.map Prod.snd).toFinset frees ∧
      frees.foldl holding (locals.map Prod.snd).toFinset = ∅ := by
  induction locals with
  | nil => exact ⟨trivial, rfl⟩
  | cons d locals ih =>
    obtain ⟨hd, hlocals⟩ := List.nodup_cons.mp hnodup
    obtain ⟨hlt, hrest⟩ := List.forall_mem_cons.mp hlt
    have herase : ((d :: locals).map Prod.snd).toFinset.erase d.2 =
        (locals.map Prod.snd).toFinset := by
      rw [List.map_cons, List.toFinset_cons, Finset.erase_insert]
      rwa [List.mem_toFinset]
    have hmem : d.2 ∈ ((d :: locals).map Prod.snd).toFinset := by
      rw [List.map_cons, List.toFinset_cons]
      exact Finset.mem_insert_self _ _
    obtain ⟨hall, hfold⟩ := ih hlocals hrest
    refine ⟨⟨⟨hlt.1, hmem, hlt.2⟩, ?_⟩, ?_⟩
    · rw [holding, herase]
      exact hall
    · show List.foldl holding (((d :: locals).map Prod.snd).toFinset.erase d.2) _ = ∅
      rw [herase]
      exact hfold

end

/-! ### Slots -/

namespace SlotPool

variable {p : SlotPool Nat} {slot : Nat} {slots slots' : List Nat}

/-- The slots are different, none of them is free, and there are no others. -/
structure Full (p : SlotPool Nat) (slots : List Nat) : Prop extends Holds p slots where
  covered : ∀ slot < p.next, slot ∈ p.released ∨ slot ∈ slots

theorem full_empty : empty.Full [] :=
  ⟨holds_empty, fun _ h => absurd h (Nat.not_lt_zero _)⟩

theorem Full.perm (h : p.Full slots) (hperm : slots.Perm slots') : p.Full slots' :=
  ⟨h.toHolds.perm hperm, fun slot hs => (h.covered slot hs).imp_right hperm.mem_iff.1⟩

theorem Full.allocate (h : p.Full slots) : p.allocate.2.Full (p.allocate.1 :: slots) := by
  refine ⟨h.toHolds.allocate, ?_⟩
  have hcovered := h.covered
  obtain ⟨released, next⟩ := p
  cases released with
  | nil =>
    intro slot hslot
    rcases Nat.lt_succ_iff_lt_or_eq.mp hslot with hslot | rfl
    · exact (hcovered slot hslot).imp_right (List.mem_cons_of_mem _)
    · exact .inr List.mem_cons_self
  | cons first rest =>
    intro slot hslot
    rcases hcovered slot hslot with hs | hs
    · rcases List.mem_cons.mp hs with rfl | hs
      · exact .inr List.mem_cons_self
      · exact .inl hs
    · exact .inr (List.mem_cons_of_mem _ hs)

theorem Full.release (h : p.Full (slot :: slots)) : (p.release slot).Full slots := by
  refine ⟨h.toHolds.release, fun s hs => ?_⟩
  rcases h.covered s hs with hmem | hmem
  · exact .inl (mem_insert.2 (.inr hmem))
  · rcases List.mem_cons.mp hmem with rfl | hmem
    · exact .inl (mem_insert.2 (.inl rfl))
    · exact .inr hmem

theorem Full.releaseAll {locals : List (String × Nat)}
    (h : p.Full (locals.map Prod.snd ++ slots)) :
    (locals.foldl (fun p d => p.release d.2) p).Full slots := by
  induction locals generalizing p with
  | nil => exact h
  | cons d locals ih => exact ih h.release

theorem highWater_releaseAll (p : SlotPool Nat) (locals : List (String × Nat)) :
    (locals.foldl (fun p d => p.release d.2) p).highWater = p.highWater := by
  induction locals generalizing p with
  | nil => rfl
  | cons d locals ih => exact ih _

/-- A number is new only if all numbers so far are held. -/
theorem Full.highWater_allocate_le (h : p.Full slots) :
    p.allocate.2.highWater ≤ max p.highWater (slots.length + 1) := by
  have hcovered := h.covered
  obtain ⟨released, next⟩ := p
  cases released with
  | cons first rest => exact Nat.le_max_left _ _
  | nil =>
    have hsub : List.range next ⊆ slots := fun slot hslot =>
      (hcovered slot (List.mem_range.mp hslot)).resolve_left List.not_mem_nil
    have hlength := (List.nodup_range.subperm hsub).length_le
    rw [List.length_range] at hlength
    exact Nat.le_trans (Nat.succ_le_succ hlength) (Nat.le_max_right _ _)

end SlotPool

/-! ### Frames -/

namespace Frame

variable {k n : Nat} {f : Frame} {fs gs : List Frame} {names : Finset String}

/-- The slots of the innermost body. -/
def own : List Frame → Finset Nat
  | [] => ∅
  | f :: _ => (f.declared.map Prod.snd).toFinset

/-- The slots of the bodies around it. -/
def outer (fs : List Frame) : Finset Nat := (slots fs.tail).toFinset

theorem slots_cons (f : Frame) (fs : List Frame) :
    slots (f :: fs) = f.declared.map Prod.snd ++ slots fs := rfl

theorem outer_union_own (fs : List Frame) : outer fs ∪ own fs = (slots fs).toFinset := by
  cases fs with
  | nil => rfl
  | cons f fs => rw [slots_cons, List.toFinset_append, Finset.union_comm]; rfl

/-- A frame names parameters and its locals, and has a slot for each local. -/
structure Tidy (f : Frame) : Prop where
  binds : ∀ p ∈ f.names,
    (∃ n, p.2 = .param (n + 1)) ∨ ∃ id ∈ f.declared.map Prod.snd, p.2 = .slot id
  nodup : (f.declared.map Prod.fst).Nodup

/-- There is room below `k` for locals with these names in the innermost body, and for `n` more in
bodies within. -/
def Room (k n : Nat) (names : Finset String) : List Frame → Prop
  | [] => n ≤ k
  | f :: fs => ((f.declared.map Prod.fst).toFinset ∪ names).card + (slots fs).length + n ≤ k

theorem room_cons : Room k n names (f :: fs) ↔
    ((f.declared.map Prod.fst).toFinset ∪ names).card + (slots fs).length + n ≤ k := Iff.rfl

theorem Room.mono {n' : Nat} (h : Room k n names fs) (hn : n' ≤ n) : Room k n' names fs := by
  cases fs with
  | nil => exact Nat.le_trans hn h
  | cons f fs => exact Nat.le_trans (Nat.add_le_add_left hn _) h

theorem Room.anti {names' : Finset String} (h : Room k n names fs) (hnames : names' ⊆ names) :
    Room k n names' fs := by
  cases fs with
  | nil => exact h
  | cons f fs =>
    have hcard := Finset.card_le_card
      (Finset.union_subset_union_right (s := (f.declared.map Prod.fst).toFinset) hnames)
    exact Nat.le_trans (Nat.add_le_add_right (Nat.add_le_add_right hcard _) _) h

theorem Room.length_le (h : Room k n names fs) (htidy : ∀ f ∈ fs, f.Tidy) :
    (slots fs).length + n ≤ k := by
  cases fs with
  | nil => exact (Nat.zero_add n).symm ▸ h
  | cons f fs =>
    have hcard : f.declared.length = (f.declared.map Prod.fst).toFinset.card := by
      rw [List.toFinset_card_of_nodup (htidy f List.mem_cons_self).nodup, List.length_map]
    have hsub : (f.declared.map Prod.fst).toFinset ⊆ (f.declared.map Prod.fst).toFinset ∪ names :=
      Finset.subset_union_left
    have hle := Finset.card_le_card hsub
    have hroom : _ ≤ k := h
    rw [slots_cons, List.length_append, List.length_map, hcard]
    omega

/-- The innermost frame may have changed, and no other. -/
inductive Grows : List Frame → List Frame → Prop
  | outside : Grows [] []
  | inside (f f' : Frame) (fs : List Frame) : Grows (f :: fs) (f' :: fs)

theorem Grows.refl (fs : List Frame) : Grows fs fs := by
  cases fs with
  | nil => exact .outside
  | cons f fs => exact .inside f f fs

theorem Grows.trans {hs : List Frame} (h : Grows fs gs) (h' : Grows gs hs) : Grows fs hs := by
  cases h with
  | outside => exact h'
  | inside f f' fs =>
    cases h' with
    | inside _ f'' _ => exact .inside f f'' fs

theorem Grows.outer_eq (h : Grows fs gs) : outer gs = outer fs := by
  cases h <;> rfl

end Frame

/-! ### Scopes -/

/-- The frames name what they have, and all slots are below `k`. -/
structure Scope.Tidy (k : Nat) (s : Scope) : Prop where
  frames : ∀ f ∈ s.frames, f.Tidy
  full : s.pool.Full (Frame.slots s.frames)
  highWater_le : s.pool.highWater ≤ k
  reuses : s.reuses = true

namespace Scope

variable {s : Scope} {f : Frame} {fs : List Frame}

theorem declare_outside (name : String) (hs : s.frames = []) :
    s.declare name = (.global, { s with
      globals := if s.globals.contains name then s.globals else s.globals ++ [name] }) := by
  unfold declare
  rw [hs]

theorem declare_again {name : String} {slot : Nat} (hs : s.frames = f :: fs)
    (hslot : f.declared.lookup name = some slot) : s.declare name = (.slot slot, s) := by
  unfold declare
  simp only [hs, hslot]

theorem declare_new {name : String} (hs : s.frames = f :: fs)
    (hslot : f.declared.lookup name = none) :
    s.declare name = (.slot s.pool.allocate.1, { s with
      frames := ⟨(name, .slot s.pool.allocate.1) :: f.names,
        f.declared ++ [(name, s.pool.allocate.1)]⟩ :: fs
      pool := s.pool.allocate.2 }) := by
  unfold declare
  simp only [hs, hslot]

end Scope

namespace Scope.Tidy

variable {k n : Nat} {s : Scope} {fs : List Frame} {names : Finset String}

theorem start (k : Nat) (globals : List String) : (Scope.start globals).Tidy k :=
  ⟨List.forall_mem_nil _, SlotPool.full_empty, Nat.zero_le k, rfl⟩

theorem of_eq (h : s.Tidy k) {s' : Scope} (hf : s'.frames = s.frames) (hp : s'.pool = s.pool)
    (hr : s'.reuses = s.reuses) : s'.Tidy k :=
  ⟨hf ▸ h.frames, hf ▸ hp ▸ h.full, hp ▸ h.highWater_le, hr ▸ h.reuses⟩

theorem lt_of_mem (h : s.Tidy k) {id : Nat} (hid : id ∈ Frame.slots s.frames) : id < k :=
  Nat.lt_of_lt_of_le (h.full.lt id hid) h.highWater_le

theorem mem_slots {f : Frame} (hf : f ∈ fs) {id : Nat} (hid : id ∈ f.declared.map Prod.snd) :
    id ∈ Frame.slots fs := List.mem_flatMap.mpr ⟨f, hf, hid⟩

theorem covers (h : s.Tidy k) : s.Covers k := by
  intro f hf
  refine ⟨fun p hp => ?_, fun d hd => h.lt_of_mem (mem_slots hf (List.mem_map_of_mem hd))⟩
  rcases (h.frames f hf).binds p hp with ⟨n, hn⟩ | ⟨id, hid, hbinding⟩
  · rw [hn]
    exact Nat.succ_pos n
  · rw [hbinding]
    exact h.lt_of_mem (mem_slots hf hid)

/-- A name that is found is no local, or has a slot of an open body. -/
theorem lookup (h : s.Tidy k) {name : String} {id : Nat}
    (hb : s.lookup name = some (.slot id)) : id ∈ Frame.slots s.frames := by
  unfold Scope.lookup at hb
  split at hb
  · rename_i b hfind
    obtain rfl := Option.some.inj hb
    obtain ⟨f, hf, hlookup⟩ := List.exists_of_findSome?_eq_some hfind
    rcases (h.frames f hf).binds _ (mem_of_lookup_eq_some hlookup) with ⟨n, hn⟩ | ⟨id', hid, hid'⟩
    · cases hn
    · cases hid'
      exact mem_slots hf hid
  · split at hb <;> cases hb

/-- A slot of the innermost body belongs to no other. -/
theorem not_mem_outer (h : s.Tidy k) {f : Frame} (hs : s.frames = f :: fs) {id : Nat}
    (hid : id ∈ f.declared.map Prod.snd) : id ∉ Frame.outer (f :: fs) := by
  have hnodup := h.full.nodup
  rw [hs, Frame.slots_cons] at hnodup
  exact fun houter => (List.nodup_append.mp hnodup).2.2 id hid id (List.mem_toFinset.mp houter) rfl

/-- A name is declared that the innermost body has not declared yet. -/
theorem declare_new (h : s.Tidy k) {f : Frame} (hs : s.frames = f :: fs) {name : String}
    (hname : f.declared.lookup name = none) (hroom : Frame.Room k n (insert name names) (f :: fs)) :
    (s.declare name).2.Tidy k := by
  have hfull := h.full
  have hframes := h.frames
  rw [hs] at hframes hfull
  obtain ⟨hf, hfs⟩ := List.forall_mem_cons.mp hframes
  have hnot : name ∉ f.declared.map Prod.fst := by
    intro hmem
    obtain ⟨d, hd, rfl⟩ := List.mem_map.mp hmem
    exact bne_iff_ne.mp (List.lookup_eq_none_iff.mp hname d hd) rfl
  rw [Scope.declare_new hs hname]
  refine ⟨List.forall_mem_cons.mpr ⟨⟨?_, ?_⟩, hfs⟩, ?_, ?_, h.reuses⟩
  · refine List.forall_mem_cons.mpr ⟨.inr ⟨_, by simp, rfl⟩, fun p hp => ?_⟩
    refine (hf.binds p hp).imp_right fun ⟨id, hid, hp⟩ => ⟨id, ?_, hp⟩
    rw [List.map_append]
    exact List.mem_append_left _ hid
  · rw [List.map_append, List.nodup_append]
    refine ⟨hf.nodup, List.nodup_singleton _, fun a ha b hb => ?_⟩
    rw [List.map_singleton, List.mem_singleton] at hb
    rintro rfl
    obtain rfl : a = name := hb
    exact hnot ha
  · refine hfull.allocate.perm ?_
    rw [Frame.slots_cons, Frame.slots_cons, List.map_append, List.append_assoc]
    exact List.perm_middle.symm
  · have hhigh := hfull.highWater_allocate_le
    have hcard : (f.declared.map Prod.fst).toFinset.card = f.declared.length := by
      rw [List.toFinset_card_of_nodup hf.nodup, List.length_map]
    have hinsert : (insert name (f.declared.map Prod.fst).toFinset).card ≤
        ((f.declared.map Prod.fst).toFinset ∪ insert name names).card := by
      refine Finset.card_le_card (Finset.insert_subset ?_ Finset.subset_union_left)
      exact Finset.mem_union_right _ (Finset.mem_insert_self _ _)
    rw [Finset.card_insert_of_notMem (by rwa [List.mem_toFinset]), hcard] at hinsert
    rw [Frame.room_cons] at hroom
    rw [Frame.slots_cons, List.length_append, List.length_map] at hhigh
    have := h.highWater_le
    exact hhigh.trans (by omega)

/-- A body begins. -/
theorem push (h : s.Tidy k) (params : List String) : (s.push params).Tidy k := by
  refine ⟨List.forall_mem_cons.mpr ⟨⟨fun p hp => ?_, List.nodup_nil⟩, h.frames⟩, h.full,
    h.highWater_le, h.reuses⟩
  obtain ⟨q, hq, rfl⟩ := List.mem_map.mp (List.mem_reverse.mp hp)
  have hpos : 1 ≤ q.2 := List.le_snd_of_mem_zipIdx hq
  exact .inl ⟨q.2 - 1, by rw [Nat.sub_add_cancel hpos]⟩

/-- A body ends. -/
theorem pop (h : s.Tidy k) {f : Frame} (hs : s.frames = f :: fs) :
    s.pop.1 = f.declared ∧ s.pop.2.frames = fs ∧ s.pop.2.Tidy k := by
  obtain ⟨frames, gs, pool, reuses, diagnostics, bound, added⟩ := s
  obtain ⟨htidy, hfull, hle, rfl⟩ := h
  obtain rfl : frames = f :: fs := hs
  refine ⟨rfl, rfl, (List.forall_mem_cons.mp htidy).2, hfull.releaseAll, ?_, rfl⟩
  exact (pool.highWater_releaseAll f.declared).trans_le hle

end Scope.Tidy

/-! ### Resolving -/

namespace Resolve

variable {α γ : Type} {k n : Nat} {fs : List Frame} {names : Finset String}

/-- Resolving changes nothing that is known of variables. -/
def Quiet (x : Resolve α) : Prop :=
  ∀ s, (x s).2.frames = s.frames ∧ (x s).2.pool = s.pool ∧ (x s).2.reuses = s.reuses ∧
    (x s).2.globals = s.globals

theorem Quiet.pure (a : α) : Quiet (Pure.pure a : Resolve α) := fun _ => ⟨rfl, rfl, rfl, rfl⟩

theorem Quiet.bind {x : Resolve α} {f : α → Resolve γ} (h : Quiet x) (hf : ∀ a, Quiet (f a)) :
    Quiet (x >>= f) := by
  intro s
  obtain ⟨hframes, hpool, hreuses, hglobals⟩ := h s
  obtain ⟨hframes', hpool', hreuses', hglobals'⟩ := hf (x s).1 (x s).2
  exact ⟨hframes'.trans hframes, hpool'.trans hpool, hreuses'.trans hreuses,
    hglobals'.trans hglobals⟩

theorem use_quiet (name : String) (problem : Diagnostic) : Quiet (use name problem) := by
  intro s
  unfold use
  cases s.lookup name <;> exact ⟨rfl, rfl, rfl, rfl⟩

/-- Resolving gives something with a property and keeps the frames, in a tidy scope. -/
def Tends (k : Nat) (fs : List Frame) (x : Resolve α) (P : α → Prop) : Prop :=
  ∀ s : Scope, s.frames = fs → s.Tidy k → P (x s).1 ∧ (x s).2.frames = fs ∧ (x s).2.Tidy k

theorem Tends.pure {a : α} {P : α → Prop} (h : P a) : Tends k fs (Pure.pure a) P :=
  fun _ hfs hs => ⟨h, hfs, hs⟩

theorem Tends.bind {x : Resolve α} {f : α → Resolve γ} {P : α → Prop} {Q : γ → Prop}
    (h : Tends k fs x P) (hf : ∀ a, P a → Tends k fs (f a) Q) : Tends k fs (x >>= f) Q := by
  intro s hfs hs
  obtain ⟨hp, hfs', hs'⟩ := h s hfs hs
  exact hf _ hp _ hfs' hs'

theorem Quiet.tends {x : Resolve α} {P : α → Prop} (h : Quiet x) (hx : Gives k x P) :
    Tends k fs x P := by
  intro s hfs hs
  obtain ⟨hframes, hpool, hreuses, -⟩ := h s
  exact ⟨(hx s hs.covers).1, hframes.trans hfs, hs.of_eq hframes hpool hreuses⟩

/-- Resolving gives something with a property, and may add to the innermost frame. -/
def Grows (k : Nat) (fs : List Frame) (x : Resolve α) (Q : List Frame → α → Prop) : Prop :=
  ∀ s : Scope, s.frames = fs → s.Tidy k →
    ∃ gs, Frame.Grows fs gs ∧ Q gs (x s).1 ∧ (x s).2.frames = gs ∧ (x s).2.Tidy k

theorem Tends.grows {x : Resolve α} {P : α → Prop} {Q : List Frame → α → Prop}
    (h : Tends k fs x P) (hQ : ∀ a, P a → Q fs a) : Grows k fs x Q := by
  intro s hfs hs
  obtain ⟨hp, hfs', hs'⟩ := h s hfs hs
  exact ⟨fs, .refl fs, hQ _ hp, hfs', hs'⟩

theorem Tends.bind_grows {x : Resolve α} {f : α → Resolve γ} {P : α → Prop}
    {Q : List Frame → γ → Prop} (h : Tends k fs x P) (hf : ∀ a, P a → Grows k fs (f a) Q) :
    Grows k fs (x >>= f) Q := by
  intro s hfs hs
  obtain ⟨hp, hfs', hs'⟩ := h s hfs hs
  exact hf _ hp _ hfs' hs'

/-- A name that is used is no local, or has a slot of an open body. -/
theorem use_tends (name : String) (problem : Diagnostic) :
    Tends k fs (use name problem) fun binding =>
      ∀ b ∈ binding, b.SetBelow k ∧ ∀ id, b = .slot id → id ∈ Frame.outer fs ∪ Frame.own fs := by
  intro s hfs hs
  obtain ⟨hframes, hpool, hreuses, -⟩ := use_quiet name problem s
  refine ⟨fun b hb => ⟨(use_gives name problem s hs.covers).1 b hb, ?_⟩, hframes.trans hfs,
    hs.of_eq hframes hpool hreuses⟩
  rintro id rfl
  rw [Frame.outer_union_own, ← hfs, List.mem_toFinset]
  suffices hfound : s.lookup name = some (.slot id) from hs.lookup hfound
  unfold use at hb
  cases hlookup : s.lookup name with
  | none =>
    rw [hlookup] at hb
    cases hb
  | some b =>
    rw [hlookup] at hb
    exact hb

/-- A name that is declared gets a slot that no body around has, or makes a global. -/
structure Housed (k : Nat) (name : String) (fs gs : List Frame) (binding : Option Binding) :
    Prop where
  below : ∀ b ∈ binding, b.SetBelow k ∧ ∀ id, b = .slot id → id ∉ Frame.outer fs
  own_eq : ∀ line init,
    (Stmt.declare line name init binding).holding (Frame.own fs) = Frame.own gs
  room : ∀ n names, Frame.Room k n (insert name names) fs → Frame.Room k n names gs

/-- A name that was declared before in the innermost body keeps its slot. -/
theorem housed_again {f : Frame} {name : String} {slot : Nat} (hlt : slot < k)
    (hmem : (name, slot) ∈ f.declared) (houter : slot ∉ Frame.outer (f :: fs)) :
    Housed k name (f :: fs) (f :: fs) (some (.slot slot)) := by
  refine ⟨fun b hb => ?_, fun _ _ => ?_, fun n names hroom => ?_⟩
  · obtain rfl := Option.some.inj hb
    exact ⟨hlt, fun id hid => Binding.slot.inj hid ▸ houter⟩
  · exact Finset.insert_eq_of_mem (List.mem_toFinset.mpr (List.mem_map_of_mem (f := Prod.snd) hmem))
  · exact hroom.anti (Finset.subset_insert _ _)

/-- Another name gets a slot of its own. -/
theorem housed_new {f : Frame} {name : String} {slot : Nat} (hlt : slot < k)
    (houter : slot ∉ Frame.outer (f :: fs)) (bindings : List (String × Binding)) :
    Housed k name (f :: fs) (⟨bindings, f.declared ++ [(name, slot)]⟩ :: fs)
      (some (.slot slot)) := by
  refine ⟨fun b hb => ?_, fun _ _ => ?_, fun n names hroom => ?_⟩
  · obtain rfl := Option.some.inj hb
    exact ⟨hlt, fun id hid => Binding.slot.inj hid ▸ houter⟩
  · show insert slot (f.declared.map Prod.snd).toFinset = _
    rw [Frame.own, List.map_append, List.toFinset_append, Finset.union_comm]
    rfl
  · rw [Frame.room_cons] at hroom ⊢
    rwa [List.map_append, List.toFinset_append, Finset.union_assoc]

theorem declare_grows (name : String) (hroom : Frame.Room k n (insert name names) fs) :
    Grows k fs (declare name) (Housed k name fs) := by
  rintro s rfl hs
  show ∃ gs, Frame.Grows s.frames gs ∧ Housed k name s.frames gs (some (s.declare name).1) ∧
    (s.declare name).2.counted.frames = gs ∧ (s.declare name).2.counted.Tidy k
  cases hfs : s.frames with
  | nil =>
    rw [Scope.declare_outside name hfs]
    refine ⟨[], .outside, ⟨fun b hb => ?_, fun _ _ => rfl, fun _ _ h => h⟩, hfs,
      hs.of_eq rfl rfl rfl⟩
    obtain rfl := Option.some.inj hb
    exact ⟨trivial, nofun⟩
  | cons f fs =>
    cases hlookup : f.declared.lookup name with
    | some slot =>
      have hmem := mem_of_lookup_eq_some hlookup
      rw [Scope.declare_again hfs hlookup]
      refine ⟨f :: fs, .refl _, housed_again ?_ hmem ?_, hfs, hs.of_eq rfl rfl rfl⟩
      · exact hs.lt_of_mem (Scope.Tidy.mem_slots (hfs ▸ List.mem_cons_self)
          (List.mem_map_of_mem (f := Prod.snd) hmem))
      · exact hs.not_mem_outer hfs (List.mem_map_of_mem (f := Prod.snd) hmem)
    | none =>
      have hs' := hs.declare_new hfs hlookup (hfs ▸ hroom)
      rw [Scope.declare_new hfs hlookup] at hs' ⊢
      have hmem : s.pool.allocate.1 ∈
          (f.declared ++ [(name, s.pool.allocate.1)]).map Prod.snd := by simp
      refine ⟨_, .inside _ _ _, housed_new ?_ ?_ _, rfl, hs'.of_eq rfl rfl rfl⟩
      · exact hs'.lt_of_mem (Scope.Tidy.mem_slots List.mem_cons_self hmem)
      · exact hs'.not_mem_outer rfl hmem

end Resolve

/-! ### Expressions -/

open StackScript.Frame Resolve

mutual

/-- An expression declares nothing. -/
theorem Expr.resolve_quiet : (e : Expr) → Quiet e.resolve
  | .list _ items => (Expr.resolveAll_quiet items).bind fun _ => .pure _
  | .map _ entries => (Expr.resolvePairs_quiet entries).bind fun _ => .pure _
  | .variable _ name _ => (use_quiet name _).bind fun _ => .pure _
  | .field _ receiver _ => receiver.resolve_quiet.bind fun _ => .pure _
  | .binary _ _ left right _ =>
    left.resolve_quiet.bind fun _ => right.resolve_quiet.bind fun _ => .pure _
  | .unary _ _ operand => operand.resolve_quiet.bind fun _ => .pure _
  | .call _ _ args => (Expr.resolveAll_quiet args).bind fun _ => .pure _
  | .method _ receiver _ args =>
    (Expr.resolveAll_quiet args).bind fun _ => receiver.resolve_quiet.bind fun _ => .pure _
  | .create _ _ args => (Expr.resolveAll_quiet args).bind fun _ => .pure _
  | .number _ _ | .text _ _ | .boolean _ _ | .null _ | .this _ | .super _ => .pure _

theorem Expr.resolveAll_quiet : (es : List Expr) → Quiet (Expr.resolveAll es)
  | [] => .pure _
  | e :: es => e.resolve_quiet.bind fun _ => (Expr.resolveAll_quiet es).bind fun _ => .pure _

theorem Expr.resolvePairs_quiet : (es : List (Expr × Expr)) → Quiet (Expr.resolvePairs es)
  | [] => .pure _
  | (key, e) :: es =>
    key.resolve_quiet.bind fun _ => e.resolve_quiet.bind fun _ =>
      (Expr.resolvePairs_quiet es).bind fun _ => .pure _

end

theorem Expr.resolveOption_quiet : (e : Option Expr) → Quiet (Expr.resolveOption e)
  | none => .pure _
  | some e => e.resolve_quiet.bind fun _ => .pure _

theorem Expr.resolve_tends (k : Nat) (fs : List Frame) (e : Expr) :
    Tends k fs e.resolve (Expr.Scoped k) := e.resolve_quiet.tends (e.resolve_gives k)

theorem Expr.resolveOption_tends (k : Nat) (fs : List Frame) (e : Option Expr) :
    Tends k fs (Expr.resolveOption e) (Expr.ScopedOption k) :=
  (Expr.resolveOption_quiet e).tends (Expr.resolveOption_gives k e)

/-! ### Whole trees -/

namespace Stmt

theorem localNames_cons (s : Stmt) (ss : List Stmt) :
    localNames (s :: ss) = localNames [s] ∪ localNames ss := by
  unfold localNames
  rw [← List.toFinset_append, ← List.filterMap_append]
  rfl

/-- The `free`s at the end of a body declare nothing. -/
theorem names_append_frees (ss : List Stmt) (line : Nat) (locals : List (String × Nat)) :
    (ss ++ locals.map fun d => Stmt.free line d.1 d.2).filterMap localName? =
      ss.filterMap localName? := by
  have hfrees : (locals.map fun d => Stmt.free line d.1 d.2).filterMap localName? = [] := by
    rw [List.filterMap_map]
    exact List.filterMap_eq_nil_iff.mpr fun _ _ => rfl
  rw [List.filterMap_append, hfrees, List.append_nil]

theorem mostLocalsAll_append_frees (ss : List Stmt) (line : Nat) (locals : List (String × Nat)) :
    mostLocalsAll (ss ++ locals.map fun d => .free line d.1 d.2) = mostLocalsAll ss := by
  induction ss with
  | cons s ss ih => rw [List.cons_append, mostLocalsAll, mostLocalsAll, ih]
  | nil =>
    induction locals with
    | nil => rfl
    | cons d locals ih => exact (Nat.zero_max _).trans ih

/-- What resolving makes of a statement that stands directly in a class body. -/
structure TendedMember (k : Nat) (fs : List Frame) (s s' : Stmt) : Prop where
  most_eq : s'.mostLocals = s.mostLocals
  member : memberSlotsAll [s] = [] → s'.MemberBalanced k (outer fs ∪ own fs)

/-- What resolving makes of a statement that declares no variable. -/
structure Tended (k : Nat) (fs : List Frame) (s s' : Stmt) : Prop
    extends TendedMember k fs s s' where
  name_eq : s'.localName? = s.localName?
  balanced : s.freedSlots = [] →
    s'.Balanced k (outer fs) (own fs) ∧ s'.holding (own fs) = own fs

/-- What resolving makes of a statement, behind which its frame may have got a variable. -/
structure Housed (k : Nat) (fs : List Frame) (s : Stmt) (gs : List Frame) (s' : Stmt) : Prop where
  most_eq : s'.mostLocals = s.mostLocals
  name_eq : s'.localName? = s.localName?
  room : ∀ n names, Room k n (localNames [s] ∪ names) fs → Room k n names gs
  balanced : s.freedSlots = [] →
    s'.Balanced k (outer fs) (own fs) ∧ s'.holding (own fs) = own gs

/-- What resolving makes of statements in sequence. -/
structure AllHoused (k : Nat) (fs : List Frame) (ss : List Stmt) (gs : List Frame)
    (ss' : List Stmt) : Prop where
  most_eq : mostLocalsAll ss' = mostLocalsAll ss
  names_eq : ss'.filterMap localName? = ss.filterMap localName?
  balanced : freedSlotsAll ss = [] →
    AllBalanced k (outer fs) (own fs) ss' ∧ ss'.foldl holding (own fs) = own gs

/-- What resolving makes of the members of a class. -/
structure EachTended (k : Nat) (fs : List Frame) (ss ss' : List Stmt) : Prop where
  most_eq : mostLocalsAll ss' = mostLocalsAll ss
  members : memberSlotsAll ss = [] → EachBalanced k (outer fs ∪ own fs) ss'

end Stmt

/-- What resolving makes of what follows the body of an `if`. -/
structure Rest.Tended (k : Nat) (fs : List Frame) (r r' : Rest) : Prop where
  most_eq : r'.mostLocals = r.mostLocals
  balanced : r.freedSlots = [] → r'.Balanced k (outer fs ∪ own fs)

/-- What resolving makes of a body. -/
structure Block.Tended (k : Nat) (fs : List Frame) (b b' : Block) : Prop where
  most_eq : b'.mostLocals = b.mostLocals
  balanced : b.freedSlots = [] → b'.Balanced k (outer fs ∪ own fs)

/-- What resolving makes of the body of a class. -/
structure Block.TendedMembers (k : Nat) (fs : List Frame) (b b' : Block) : Prop where
  most_eq : b'.mostLocalsWithin = b.mostLocalsWithin
  members : b.memberSlots = [] → b'.MembersBalanced k (outer fs ∪ own fs)

section
variable {k : Nat} {fs : List Frame}

theorem Stmt.memberSlotsAll_cons_eq_nil {s : Stmt} {ss : List Stmt} :
    memberSlotsAll (s :: ss) = [] ↔ memberSlotsAll [s] = [] ∧ memberSlotsAll ss = [] := by
  cases s with
  | function line name params body =>
    show body.freedSlots ++ memberSlotsAll ss = [] ↔ body.freedSlots ++ [] = [] ∧ _
    rw [List.append_nil, List.append_eq_nil_iff]
  | _ => exact (and_iff_right rfl).symm

/-- A statement that declares nothing is resolved in one way as a statement and as a member. -/
theorem Resolve.Tends.both {x : Resolve Stmt} {s : Stmt} (h : Tends k fs x (s.Tended k fs)) :
    Tends k fs x (s.TendedMember k fs) ∧
      ∀ names, Room k s.mostLocals (Stmt.localNames [s] ∪ names) fs →
        Grows k fs x (s.Housed k fs) := by
  refine ⟨fun sc hfs hsc => ⟨(h sc hfs hsc).1.toTendedMember, (h sc hfs hsc).2⟩, fun _ _ => ?_⟩
  exact h.grows fun s' h => ⟨h.most_eq, h.name_eq, fun _ _ hroom => hroom.anti
    Finset.subset_union_right, h.balanced⟩

/-- A body ends the variables that its frame has got. -/
theorem Resolve.inFrame_tends {x : Resolve (List Stmt)} {params : List String} {ss : List Stmt}
    (line : Nat)
    (h : ∀ f : Frame, f.declared = [] → Grows k (f :: fs) x (Stmt.AllHoused k (f :: fs) ss)) :
    Tends k fs (inFrame params line x) (Block.Tended k fs (.mk line ss)) := by
  intro s hfs hs
  obtain ⟨gs, hgrows, hss, hgs, htidy⟩ := h _ rfl (s.push params)
    (congrArg (_ :: ·) hfs) (hs.push params)
  cases hgrows with
  | inside _ f _ =>
    obtain ⟨hlocals, hframes, hpopped⟩ := htidy.pop hgs
    refine ⟨?_, hframes, hpopped⟩
    show Block.Tended k fs _ (.mk line ((x (s.push params)).1 ++
      (x (s.push params)).2.pop.1.map fun d => .free line d.1 d.2))
    rw [hlocals]
    refine ⟨?_, fun hfreed => ?_⟩
    · rw [Block.mostLocals, Block.mostLocals, Stmt.localNames, Stmt.names_append_frees,
        Stmt.mostLocalsAll_append_frees, hss.most_eq, hss.names_eq]
      rfl
    · obtain ⟨hall, hown⟩ := hss.balanced hfreed
      have houter : ∀ g : Frame, outer (g :: fs) = outer fs ∪ own fs := fun g =>
        (outer_union_own fs).symm
      have hnodup : (f.declared.map Prod.snd).Nodup := by
        have hnodup := htidy.full.nodup
        rw [hgs, slots_cons] at hnodup
        exact (List.nodup_append.mp hnodup).1
      have hlocals : ∀ d ∈ f.declared, d.2 < k ∧ d.2 ∉ outer fs ∪ own fs := by
        intro d hd
        have hmem := List.mem_map_of_mem (f := Prod.snd) hd
        refine ⟨htidy.lt_of_mem (Scope.Tidy.mem_slots (hgs ▸ List.mem_cons_self) hmem), ?_⟩
        rw [← houter f]
        exact htidy.not_mem_outer hgs hmem
      obtain ⟨hfrees, hnone⟩ := Stmt.allBalanced_frees line hnodup hlocals
      rw [houter] at hall
      have hown : (x (s.push params)).1.foldl Stmt.holding ∅ = own (f :: fs) := hown
      refine ⟨Stmt.allBalanced_append.mpr ⟨hall, ?_⟩, ?_⟩
      · rw [hown]
        exact hfrees
      · rw [List.foldl_append, hown]
        exact hnone

mutual

/-- Resolving a statement, as a member of a class and as a statement of a body. -/
theorem Stmt.resolve_tends : (s : Stmt) → ∀ {fs : List Frame},
    (slots fs).length + s.mostLocals ≤ k →
    Tends k fs (s.resolve true) (s.TendedMember k fs) ∧
      ∀ names, Room k s.mostLocals (Stmt.localNames [s] ∪ names) fs →
        Grows k fs (s.resolve false) (s.Housed k fs)
  | .value e, _, _ =>
    ((e.resolve_tends k _).bind fun _ h => .pure ⟨⟨rfl, fun _ => trivial⟩, rfl,
      fun _ => ⟨h, rfl⟩⟩).both
  | .declare line name init _, fs, _ => by
    have hinit := Expr.resolveOption_tends k fs init
    refine ⟨hinit.bind fun _ h => .pure ⟨rfl, fun _ => h⟩, fun names hroom => ?_⟩
    refine hinit.bind_grows fun init' h s hfs hs => ?_
    have hroom : Room k 0 (insert name names) fs := hroom
    obtain ⟨gs, hgrows, hb, hgs, hs'⟩ := declare_grows name hroom s hfs hs
    exact ⟨gs, hgrows, ⟨rfl, rfl, hb.room, fun _ => ⟨⟨h, hb.below⟩, hb.own_eq _ _⟩⟩, hgs, hs'⟩
  | .assign _ name e _, _, _ =>
    ((e.resolve_tends k _).bind fun _ h => (use_tends name _).bind fun _ hb =>
      .pure ⟨⟨rfl, fun _ => h⟩, rfl, fun _ => ⟨⟨h, hb⟩, rfl⟩⟩).both
  | .setField _ receiver _ e, _, _ =>
    ((receiver.resolve_tends k _).bind fun _ h => (e.resolve_tends k _).bind fun _ h' =>
      .pure ⟨⟨rfl, fun _ => h'⟩, rfl, fun _ => ⟨⟨h, h'⟩, rfl⟩⟩).both
  | .print _ e, _, _ =>
    ((e.resolve_tends k _).bind fun _ h => .pure ⟨⟨rfl, fun _ => trivial⟩, rfl,
      fun _ => ⟨h, rfl⟩⟩).both
  | .branch _ condition body rest, fs, hk => by
    have hbody : (slots fs).length + body.mostLocals ≤ k :=
      (Nat.add_le_add_left (Nat.le_max_left _ _) _).trans hk
    have hrest : (slots fs).length + rest.mostLocals ≤ k :=
      (Nat.add_le_add_left (Nat.le_max_right _ _) _).trans hk
    refine ((condition.resolve_tends k fs).bind fun _ h =>
      (body.resolveBody_tends [] hbody).bind fun _ h' =>
        (rest.resolve_tends hrest).bind fun _ h'' => .pure ?_).both
    refine ⟨⟨congrArg₂ max h'.most_eq h''.most_eq, fun _ => trivial⟩, rfl, fun hfreed => ⟨?_, rfl⟩⟩
    obtain ⟨hb, hr⟩ := List.append_eq_nil_iff.mp hfreed
    exact ⟨h, h'.balanced hb, h''.balanced hr⟩
  | .loop _ condition body, _, hk =>
    ((condition.resolve_tends k _).bind fun _ h => (body.resolveBody_tends [] hk).bind fun _ h' =>
      .pure ⟨⟨h'.most_eq, fun _ => trivial⟩, rfl, fun hb => ⟨⟨h, h'.balanced hb⟩, rfl⟩⟩).both
  | .function _ _ params body, _, hk =>
    ((body.resolveBody_tends params hk).bind fun _ h =>
      .pure ⟨⟨h.most_eq, fun hb => h.balanced (List.append_eq_nil_iff.mp hb).1⟩, rfl,
        fun hb => ⟨h.balanced hb, rfl⟩⟩).both
  | .classDecl _ _ _ members, _, hk =>
    ((members.resolveMembers_tends hk).bind fun _ h =>
      .pure ⟨⟨h.most_eq, fun _ => trivial⟩, rfl, fun hb => ⟨h.members hb, rfl⟩⟩).both
  | .returns _ e, _, _ =>
    ((Expr.resolveOption_tends k _ e).bind fun _ h => .pure ⟨⟨rfl, fun _ => trivial⟩, rfl,
      fun _ => ⟨h, rfl⟩⟩).both
  | .continues _, _, _ | .breaks _, _, _ =>
    (Tends.pure ⟨⟨rfl, fun _ => trivial⟩, rfl, fun _ => ⟨trivial, rfl⟩⟩).both
  | .free _ _ _, _, _ => (Tends.pure ⟨⟨rfl, fun _ => trivial⟩, rfl, fun h => by cases h⟩).both

theorem Rest.resolve_tends : (r : Rest) → ∀ {fs : List Frame},
    (slots fs).length + r.mostLocals ≤ k → Tends k fs r.resolve (r.Tended k fs)
  | .nothing, _, _ => .pure ⟨rfl, fun _ => trivial⟩
  | .elseIf _ condition body rest, fs, hk => by
    have hbody : (slots fs).length + body.mostLocals ≤ k :=
      (Nat.add_le_add_left (Nat.le_max_left _ _) _).trans hk
    have hrest : (slots fs).length + rest.mostLocals ≤ k :=
      (Nat.add_le_add_left (Nat.le_max_right _ _) _).trans hk
    refine (condition.resolve_tends k fs).bind fun _ h =>
      (body.resolveBody_tends [] hbody).bind fun _ h' =>
        (rest.resolve_tends hrest).bind fun _ h'' => .pure ?_
    refine ⟨congrArg₂ max h'.most_eq h''.most_eq, fun hfreed => ?_⟩
    obtain ⟨hb, hr⟩ := List.append_eq_nil_iff.mp hfreed
    exact ⟨h, h'.balanced hb, h''.balanced hr⟩
  | .otherwise body, _, hk =>
    (body.resolveBody_tends [] hk).bind fun _ h => .pure ⟨h.most_eq, h.balanced⟩

theorem Block.resolveBody_tends : (b : Block) → (params : List String) → ∀ {fs : List Frame},
    (slots fs).length + b.mostLocals ≤ k → Tends k fs (b.resolveBody params) (b.Tended k fs)
  | .mk line ss, _, fs, hk =>
    inFrame_tends line fun f hf => Stmt.resolveAll_grows ss <| by
      rw [room_cons, hf, List.map_nil, List.toFinset_nil, Finset.empty_union]
      rw [Block.mostLocals] at hk
      omega

theorem Block.resolveMembers_tends : (b : Block) → ∀ {fs : List Frame},
    (slots fs).length + b.mostLocalsWithin ≤ k →
      Tends k fs (b.resolve true) (b.TendedMembers k fs)
  | .mk _ ss, _, hk => (Stmt.resolveEach_tends ss hk).bind fun _ h => .pure ⟨h.most_eq, h.members⟩

theorem Stmt.resolveAll_grows : (ss : List Stmt) → ∀ {fs : List Frame},
    Room k (Stmt.mostLocalsAll ss) (Stmt.localNames ss) fs →
      Grows k fs (Stmt.resolveAll false ss) (Stmt.AllHoused k fs ss)
  | [], fs, _ => fun _ hfs hs => ⟨fs, .refl fs, ⟨rfl, rfl, fun _ => ⟨trivial, rfl⟩⟩, hfs, hs⟩
  | s :: ss, fs, hroom => by
    rintro scope rfl hs
    rw [Stmt.mostLocalsAll, Stmt.localNames_cons] at hroom
    have hfirst := hroom.mono (Nat.le_max_left s.mostLocals (Stmt.mostLocalsAll ss))
    obtain ⟨gs, hgrows, hhoused, rfl, hs'⟩ :=
      (s.resolve_tends (hfirst.length_le hs.frames)).2 _ hfirst scope rfl hs
    obtain ⟨hs'', hgrows', hall, hhs, htidy⟩ := Stmt.resolveAll_grows ss
      (hhoused.room _ _ (hroom.mono (Nat.le_max_right _ _))) _ rfl hs'
    refine ⟨hs'', hgrows.trans hgrows', ⟨?_, ?_, fun hfreed => ?_⟩, hhs, htidy⟩
    · exact congrArg₂ max hhoused.most_eq hall.most_eq
    · show List.filterMap _ ((s.resolve false scope).1 :: _) = _
      rw [List.filterMap_cons, List.filterMap_cons, hhoused.name_eq, hall.names_eq]
    · obtain ⟨hfirst, hrest⟩ := List.append_eq_nil_iff.mp hfreed
      obtain ⟨hbalanced, hholding⟩ := hhoused.balanced hfirst
      obtain ⟨hbalanced', hholding'⟩ := hall.balanced hrest
      rw [hgrows.outer_eq] at hbalanced'
      refine ⟨⟨hbalanced, ?_⟩, ?_⟩
      · rw [hholding]
        exact hbalanced'
      · show List.foldl _ (Stmt.holding _ _) _ = _
        rw [hholding]
        exact hholding'

theorem Stmt.resolveEach_tends : (ss : List Stmt) → ∀ {fs : List Frame},
    (slots fs).length + Stmt.mostLocalsAll ss ≤ k →
      Tends k fs (Stmt.resolveAll true ss) (Stmt.EachTended k fs ss)
  | [], _, _ => .pure ⟨rfl, fun _ => trivial⟩
  | s :: ss, fs, hk => by
    have hfirst : (slots fs).length + s.mostLocals ≤ k :=
      (Nat.add_le_add_left (Nat.le_max_left _ _) _).trans hk
    have hrest : (slots fs).length + Stmt.mostLocalsAll ss ≤ k :=
      (Nat.add_le_add_left (Nat.le_max_right _ _) _).trans hk
    refine (s.resolve_tends hfirst).1.bind fun _ h =>
      (Stmt.resolveEach_tends ss hrest).bind fun _ h' => .pure ?_
    refine ⟨congrArg₂ max h.most_eq h'.most_eq, fun hfreed => ?_⟩
    obtain ⟨hs, hss⟩ := Stmt.memberSlotsAll_cons_eq_nil.mp hfreed
    exact ⟨h.member hs, h'.members hss⟩

end

/-- A resolved program is balanced, and its slots are below the largest number of locals that are
declared along one chain of nested bodies. -/
theorem Block.resolve_balanced (root : Block) (hfreed : root.freedSlots = [])
    (globals : List String) :
    let resolved := ((root.resolve false).run (.start globals)).1
    resolved.mostLocalsWithin = root.mostLocalsWithin ∧
      resolved.Balanced root.mostLocalsWithin ∅ := by
  cases root with
  | mk line ss =>
    have hroom : Room (Stmt.mostLocalsAll ss) (Stmt.mostLocalsAll ss) (Stmt.localNames ss) [] :=
      Nat.le_refl _
    obtain ⟨gs, hgrows, hall, -, -⟩ :=
      Stmt.resolveAll_grows ss hroom (.start globals) rfl (.start _ globals)
    cases hgrows
    exact ⟨hall.most_eq, hall.balanced hfreed⟩

end

end StackScript
