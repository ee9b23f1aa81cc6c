import Mathlib.Data.List.Induction
import StackScript.Proofs.Visibility

/-!
# StackScript.Proofs.Resolution — scopes are lexical

While a tree is resolved, the frames of the scope reflect the open bodies, its globals are those known
by then, and its slots are held by the pool, each once (`Scope.Follows`).  Each occurrence keeps
this and gets the binding that fits it; the tree as a whole does, since its bodies end as they began.
-/

namespace StackScript

open Occurrence

/-! ### Slots -/

namespace SlotPool

variable {p : SlotPool Nat} {slot : Nat} {slots slots' : List Nat}

/-- The slots are different and none of them is free. -/
structure Holds (p : SlotPool Nat) (slots : List Nat) : Prop where
  sorted : p.released.Pairwise (· < ·)
  released_lt : ∀ slot ∈ p.released, slot < p.next
  lt : ∀ slot ∈ slots, slot < p.next
  not_released : ∀ slot ∈ slots, slot ∉ p.released
  nodup : slots.Nodup

theorem holds_empty : empty.Holds [] :=
  ⟨.nil, fun _ h => absurd h List.not_mem_nil, fun _ h => absurd h List.not_mem_nil,
    fun _ h => absurd h List.not_mem_nil, .nil⟩

theorem Holds.perm (h : p.Holds slots) (hperm : slots.Perm slots') : p.Holds slots' :=
  ⟨h.sorted, h.released_lt, fun _ hs => h.lt _ (hperm.mem_iff.2 hs),
    fun _ hs => h.not_released _ (hperm.mem_iff.2 hs), hperm.nodup_iff.1 h.nodup⟩

/-- A slot that is handed out is held by nobody else. -/
theorem Holds.allocate (h : p.Holds slots) : p.allocate.2.Holds (p.allocate.1 :: slots) := by
  obtain ⟨released, next⟩ := p
  cases released with
  | nil =>
    refine ⟨.nil, fun _ hs => absurd hs List.not_mem_nil, ?_, fun _ _ => List.not_mem_nil, ?_⟩
    · rintro slot hs
      rcases List.mem_cons.mp hs with rfl | hs
      · exact Nat.lt_succ_self _
      · exact Nat.lt_succ_of_lt (h.lt slot hs)
    · exact List.nodup_cons.mpr ⟨fun hs => Nat.lt_irrefl _ (h.lt _ hs), h.nodup⟩
  | cons first rest =>
    obtain ⟨hfirst, hrest⟩ := List.pairwise_cons.mp h.sorted
    refine ⟨hrest, fun slot hs => h.released_lt slot (List.mem_cons_of_mem _ hs), ?_, ?_, ?_⟩
    · intro slot hs
      rcases List.mem_cons.mp hs with rfl | hs
      · exact h.released_lt _ List.mem_cons_self
      · exact h.lt slot hs
    · intro slot hs
      rcases List.mem_cons.mp hs with rfl | hs
      · exact fun hmem => Nat.lt_irrefl _ (hfirst _ hmem)
      · exact fun hmem => h.not_released slot hs (List.mem_cons_of_mem _ hmem)
    · exact List.nodup_cons.mpr ⟨fun hs => h.not_released _ hs List.mem_cons_self, h.nodup⟩

theorem mem_insert {n : Nat} {ns : List Nat} : n ∈ insert slot ns ↔ n = slot ∨ n ∈ ns := by
  induction ns with
  | nil => rw [insert, List.mem_singleton, or_iff_left List.not_mem_nil]
  | cons m ns ih =>
    rw [insert]
    split
    · rw [List.mem_cons]
    split
    case isTrue hsame =>
      rw [hsame]
      exact (or_iff_right_of_imp fun h => h ▸ List.mem_cons_self).symm
    case isFalse =>
      rw [List.mem_cons, ih, List.mem_cons]
      exact or_left_comm

theorem sorted_insert {ns : List Nat} (h : ns.Pairwise (· < ·)) :
    (insert slot ns).Pairwise (· < ·) := by
  induction ns with
  | nil => exact List.pairwise_singleton _ _
  | cons m ns ih =>
    obtain ⟨hm, hns⟩ := List.pairwise_cons.mp h
    rw [insert]
    split
    case isTrue hlt =>
      refine List.pairwise_cons.mpr ⟨?_, h⟩
      exact List.forall_mem_cons.mpr ⟨hlt, fun n hn => Nat.lt_trans hlt (hm n hn)⟩
    split
    case isTrue => exact h
    case isFalse hlt hne =>
      refine List.pairwise_cons.mpr ⟨fun n hn => ?_, ih hns⟩
      rcases mem_insert.1 hn with rfl | hn
      · omega
      · exact hm n hn

/-- A slot that is given back is free, and the others are held still. -/
theorem Holds.release (h : p.Holds (slot :: slots)) : (p.release slot).Holds slots := by
  obtain ⟨hslot, hslots⟩ := List.nodup_cons.mp h.nodup
  refine ⟨sorted_insert h.sorted, ?_, fun s hs => h.lt s (List.mem_cons_of_mem _ hs), ?_, hslots⟩
  · intro s hs
    rcases mem_insert.1 hs with rfl | hs
    · exact h.lt _ List.mem_cons_self
    · exact h.released_lt s hs
  · intro s hs hmem
    rcases mem_insert.1 hmem with rfl | hmem
    · exact hslot hs
    · exact h.not_released s (List.mem_cons_of_mem _ hs) hmem

theorem Holds.releaseAll {locals : List (String × Nat)}
    (h : p.Holds (locals.map Prod.snd ++ slots)) :
    (locals.foldl (fun p d => p.release d.2) p).Holds slots := by
  induction locals generalizing p with
  | nil => exact h
  | cons d locals ih => exact ih h.release

theorem Holds.right (h : p.Holds (slots ++ slots')) : p.Holds slots' :=
  ⟨h.sorted, h.released_lt, fun s hs => h.lt s (List.mem_append_right _ hs),
    fun s hs => h.not_released s (List.mem_append_right _ hs), (List.nodup_append.mp h.nodup).2.1⟩

end SlotPool

/-! ### Frames -/

namespace Frame

variable {f : Frame} {params : List String} {since : List Occurrence} {name : String}

/-- The parameters of a new frame, the last of a name first. -/
theorem lookup_params (params : List String) (name : String) (b : Binding) :
    ((params.zipIdx 1).map fun p => (p.1, Binding.param p.2)).reverse.lookup name = some b ↔
      ∃ ordinal, b = .param (ordinal + 1) ∧ params[ordinal]? = some name ∧
        ∀ later, ordinal < later → params[later]? ≠ some name := by
  induction params using List.reverseRecOn with
  | nil => simp
  | append_singleton params param ih =>
    have hzip : ((params ++ [param]).zipIdx 1).map (fun p => (p.1, Binding.param p.2)) =
        ((params.zipIdx 1).map fun p => (p.1, Binding.param p.2)) ++
          [(param, .param (params.length + 1))] := by
      rw [List.zipIdx_append, List.map_append, Nat.add_comm]
      rfl
    have hlast : (params ++ [param])[params.length]? = some param := List.getElem?_concat_length
    have hbefore : ∀ i, i < params.length → (params ++ [param])[i]? = params[i]? :=
      fun i hi => List.getElem?_append_left hi
    have hafter : ∀ i, params.length < i → (params ++ [param])[i]? = none := by
      intro i hi
      rw [List.getElem?_eq_none]
      rw [List.length_append, List.length_singleton]
      exact hi
    rw [hzip, List.reverse_append, List.reverse_singleton, List.singleton_append, List.lookup_cons]
    by_cases hname : name = param
    · subst hname
      rw [beq_self_eq_true]
      constructor
      · rintro h
        obtain rfl := Option.some.inj h
        refine ⟨params.length, rfl, hlast, fun later hlater => ?_⟩
        rw [hafter later hlater]
        exact (Option.some_ne_none name).symm
      · rintro ⟨ordinal, rfl, hget, hnone⟩
        have hordinal : ordinal = params.length := by
          rcases Nat.lt_trichotomy ordinal params.length with hlt | heq | hgt
          · exact absurd hlast (hnone _ hlt)
          · exact heq
          · rw [hafter ordinal hgt] at hget
            cases hget
        rw [hordinal]
    · rw [beq_eq_false_iff_ne.mpr hname]
      refine ih.trans (exists_congr fun ordinal => and_congr_right fun _ => ?_)
      have hother : (params ++ [param])[params.length]? ≠ some name := by
        rw [hlast]
        exact fun h => hname (Option.some.inj h).symm
      constructor
      · rintro ⟨hget, hnone⟩
        have hlt := (List.getElem?_eq_some_iff.mp hget).1
        refine ⟨(hbefore ordinal hlt).trans hget, fun later hlater => ?_⟩
        rcases Nat.lt_trichotomy later params.length with hlt' | rfl | hgt
        · rw [hbefore later hlt']
          exact hnone later hlater
        · exact hother
        · rw [hafter later hgt]
          exact (Option.some_ne_none name).symm
      · rintro ⟨hget, hnone⟩
        have hlt : ordinal < params.length := by
          rcases Nat.lt_trichotomy ordinal params.length with hlt | rfl | hgt
          · exact hlt
          · exact absurd hget hother
          · rw [hafter ordinal hgt] at hget
            cases hget
        refine ⟨(hbefore ordinal hlt).symm.trans hget, fun later hlater hget' => ?_⟩
        have hlt' := (List.getElem?_eq_some_iff.mp hget').1
        exact hnone later hlater ((hbefore later hlt').trans hget')

/-- Nothing is declared yet. -/
theorem not_declares_nil {binding : Option Binding} : ¬ Declares [] name binding := by
  rintro ⟨us, vs, heq, -⟩
  cases us <;> cases heq

/-- A new frame has the parameters. -/
theorem has_params (params : List String) :
    Has ⟨((params.zipIdx 1).map fun p => (p.1, Binding.param p.2)).reverse, []⟩ params [] := by
  refine ⟨fun name binding => ?_, fun name binding => ?_⟩
  · constructor
    · rintro (h | ⟨-, hget, hlast⟩)
      · exact absurd h not_declares_nil
      · exact ⟨_, (lookup_params params name _).2 ⟨_, rfl, hget, hlast⟩, rfl⟩
    · rintro ⟨b, hlookup, rfl⟩
      obtain ⟨ordinal, rfl, hget, hlast⟩ := (lookup_params params name b).1 hlookup
      exact .param (fun _ => not_declares_nil) hget hlast
  · constructor
    · exact fun h => absurd h not_declares_nil
    · rintro ⟨slot, hlookup, -⟩
      cases hlookup

/-- A frame has a variable that is declared with a slot, also if the name has it already. -/
theorem Has.redeclare (h : f.Has params since) {slot : Nat}
    (hslot : f.declared.lookup name = some slot) :
    f.Has params (since ++ [.declare name (some (.slot slot))]) := by
  refine h.congr fun name' binding => ?_
  rw [declares_concat, or_iff_left_of_imp]
  rintro ⟨heq, -⟩
  cases heq
  exact (h.declared_iff _ _).2 ⟨slot, hslot, rfl⟩

/-- A frame has a new variable. -/
theorem Has.declare (h : f.Has params since) (hsince : Paired since)
    (hnone : f.declared.lookup name = none) (slot : Nat) :
    Has ⟨(name, .slot slot) :: f.names, f.declared ++ [(name, slot)]⟩ params
      (since ++ [.declare name (some (.slot slot))]) := by
  have hnot : ∀ binding, ¬ Declares since name binding := by
    intro binding hd
    obtain ⟨slot', hlookup, -⟩ := (h.declared_iff _ _).1 hd
    rw [hnone] at hlookup
    cases hlookup
  have hdeclares : ∀ name' binding,
      Declares (since ++ [.declare name (some (.slot slot))]) name' binding ↔
        if name' = name then binding = some (.slot slot) else Declares since name' binding := by
    intro name' binding
    rw [declares_concat]
    split
    case isTrue hname =>
      subst hname
      constructor
      · rintro (hd | ⟨heq, -⟩)
        · exact absurd hd (hnot _)
        · cases heq
          rfl
      · rintro rfl
        exact .inr ⟨rfl, hsince⟩
    case isFalse hname =>
      refine or_iff_left ?_
      rintro ⟨heq, -⟩
      cases heq
      exact hname rfl
  refine ⟨fun name' binding => ?_, fun name' binding => ?_⟩
  · rw [List.lookup_cons]
    by_cases hname : name' = name
    · subst hname
      have hiff : ∀ binding, Declares (since ++ [.declare name' (some (.slot slot))]) name' binding ↔
          binding = some (.slot slot) := fun binding => by rw [hdeclares, if_pos rfl]
      rw [beq_self_eq_true]
      constructor
      · rintro (hd | ⟨hnone', -, -⟩)
        · exact ⟨_, rfl, (hiff _).1 hd⟩
        · exact absurd ((hiff _).2 rfl) (hnone' _)
      · rintro ⟨b, hb, rfl⟩
        exact .declared ((hiff _).2 (congrArg some (Option.some.inj hb).symm))
    · have hiff : ∀ binding, Declares (since ++ [.declare name (some (.slot slot))]) name' binding ↔
          Declares since name' binding := fun binding => by rw [hdeclares, if_neg hname]
      rw [beq_eq_false_iff_ne.mpr hname, ← h.names_iff]
      exact ⟨fun hb => hb.congr fun b => (hiff b).symm, fun hb => hb.congr hiff⟩
  · rw [hdeclares, List.lookup_append]
    split
    case isTrue hname =>
      subst hname
      rw [hnone, Option.none_or, List.lookup_cons, beq_self_eq_true]
      constructor
      · rintro rfl
        exact ⟨slot, rfl, rfl⟩
      · rintro ⟨slot', hslot, rfl⟩
        cases hslot
        rfl
    case isFalse hname =>
      rw [List.lookup_cons, beq_eq_false_iff_ne.mpr hname, h.declared_iff]
      simp

end Frame

/-! ### One occurrence -/

/-- The scope is that of the end of `past`. -/
structure Scope.Follows (globals : List String) (past : List Occurrence) (s : Scope) : Prop where
  reflects : Frame.Reflects past s.frames
  known : ∀ name, name ∈ s.globals ↔ Known globals past name
  holds : s.pool.Holds (Frame.slots s.frames)

namespace Scope.Follows

variable {globals : List String} {past : List Occurrence} {s : Scope} {name : String}
  {binding : Option Binding}

/-- Only the given globals are known at the start. -/
theorem start (globals : List String) : (Scope.start globals).Follows globals [] := by
  refine ⟨.outside paired_nil, fun name => ?_, SlotPool.holds_empty⟩
  refine List.mem_eraseDups.trans (or_iff_left ?_).symm
  rintro ⟨binding, h⟩
  exact Frame.not_declares_nil h

theorem slotsApart (h : s.Follows globals past) : SlotsApart past :=
  h.reflects.slotsApart h.holds.nodup

/-- The scope finds what a name refers to. -/
theorem refers_iff (h : s.Follows globals past) :
    Refers globals past name binding ↔ binding = s.lookup name :=
  h.reflects.refers_iff (h.known name)

/-- An occurrence that neither begins nor ends a body nor declares anything keeps the scope. -/
theorem concat (h : s.Follows globals past) {o : Occurrence} (hrise : rise [o] = 0)
    (hdeclare : ∀ name binding, o ≠ .declare name binding) {s' : Scope}
    (hframes : s'.frames = s.frames) (hglobals : s'.globals = s.globals) (hpool : s'.pool = s.pool) :
    s'.Follows globals (past ++ [o]) := by
  have hdeclares : ∀ since name binding,
      Declares (since ++ [o]) name binding ↔ Declares since name binding :=
    fun since name binding => (declares_concat o).trans
      (or_iff_left fun h => hdeclare name binding h.1)
  refine ⟨?_, fun name => ?_, ?_⟩
  · have hreflects := h.reflects
    rw [hframes]
    generalize s.frames = fs at hreflects
    cases hreflects with
    | outside hpaired => exact .outside (hpaired.append (paired_singleton hrise))
    | inside hreflects hsince hf =>
      rw [List.append_assoc, List.cons_append]
      exact .inside hreflects (hsince.append (paired_singleton hrise)) (hf.congr (hdeclares _))
  · rw [hglobals, h.known]
    exact or_congr_right (exists_congr fun binding => (hdeclares past name binding).symm)
  · rw [hframes, hpool]
    exact h.holds

/-- A body begins. -/
theorem enter (h : s.Follows globals past) (params : List String) :
    (s.push params).Follows globals (past ++ [.enter params]) := by
  refine ⟨.inside h.reflects paired_nil (Frame.has_params params), fun name => ?_, h.holds⟩
  exact (h.known name).trans (known_open h.reflects.rise_nonneg paired_nil.stays).symm

/-- A body ends, and with it the innermost frame; its slots are given back. -/
theorem leave (h : s.Follows globals past) (hopen : 0 < rise past) :
    s.pop.2.Follows globals (past ++ [.leave]) := by
  obtain ⟨reflects, known, holds⟩ := h
  obtain ⟨frames, gs, pool, reuses, diagnostics, bound, added⟩ := s
  cases reflects with
  | outside hpaired =>
    rw [hpaired.rise_eq] at hopen
    exact absurd hopen (Int.lt_irrefl _)
  | @inside before since params f fs hreflects hsince hf =>
    have hdeclares : ∀ {us : List Occurrence} {name binding}, 0 ≤ rise us →
        (Declares (us ++ (.enter params :: (since ++ [.leave]))) name binding ↔
          Declares us name binding) := fun hus => declares_closed hus hsince.stays
    have heq : before ++ .enter params :: since ++ [.leave] =
        before ++ (.enter params :: (since ++ [.leave])) := by
      rw [List.append_assoc, List.cons_append]
    refine ⟨?_, fun name => ?_, ?_⟩
    · rw [heq]
      show Frame.Reflects _ fs
      cases hreflects with
      | outside hpaired => exact .outside (hpaired.append (hsince.body params))
      | inside hreflects hsince' hf' =>
        rw [List.append_assoc, List.cons_append]
        refine .inside hreflects (hsince'.append (hsince.body params)) (hf'.congr fun name binding => ?_)
        exact hdeclares hsince'.stays.rise_nonneg
    · rw [heq]
      refine (known name).trans ((known_open hreflects.rise_nonneg hsince.stays).trans ?_)
      exact or_congr_right (exists_congr fun _ => (hdeclares hreflects.rise_nonneg).symm)
    · show SlotPool.Holds (if reuses then _ else pool) (Frame.slots fs)
      split
      · exact SlotPool.Holds.releaseAll holds
      · exact holds.right

/-- A declaration outside all bodies makes a global, known from then on. -/
theorem known_declare_outside {gs : List String} (hpaired : Paired past)
    (known : ∀ name, name ∈ gs ↔ Known globals past name) (name name' : String) :
    name' ∈ (if gs.contains name then gs else gs ++ [name]) ↔
      Known globals (past ++ [.declare name (some .global)]) name' := by
  have hmem : name' ∈ (if gs.contains name then gs else gs ++ [name]) ↔
      name' ∈ gs ∨ name' = name := by
    split
    case isTrue hc =>
      rw [or_iff_left_of_imp]
      rintro rfl
      exact List.contains_iff_mem.1 hc
    case isFalse => rw [List.mem_append, List.mem_singleton]
  refine hmem.trans ?_
  rw [known name', Known, Known, or_assoc]
  refine or_congr_right ?_
  constructor
  · rintro (⟨binding, hd⟩ | rfl)
    · exact ⟨binding, (declares_concat _).2 (.inl hd)⟩
    · exact ⟨some .global, (declares_concat _).2 (.inr ⟨rfl, hpaired⟩)⟩
  · rintro ⟨binding, hd⟩
    rcases (declares_concat _).1 hd with hd | ⟨heq, -⟩
    · exact .inl ⟨binding, hd⟩
    · cases heq
      exact .inr rfl

section Inside

variable {before since : List Occurrence} {params : List String} {slot : Nat}

/-- The innermost of the open bodies is the last one that began. -/
theorem innermost {before' since' : List Occurrence} {params' : List String} (hsince : Paired since)
    (henc : Encloses (before ++ .enter params :: since) before' params' since')
    (hmax : ∀ before'' params'' since'',
      Encloses (before ++ .enter params :: since) before'' params'' since'' →
        before''.length ≤ before'.length) : since' = since := by
  rcases (encloses_append_enter hsince).1 henc with ⟨-, -, heq⟩ | ⟨us, ⟨rfl, -⟩, -⟩
  · exact heq
  · have hle := hmax _ params since ((encloses_append_enter hsince).2 (.inl ⟨rfl, rfl, rfl⟩))
    rw [List.length_append, List.length_cons] at hle
    omega

/-- A declaration in a body has the slot that the name has in the body, if it has any. -/
theorem fits_declare_inside (hsince : Paired since)
    (hslot : ∀ binding, Declares since name binding → binding = some (.slot slot)) :
    Fits globals (before ++ .enter params :: since) (.declare name (some (.slot slot))) := by
  refine ⟨fun before' params' since' henc hmax => ?_, fun hno => ?_⟩
  · rw [innermost hsince henc hmax]
    exact ⟨⟨slot, rfl⟩, hslot⟩
  · exact absurd ((encloses_append_enter hsince).2 (.inl ⟨rfl, rfl, rfl⟩)) (hno before params since)

/-- A declaration in a body makes no name known outside of it. -/
theorem known_declare_inside {name' : String} (hbefore : 0 ≤ rise before) (hsince : Paired since) :
    Known globals (before ++ .enter params :: since ++ [.declare name (some (.slot slot))]) name' ↔
      Known globals (before ++ .enter params :: since) name' := by
  have hstays : Stays (since ++ [.declare name (some (.slot slot))]) :=
    (hsince.append (paired_singleton rfl)).stays
  rw [List.append_assoc, List.cons_append]
  exact (known_open hbefore hstays).trans (known_open hbefore hsince.stays).symm

end Inside

/-- A name is declared. -/
theorem declare (h : s.Follows globals past) (name : String) :
    (s.declare name).2.Follows globals (past ++ [.declare name (some (s.declare name).1)]) ∧
      Fits globals past (.declare name (some (s.declare name).1)) := by
  obtain ⟨reflects, known, holds⟩ := h
  obtain ⟨frames, gs, pool, reuses, diagnostics, bound, added⟩ := s
  cases reflects with
  | outside hpaired =>
    exact ⟨⟨.outside (hpaired.append (paired_singleton rfl)),
      known_declare_outside hpaired known name, holds⟩,
      fun _ _ _ henc => absurd henc hpaired.not_encloses, fun _ => rfl⟩
  | @inside before since params f fs hreflects hsince hf =>
    have hknown : ∀ slot name', name' ∈ gs ↔ Known globals
        (before ++ .enter params :: since ++ [.declare name (some (.slot slot))]) name' :=
      fun slot name' => (known name').trans (known_declare_inside hreflects.rise_nonneg hsince).symm
    cases hlookup : f.declared.lookup name with
    | some slot =>
      have hdeclare : Scope.declare ⟨f :: fs, gs, pool, reuses, diagnostics, bound, added⟩ name =
          (.slot slot, ⟨f :: fs, gs, pool, reuses, diagnostics, bound, added⟩) := by
        simp only [Scope.declare, hlookup]
      rw [hdeclare]
      refine ⟨⟨?_, hknown slot, holds⟩, fits_declare_inside hsince fun binding hd => ?_⟩
      · rw [List.append_assoc, List.cons_append]
        exact .inside hreflects (hsince.append (paired_singleton rfl)) (hf.redeclare hlookup)
      · obtain ⟨slot', hlookup', rfl⟩ := (hf.declared_iff _ _).1 hd
        rw [hlookup] at hlookup'
        cases hlookup'
        rfl
    | none =>
      have hdeclare : Scope.declare ⟨f :: fs, gs, pool, reuses, diagnostics, bound, added⟩ name =
          (.slot pool.allocate.1, ⟨⟨(name, .slot pool.allocate.1) :: f.names,
            f.declared ++ [(name, pool.allocate.1)]⟩ :: fs, gs, pool.allocate.2, reuses, diagnostics,
            bound, added⟩) := by
        simp only [Scope.declare, hlookup]
      rw [hdeclare]
      refine ⟨⟨?_, hknown _, ?_⟩, fits_declare_inside hsince fun binding hd => ?_⟩
      · rw [List.append_assoc, List.cons_append]
        exact .inside hreflects (hsince.append (paired_singleton rfl)) (hf.declare hsince hlookup _)
      · refine holds.allocate.perm ?_
        rw [Frame.slots, Frame.slots, List.flatMap_cons, List.flatMap_cons, List.map_append,
          List.map_singleton, List.append_assoc, List.singleton_append]
        exact List.perm_middle.symm
      · obtain ⟨slot', hlookup', -⟩ := (hf.declared_iff _ _).1 hd
        rw [hlookup] at hlookup'
        cases hlookup'

/-- A name is used. -/
theorem use (h : s.Follows globals past) (name : String) (problem : Diagnostic)
    {o : Option Binding → Occurrence} (hrise : ∀ binding, rise [o binding] = 0)
    (hdeclare : ∀ binding name' binding', o binding ≠ .declare name' binding') :
    (Resolve.use name problem s).2.Follows globals
        (past ++ [o (Resolve.use name problem s).1]) ∧
      ∀ binding', Refers globals past name binding' ↔
        binding' = (Resolve.use name problem s).1 := by
  have huse : (Resolve.use name problem s).1 = s.lookup name := by
    rw [Resolve.use]
    cases s.lookup name <;> rfl
  refine ⟨h.concat (hrise _) (hdeclare _) ?_ ?_ ?_, fun binding' => ?_⟩
  · rw [Resolve.use]
    cases s.lookup name <;> rfl
  · rw [Resolve.use]
    cases s.lookup name <;> rfl
  · rw [Resolve.use]
    cases s.lookup name <;> rfl
  · rw [huse]
    exact h.refers_iff

/-- An occurrence gets the binding that fits it, and the scope goes on. -/
theorem step (h : s.Follows globals past) {o : Occurrence} (hopen : 0 ≤ rise past + rise [o]) :
    (o.resolve s).2.Follows globals (past ++ [(o.resolve s).1]) ∧
      Fits globals past (o.resolve s).1 := by
  cases o with
  | enter params => exact ⟨h.enter params, trivial⟩
  | leave =>
    have hrise : rise [Occurrence.leave] = -1 := rfl
    rw [hrise] at hopen
    exact ⟨h.leave (by omega), trivial⟩
  | read name line _ =>
    exact h.use name _ (o := .read name line) (fun _ => rfl) fun _ _ _ => Occurrence.noConfusion
  | write name line _ =>
    exact h.use name _ (o := .write name line) (fun _ => rfl) fun _ _ _ => Occurrence.noConfusion
  | declare name _ =>
    obtain ⟨hfollows, hfits⟩ := h.declare name
    exact ⟨⟨hfollows.reflects, hfollows.known, hfollows.holds⟩, hfits⟩

end Scope.Follows

/-! ### All occurrences -/

namespace Occurrence

variable {globals : List String} {past os : List Occurrence} {s : Scope}

/-- Resolving changes nothing but bindings. -/
theorem bare_resolve (o : Occurrence) (s : Scope) : (o.resolve s).1.bare = o.bare := by
  cases o <;> rfl

theorem map_bare_resolveAll (os : List Occurrence) (s : Scope) :
    (resolveAll os s).1.map bare = os.map bare := by
  induction os generalizing s with
  | nil => rfl
  | cons o os ih => rw [resolveAll_cons, List.map_cons, List.map_cons, bare_resolve, ih]

theorem rise_resolve (o : Occurrence) (s : Scope) : rise [(o.resolve s).1] = rise [o] := by
  rw [← rise_map_bare, List.map_singleton, bare_resolve, ← List.map_singleton, rise_map_bare]

/-- A use is reported if and only if it has no binding. -/
theorem diagnostics_resolve (o : Occurrence) (s : Scope) :
    (o.resolve s).2.diagnostics = s.diagnostics ++ (o.resolve s).1.problem?.toList := by
  have huse : ∀ name problem, (Resolve.use name problem s).2.diagnostics =
      s.diagnostics ++ if (Resolve.use name problem s).1 = none then [problem] else [] := by
    intro name problem
    rw [Resolve.use]
    cases s.lookup name with
    | none => rfl
    | some b => exact (List.append_nil _).symm
  cases o with
  | enter params => exact (List.append_nil _).symm
  | leave =>
    refine Eq.trans ?_ (List.append_nil _).symm
    show s.pop.2.diagnostics = s.diagnostics
    unfold Scope.pop
    cases s.frames <;> rfl
  | read name line _ =>
    refine (huse name (.undefinedRead name line)).trans (congrArg _ ?_)
    show _ = (problem? (.read name line (Resolve.use name _ s).1)).toList
    cases (Resolve.use name (.undefinedRead name line) s).1 <;> rfl
  | write name line _ =>
    refine (huse name (.undefinedWrite name line)).trans (congrArg _ ?_)
    show _ = (problem? (.write name line (Resolve.use name _ s).1)).toList
    cases (Resolve.use name (.undefinedWrite name line) s).1 <;> rfl
  | declare name _ =>
    refine Eq.trans ?_ (List.append_nil _).symm
    show (s.declare name).2.diagnostics = s.diagnostics
    rw [Scope.declare]
    split
    · rfl
    split <;> rfl

theorem diagnostics_resolveAll (os : List Occurrence) (s : Scope) :
    (resolveAll os s).2.diagnostics =
      s.diagnostics ++ (resolveAll os s).1.filterMap problem? := by
  induction os generalizing s with
  | nil => exact (List.append_nil _).symm
  | cons o os ih =>
    rw [resolveAll_cons, ih, diagnostics_resolve, List.append_assoc, List.filterMap_cons]
    cases (o.resolve s).1.problem? <;> rfl

/-- Occurrences get the bindings that fit them, as long as no body ends that has not begun. -/
theorem resolveAll_fits (h : s.Follows globals past)
    (hopen : ∀ us vs, os = us ++ vs → 0 ≤ rise past + rise us) :
    (∀ us o vs, (resolveAll os s).1 = us ++ o :: vs → Fits globals (past ++ us) o) ∧
      ∀ us vs, (resolveAll os s).1 = us ++ vs → SlotsApart (past ++ us) := by
  induction os generalizing past s with
  | nil =>
    refine ⟨fun us o vs heq => ?_, fun us vs heq => ?_⟩
    · cases us <;> cases heq
    · rw [(List.append_eq_nil_iff.mp heq.symm).1, List.append_nil]
      exact h.slotsApart
  | cons o os ih =>
    obtain ⟨hnext, hfits⟩ := h.step (hopen [o] os rfl)
    obtain ⟨hfits', hapart'⟩ := ih hnext fun us vs heq => by
      have hmore := hopen (o :: us) vs (by rw [heq]; rfl)
      rw [← List.singleton_append, rise_append] at hmore
      rw [rise_append, rise_resolve]
      omega
    rw [resolveAll_cons]
    refine ⟨fun us o' vs heq => ?_, fun us vs heq => ?_⟩
    · cases us with
      | nil =>
        obtain ⟨rfl, -⟩ := List.cons.inj heq
        rw [List.append_nil]
        exact hfits
      | cons first us =>
        obtain ⟨rfl, hrest⟩ := List.cons.inj heq
        rw [List.append_cons]
        exact hfits' us o' vs hrest
    · cases us with
      | nil =>
        rw [List.append_nil]
        exact h.slotsApart
      | cons first us =>
        obtain ⟨rfl, hrest⟩ := List.cons.inj heq
        rw [List.append_cons]
        exact hapart' us vs hrest

end Occurrence

/-! ### Trees -/

mutual

theorem Expr.paired : (e : Expr) → Paired e.occurrences
  | .list _ items => Expr.pairedAll items
  | .map _ entries => Expr.pairedPairs entries
  | .variable .. => paired_singleton rfl
  | .field _ receiver _ => receiver.paired
  | .binary _ _ left right _ => left.paired.append right.paired
  | .unary _ _ operand => operand.paired
  | .call _ _ args => Expr.pairedAll args
  | .method _ receiver _ args => (Expr.pairedAll args).append receiver.paired
  | .create _ _ args => Expr.pairedAll args
  | .number .. | .text .. | .boolean .. | .null .. | .this .. | .super .. => paired_nil

theorem Expr.pairedAll : (es : List Expr) → Paired (Expr.occurrencesAll es)
  | [] => paired_nil
  | e :: es => e.paired.append (Expr.pairedAll es)

theorem Expr.pairedPairs : (es : List (Expr × Expr)) → Paired (Expr.occurrencesPairs es)
  | [] => paired_nil
  | (k, v) :: es => k.paired.append (v.paired.append (Expr.pairedPairs es))

end

theorem Expr.pairedOption (e : Option Expr) : Paired (Expr.occurrencesOption e) := by
  cases e with
  | none => exact paired_nil
  | some e => exact e.paired

mutual

theorem Stmt.paired (isMember : Bool) : (s : Stmt) → Paired (s.occurrences isMember)
  | .value e => e.paired
  | .declare _ _ init _ => (Expr.pairedOption init).append (by
      cases isMember
      · exact paired_singleton rfl
      · exact paired_nil)
  | .assign _ _ value _ => value.paired.append (paired_singleton rfl)
  | .setField _ receiver _ value => receiver.paired.append value.paired
  | .print _ value => value.paired
  | .branch _ condition body rest => condition.paired.append ((body.pairedBody []).append rest.paired)
  | .loop _ condition body => condition.paired.append (body.pairedBody [])
  | .function _ _ params body => body.pairedBody params
  | .classDecl _ _ _ members => members.paired true
  | .returns _ value => Expr.pairedOption value
  | .continues _ | .breaks _ | .free .. => paired_nil

theorem Rest.paired : (r : Rest) → Paired r.occurrences
  | .nothing => paired_nil
  | .elseIf _ condition body rest =>
    condition.paired.append ((body.pairedBody []).append rest.paired)
  | .otherwise body => body.pairedBody []

theorem Block.pairedBody (params : List String) : (b : Block) → Paired (b.occurrencesBody params)
  | .mk _ statements => (Stmt.pairedAll false statements).body params

/-- The bodies of a tree end as they began. -/
theorem Block.paired (isMember : Bool) : (b : Block) → Paired (b.occurrences isMember)
  | .mk _ statements => Stmt.pairedAll isMember statements

theorem Stmt.pairedAll (isMember : Bool) : (ss : List Stmt) →
    Paired (Stmt.occurrencesAll isMember ss)
  | [] => paired_nil
  | s :: ss => (s.paired isMember).append (Stmt.pairedAll isMember ss)

end

/-- Resolution is lexical and complete, for any program and any globals declared before.  The
resolved tree has the names of the tree, each with its binding, in the order in which the tree is gone
through: a variable comes after its initial value, and a body after its condition.  The problems are
those of the uses without a binding, in this order.  Each use has the binding that it refers to by
what came before it, and each declaration has a slot of its body or makes a global.  At any place,
the variables of the bodies that are open there have different slots. -/
theorem Block.resolution_is_lexical (globals : List String) (root : Block) :
    let r := (root.resolve false).run (.start globals)
    let os := r.1.occurrences false
    os.map bare = (root.occurrences false).map bare ∧
      r.2.diagnostics = os.filterMap problem? ∧
      (∀ past o rest, os = past ++ o :: rest → Fits globals past o) ∧
      (∀ past rest, os = past ++ rest → SlotsApart past) ∧
      (∀ line name init binding, (Stmt.declare line name (some init) binding).occurrences false =
        init.occurrences ++ [.declare name binding]) ∧
      (∀ isMember line condition body rest,
        (Stmt.branch line condition body rest).occurrences isMember =
          condition.occurrences ++ (body.occurrencesBody [] ++ rest.occurrences)) ∧
      ∀ isMember line condition body, (Stmt.loop line condition body).occurrences isMember =
        condition.occurrences ++ body.occurrencesBody [] := by
  have hfollows := root.resolve_follows false (.start globals)
  have hos : ((root.resolve false).run (.start globals)).1.occurrences false =
      (resolveAll (root.occurrences false) (.start globals)).1 :=
    (congrArg Prod.fst hfollows).symm
  have hdiagnostics : ((root.resolve false).run (.start globals)).2.diagnostics =
      (resolveAll (root.occurrences false) (.start globals)).2.diagnostics :=
    congrArg (·.diagnostics) (congrArg Prod.snd hfollows).symm
  have hopen : ∀ us vs, root.occurrences false = us ++ vs → 0 ≤ rise [] + rise us := by
    intro us vs heq
    have := (root.paired false).stays us vs heq
    rwa [rise_nil, Int.zero_add]
  obtain ⟨hfits, hapart⟩ := resolveAll_fits (Scope.Follows.start globals) hopen
  dsimp only
  rw [hos, hdiagnostics, diagnostics_resolveAll, map_bare_resolveAll]
  exact ⟨rfl, List.nil_append _, hfits, hapart, fun _ _ _ _ => rfl, fun _ _ _ _ _ => rfl,
    fun _ _ _ _ => rfl⟩

end StackScript
