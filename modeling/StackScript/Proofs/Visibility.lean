import Mathlib.Data.List.Nodup
import StackScript.Proofs.Occurrences
import StackScript.Proofs.Scoped

/-!
# StackScript.Proofs.Visibility — which declaration a name refers to

What a name refers to is told by what came before it in the tree.  A body is open if it has begun
and not ended; directly in it are the declarations that stand in no body within.  `Refers` says what
a name means by these alone, without frames, slots or a resolver.

A resolver keeps a frame for each open body, with the names that the body has by then
(`Frame.Reflects`); the innermost frame with a name then gives what the name refers to.
-/

namespace StackScript

namespace Occurrence

/-! ### Bodies -/

/-- How many more bodies begin in the occurrences than end. -/
def rise : List Occurrence → Int
  | [] => 0
  | enter _ :: os => rise os + 1
  | leave :: os => rise os - 1
  | _ :: os => rise os

/-- No body that is open before ends here. -/
def Stays (os : List Occurrence) : Prop := ∀ us vs, os = us ++ vs → 0 ≤ rise us

/-- Every body that begins or ends here begins and ends here. -/
structure Paired (os : List Occurrence) : Prop where
  stays : Stays os
  rise_eq : rise os = 0

/-- A body with parameters is open at the end of `past`: it began after `before`, and since then has
not ended. -/
structure Encloses (past before : List Occurrence) (params : List String)
    (since : List Occurrence) : Prop where
  eq : past = before ++ .enter params :: since
  stays : Stays since

/-- A variable is declared in `since`, in no body that begins there. -/
def Declares (since : List Occurrence) (name : String) (binding : Option Binding) : Prop :=
  ∃ us vs, since = us ++ .declare name binding :: vs ∧ Paired us

/-- What a name refers to in a body with these parameters: the variable declared directly in it, or
else the last parameter of the name. -/
inductive InBody (params : List String) (since : List Occurrence) (name : String) :
    Option Binding → Prop where
  | declared {binding : Option Binding} (h : Declares since name binding) :
      InBody params since name binding
  | param {ordinal : Nat} (hnot : ∀ binding, ¬ Declares since name binding)
      (h : params[ordinal]? = some name)
      (last : ∀ later, ordinal < later → params[later]? ≠ some name) :
      InBody params since name (some (.param (ordinal + 1)))

/-- A global of the name is known at the end of `past`. -/
def Known (globals : List String) (past : List Occurrence) (name : String) : Prop :=
  name ∈ globals ∨ ∃ binding, Declares past name binding

/-- What a name refers to at the end of `past`: to what the innermost open body has of this name, or
else to a global. -/
inductive Refers (globals : List String) (past : List Occurrence) (name : String) :
    Option Binding → Prop where
  | inner {before since : List Occurrence} {params : List String} {binding : Option Binding}
      (h : Encloses past before params since) (hbody : InBody params since name binding)
      (innermost : ∀ before' params' since', Encloses past before' params' since' →
        before.length < before'.length → ∀ binding', ¬ InBody params' since' name binding') :
      Refers globals past name binding
  | global (outer : ∀ before params since, Encloses past before params since →
        ∀ binding, ¬ InBody params since name binding) (h : Known globals past name) :
      Refers globals past name (some .global)
  | unbound (outer : ∀ before params since, Encloses past before params since →
        ∀ binding, ¬ InBody params since name binding) (h : ¬ Known globals past name) :
      Refers globals past name none

/-- An occurrence after `past` has its right binding.  A name that is used has the one that it
refers to.  A declaration in a body has a slot, that of an earlier one of the name directly in this
body if there is any; a declaration outside all bodies makes a global. -/
def Fits (globals : List String) (past : List Occurrence) : Occurrence → Prop
  | read name _ binding | write name _ binding =>
    ∀ binding', Refers globals past name binding' ↔ binding' = binding
  | declare name binding =>
    (∀ before params since, Encloses past before params since →
      (∀ before' params' since', Encloses past before' params' since' →
        before'.length ≤ before.length) →
      (∃ slot, binding = some (.slot slot)) ∧
        ∀ binding', Declares since name binding' → binding' = binding) ∧
    ((∀ before params since, ¬ Encloses past before params since) → binding = some .global)
  | enter _ | leave => True

/-- Of the bodies that are open at the end of `past`, different variables have different slots. -/
def SlotsApart (past : List Occurrence) : Prop :=
  ∀ before before' params params' since since' name name' slot,
    Encloses past before params since → Encloses past before' params' since' →
    Declares since name (some (.slot slot)) → Declares since' name' (some (.slot slot)) →
    before = before' ∧ name = name'

/-! ### Counting bodies -/

variable {os us vs past before since : List Occurrence} {params : List String} {name : String}
  {binding : Option Binding}

@[simp] theorem rise_nil : rise [] = 0 := rfl

@[simp] theorem rise_enter (params : List String) (os : List Occurrence) :
    rise (.enter params :: os) = rise os + 1 := rfl

@[simp] theorem rise_append (us vs : List Occurrence) : rise (us ++ vs) = rise us + rise vs := by
  induction us with
  | nil => simp
  | cons o us ih =>
    rw [List.cons_append]
    cases o <;> simp only [rise, ih] <;> omega

theorem rise_map_bare (os : List Occurrence) : rise (os.map bare) = rise os := by
  induction os with
  | nil => rfl
  | cons o os ih =>
    rw [List.map_cons]
    cases o <;> simp only [bare, rise, ih]

theorem Stays.rise_nonneg (h : Stays os) : 0 ≤ rise os := h os [] (List.append_nil os).symm

theorem Stays.left (h : Stays (us ++ vs)) : Stays us := by
  rintro ts ts' rfl
  exact h ts (ts' ++ vs) (List.append_assoc _ _ _)

theorem Stays.append (h : Stays us) (h' : ∀ ts ts', vs = ts ++ ts' → 0 ≤ rise us + rise ts) :
    Stays (us ++ vs) := by
  intro ts ts' heq
  rcases List.append_eq_append_iff.mp heq with ⟨ws, rfl, hvs⟩ | ⟨ws, rfl, -⟩
  · rw [rise_append]
    exact h' ws ts' hvs
  · exact h ts ws rfl

theorem paired_nil : Paired [] := by
  refine ⟨?_, rfl⟩
  intro us vs h
  rw [(List.append_eq_nil_iff.mp h.symm).1]
  exact Int.le_refl _

theorem Paired.append (h : Paired us) (h' : Paired vs) : Paired (us ++ vs) := by
  refine ⟨h.stays.append fun ts ts' heq => ?_, ?_⟩
  · have := h'.stays ts ts' heq
    rw [h.rise_eq]
    omega
  · rw [rise_append, h.rise_eq, h'.rise_eq]
    rfl

/-- An occurrence that neither begins nor ends a body. -/
theorem paired_singleton {o : Occurrence} (h : rise [o] = 0) : Paired [o] := by
  refine ⟨?_, h⟩
  intro us vs heq
  rcases List.append_eq_singleton_iff.mp heq.symm with ⟨rfl, -⟩ | ⟨rfl, -⟩
  · exact Int.le_refl _
  · exact Int.le_of_eq h.symm

/-- A body that has ended. -/
theorem Paired.body (h : Paired os) (params : List String) :
    Paired (.enter params :: (os ++ [.leave])) := by
  have hrise : rise [Occurrence.leave] = -1 := rfl
  refine ⟨?_, ?_⟩
  · intro us vs heq
    cases us with
    | nil => exact Int.le_refl _
    | cons o us =>
      obtain ⟨rfl, htail⟩ := List.cons.inj heq
      rcases List.append_eq_append_iff.mp htail with ⟨ws, rfl, hws⟩ | ⟨ws, rfl, -⟩
      · rw [rise_enter, rise_append, h.rise_eq]
        rcases List.append_eq_singleton_iff.mp hws.symm with ⟨rfl, -⟩ | ⟨rfl, -⟩
        · decide
        · decide
      · have := h.stays us ws rfl
        rw [rise_enter]
        omega
  · rw [rise_enter, rise_append, h.rise_eq, hrise]
    rfl

/-! ### Declarations -/

/-- A later occurrence takes no declaration back. -/
theorem declares_concat (o : Occurrence) : Declares (since ++ [o]) name binding ↔
    Declares since name binding ∨ (o = .declare name binding ∧ Paired since) := by
  constructor
  · rintro ⟨us, vs, heq, hus⟩
    rcases List.eq_nil_or_concat vs with rfl | ⟨vs, o', rfl⟩
    · obtain ⟨rfl, hlast⟩ := List.append_inj' heq rfl
      exact .inr ⟨(List.cons.inj hlast).1, hus⟩
    · rw [List.concat_eq_append, ← List.cons_append, ← List.append_assoc] at heq
      exact .inl ⟨us, vs, (List.append_inj' heq rfl).1, hus⟩
  · rintro (⟨us, vs, rfl, hus⟩ | ⟨rfl, hsince⟩)
    · exact ⟨us, vs ++ [o], by simp, hus⟩
    · exact ⟨since, [], rfl, hsince⟩

/-- What is declared in a body within is not declared directly. -/
theorem declares_append_enter (h : 0 ≤ rise us)
    (h' : ∀ ts ts' name binding, vs = ts ++ .declare name binding :: ts' → 0 ≤ rise ts) :
    Declares (us ++ .enter params :: vs) name binding ↔ Declares us name binding := by
  constructor
  · rintro ⟨ts, ts', heq, hts⟩
    rcases List.append_eq_append_iff.mp heq with ⟨ws, rfl, hws⟩ | ⟨ws, rfl, hws⟩
    · cases ws with
      | nil => cases hws
      | cons o ws =>
        obtain ⟨rfl, hvs⟩ := List.cons.inj hws
        have hnonneg := h' ws ts' name binding hvs
        have hrise := hts.rise_eq
        rw [rise_append, rise_enter] at hrise
        omega
    · cases ws with
      | nil => cases hws
      | cons o ws =>
        obtain ⟨rfl, -⟩ := List.cons.inj hws
        exact ⟨ts, ws, rfl, hts⟩
  · rintro ⟨ts, ts', rfl, hts⟩
    exact ⟨ts, ts' ++ .enter params :: vs, by simp, hts⟩

/-- While a body is open, what the bodies around it declare stays the same. -/
theorem declares_open (h : 0 ≤ rise us) (h' : Stays vs) :
    Declares (us ++ .enter params :: vs) name binding ↔ Declares us name binding :=
  declares_append_enter h fun ts _ _ _ heq => h' ts _ heq

/-- When a body has ended, what the bodies around it declare is still the same. -/
theorem declares_closed (h : 0 ≤ rise us) (h' : Stays vs) :
    Declares (us ++ .enter params :: (vs ++ [.leave])) name binding ↔ Declares us name binding := by
  refine declares_append_enter h fun ts ts' name binding heq => ?_
  rcases List.eq_nil_or_concat ts' with rfl | ⟨ts', o, rfl⟩
  · have := (List.append_inj' heq rfl).2
    cases this
  · rw [List.concat_eq_append, ← List.cons_append, ← List.append_assoc] at heq
    exact h' ts _ (List.append_inj' heq rfl).1

/-- What a body has is a matter of its parameters and what is declared directly in it. -/
theorem InBody.congr {since' : List Occurrence} (h : InBody params since name binding)
    (heq : ∀ binding, Declares since' name binding ↔ Declares since name binding) :
    InBody params since' name binding := by
  cases h with
  | declared h => exact .declared ((heq _).2 h)
  | param hnot h last => exact .param (fun b hb => hnot b ((heq b).1 hb)) h last

theorem inBody_open (h : 0 ≤ rise us) (h' : Stays vs) {params' : List String} :
    InBody params' (us ++ .enter params :: vs) name binding ↔ InBody params' us name binding :=
  ⟨fun hb => hb.congr fun _ => (declares_open h h').symm, fun hb => hb.congr fun _ =>
    declares_open h h'⟩

theorem known_open {globals : List String} (h : 0 ≤ rise us) (h' : Stays vs) :
    Known globals (us ++ .enter params :: vs) name ↔ Known globals us name :=
  or_congr_right (exists_congr fun _ => declares_open h h')

/-! ### Open bodies -/

/-- Where every body has ended, none is open. -/
theorem Paired.not_encloses (h : Paired past) : ¬ Encloses past before params since := by
  rintro ⟨rfl, hsince⟩
  have hbefore := h.stays.left.rise_nonneg
  have hrise := h.rise_eq
  have := hsince.rise_nonneg
  rw [rise_append, rise_enter] at hrise
  omega

/-- The open bodies are the innermost and those around it. -/
theorem encloses_append_enter (h : Paired since) {before' since' : List Occurrence}
    {params' : List String} : Encloses (before ++ .enter params :: since) before' params' since' ↔
      (before' = before ∧ params' = params ∧ since' = since) ∨
        ∃ us, Encloses before before' params' us ∧ since' = us ++ .enter params :: since := by
  constructor
  · rintro ⟨heq, hstays⟩
    rcases List.append_eq_append_iff.mp heq with ⟨ws, rfl, hws⟩ | ⟨ws, rfl, hws⟩
    · cases ws with
      | nil =>
        obtain ⟨henter, rfl⟩ := List.cons.inj hws
        obtain rfl := Occurrence.enter.inj henter
        exact .inl ⟨List.append_nil _, rfl, rfl⟩
      | cons o ws =>
        obtain ⟨rfl, hwithin⟩ := List.cons.inj hws
        rw [List.append_eq] at hwithin
        have hwithout := (hwithin ▸ h.stays).left.rise_nonneg
        have hrise := h.rise_eq
        have := hstays.rise_nonneg
        rw [hwithin, rise_append, rise_enter] at hrise
        omega
    · cases ws with
      | nil =>
        obtain ⟨henter, rfl⟩ := List.cons.inj hws
        obtain rfl := Occurrence.enter.inj henter
        exact .inl ⟨(List.append_nil _).symm, rfl, rfl⟩
      | cons o ws =>
        obtain ⟨rfl, rfl⟩ := List.cons.inj hws
        exact .inr ⟨ws, ⟨rfl, hstays.left⟩, rfl⟩
  · rintro (⟨rfl, rfl, rfl⟩ | ⟨us, ⟨rfl, hus⟩, rfl⟩)
    · exact ⟨rfl, h.stays⟩
    · refine ⟨by simp, hus.append fun ts ts' heq => ?_⟩
      have hnonneg := hus.rise_nonneg
      cases ts with
      | nil => simpa using hnonneg
      | cons o ts =>
        obtain ⟨rfl, htail⟩ := List.cons.inj heq
        have := h.stays ts ts' htail
        rw [rise_enter]
        omega

end Occurrence

open Occurrence

/-! ### Frames -/

namespace Frame

variable {f : Frame} {fs : List Frame} {params : List String} {name : String}
  {past before since : List Occurrence} {globals : List String} {binding : Option Binding}

/-- The frame has what a body has, the parameters apart under `declared`. -/
structure Has (f : Frame) (params : List String) (since : List Occurrence) : Prop where
  names_iff : ∀ name binding,
    InBody params since name binding ↔ ∃ b, f.names.lookup name = some b ∧ binding = some b
  declared_iff : ∀ name binding, Declares since name binding ↔
    ∃ slot, f.declared.lookup name = some slot ∧ binding = some (.slot slot)

/-- There is a frame for each open body, the innermost first. -/
inductive Reflects : List Occurrence → List Frame → Prop where
  | outside {past : List Occurrence} (h : Paired past) : Reflects past []
  | inside {before since : List Occurrence} {params : List String} {f : Frame} {fs : List Frame}
      (h : Reflects before fs) (hsince : Paired since) (hf : f.Has params since) :
      Reflects (before ++ .enter params :: since) (f :: fs)

theorem Has.congr {since' : List Occurrence} (h : f.Has params since)
    (heq : ∀ name binding, Declares since' name binding ↔ Declares since name binding) :
    f.Has params since' := by
  refine ⟨fun name binding => ?_, fun name binding => ?_⟩
  · rw [← h.names_iff]
    exact ⟨fun hb => hb.congr fun b => (heq name b).symm, fun hb => hb.congr (heq name)⟩
  · rw [← h.declared_iff, heq]

theorem Reflects.rise_eq (h : Reflects past fs) : rise past = fs.length := by
  induction h with
  | outside h => exact h.rise_eq
  | inside _ hsince _ ih =>
    rw [rise_append, rise_enter, hsince.rise_eq, ih, List.length_cons]
    rfl

theorem Reflects.rise_nonneg (h : Reflects past fs) : 0 ≤ rise past := by
  rw [h.rise_eq]
  exact Int.natCast_nonneg _

/-- Inside a body, a name refers to what the body has of this name, or else to what it refers to
outside. -/
theorem Reflects.refers_inside (h : Reflects before fs) (hsince : Paired since) :
    Refers globals (before ++ .enter params :: since) name binding ↔
      InBody params since name binding ∨
        (∀ binding', ¬ InBody params since name binding') ∧ Refers globals before name binding := by
  have hknown : Known globals (before ++ .enter params :: since) name ↔
      Known globals before name := known_open h.rise_nonneg hsince.stays
  -- the bodies around the innermost one have the same names as before it began
  have houter : (∀ before' params' since',
        Encloses (before ++ .enter params :: since) before' params' since' →
          ∀ binding, ¬ InBody params' since' name binding) ↔
      (∀ binding, ¬ InBody params since name binding) ∧
        ∀ before' params' since', Encloses before before' params' since' →
          ∀ binding, ¬ InBody params' since' name binding := by
    constructor
    · intro hno
      refine ⟨hno before params since ((encloses_append_enter hsince).2 (.inl ⟨rfl, rfl, rfl⟩)), ?_⟩
      intro before' params' since' henc binding hb
      exact hno before' params' _ ((encloses_append_enter hsince).2 (.inr ⟨since', henc, rfl⟩)) _
        ((inBody_open henc.stays.rise_nonneg hsince.stays).2 hb)
    · rintro ⟨hno, hno'⟩ before' params' since' henc binding hb
      rcases (encloses_append_enter hsince).1 henc with ⟨rfl, rfl, rfl⟩ | ⟨us, henc', rfl⟩
      · exact hno binding hb
      · exact hno' before' params' us henc' binding
          ((inBody_open henc'.stays.rise_nonneg hsince.stays).1 hb)
  have hlength : ∀ {before' params' since'}, Encloses before before' params' since' →
      before'.length < before.length := by
    rintro before' params' since' ⟨rfl, -⟩
    rw [List.length_append, List.length_cons]
    omega
  constructor
  · rintro (⟨henc, hb, hinner⟩ | ⟨hno, hknows⟩ | ⟨hno, hknows⟩)
    · rcases (encloses_append_enter hsince).1 henc with ⟨rfl, rfl, rfl⟩ | ⟨us, henc', rfl⟩
      · exact .inl hb
      · refine .inr ⟨hinner before params since
          ((encloses_append_enter hsince).2 (.inl ⟨rfl, rfl, rfl⟩)) (hlength henc'), ?_⟩
        refine .inner henc' ((inBody_open henc'.stays.rise_nonneg hsince.stays).1 hb) ?_
        intro before' params' since' henc'' hlt binding' hb'
        exact hinner before' params' _ ((encloses_append_enter hsince).2 (.inr ⟨since', henc'', rfl⟩))
          hlt binding' ((inBody_open henc''.stays.rise_nonneg hsince.stays).2 hb')
    · obtain ⟨hno, hno'⟩ := houter.1 hno
      exact .inr ⟨hno, .global hno' (hknown.1 hknows)⟩
    · obtain ⟨hno, hno'⟩ := houter.1 hno
      exact .inr ⟨hno, .unbound hno' fun hk => hknows (hknown.2 hk)⟩
  · rintro (hb | ⟨hno, henc | ⟨hno', hknows⟩ | ⟨hno', hknows⟩⟩)
    · refine .inner ((encloses_append_enter hsince).2 (.inl ⟨rfl, rfl, rfl⟩)) hb ?_
      intro before' params' since' henc hlt
      rcases (encloses_append_enter hsince).1 henc with ⟨rfl, -, -⟩ | ⟨us, henc', -⟩
      · exact absurd hlt (Nat.lt_irrefl _)
      · exact absurd hlt (Nat.lt_asymm (hlength henc'))
    case inner before' since' params' hinner hb =>
      refine .inner ((encloses_append_enter hsince).2 (.inr ⟨since', henc, rfl⟩))
        ((inBody_open henc.stays.rise_nonneg hsince.stays).2 hb) ?_
      intro before'' params'' since'' henc' hlt binding' hb'
      rcases (encloses_append_enter hsince).1 henc' with ⟨rfl, rfl, rfl⟩ | ⟨us, henc'', rfl⟩
      · exact hno binding' hb'
      · exact hinner before'' params'' us henc'' hlt binding'
          ((inBody_open henc''.stays.rise_nonneg hsince.stays).1 hb')
    · exact .global (houter.2 ⟨hno, hno'⟩) (hknown.2 hknows)
    · exact .unbound (houter.2 ⟨hno, hno'⟩) fun hk => hknows (hknown.1 hk)

/-- What the innermost frame with a name has, or else a global. -/
def find (fs : List Frame) (globals : List String) (name : String) : Option Binding :=
  match fs.findSome? (·.names.lookup name) with
  | some b => some b
  | none => if globals.contains name then some .global else none

/-- The innermost frame with a name has what the name refers to. -/
theorem Reflects.refers_iff (h : Reflects past fs) {known : List String}
    (hknown : name ∈ known ↔ Known globals past name) :
    Refers globals past name binding ↔ binding = find fs known name := by
  induction h with
  | outside h =>
    have hno : ∀ before params since, Encloses _ before params since →
        ∀ binding, ¬ InBody params since name binding :=
      fun _ _ _ henc => absurd henc h.not_encloses
    have hfind : find [] known name = if known.contains name then some .global else none := rfl
    rw [hfind]
    constructor
    · rintro (⟨henc, -, -⟩ | ⟨-, hk⟩ | ⟨-, hk⟩)
      · exact absurd henc h.not_encloses
      · rw [if_pos (List.contains_iff_mem.2 (hknown.2 hk))]
      · rw [if_neg fun hc => hk (hknown.1 (List.contains_iff_mem.1 hc))]
    · rintro rfl
      split
      case isTrue hc => exact .global hno (hknown.1 (List.contains_iff_mem.1 hc))
      case isFalse hc => exact .unbound hno fun hk => hc (List.contains_iff_mem.2 (hknown.2 hk))
  | @inside before since params f fs h hsince hf ih =>
    have ih := ih (hknown.trans (known_open h.rise_nonneg hsince.stays))
    rw [h.refers_inside hsince, ih, hf.names_iff]
    have hfind : find (f :: fs) known name =
        match f.names.lookup name with
        | some b => some b
        | none => find fs known name := by
      rw [find, List.findSome?_cons]
      cases f.names.lookup name <;> rfl
    rw [hfind]
    cases hlookup : f.names.lookup name with
    | some b =>
      constructor
      · rintro (⟨b', hb', rfl⟩ | ⟨hno, -⟩)
        · exact hb'.symm
        · exact absurd ((hf.names_iff _ _).2 ⟨b, hlookup, rfl⟩) (hno _)
      · rintro rfl
        exact .inl ⟨b, rfl, rfl⟩
    | none =>
      constructor
      · rintro (⟨b', hb', -⟩ | ⟨-, hb⟩)
        · cases hb'
        · exact hb
      · intro hb
        refine .inr ⟨fun binding' hb' => ?_, hb⟩
        obtain ⟨b, hb, -⟩ := (hf.names_iff _ _).1 hb'
        rw [hlookup] at hb
        cases hb

/-! ### Slots of frames -/

/-- The slots of the locals of frames. -/
def slots (fs : List Frame) : List Nat := fs.flatMap fun f => f.declared.map Prod.snd

theorem Has.mem_slots (h : f.Has params since) {slot : Nat}
    (hd : Declares since name (some (.slot slot))) : (name, slot) ∈ f.declared := by
  obtain ⟨slot', hlookup, heq⟩ := (h.declared_iff _ _).1 hd
  obtain rfl := Binding.slot.inj (Option.some.inj heq)
  exact mem_of_lookup_eq_some hlookup

theorem Reflects.mem_slots (h : Reflects past fs) {slot : Nat} (henc : Encloses past before params since)
    (hd : Declares since name (some (.slot slot))) : slot ∈ slots fs := by
  induction h generalizing since with
  | outside h => exact absurd henc h.not_encloses
  | @inside before' since' params' f fs h hsince hf ih =>
    rw [slots, List.flatMap_cons, List.mem_append]
    rcases (encloses_append_enter hsince).1 henc with ⟨rfl, rfl, rfl⟩ | ⟨us, henc', rfl⟩
    · exact .inl (List.mem_map_of_mem (hf.mem_slots hd))
    · exact .inr (ih henc' ((declares_open henc'.stays.rise_nonneg hsince.stays).1 hd))

/-- If the frames have different slots, the variables have. -/
theorem Reflects.slotsApart (h : Reflects past fs) (hnodup : (slots fs).Nodup) : SlotsApart past := by
  induction h with
  | outside h => exact fun _ _ _ _ _ _ _ _ _ henc => absurd henc h.not_encloses
  | @inside before since params f fs h hsince hf ih =>
    rw [slots, List.flatMap_cons] at hnodup
    obtain ⟨hf', hfs, hdisjoint⟩ := List.nodup_append.mp hnodup
    have hclash : ∀ {before' params' us name name' slot}, Encloses before before' params' us →
        Declares (us ++ .enter params :: since) name (some (.slot slot)) →
        ¬ Declares since name' (some (.slot slot)) := by
      intro before' params' us name name' slot henc hd hd'
      exact hdisjoint slot (List.mem_map_of_mem (hf.mem_slots hd')) slot
        (h.mem_slots henc ((declares_open henc.stays.rise_nonneg hsince.stays).1 hd)) rfl
    intro b b' ps ps' s s' name name' slot henc henc' hd hd'
    rcases (encloses_append_enter hsince).1 henc with ⟨rfl, rfl, rfl⟩ | ⟨us, hus, rfl⟩
    · rcases (encloses_append_enter hsince).1 henc' with ⟨rfl, rfl, rfl⟩ | ⟨us, hus, rfl⟩
      · refine ⟨rfl, ?_⟩
        have hinj := List.inj_on_of_nodup_map hf' (hf.mem_slots hd) (hf.mem_slots hd') rfl
        exact congrArg Prod.fst hinj
      · exact absurd hd (hclash hus hd')
    · rcases (encloses_append_enter hsince).1 henc' with ⟨rfl, rfl, rfl⟩ | ⟨us', hus', rfl⟩
      · exact absurd hd' (hclash hus hd)
      · exact ih hfs b b' ps ps' us us' name name' slot hus hus'
          ((declares_open hus.stays.rise_nonneg hsince.stays).1 hd)
          ((declares_open hus'.stays.rise_nonneg hsince.stays).1 hd')

end Frame

end StackScript
