import StackScript.Proofs.Execution
import StackScript.Proofs.Lexed
import StackScript.Proofs.Made

/-!
# StackScript.Proofs.Unfreed — no source ends a local variable

The statement that ends a local variable is put into a tree when names are resolved.  No rule makes
one, so a parse gives a tree without any.
-/

namespace StackScript

/-! ### Trees -/

theorem Stmt.memberSlotsAll_eq_nil {ss : List Stmt} (h : freedSlotsAll ss = []) :
    memberSlotsAll ss = [] := by
  induction ss with
  | nil => rfl
  | cons s ss ih =>
    obtain ⟨hs, hss⟩ := List.append_eq_nil_iff.mp h
    cases s with
    | function line name params body => exact List.append_eq_nil_iff.mpr ⟨hs, ih hss⟩
    | _ => exact ih hss

theorem Stmt.freedSlotsAll_eq_nil {ss : List Stmt} :
    freedSlotsAll ss = [] ↔ ∀ s ∈ ss, s.freedSlots = [] := by
  induction ss with
  | nil => exact iff_of_true rfl (List.forall_mem_nil _)
  | cons s ss ih => rw [freedSlotsAll, List.append_eq_nil_iff, ih, List.forall_mem_cons]

theorem Rest.freedSlots_attach {new : Rest} : ∀ {rest rest' : Rest}, rest.attach new = some rest' →
    rest'.freedSlots = rest.freedSlots ++ new.freedSlots
  | .nothing, _, h => by
    obtain rfl := Option.some.inj h
    rfl
  | .elseIf line condition body rest, _, h => by
    obtain ⟨tail, htail, rfl⟩ := Option.map_eq_some_iff.mp h
    rw [freedSlots, freedSlots, freedSlots_attach htail, List.append_assoc]
  | .otherwise _, _, h => by cases h

theorem Stmt.freedSlots_attach {line : Nat} {e : Expr} {b : Block} {rest rest' new : Rest}
    (h : (Stmt.branch line e b rest).freedSlots = []) (hnew : new.freedSlots = [])
    (hrest : rest.attach new = some rest') : (Stmt.branch line e b rest').freedSlots = [] := by
  rw [freedSlots, List.append_eq_nil_iff] at h
  rw [freedSlots, Rest.freedSlots_attach hrest, h.1, h.2, hnew]
  rfl

/-- No statement of a fragment ends a local variable. -/
def Fragment.Unfreed : Fragment → Prop
  | program p => p.toBlock.freedSlots = []
  | _ => True

theorem Fragment.unfreed_single {s : Stmt} : (program (.single s)).Unfreed ↔ s.freedSlots = [] := by
  show s.freedSlots ++ [] = [] ↔ _
  rw [List.append_nil]

theorem Program.freedSlots_statements (p : Program) :
    Stmt.freedSlotsAll p.statements = p.toBlock.freedSlots := by
  cases p with
  | single s => rfl
  | several b => cases b; rfl

theorem Program.freedSlots_flatMap {ps : List Program} (h : ∀ p ∈ ps, p.toBlock.freedSlots = []) :
    Stmt.freedSlotsAll (ps.flatMap Program.statements) = [] := by
  rw [Stmt.freedSlotsAll_eq_nil]
  intro s hs
  obtain ⟨p, hp, hs⟩ := List.mem_flatMap.mp hs
  have hp := h p hp
  rw [← p.freedSlots_statements, Stmt.freedSlotsAll_eq_nil] at hp
  exact hp s hs

/-- No statement of a symbol's fragment ends a local variable. -/
def Symbol.Unfreed (s : Symbol) : Prop := ∀ f, s.fragment = some f → f.Unfreed

theorem Symbol.Unfreed.of_none {s : Symbol} (h : s.fragment = none) : s.Unfreed := by
  intro f hf
  rw [h] at hf
  cases hf

theorem Symbol.Unfreed.program {s : Symbol} (h : s.Unfreed) {p : Program}
    (hp : s.program? = some p) : p.toBlock.freedSlots = [] := by
  unfold Symbol.program? at hp
  split at hp
  case h_1 q hq =>
    obtain rfl := Option.some.inj hp
    exact h _ hq
  case h_2 => cases hp

/-! ### Rules -/

namespace Rule

variable {r : Rule} {ms : List Symbol} {f : Fragment} {n : Nat} {ds : List Diagnostic}

theorem Body.unfreed {line : Nat} {b : Block} (h : Body line ms b n) (hms : ∀ s ∈ ms, s.Unfreed) :
    b.freedSlots = [] := by
  cases h with
  | empty => rfl
  | program hs => exact hms _ List.mem_cons_self _ hs.fragment_eq

theorem unfreed_of_assigned? {e : Expr} {s : Stmt} (h : f.assigned? e = some s) :
    s.freedSlots = [] := by
  unfold Fragment.assigned? at h
  split at h <;> first | cases h; done | (obtain rfl := Option.some.inj h; rfl)

theorem unfreed_of_declared? {line : Nat} {make : Block → Stmt} {b : Block}
    (h : f.declared? = some (line, make)) (hb : b.freedSlots = []) : (make b).freedSlots = [] := by
  cases f <;> cases h
  · exact hb
  · cases b
    exact Stmt.memberSlotsAll_eq_nil hb

/-- A rule makes no statement that ends a local variable. -/
theorem Makes.unfreed (h : r.Makes ms f n ds) (hms : ∀ s ∈ ms, s.Unfreed) : f.Unfreed := by
  cases h with
  | declaration | print | returnsBare | returns | statement => exact Fragment.unfreed_single.mpr rfl
  | jump =>
    rw [Fragment.unfreed_single]
    split <;> rfl
  | assignment _ _ hs => exact Fragment.unfreed_single.mpr (unfreed_of_assigned? hs)
  | branch _ _ _ hbody =>
    have hb := hbody.unfreed fun s hs => hms s (by simp [hs])
    rw [Fragment.unfreed_single, Stmt.freedSlots, hb]
    rfl
  | elseIf ha _ _ _ hbody hrest =>
    have hb := hbody.unfreed fun s hs => hms s (by simp [hs])
    have hbranch := Fragment.unfreed_single.mp (hms _ List.mem_cons_self _ ha.fragment_eq)
    refine Fragment.unfreed_single.mpr (Stmt.freedSlots_attach hbranch ?_ hrest)
    rw [Rest.freedSlots, hb]
    rfl
  | otherwise ha _ _ hbody hrest =>
    have hb := hbody.unfreed fun s hs => hms s (by simp [hs])
    have hbranch := Fragment.unfreed_single.mp (hms _ List.mem_cons_self _ ha.fragment_eq)
    refine Fragment.unfreed_single.mpr (Stmt.freedSlots_attach hbranch ?_ hrest)
    exact hb
  | loop _ _ _ hbody =>
    exact Fragment.unfreed_single.mpr (hbody.unfreed fun s hs => hms s (by simp [hs]))
  | closeEmpty _ _ hf => exact Fragment.unfreed_single.mpr (unfreed_of_declared? hf rfl)
  | close _ _ hf hs =>
    exact Fragment.unfreed_single.mpr
      (unfreed_of_declared? hf (hms _ (by simp) _ hs.fragment_eq))
  | sequence =>
    refine Program.freedSlots_flatMap fun p hp => ?_
    obtain ⟨a, ha, hprogram⟩ := List.mem_filterMap.mp hp
    exact (hms a ha).program hprogram
  | stray _ ha | late _ ha | trailing ha => exact hms _ List.mem_cons_self _ ha.fragment_eq
  | _ => trivial

end Rule

/-! ### A whole parse -/

open Relation

namespace Parsing

variable {p q : Parsing} {r : Rule}

/-- No fragment of an active symbol ends a local variable. -/
def Unfreed (p : Parsing) : Prop := ∀ s ∈ p.stream.active, s.Unfreed

theorem Reduction.unfreed (e : Reduction r p q) (hsound : p.stream.Sound) (h : p.Unfreed) :
    q.Unfreed := by
  obtain ⟨f, n, ds, hmakes⟩ := e.makes hsound
  have hcollect : ∀ s ∈ p.stream.collect e.found.run, s.Unfreed := by
    intro s hs
    obtain ⟨entry, -, hentry⟩ := List.mem_filterMap.mp hs
    cases entry with
    | active i => exact h s (List.mem_of_getElem? hentry)
    | detached j =>
      obtain ⟨d, hd, rfl⟩ := Option.map_eq_some_iff.mp hentry
      exact .of_none (hsound.detached d (List.mem_of_getElem? hd)).2
  intro s hs
  have hactive : ∀ s ∈ e.before ++ (e.run ++ e.after), s.Unfreed := by
    intro s hs
    exact h s (by rw [e.active_eq]; exact hs)
  rw [hmakes.active_eq] at hs
  rcases List.mem_append.mp hs with hs | hs
  · exact hactive s (List.mem_append_left _ hs)
  rcases List.mem_cons.mp hs with rfl | hs
  · intro f' hf'
    obtain rfl := Option.some.inj hf'
    exact hmakes.makes.unfreed hcollect
  · exact hactive s (List.mem_append_right _ (List.mem_append_right _ hs))

theorem unfreed_of_steps (h : ReflTransGen Steps p q) (hsound : p.stream.Sound)
    (hp : p.Unfreed) : q.Unfreed := by
  induction h with
  | refl => exact hp
  | tail h hstep ih =>
    obtain ⟨r, hr⟩ := hstep
    obtain ⟨e⟩ := reduction_of_reduceOnce hr
    exact e.unfreed (sound_of_steps h hsound) ih

end Parsing

/-- The tree of a parse ends no local variable. -/
theorem Grammar.freedSlots_parse (g : Grammar) {tokens : List Token} (h : ∀ t ∈ tokens, t.Lexical) :
    (g.parse tokens).root.freedSlots = [] := by
  have hstart : (Parsing.start tokens).Unfreed := by
    intro s hs
    obtain ⟨t, -, rfl⟩ := Stream.mem_active_prepare hs
    exact .of_none rfl
  have hunfreed := Parsing.unfreed_of_steps (g.reduce_steps _) (Stream.sound_prepare h) hstart
  rw [parse]
  generalize (g.reduce (Parsing.start tokens)).1 = q at hunfreed ⊢
  have hprograms : ∀ p ∈ (q.stream.active.filter (·.tag = .program)).filterMap (·.program?),
      p.toBlock.freedSlots = [] := by
    intro p hp
    obtain ⟨s, hs, hprogram⟩ := List.mem_filterMap.mp hp
    exact (hunfreed s (List.mem_of_mem_filter hs)).program hprogram
  dsimp only
  split
  case h_1 single hsingle => exact hprograms single (hsingle ▸ List.mem_singleton_self _)
  case h_2 =>
    exact Program.freedSlots_flatMap hprograms

end StackScript
