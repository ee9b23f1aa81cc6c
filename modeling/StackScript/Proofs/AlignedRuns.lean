import StackScript.Proofs.Resolution
import StackScript.Proofs.AlignedMachines

/-!
# StackScript.Proofs.AlignedRuns — aligned trees do the same

The executions of two aligned trees, from a state of twins that is abreast, end alike and leave twins
abreast.  The proof follows the trees, for each limit on the steps; the induction on the limit is for
the bodies of functions.  Where a body is left early, only what was in reach at its beginning is in
reach.
-/

namespace StackScript

open Instruction (withNumber withName plain)
open Machine

variable {exempt : Stop → Prop} {keeps : Bool} {ps qs rs : Pairs} {z z' : Activation}
  {run run' : Block → Effect Block Flow}

/-- Twins that are abreast before and behind two effects with the same results. -/
abbrev Alongside (exempt : Stop → Prop) (keeps : Bool) (ps qs : Pairs) (z z' : Activation)
    {α : Type} (x x' : Effect Block α) : Prop :=
  Lockstep exempt (Abreast keeps ps z z') (Both (Abreast keeps qs z z')) (Twins keeps) x x'

/-! ### Code -/

section
variable (H : BodiesAbreast exempt keeps run run') (hp : ps.Apart) (hz : ps.Within z z')

include H

theorem act_same {i : Instruction} (hi : i.slot? = none) :
    Alongside exempt keeps ps ps z z' (act run i) (act run' i) := by
  have hslot : ∀ {β : Type} [Body β] (v : Guise β Block) (slot : Nat), i.slot? = some slot →
      ∀ locals, v.locals locals = locals := by
    intro β _ v slot h
    rw [hi] at h
    cases h
  have hleft : ∀ locals, Commutes (Option.map (Twin.onLeft [] : Guise (Twin keeps) Block).call)
      (Twin.onLeft locals).see (prepare i) (prepare i) := fun _ =>
    Guise.prepare_commutes (fun _ => rfl) (fun _ => rfl) (hslot _)
  have hright : ∀ locals, Commutes (Option.map (Twin.onRight [] : Guise (Twin keeps) Block).call)
      (Twin.onRight locals).see (prepare i) (prepare i) := fun _ =>
    Guise.prepare_commutes (fun _ => rfl) (fun _ => rfl) (hslot _)
  refine (lockstep_of_commutes hleft hright).bind fun c c' => ?_
  rintro m t ⟨⟨c, rfl, rfl⟩, hmt⟩
  cases c with
  | none => exact .ok ⟨rfl, hmt⟩
  | some c => exact (calling_abreast H c.function c.this).both_bind (fun v => push_abreast _) m t hmt

include hp hz

theorem act_abreast {i i' : Instruction} (h : i.Aligned ps i') :
    Alongside exempt keeps ps ps z z' (act run i) (act run' i') := by
  cases h with
  | same h => exact act_same H h
  | @moved o a b h ho =>
    have hact : ∀ (run : Block → Effect Block Flow) (slot : Nat),
        act run (withNumber o slot) = perform (withNumber o slot) := by
      intro run slot
      refine act_of_perform run ?_
      cases o <;> first | rfl | cases ho
    rw [hact, hact]
    exact perform_moved ho hp hz h

theorem actAll_abreast {c c' : Code} (h : Code.Aligned ps c c') :
    Alongside exempt keeps ps ps z z' (actAll run c) (actAll run' c') := by
  induction h with
  | nil => exact .both_pure ()
  | cons hi _ ih => exact (act_abreast H hp hz hi).both_bind fun _ => ih

end

/-! ### Statements without control -/

section
variable (H : BodiesAbreast exempt keeps run run') (hp : ps.Apart) (hz : ps.Within z z')

/-- Code of constants and names only. -/
theorem slotless_singleton {i : Instruction} (h : i.slot? = none) : ∀ j ∈ [i], j.slot? = none := by
  rintro j hj
  rw [List.mem_singleton.mp hj]
  exact h

theorem keepRecording_abreast {body body' : Block} (h : body.Aligned keeps [] body') :
    Alongside exempt keeps ps ps z z' (keepRecording body) (keepRecording body') :=
  let b : Twin keeps := ⟨body, body', h⟩
  both_of_commutes (y := keepRecording b)
    (fun locals => Guise.keepRecording_commutes (v := Twin.onLeft locals) (fun _ => rfl) b)
    fun locals => Guise.keepRecording_commutes (v := Twin.onRight locals) (fun _ => rfl) b

include H hp hz

theorem putMembers_abreast (className : String) {ss ss' : List Stmt}
    (h : Stmt.MembersAligned keeps ps ss ss') :
    Alongside exempt keeps ps ps z z' (Stmt.putMembers run className ss)
      (Stmt.putMembers run' className ss') := by
  have hfield : ∀ {run : Block → Effect Block Flow} {s : Stmt} {name : String} {c : Code},
      s.field? = some (name, c) → s.putMember run className = actAll run (putText name :: c) := by
    intro run s name c hs
    cases s <;> cases hs <;> rfl
  have hother : ∀ {run : Block → Effect Block Flow} {s : Stmt}, s.field? = none →
      s.isMethod = false → s.putMember run className = pure () := by
    intro run s hs hm
    cases s <;> first | rfl | (cases hs; done) | cases hm
  induction ss generalizing ss' with
  | nil =>
    cases h
    exact .both_pure ()
  | cons s ss ih =>
    have hcons : ∀ {s' : Stmt} {ss' : List Stmt}, Stmt.MembersAligned keeps ps ss ss' →
        Alongside exempt keeps ps ps z z' (s.putMember run className) (s'.putMember run' className) →
        Alongside exempt keeps ps ps z z' (Stmt.putMembers run className (s :: ss))
          (Stmt.putMembers run' className (s' :: ss')) := fun hss hs => hs.both_bind fun _ => ih hss
    cases h with
    | field hs hs' hc hss =>
      refine hcons hss ?_
      rw [hfield hs, hfield hs']
      exact actAll_abreast H hp hz (.cons (.same rfl) hc)
    | method hbody hss =>
      refine hcons hss ?_
      refine (keepRecording_abreast hbody).both_bind fun _ => actAll_abreast H hp hz ?_
      exact .cons (.same rfl) (.cons (.same rfl) (.cons (.same rfl) (.cons (.same rfl) .nil)))
    | other hs hm hs' hm' hss =>
      refine hcons hss ?_
      rw [hother hs hm, hother hs' hm']
      exact .both_pure ()

theorem classDecl_abreast (line line' : Nat) {l l' : Nat} (name : String) (parent : Option String)
    {ss ss' : List Stmt} (h : Stmt.MembersAligned keeps ps ss ss') :
    Alongside exempt keeps ps ps z z'
      ((Stmt.classDecl line name parent (.mk l ss)).perform keeps .inPlace run)
      ((Stmt.classDecl line' name parent (.mk l' ss')).perform keeps .inPlace run') := by
  refine (putMembers_abreast H hp hz name h).both_bind fun _ => ?_
  rw [entryCount, entryCount]
  show Alongside _ _ _ _ _ _ (actAll run (_ ++ [withNumber .makeMap
    ((Stmt.memberCodesAll [] name ss).length + parent.toList.length : Nat), _])) _
  rw [h.length_eq]
  refine actAll_abreast H hp hz (.append (.of_slotless ?_) (.cons (.same rfl) (.cons (.same rfl) .nil)))
  cases parent with
  | none => exact List.forall_mem_nil _
  | some p => exact List.forall_mem_cons.mpr ⟨rfl, slotless_singleton rfl⟩

omit H hp hz in
theorem Stmt.perform_of_acts? {s : Stmt} {c : Code} (h : s.acts? keeps = some c)
    (run : Block → Effect Block Flow) : s.perform keeps .inPlace run = actAll run c := by
  cases s <;> cases h <;> rfl

omit H hp hz in
/-- A statement that only acts leads to the next one. -/
theorem Stmt.execute_of_acts? {s : Stmt} {c : Code} (h : s.acts? keeps = some c) (w : Basis Block)
    (n : Nat) : s.execute w n = (do w.effect s; return .done) := by
  cases s <;> cases h <;> rfl

end

/-! ### Control -/

/-- What is in reach behind statements: what they declare only if they lead to the next one. -/
def Flow.reach (ps qs : Pairs) : Flow → Pairs
  | .done => qs
  | _ => ps

/-- Abreast behind statements that leave `qs` in reach. -/
def Behind (keeps : Bool) (ps qs : Pairs) (z z' : Activation) (flow : Flow) (m : Machine Block)
    (flow' : Flow) (t : Machine Block) : Prop :=
  flow = flow' ∧ Abreast keeps (flow.reach ps qs) z z' m t

theorem Behind.of_both {flow flow' : Flow} {m t : Machine Block}
    (h : Both (Abreast keeps ps z z') flow m flow' t) : Behind keeps ps ps z z' flow m flow' t := by
  refine ⟨h.1, ?_⟩
  have hreach : flow.reach ps ps = ps := by cases flow <;> rfl
  rw [hreach]
  exact h.2

theorem Behind.both {flow flow' : Flow} {m t : Machine Block} (hsub : ps ⊆ qs)
    (h : Behind keeps ps qs z z' flow m flow' t) : Both (Abreast keeps ps z z') flow m flow' t := by
  refine ⟨h.1, h.2.subset ?_⟩
  cases flow with
  | done => exact hsub
  | _ => exact List.Subset.refl _

section
variable (H : BodiesAbreast exempt keeps run run')

include H

theorem test_abreast (hp : ps.Apart) (hz : ps.Within z z') {e e' : Expr}
    (h : Code.Aligned ps e.code e'.code) (n : Nat) :
    Alongside exempt keeps ps ps z z' ((onStack keeps .inPlace n run).test e)
      ((onStack keeps .inPlace n run').test e') :=
  (actAll_abreast H hp hz h).both_bind fun _ =>
    both_of_commutes (fun _ => Guise.takeTruth_commutes fun _ => rfl)
      fun _ => Guise.takeTruth_commutes fun _ => rfl

theorem result_abreast (hp : ps.Apart) (hz : ps.Within z z') {e e' : Option Expr}
    (h : Code.Aligned ps (Expr.codeOrNull e) (Expr.codeOrNull e')) (n : Nat) :
    Alongside exempt keeps ps ps z z' ((onStack keeps .inPlace n run).result e)
      ((onStack keeps .inPlace n run').result e') :=
  (actAll_abreast H hp hz h).both_bind fun _ => take_abreast

theorem acts_abreast (hp : ps.Apart) (hz : ps.Within z z') {s s' : Stmt} {c c' : Code}
    (hs : s.acts? keeps = some c) (hs' : s'.acts? keeps = some c') (h : Code.Aligned ps c c')
    (k n : Nat) :
    Lockstep exempt (Abreast keeps ps z z') (Behind keeps ps ps z z') (Twins keeps)
      (s.execute (onStack keeps .inPlace k run) n) (s'.execute (onStack keeps .inPlace k run') n) := by
  rw [Stmt.execute_of_acts? hs, Stmt.execute_of_acts? hs']
  show Lockstep _ _ _ _ (s.perform keeps .inPlace run >>= _) (s'.perform keeps .inPlace run' >>= _)
  rw [Stmt.perform_of_acts? hs, Stmt.perform_of_acts? hs']
  exact (actAll_abreast H hp hz h).both_bind fun _ => .pure fun _ _ hmt => ⟨rfl, hmt⟩

/-- A new variable is in reach behind its declaration. -/
theorem declare_abreast (hp : ps.Apart) {line line' a b : Nat} {name name' : String}
    {init init' : Option Expr}
    (h : Code.Aligned ps (Expr.codeOrNull init) (Expr.codeOrNull init'))
    (ha : a ∉ ps.map Prod.fst) (hb : b ∉ ps.map Prod.snd) (hz : Pairs.Within ((a, b) :: ps) z z')
    (k n : Nat) :
    Lockstep exempt (Abreast keeps ps z z') (Behind keeps ps ((a, b) :: ps) z z') (Twins keeps)
      ((Stmt.declare line name init (some (.slot a))).execute (onStack keeps .inPlace k run) n)
      ((Stmt.declare line' name' init' (some (.slot b))).execute (onStack keeps .inPlace k run') n) := by
  obtain ⟨⟨ha', hb'⟩, hz⟩ := List.forall_mem_cons.mp hz
  have hnew : ∀ q ∈ (a, b) :: ps, q = (a, b) ∨ q ∈ ps ∧ q.1 ≠ a ∧ q.2 ≠ b := by
    intro q hq
    refine (List.mem_cons.mp hq).imp_right fun hmem => ⟨hmem, ?_, ?_⟩
    · rintro rfl
      exact ha (List.mem_map_of_mem hmem)
    · rintro rfl
      exact hb (List.mem_map_of_mem hmem)
  have hstore : Alongside exempt keeps ps ((a, b) :: ps) z z'
      (actAll run [⟨.store, some (.integer a)⟩]) (actAll run' [⟨.store, some (.integer b)⟩]) := by
    rw [actAll_single, actAll_single, act_of_perform run rfl, act_of_perform run' rfl]
    exact take_abreast.both_bind fun v => write_abreast ha' hb' hnew v
  show Lockstep _ _ _ _ (actAll run (_ ++ _) >>= _) (actAll run' (_ ++ _) >>= _)
  rw [actAll_append, actAll_append, bind_assoc, bind_assoc]
  exact (actAll_abreast H hp hz h).both_bind fun _ => hstore.both_bind fun _ =>
    .pure fun _ _ hmt => ⟨rfl, hmt⟩

end

section
variable (k n : Nat)

mutual

theorem Stmt.execute_abreast (H : BodiesAbreast exempt keeps run run') {ps qs : Pairs}
    (hp : ps.Apart) (hz : qs.Within z z') : (s : Stmt) → {s' : Stmt} →
    s.Aligned keeps ps s' qs → s.freedSlots ⊆ z.slots → s'.freedSlots ⊆ z'.slots →
    Lockstep exempt (Abreast keeps ps z z') (Behind keeps ps qs z z') (Twins keeps)
      (s.execute (onStack keeps .inPlace k run) n) (s'.execute (onStack keeps .inPlace k run') n)
  | .branch _ _ body rest, _, h, hf, hf' => by
    cases h with
    | acts hs => cases hs
    | branch he hb hr =>
      obtain ⟨hf, hf₁⟩ := List.append_subset.mp hf
      obtain ⟨hf', hf₁'⟩ := List.append_subset.mp hf'
      refine (test_abreast H hp hz he k).both_bind fun t => ?_
      refine Lockstep.weaken (Q := Both (Abreast keeps ps z z')) ?_ (fun _ _ h => h)
        (fun _ _ _ _ h => .of_both h) fun _ _ h => h
      cases t with
      | true => exact body.execute_abreast H hp hz hb hf hf'
      | false => exact rest.execute_abreast H hp hz hr hf₁ hf₁'
  | .loop _ _ body, _, h, hf, hf' => by
    cases h with
    | acts hs => cases hs
    | loop he hb =>
      refine Lockstep.weaken (Q := Both (Abreast keeps ps z z')) ?_ (fun _ _ h => h)
        (fun _ _ _ _ h => .of_both h) fun _ _ h => h
      exact repeating_lockstep (fun _ _ h => h.twins) (test_abreast H hp hz he k)
        (body.execute_abreast H hp hz hb hf hf') (.inl rfl)
  | .declare _ _ _ _, _, h, _, _ => by
    cases h with
    | acts hs hs' hc => exact acts_abreast H hp hz hs hs' hc k n
    | declare hc ha hb => exact declare_abreast H hp hc ha hb hz k n
  | .function _ _ _ _, _, h, _, _ => by
    cases h with
    | acts hs => cases hs
    | function hbody =>
      refine ((keepRecording_abreast hbody).both_bind fun _ => actAll_abreast H hp hz
        (.cons (.same rfl) (.cons (.same rfl) .nil))).both_bind fun _ => ?_
      exact .pure fun _ _ hmt => ⟨rfl, hmt⟩
  | .classDecl line name parent _, _, h, _, _ => by
    cases h with
    | acts hs => cases hs
    | @classDecl _ _ line' _ _ _ _ _ _ hm =>
      exact (classDecl_abreast H hp hz line line' name parent hm).both_bind fun _ =>
        .pure fun _ _ hmt => ⟨rfl, hmt⟩
  | .returns _ _, _, h, _, _ => by
    cases h with
    | acts hs => cases hs
    | returns hc =>
      exact (result_abreast H hp hz hc k).both_bind fun _ => .pure fun _ _ hmt => ⟨rfl, hmt⟩
  | .continues _, _, h, _, _ | .breaks _, _, h, _, _ => by
    cases h with
    | acts hs => cases hs
    | _ => exact .pure fun _ _ hmt => ⟨rfl, hmt⟩
  | .value _, _, h, _, _ | .assign _ _ _ _, _, h, _, _ | .setField _ _ _ _, _, h, _, _
  | .print _ _, _, h, _, _ | .free _ _ _, _, h, _, _ => by
    cases h with
    | acts hs hs' hc => exact acts_abreast H hp hz hs hs' hc k n
termination_by structural s => s

theorem Rest.execute_abreast (H : BodiesAbreast exempt keeps run run') {ps : Pairs}
    (hp : ps.Apart) (hz : ps.Within z z') : (r : Rest) → {r' : Rest} →
    r.Aligned keeps ps r' → r.freedSlots ⊆ z.slots → r'.freedSlots ⊆ z'.slots →
    Alongside exempt keeps ps ps z z' (r.execute (onStack keeps .inPlace k run) n)
      (r'.execute (onStack keeps .inPlace k run') n)
  | .nothing, _, h, _, _ => by
    cases h with
    | nothing => exact .both_pure _
  | .elseIf _ _ body rest, _, h, hf, hf' => by
    cases h with
    | elseIf he hb hr =>
      obtain ⟨hf, hf₁⟩ := List.append_subset.mp hf
      obtain ⟨hf', hf₁'⟩ := List.append_subset.mp hf'
      refine (test_abreast H hp hz he k).both_bind fun t => ?_
      cases t with
      | true => exact body.execute_abreast H hp hz hb hf hf'
      | false => exact rest.execute_abreast H hp hz hr hf₁ hf₁'
  | .otherwise body, _, h, hf, hf' => by
    cases h with
    | otherwise hb => exact body.execute_abreast H hp hz hb hf hf'
termination_by structural r => r

theorem Block.execute_abreast (H : BodiesAbreast exempt keeps run run') {ps : Pairs}
    (hp : ps.Apart) (hz : ps.Within z z') : (b : Block) → {b' : Block} →
    b.Aligned keeps ps b' → b.freedSlots ⊆ z.slots → b'.freedSlots ⊆ z'.slots →
    Alongside exempt keeps ps ps z z' (b.execute (onStack keeps .inPlace k run) n)
      (b'.execute (onStack keeps .inPlace k run') n)
  | .mk _ ss, _, h, hf, hf' => by
    cases h with
    | @mk _ qs _ _ _ _ hss hq =>
      have hz' : qs.Within z z' := fun q hmem =>
        (hq q hmem).elim (hz q) fun hfree => ⟨hf hfree.1, hf' hfree.2⟩
      exact (Stmt.executeAll_abreast H hp hz' ss hss hf hf').weaken (fun _ _ h => h)
        (fun _ _ _ _ h => h.both hss.subset) fun _ _ h => h
termination_by structural b => b

theorem Stmt.executeAll_abreast (H : BodiesAbreast exempt keeps run run') {ps qs : Pairs}
    (hp : ps.Apart) (hz : qs.Within z z') : (ss : List Stmt) →
    {ss' : List Stmt} → Stmt.AllAligned keeps ps ss ss' qs → Stmt.freedSlotsAll ss ⊆ z.slots →
    Stmt.freedSlotsAll ss' ⊆ z'.slots →
    Lockstep exempt (Abreast keeps ps z z') (Behind keeps ps qs z z') (Twins keeps)
      (Stmt.executeAll (onStack keeps .inPlace k run) n ss)
      (Stmt.executeAll (onStack keeps .inPlace k run') n ss')
  | [], _, h, _, _ => by
    cases h with
    | nil => exact .pure fun _ _ hmt => ⟨rfl, hmt⟩
  | s :: ss, _, h, hf, hf' => by
    cases h with
    | @cons _ rs _ _ _ _ _ hs hss =>
      obtain ⟨hf, hf₁⟩ := List.append_subset.mp hf
      obtain ⟨hf', hf₁'⟩ := List.append_subset.mp hf'
      have hz' : Pairs.Within rs z z' := fun r hr => hz r (hss.subset hr)
      refine (s.execute_abreast H hp hz' hs hf hf').bind fun flow flow' => ?_
      rintro m t ⟨rfl, hmt⟩
      cases flow with
      | done =>
        refine (Stmt.executeAll_abreast H (hs.apart hp) hz ss hss hf₁ hf₁').weaken (fun _ _ h => h)
          (fun flow _ _ _ h => ⟨h.1, h.2.subset ?_⟩) (fun _ _ h => h) m t hmt
        cases flow with
        | done => exact List.Subset.refl _
        | _ => exact hs.subset
      | _ => exact .ok ⟨rfl, hmt⟩
termination_by structural ss => ss

end

end

theorem mem_ascending {slot : Nat} {slots : List Nat} : slot ∈ ascending slots ↔ slot ∈ slots := by
  induction slots with
  | nil => exact Iff.rfl
  | cons first slots ih =>
    show slot ∈ SlotPool.insert first (ascending slots) ↔ _
    rw [SlotPool.mem_insert, ih, List.mem_cons]

/-- Aligned bodies leave twins abreast, at every limit. -/
theorem executing_abreast (exempt : Stop → Prop) (keeps : Bool) (n : Nat) :
    BodiesAbreast exempt keeps (executing (onStack keeps .inPlace) n)
      (executing (onStack keeps .inPlace) n) := by
  induction n with
  | zero => exact fun b start start' => .throw fun _ _ h => h.twins
  | succ n ih =>
    intro b start start'
    exact b.left.execute_abreast n n ih .nil (List.forall_mem_nil _) b.aligned
      (fun _ h => mem_ascending.mpr h) fun _ h => mem_ascending.mpr h

end StackScript
