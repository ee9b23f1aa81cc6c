import StackScript.Proofs.Stepping

/-!
# StackScript.Proofs.Embedding — closed code inside other code

Closed code that stands in other code does there, instruction by instruction, what it does alone,
with all places moved by where it begins.  When the run of it alone ends, the run of the code around
it goes on behind it, or where the skips lead that stand for its jumps.
-/

namespace StackScript

open Instruction Code

namespace Machine

/-! ### One instruction -/

/-- The place moved by the code in front of it. -/
def Move.shift (base : Nat) : Move → Move
  | .to pc => .to (base + pc)
  | .out flow => .out flow

/-- A move that stays in the code or ends its run; a jump ends it only if there are no exits. -/
def Move.Fits (c : Code) (exits : Option (Int × Int)) : Move → Prop
  | .to pc => ∃ front back, c = front ++ back ∧ Balanced front ∧ pc = front.length
  | .out .done => False
  | .out (.gaveBack _) => True
  | .out .next | .out .leave => exits = none

/-- `y` does what `x` does for code that begins at `base`, and `x` makes only moves that fit. -/
structure Mirrors (c : Code) (exits : Option (Int × Int)) (base : Nat) (x y : Exec Move) :
    Prop where
  ok : ∀ {s move s'}, x s = .ok move s' → y s = .ok (move.shift base) s' ∧ move.Fits c exits
  error : ∀ {s e s'}, x s = .error e s' → y s = .error e s'

namespace Mirrors

variable {c : Code} {exits : Option (Int × Int)} {base : Nat}

protected theorem pure {move : Move} (h : move.Fits c exits) :
    Mirrors c exits base (pure move) (pure (move.shift base)) where
  ok h' := by
    cases h'
    exact ⟨rfl, h⟩
  error h' := nomatch h'

theorem bind {α : Type} (x : Exec α) {f g : α → Exec Move}
    (h : ∀ a, Mirrors c exits base (f a) (g a)) : Mirrors c exits base (x >>= f) (x >>= g) where
  ok {s move s'} h' := by
    cases hx : x s with
    | error e s'' =>
      rw [bind_of_error hx] at h'
      cases h'
    | ok a s'' =>
      rw [bind_of_ok hx] at h' ⊢
      exact (h a).ok h'
  error {s e s'} h' := by
    cases hx : x s with
    | error e' s'' =>
      rw [bind_of_error hx] at h' ⊢
      exact h'
    | ok a s'' =>
      rw [bind_of_ok hx] at h' ⊢
      exact (h a).error h'

theorem stopWith (f : Fault) : Mirrors c exits base (stopWith f) (stopWith f) where
  ok h' := nomatch h'
  error h' := h'

end Mirrors

variable {m : Measure} {exits : Option (Int × Int)} {P c c' Q : Code}

/-- A skip of the code leads to the same place of it in other code. -/
theorem skipFrom_within {pre post pre' post' : Code} {i : Instruction}
    (hp : Patched m exits c c') (hc : c = pre ++ i :: post) (hc' : c' = pre' ++ i :: post')
    (hl : pre'.length = pre.length) (hm : m.length pre' = m.length pre) (h : Lands m c pre i) :
    ∃ front back, c = front ++ back ∧ Balanced front ∧
      skipFrom m c pre.length i = pure front.length ∧
      skipFrom m (P ++ c' ++ Q) (P.length + pre.length) i = pure (P.length + front.length) := by
  obtain ⟨front, back, hfb, hf, hi⟩ := h
  obtain ⟨front', back', hfb', hfl, hfm, -, -⟩ := Patched.split hf (hfb ▸ hp)
  have hhere : m.target? c pre.length ((m.length front : Int) - m.length (pre ++ [i])) =
      some front.length := by
    have ht : c.take (pre.length + 1) = pre ++ [i] := by
      rw [hc, List.append_cons, show pre.length + 1 = (pre ++ [i]).length by simp, List.take_left]
    rw [hfb] at ht ⊢
    refine Measure.target?_append ?_
    rw [ht]
    omega
  have hthere : m.target? (P ++ c' ++ Q) (P.length + pre.length)
      ((m.length front : Int) - m.length (pre ++ [i])) = some (P.length + front.length) := by
    have ht : (P ++ c' ++ Q).take (P.length + pre.length + 1) = P ++ (pre' ++ [i]) := by
      rw [hc', show P ++ (pre' ++ i :: post') ++ Q = (P ++ (pre' ++ [i])) ++ (post' ++ Q) by simp,
        show P.length + pre.length + 1 = (P ++ (pre' ++ [i])).length by simp [hl]; omega,
        List.take_left]
    have hs : P ++ c' ++ Q = (P ++ front') ++ (back' ++ Q) := by simp [hfb']
    rw [hs] at ht ⊢
    rw [show P.length + front.length = (P ++ front').length by simp [hfl]]
    refine Measure.target?_append ?_
    rw [ht]
    simp only [Measure.length_append, hfm, hm]
    omega
  refine ⟨front, back, hfb, hf, ?_, ?_⟩
  · simp only [skipFrom, integerOf, hi, pure_bind]
    rw [hhere]
  · simp only [skipFrom, integerOf, hi, pure_bind]
    rw [hthere]

/-- An instruction that is not replaced does the same in the other code. -/
theorem advance_mirrors (run : Code → Exec Flow) (limit : Nat) {pre post pre' post' : Code}
    {i : Instruction} (hclosed : Closed m c) (hp : Patched m exits c c')
    (hc : c = pre ++ i :: post) (hc' : c' = pre' ++ i :: post') (hb : Balanced pre)
    (hl : pre'.length = pre.length) (hm : m.length pre' = m.length pre)
    (hi : i.opcode.isMark = false) (hj : i.opcode.isJump → exits = none) :
    Mirrors c exits P.length (advance run limit m c pre.length i)
      (advance run limit m (P ++ c' ++ Q) (P.length + pre.length) i) := by
  have hon : Move.Fits c exits (.to (pre.length + 1)) :=
    ⟨pre ++ [i], post, by simp [hc], hb.append (.cons hi .nil), by simp⟩
  have hgo : Mirrors c exits P.length (pure (.to (pre.length + 1)))
      (pure (.to (P.length + pre.length + 1))) := .pure hon
  have hskip : i.opcode.isSkip → ∃ pc, Move.Fits c exits (.to pc) ∧
      skipFrom m c pre.length i = pure pc ∧
      skipFrom m (P ++ c' ++ Q) (P.length + pre.length) i = pure (P.length + pc) := by
    intro hs
    obtain ⟨front, back, hfb, hf, h₁, h₂⟩ :=
      skipFrom_within (P := P) (Q := Q) hp hc hc' hl hm (hclosed.lands hc hb hs)
    exact ⟨front.length, ⟨front, back, hfb, hf, rfl⟩, h₁, h₂⟩
  unfold advance
  split
  case h_1 h => simp [h, Opcode.isMark] at hi
  case h_2 h => simp [h, Opcode.isMark] at hi
  case h_3 h =>
    obtain ⟨pc, hpc, h₁, h₂⟩ := hskip (by rw [h]; rfl)
    rw [h₁, h₂]
    exact .pure hpc
  case h_4 h =>
    obtain ⟨pc, hpc, h₁, h₂⟩ := hskip (by rw [h]; rfl)
    rw [h₁, h₂]
    refine .bind _ fun t => ?_
    cases t with
    | true => exact .pure hpc
    | false => exact hgo
  case h_5 h =>
    obtain ⟨pc, hpc, h₁, h₂⟩ := hskip (by rw [h]; rfl)
    rw [h₁, h₂]
    refine .bind _ fun t => ?_
    cases t with
    | true => exact hgo
    | false => exact .pure hpc
  case h_6 =>
    refine .bind _ fun condition => .bind _ fun body => .bind _ fun flow => ?_
    cases flow with
    | gaveBack v => exact .pure trivial
    | _ => exact hgo
  case h_7 h => exact .pure (hj (by rw [h]; rfl))
  case h_8 h => exact .pure (hj (by rw [h]; rfl))
  case h_9 => exact .bind _ fun v => .pure trivial
  case h_10 => exact .bind _ fun _ => hgo

/-- A recording is taken as a whole in the other code too. -/
theorem advance_recording (run : Code → Exec Flow) (limit : Nat) (m : Measure)
    {c b pre post : Code} (hc : c = pre ++ plain .record :: (b ++ plain .endRecord :: post))
    (hb : Balanced b) :
    advance run limit m c pre.length (plain .record) = (do
      keepRecording b
      return .to (pre.length + b.length + 2)) := by
  have hd : c.drop (pre.length + 1) = b ++ plain .endRecord :: post := by
    rw [hc, List.append_cons, show pre.length + 1 = (pre ++ [plain .record]).length by simp,
      List.drop_left]
  unfold advance
  dsimp only [plain]
  rw [hd, recordingLength?_recording hb]
  dsimp only
  rw [List.take_left]

/-! ### Whole runs -/

/-- Where the code around goes on when the run of the code ends. -/
def resuming (m : Measure) (host : Code) (stop : Nat) (targets : Option (Nat × Nat)) :
    Flow → Bounded Machine Flow
  | .done => runningAt m host stop
  | .gaveBack v => pure (.gaveBack v)
  | .next =>
    match targets with
    | some (past, _) => runningAt m host past
    | none => pure .next
  | .leave =>
    match targets with
    | some (_, away) => runningAt m host away
    | none => pure .leave

/-- `targets` are the places in the code around to which the exits lead. -/
inductive Exits (m : Measure) (P c' Q : Code) :
    Option (Int × Int) → Option (Nat × Nat) → Prop
  | none : Exits m P c' Q none none
  | some {past away : Int} {frontN backN frontL backL : Code}
      (hN : P ++ c' ++ Q = frontN ++ backN) (hL : P ++ c' ++ Q = frontL ++ backL)
      (hpast : (m.length frontN : Int) = m.length P + m.length c' + past)
      (haway : (m.length frontL : Int) = m.length P + m.length c' + away) :
      Exits m P c' Q (some (past, away)) (some (frontN.length, frontL.length))

/-- A skip that stands for a jump leads to its target. -/
theorem skipFrom_exit {host pre' post' front back : Code} {i : Instruction} {n : Int}
    (hh : host = pre' ++ i :: post') (hf : host = front ++ back)
    (hi : i.operand = some (.integer n))
    (hn : (m.length front : Int) = m.length (pre' ++ [i]) + n) :
    skipFrom m host pre'.length i = pure front.length := by
  have ht : host.take (pre'.length + 1) = pre' ++ [i] := by
    rw [hh, List.append_cons, show pre'.length + 1 = (pre' ++ [i]).length by simp, List.take_left]
  have h : m.target? host pre'.length n = some front.length := by
    rw [hf] at ht ⊢
    refine Measure.target?_append ?_
    rw [ht]
    omega
  simp only [skipFrom, integerOf, hi, pure_bind]
  rw [h]

variable {targets : Option (Nat × Nat)}

theorem resuming_out (ht : Exits m P c' Q exits targets) {flow : Flow}
    (h : Move.Fits c exits (.out flow)) (host : Code) (stop : Nat) :
    resuming m host stop targets flow = pure flow := by
  cases ht with
  | none => cases flow <;> first | rfl | exact h.elim
  | some => cases flow <;> first | rfl | exact h.elim | cases h

/-- The code with its continuation in the code around it. -/
def runningOn (m : Measure) (host c : Code) (base : Nat) (targets : Option (Nat × Nat)) (pc : Nat) :
    Bounded Machine Flow :=
  runningAt m c pc >>= resuming m host (base + c.length) targets

variable {host : Code}

/-- One instruction, and then no more than the code does alone. -/
theorem below_of_mirrors (ht : Exits m P c' Q exits targets) {n pc pc' : Nat} {i j : Instruction}
    (hi : (c)[pc]? = some i) (hj : host[pc']? = some j)
    (hmir : Mirrors c exits P.length ((stepping m c pc i).run n) ((stepping m host pc' j).run n))
    (ih : ∀ {front back : Code}, c = front ++ back → Balanced front →
      Below (runFrom m host n (P.length + front.length))
        ((runningOn m host c P.length targets front.length).run n)) :
    Below (runFrom m host (n + 1) pc') ((runningOn m host c P.length targets pc).run (n + 1)) := by
  let next := fun flow => (resuming m host (P.length + c.length) targets flow).run (n + 1)
  show Below _ (runFrom m c (n + 1) pc >>= next)
  rw [runFrom_step hi, runFrom_step hj, bind_assoc]
  intro s
  cases h : (stepping m c pc i).run n s with
  | error e s' =>
    rw [bind_of_error h, bind_of_error (hmir.error h)]
    exact .inr rfl
  | ok move s' =>
    obtain ⟨h', hfit⟩ := hmir.ok h
    rw [bind_of_ok h, bind_of_ok h']
    rcases move with pc | flow
    · obtain ⟨front, back, hc, hb, rfl⟩ := hfit
      refine (ih hc hb).trans ?_ s'
      exact (Below.refl (runFrom m c n front.length)).bind fun flow =>
        (resuming m host (P.length + c.length) targets flow).rises n
    · refine .inr ?_
      show _ = (resuming m host (P.length + c.length) targets flow).run (n + 1) s'
      rw [resuming_out ht hfit]
      rfl

/-- One instruction, and then all that the code does alone. -/
theorem reaches_of_mirrors (ht : Exits m P c' Q exits targets) {n k pc pc' : Nat}
    {i j : Instruction} {s : Machine} (hi : (c)[pc]? = some i) (hj : host[pc']? = some j)
    (hmir : Mirrors c exits P.length ((stepping m c pc i).run n) ((stepping m host pc' j).run n))
    (ih : ∀ {front back : Code} (s : Machine), c = front ++ back → Balanced front →
      Exhausted ((runFrom m c n front.length >>= fun flow =>
          (resuming m host (P.length + c.length) targets flow).run k) s) ∨
        ∃ N, runFrom m host N (P.length + front.length) s =
          (runFrom m c n front.length >>= fun flow =>
            (resuming m host (P.length + c.length) targets flow).run k) s) :
    Exhausted ((runFrom m c (n + 1) pc >>= fun flow =>
        (resuming m host (P.length + c.length) targets flow).run k) s) ∨
      ∃ N, runFrom m host N pc' s = (runFrom m c (n + 1) pc >>= fun flow =>
        (resuming m host (P.length + c.length) targets flow).run k) s := by
  rw [runFrom_step hi, bind_assoc]
  cases h : (stepping m c pc i).run n s with
  | error e s' =>
    refine .inr ⟨n + 1, ?_⟩
    rw [runFrom_step hj, bind_of_error h, bind_of_error (hmir.error h)]
  | ok move s' =>
    obtain ⟨h', hfit⟩ := hmir.ok h
    rw [bind_of_ok h]
    rcases move with pc | flow
    · obtain ⟨front, back, hc, hb, rfl⟩ := hfit
      rcases ih s' hc hb with hx | ⟨N, hN⟩
      · exact .inl hx
      by_cases hx : Exhausted (runFrom m host N (P.length + front.length) s')
      · exact .inl (hN ▸ hx)
      refine .inr ⟨max n N + 1, ?_⟩
      rw [runFrom_step hj, bind_of_ok ((stepping m host pc' j).run_le (Nat.le_max_left n N) h'
        not_exhausted_ok)]
      exact ((runningAt m host (P.length + front.length)).run_le (Nat.le_max_right n N) rfl
        hx).trans hN
    · refine .inr ⟨n + 1, ?_⟩
      rw [runFrom_step hj, bind_of_ok h']
      show _ = (resuming m host (P.length + c.length) targets flow).run k s'
      rw [resuming_out ht hfit]
      rfl

/-- What stands at a place of the code that is reached from its begin. -/
inductive Spot (m : Measure) (exits : Option (Int × Int)) (P c host : Code)
    (targets : Option (Nat × Nat)) (pc : Nat) : Prop
  | atEnd (h : pc = c.length)
  | instruction (i j : Instruction) (hi : (c)[pc]? = some i) (hj : host[P.length + pc]? = some j)
      (h : ∀ n, Mirrors c exits P.length ((stepping m c pc i).run n)
        ((stepping m host (P.length + pc) j).run n))
  | jump (i j : Instruction) (flow : Flow) (target : Nat) (hi : (c)[pc]? = some i)
      (hj : host[P.length + pc]? = some j) (h : ∀ n, (stepping m c pc i).run n = pure (.out flow))
      (h' : ∀ n, (stepping m host (P.length + pc) j).run n = pure (.to target))
      (hr : resuming m host (P.length + c.length) targets flow = runningAt m host target)

theorem spot (hclosed : Closed m c) (hp : Patched m exits c c')
    (ht : Exits m P c' Q exits targets) {pre post : Code} (hc : c = pre ++ post)
    (hb : Balanced pre) :
    Spot m exits P c (P ++ c' ++ Q) targets pre.length := by
  obtain ⟨pre', post', hc', hl, hm, hb', hpost⟩ := Patched.split hb (hc ▸ hp)
  cases hpost with
  | nil => exact .atEnd (by simp [hc])
  | @same i _ _ hi hj hpost =>
    refine .instruction i i (by simp [hc]) (by simp [hc', hl]) fun n => ?_
    exact advance_mirrors _ n hclosed hp hc hc' hb hl hm hi hj
  | @recording b post post' hbal hpost =>
    refine .instruction (plain .record) (plain .record) (by simp [hc]) (by simp [hc', hl])
      fun n => ?_
    let run : Code → Exec Flow := fun c => runFrom .slots c n 0
    have h₁ := advance_recording run n m hc hbal
    have hh : P ++ c' ++ Q =
        (P ++ pre') ++ plain .record :: (b ++ plain .endRecord :: (post' ++ Q)) := by simp [hc']
    have h₂ := advance_recording run n m hh hbal
    rw [show (P ++ pre').length = P.length + pre.length by simp [hl]] at h₂
    show Mirrors c exits P.length (advance run n m c pre.length (plain .record))
      (advance run n m (P ++ c' ++ Q) (P.length + pre.length) (plain .record))
    rw [h₁, h₂]
    refine .bind _ fun _ => ?_
    rw [show P.length + pre.length + b.length + 2 = P.length + (pre.length + b.length + 2) by omega]
    refine .pure ⟨pre ++ recorded b, post, by simp [hc, recorded], hb.append hbal.recorded, ?_⟩
    simp [recorded]
    omega
  | @next post post' past away he hpost =>
    subst he
    cases ht with
    | @some _ _ frontN _ _ _ hN _ hpast _ =>
      have hh : P ++ c' ++ Q = (P ++ pre') ++ withNumber .skip (m.length post + past) ::
          (post' ++ Q) := by simp [hc']
      have hs := skipFrom_exit hh hN rfl (by
        rw [hpast, hc']
        simp only [Measure.length_append, Measure.length_cons, Measure.length_nil,
          hpost.measure_eq]
        omega)
      rw [show (P ++ pre').length = P.length + pre.length by simp [hl]] at hs
      refine .jump (jumpCode .slots .next) (withNumber .skip (m.length post + past)) .next _ (by simp [hc])
        (by simp [hc', hl]) (fun n => rfl) (fun n => ?_) rfl
      show (do return Move.to (← skipFrom m (P ++ c' ++ Q) (P.length + pre.length) _)) = _
      rw [hs, pure_bind]
  | @leave post post' past away he hpost =>
    subst he
    cases ht with
    | @some _ _ _ _ frontL _ _ hL _ haway =>
      have hh : P ++ c' ++ Q = (P ++ pre') ++ withNumber .skip (m.length post + away) ::
          (post' ++ Q) := by simp [hc']
      have hs := skipFrom_exit hh hL rfl (by
        rw [haway, hc']
        simp only [Measure.length_append, Measure.length_cons, Measure.length_nil,
          hpost.measure_eq]
        omega)
      rw [show (P ++ pre').length = P.length + pre.length by simp [hl]] at hs
      refine .jump (jumpCode .slots .leave) (withNumber .skip (m.length post + away)) .leave _
        (by simp [hc])
        (by simp [hc', hl]) (fun n => rfl) (fun n => ?_) rfl
      show (do return Move.to (← skipFrom m (P ++ c' ++ Q) (P.length + pre.length) _)) = _
      rw [hs, pure_bind]

theorem within_below (hclosed : Closed m c) (hp : Patched m exits c c')
    (ht : Exits m P c' Q exits targets) (n : Nat) : ∀ {pre post : Code}, c = pre ++ post →
      Balanced pre → Below (runFrom m (P ++ c' ++ Q) n (P.length + pre.length))
        ((runningOn m (P ++ c' ++ Q) c P.length targets pre.length).run n) := by
  induction n with
  | zero => exact fun _ _ => Below.of_exhausted fun s => ⟨s, rfl⟩
  | succ n ih =>
    intro pre post hc hb
    cases spot hclosed hp ht hc hb with
    | atEnd h =>
      have hd : runFrom m c (n + 1) pre.length = pure .done := runFrom_end (by simp [h]) n
      show Below _ (runFrom m c (n + 1) pre.length >>= _)
      rw [hd, h]
      exact Below.refl _
    | instruction i j hi hj h => exact below_of_mirrors ht hi hj (h n) fun hc hb => ih hc hb
    | jump i j flow target hi hj h h' hr =>
      show Below _ (runFrom m c (n + 1) pre.length >>= fun flow => (resuming _ _ _ _ flow).run (n + 1))
      rw [runFrom_step hi, runFrom_step hj, h, h', bind_assoc, pure_bind, pure_bind]
      show Below _ ((resuming m (P ++ c' ++ Q) (P.length + c.length) targets flow).run (n + 1))
      rw [hr]
      exact (runningAt m (P ++ c' ++ Q) target).rises n

theorem within_reaches (hclosed : Closed m c) (hp : Patched m exits c c')
    (ht : Exits m P c' Q exits targets) (n k : Nat) : ∀ {pre post : Code} (s : Machine),
      c = pre ++ post → Balanced pre →
      Exhausted ((runFrom m c n pre.length >>= fun flow =>
          (resuming m (P ++ c' ++ Q) (P.length + c.length) targets flow).run k) s) ∨
        ∃ N, runFrom m (P ++ c' ++ Q) N (P.length + pre.length) s =
          (runFrom m c n pre.length >>= fun flow =>
            (resuming m (P ++ c' ++ Q) (P.length + c.length) targets flow).run k) s := by
  induction n with
  | zero => exact fun s _ _ => .inl ⟨s, rfl⟩
  | succ n ih =>
    intro pre post s hc hb
    cases spot hclosed hp ht hc hb with
    | atEnd h =>
      have hd : runFrom m c (n + 1) pre.length = pure .done := runFrom_end (by simp [h]) n
      rw [hd, pure_bind, h]
      exact .inr ⟨k, rfl⟩
    | instruction i j hi hj h => exact reaches_of_mirrors ht hi hj (h n) fun s hc hb => ih s hc hb
    | jump i j flow target hi hj h h' hr =>
      refine .inr ⟨k + 1, ?_⟩
      rw [runFrom_step hi, runFrom_step hj, h, h', bind_assoc, pure_bind, pure_bind]
      show _ = (resuming m (P ++ c' ++ Q) (P.length + c.length) targets flow).run k s
      rw [hr]
      rfl

/-- Closed code does in other code what it does alone, and then the other code goes on.  Its jumps
may be replaced by skips out of it. -/
theorem running_patched (hclosed : Closed m c) (hp : Patched m exits c c')
    (ht : Exits m P c' Q exits targets) :
    Follows (runningAt m (P ++ c' ++ Q) P.length)
      (running m c >>= resuming m (P ++ c' ++ Q) (P.length + c.length) targets) :=
  ⟨fun n => within_below hclosed hp ht n (List.nil_append c).symm .nil,
    fun n => .of_id fun s => within_reaches hclosed hp ht n n s (List.nil_append c).symm .nil⟩

/-- Closed code inside other code. -/
theorem running_within (hclosed : Closed m c) (P Q : Code) :
    Follows (runningAt m (P ++ c ++ Q) P.length)
      (running m c >>= resuming m (P ++ c ++ Q) (P.length + c.length) none) :=
  running_patched hclosed (.refl m hclosed.balanced) .none

end Machine

end StackScript
