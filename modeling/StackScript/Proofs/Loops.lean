import StackScript.Proofs.Constructs

/-!
# StackScript.Proofs.Loops — the two codes of a loop

A loop of the program records its body and its condition and leaves the rounds to the machine; a
loop in recorded code is made of skips, which also stand for the jumps of its body.  Both follow
`looping`, the rounds of the runs of condition and body, so that they do the same.
-/

namespace StackScript

open Instruction Code

namespace Machine

/-- The rounds of a loop. -/
def looping {β : Type} (C B : Bounded (Machine β) Flow) : Bounded (Machine β) Flow :=
  ⟨fun n => rounds (C.run n) (B.run n) n,
    fun n => rounds_below (C.rises n) (B.rises n) (Nat.le_succ n)⟩

/-- How a loop goes on behind its body. -/
def afterBody {σ : Type} (R : Bounded σ Flow) : Flow → Bounded σ Flow
  | .done | .next => R
  | .leave => pure .done
  | .gaveBack v => pure (.gaveBack v)

/-- What a loop does when its condition has put its value. -/
def turning {β : Type} (B R : Bounded (Machine β) Flow) : Bounded (Machine β) Flow :=
  choosing (B >>= afterBody R) (pure .done)

/-- How a loop goes on behind its condition. -/
def afterCondition {β : Type} (B R : Bounded (Machine β) Flow) : Flow → Bounded (Machine β) Flow
  | .done => turning B R
  | .gaveBack v => pure (.gaveBack v)
  | .next | .leave => .of (stopWith .jumpInCondition)

/-- A round, after which a loop goes on with `R`. -/
def roundThen {β : Type} (C B R : Bounded (Machine β) Flow) : Bounded (Machine β) Flow :=
  C >>= afterCondition B R

theorem turning_run {β : Type} (B R : Bounded (Machine β) Flow) (n : Nat) :
    (turning B R).run n = turn (B.run n) (R.run n) := by
  show takeTruth >>= _ = takeTruth >>= _
  congr 1
  funext t
  cases t with
  | false => rfl
  | true =>
    show B.run n >>= _ = B.run n >>= _
    congr 1
    funext flow
    cases flow <;> rfl

theorem roundThen_run {β : Type} (C B R : Bounded (Machine β) Flow) (n : Nat) :
    (roundThen C B R).run n = round (C.run n) (B.run n) (R.run n) := by
  show C.run n >>= _ = C.run n >>= _
  congr 1
  funext flow
  cases flow with
  | done => exact turning_run B R n
  | _ => rfl

theorem looping_follows {β : Type} (C B : Bounded (Machine β) Flow) :
    Follows (looping C B) (roundThen C B (looping C B)) := by
  refine ⟨fun n => ?_, fun n => .of_below (n := n + 1) ?_⟩
  · rw [roundThen_run]
    cases n with
    | zero => exact Below.of_exhausted fun s => ⟨s, rfl⟩
    | succ n =>
      exact round_below (Below.refl _) (Below.refl _)
        (rounds_below (Below.refl _) (Below.refl _) (Nat.le_succ n))
  · rw [roundThen_run]
    exact rounds_below (C.rises n) (B.rises n) (Nat.le_refl (n + 1))

section
variable {β γ : Type} {view : Machine β → Machine γ}
  (hv : ∀ t, takeTruth (view t) = mapState view (takeTruth t))

include hv

theorem reached_round {c b r : Effect β Flow} {C B R : Bounded (Machine γ) Flow}
    (hc : Reached view c C) (hb : Reached view b B) (hr : Reached view r R) :
    Reached view (round c b r) (roundThen C B R) := by
  refine hc.bind fun flow => ?_
  cases flow with
  | done =>
    refine Reached.bind (.of_view (n := 0) hv) fun t => ?_
    cases t with
    | false => exact .of_view (n := 0) fun _ => rfl
    | true =>
      refine hb.bind fun flow => ?_
      cases flow with
      | done => exact hr
      | next => exact hr
      | _ => exact .of_view (n := 0) fun _ => rfl
  | _ => exact .of_view (n := 0) fun _ => rfl

theorem covered_round {c b r : Effect γ Flow} {C B R : Bounded (Machine β) Flow}
    (hc : Covered view c C) (hb : Covered view b B) (hr : Covered view r R) :
    Covered view (round c b r) (roundThen C B R) := by
  refine hc.bind fun flow => ?_
  cases flow with
  | done =>
    refine Covered.bind (.of_view (n := 0) hv) fun t => ?_
    cases t with
    | false => exact .of_view (n := 0) fun _ => rfl
    | true =>
      refine hb.bind fun flow => ?_
      cases flow with
      | done => exact hr
      | next => exact hr
      | _ => exact .of_view (n := 0) fun _ => rfl
  | _ => exact .of_view (n := 0) fun _ => rfl

/-- Rounds are reached by the loop of what reaches their parts. -/
theorem reached_rounds {c b : Effect β Flow} {C B : Bounded (Machine γ) Flow}
    (hc : Reached view c C) (hb : Reached view b B) (n : Nat) :
    Reached view (rounds c b n) (looping C B) := by
  induction n with
  | zero => exact .of_exhausted fun t => ⟨t, rfl⟩
  | succ n ih => exact (reached_round hv hc hb ih).of_follows (looping_follows C B)

/-- Rounds are covered by the loop of what covers their parts. -/
theorem covered_rounds {c b : Effect γ Flow} {C B : Bounded (Machine β) Flow}
    (hc : Covered view c C) (hb : Covered view b B) (n : Nat) :
    Covered view (rounds c b n) (looping C B) := by
  induction n with
  | zero => exact .of_exhausted fun t => ⟨t, rfl⟩
  | succ n ih => exact (covered_round hv hc hb ih).of_follows (looping_follows C B)

theorem Tracks.looping {j k : Nat} {A A' : Bounded (Machine γ) Flow}
    {B B' : Bounded (Machine β) Flow} (hc : Tracks view j k A B) (hb : Tracks view j k A' B') :
    Tracks view j k (looping A A') (looping B B') :=
  ⟨fun n hn => covered_rounds hv (hc.below n hn) (hb.below n hn) n,
    fun n hn => reached_rounds hv (hc.reaches n hn) (hb.reaches n hn) n⟩

end

theorem looping_congr {C C' B B' : Bounded Machine Flow} (hc : Follows C C') (hb : Follows B B') :
    Follows (looping C B) (looping C' B') :=
  ⟨fun n => rounds_below (hc.below n) (hb.below n) (Nat.le_refl n),
    fun n => reached_rounds (fun _ => (mapState_id _).symm) (hc.reaches n) (hb.reaches n) n⟩

/-- Rounds end because the condition does not hold any more, or with a `break` or `return`. -/
theorem rounds_ok {β : Type} {c b : Effect β Flow} {n : Nat} {s s' : Machine β} {flow : Flow}
    (h : rounds c b n s = .ok flow s') : flow = .done ∨ ∃ v, flow = .gaveBack v := by
  induction n generalizing s with
  | zero => cases h
  | succ n ih =>
    obtain ⟨f, s₁, _, h⟩ := ok_of_bind h
    cases f with
    | done =>
      obtain ⟨t, s₂, _, h⟩ := ok_of_bind h
      cases t with
      | false =>
        cases h
        exact .inl rfl
      | true =>
        obtain ⟨f, s₃, _, h⟩ := ok_of_bind h
        cases f with
        | done => exact ih h
        | next => exact ih h
        | leave =>
          cases h
          exact .inl rfl
        | gaveBack v =>
          cases h
          exact .inr ⟨v, rfl⟩
    | gaveBack v =>
      cases h
      exact .inr ⟨v, rfl⟩
    | _ => cases h

/-- How code goes on behind a loop. -/
def settled : Flow → Flow
  | .gaveBack v => .gaveBack v
  | _ => .done

theorem looping_settled {β : Type} (C B : Bounded (Machine β) Flow) :
    (looping C B >>= fun flow => pure (settled flow)) = looping C B := by
  ext n s
  show (rounds (C.run n) (B.run n) n >>= fun flow => pure (settled flow)) s =
    rounds (C.run n) (B.run n) n s
  cases h : rounds (C.run n) (B.run n) n s with
  | error e s' => rw [bind_of_error h]
  | ok flow s' =>
    rw [bind_of_ok h]
    rcases rounds_ok h with rfl | ⟨v, rfl⟩ <;> rfl

variable {m : Measure} {cond body : Code}

/-! ### The recorded loop -/

theorem loop_closed (m : Measure) : Closed m [plain .loop] := .single rfl rfl fun h => nomatch h

theorem recordedLoop_closed (hc : Balanced cond) (hb : Balanced body) :
    Closed m (recordedLoop cond body) :=
  ((Closed.recorded hb).append (Closed.recorded hc)).append (loop_closed m)

/-- The machine takes both recordings and makes the rounds. -/
theorem stepping_loop (m : Measure) (cond body : Code) :
    (.of (keepRecording body) >>= fun _ => .of (keepRecording cond) >>= fun _ =>
        stepping m [plain .loop] 0 (plain .loop)) =
      (looping (running .slots cond) (running .slots body) >>= fun flow =>
        pure (match flow with
          | .gaveBack v => Move.out (.gaveBack v)
          | _ => Move.to 1)) := by
  ext n s
  show (rounds (runFrom .slots cond n 0) (runFrom .slots body n 0) n >>= fun flow =>
    match flow with
    | .gaveBack v => return Move.out (.gaveBack v)
    | _ => return Move.to 1) s = _
  refine congrFun (congrArg (_ >>= ·) (funext fun flow => ?_)) s
  cases flow <;> rfl

/-- A recorded loop makes the rounds of its recordings. -/
theorem running_recordedLoop (hc : Balanced cond) (hb : Balanced body) :
    Follows (running m (recordedLoop cond body))
      (looping (running .slots cond) (running .slots body)) := by
  have hloop : Follows (running m [plain .loop])
      (stepping m [plain .loop] 0 (plain .loop) >>= proceeding m [plain .loop]) :=
    runningAt_follows rfl
  have hrec := (running_recorded (m := m) hb ((Closed.recorded hc).append (loop_closed m))).trans
    ((Follows.refl _).bind fun _ => (running_recorded hc (loop_closed m)).trans
      ((Follows.refl _).bind fun _ => hloop))
  have hassoc := Bounded.bind_assoc (.of (keepRecording body))
    (fun _ => .of (keepRecording cond) >>= fun _ => stepping m [plain .loop] 0 (plain .loop))
    (proceeding m [plain .loop])
  rw [stepping_loop, Bounded.bind_assoc] at hassoc
  simp only [Bounded.bind_assoc] at hassoc
  rw [recordedLoop, List.append_assoc]
  refine hrec.trans ?_
  rw [← hassoc]
  have hsettled : ∀ flow : Flow, Follows (proceeding m [plain .loop] (match flow with
      | .gaveBack v => Move.out (.gaveBack v)
      | _ => Move.to 1)) (pure (settled flow)) := by
    intro flow
    have hend : Follows (runningAt m [plain .loop] 1) (pure .done) := runningAt_end rfl
    cases flow with
    | gaveBack v => exact Follows.refl _
    | _ => exact hend
  refine ((Follows.refl _).bind hsettled).trans ?_
  rw [looping_settled]
  exact Follows.refl _

/-! ### Jumps that become skips -/

theorem resolveJumps_record (k depth : Nat) (t : Code) :
    resolveJumps k depth (plain .record :: t) =
      plain .record :: resolveJumps k (depth + 1) t := by
  simp [resolveJumps, plain]

theorem resolveJumps_endRecord (k depth : Nat) (t : Code) :
    resolveJumps k (depth + 1) (plain .endRecord :: t) =
      plain .endRecord :: resolveJumps k depth t := by
  simp [resolveJumps, plain]

/-- Nothing inside a recording is replaced. -/
theorem resolveJumps_inside {b : Code} (hb : Balanced b) (k depth : Nat) (t : Code) :
    resolveJumps k (depth + 1) (b ++ t) = b ++ resolveJumps k (depth + 1) t := by
  induction hb generalizing depth t with
  | nil => rfl
  | @cons i b h _ ih =>
    have hr : i.opcode ≠ .record := fun h' => by simp [h', Opcode.isMark] at h
    have he : i.opcode ≠ .endRecord := fun h' => by simp [h', Opcode.isMark] at h
    simp [resolveJumps, hr, he, ih]
  | recording _ _ ih ih' =>
    simp only [List.cons_append, List.append_assoc]
    rw [resolveJumps_record, ih, resolveJumps_endRecord, ih']

theorem resolveJumps_next (k : Nat) (t : Code) :
    resolveJumps k 0 (jumpCode .slots .next :: t) =
      withNumber .skip (slotCount t - k - 2) :: resolveJumps k 0 t := by
  have hl : slotCount (jumpCode .slots .next :: t) = 2 + slotCount t := rfl
  rw [resolveJumps, if_neg (by decide), if_neg (by decide), if_pos ⟨rfl, rfl⟩, hl]
  congr 2
  show ((2 + slotCount t : Nat) : Int) - k - 4 = _
  omega

theorem resolveJumps_leave (k : Nat) (t : Code) :
    resolveJumps k 0 (jumpCode .slots .leave :: t) =
      withNumber .skip (slotCount t) :: resolveJumps k 0 t := by
  have hl : slotCount (jumpCode .slots .leave :: t) = 2 + slotCount t := rfl
  rw [resolveJumps, if_neg (by decide), if_neg (by decide), if_neg (by decide),
    if_pos ⟨rfl, rfl⟩, hl]
  congr 2
  show ((2 + slotCount t : Nat) : Int) - 2 = _
  omega

theorem resolveJumps_other {i : Instruction} (hm : i.opcode.isMark = false)
    (hj : i.opcode.isJump = false) (k : Nat) (t : Code) :
    resolveJumps k 0 (i :: t) = i :: resolveJumps k 0 t := by
  have hr : i.opcode ≠ .record := fun h' => by simp [h', Opcode.isMark] at hm
  have he : i.opcode ≠ .endRecord := fun h' => by simp [h', Opcode.isMark] at hm
  have hn : i ≠ jumpCode .slots .next := fun h' => by
    rw [h'] at hj
    cases hj
  have hl : i ≠ jumpCode .slots .leave := fun h' => by
    rw [h'] at hj
    cases hj
  simp [resolveJumps, hr, he, hn, hl]

/-- The jumps of closed code become skips to where the condition stands, which is the end of the
loop without condition and skip back, and to the end of the loop. -/
theorem resolveJumps_append {c : Code} (h : Closed .slots c) (k : Nat) (t : Code) :
    ∃ c', resolveJumps k 0 (c ++ t) = c' ++ resolveJumps k 0 t ∧
      Patched .slots (some ((slotCount t : Int) - k - 2, (slotCount t : Int))) c c' := by
  have hb := h.balanced
  have hw := @h.waits
  clear h
  have hcount : ∀ c : Code, (slotCount (c ++ t) : Int) = Measure.slots.length c + slotCount t := by
    intro c
    rw [slotCount, Measure.length_append]
    rfl
  induction hb with
  | nil => exact ⟨[], rfl, .nil⟩
  | @cons i c hi _ ih =>
    obtain ⟨c', hc', hp⟩ := ih fun hs hp => hw (by rw [hs]; rfl) (.cons hi hp)
    cases hj : i.opcode.isJump with
    | false =>
      refine ⟨i :: c', ?_, .same hi (fun h => by simp [hj] at h) hp⟩
      rw [List.cons_append, resolveJumps_other hi hj, hc', List.cons_append]
    | true =>
      have hwait := hw (List.nil_append _).symm .nil hj
      cases ho : i.opcode with
      | next =>
        rw [ho] at hwait
        rw [hwait, List.cons_append, resolveJumps_next, hc', hcount, Int.add_sub_assoc,
          Int.add_sub_assoc]
        exact ⟨_, rfl, .next rfl hp⟩
      | leave =>
        rw [ho] at hwait
        rw [hwait, List.cons_append, resolveJumps_leave, hc', hcount]
        exact ⟨_, rfl, .leave rfl hp⟩
      | _ => simp [ho, Opcode.isJump] at hj
  | @recording b c hb hc _ ih =>
    obtain ⟨c', hc', hp⟩ := ih fun {pre i post} hs hp => by
      have hs' : plain .record :: (b ++ plain .endRecord :: c) =
          (plain .record :: (b ++ plain .endRecord :: pre)) ++ i :: post := by simp [hs]
      exact hw hs' (.recording hb hp)
    refine ⟨_, ?_, .recording hb hp⟩
    simp only [List.cons_append, List.append_assoc]
    rw [resolveJumps_record, resolveJumps_inside hb, resolveJumps_endRecord, hc']

theorem resolveJumps_acts {c : Code} (h : Acts c) (k : Nat) (t : Code) :
    resolveJumps k 0 (c ++ t) = c ++ resolveJumps k 0 t := by
  induction c with
  | nil => rfl
  | cons i c ih =>
    obtain ⟨hi, hc⟩ := acts_cons_iff.mp h
    rw [List.cons_append, resolveJumps_other (Opcode.not_isMark_of_acts hi)
      (Opcode.not_isJump_of_acts hi), ih hc, List.cons_append]

/-! ### The loop made of skips -/

/-- The skip back to the body. -/
def backSkip (cond body : Code) : Instruction :=
  withNumber .skipIf (-(body.slotCount + cond.slotCount + 2))

/-- A loop made of skips, with its patched body. -/
def loopHost (cond body body' : Code) : Code :=
  withNumber .skip body.slotCount :: (body' ++ cond ++ [backSkip cond body])

/-- The condition of a loop made of skips, which acts, stands as it is. -/
theorem skippingLoop_eq (hc : Acts cond) (hb : Closed .slots body) :
    ∃ body', skippingLoop cond body = loopHost cond body body' ∧
      Patched .slots (some (0, (cond.slotCount : Int) + 2)) body body' := by
  have hcount : slotCount (cond ++ [backSkip cond body]) = cond.slotCount + 2 := by
    rw [slotCount, Measure.length_append]
    rfl
  obtain ⟨body', hb', hp⟩ :=
    resolveJumps_append hb cond.slotCount (cond ++ [backSkip cond body])
  refine ⟨body', ?_, ?_⟩
  · have hback : resolveJumps cond.slotCount 0 [backSkip cond body] = [backSkip cond body] :=
      resolveJumps_other rfl rfl _ _
    rw [resolveJumps_acts hc, hback] at hb'
    rw [skippingLoop, List.append_assoc, loopHost, List.append_assoc, ← hb']
    rfl
  · have hpast : ((cond.slotCount + 2 : Nat) : Int) - cond.slotCount - 2 = 0 := by omega
    rw [hcount, hpast] at hp
    exact hp

/-- The loop made of skips is closed: every skip leads to the condition, to the body or to the end,
or stays within the body. -/
theorem skippingLoop_closed (hc : Acts cond) (hb : Closed .slots body) :
    Closed .slots (skippingLoop cond body) := by
  obtain ⟨body', hcode, hp⟩ := skippingLoop_eq hc hb
  have hcond : Balanced cond := .of_acts hc
  have hbody : Balanced body' := hp.balanced_right
  have hback : Balanced [backSkip cond body] := .cons rfl .nil
  have hlen : Measure.slots.length body' = body.slotCount := hp.measure_eq
  have hlands : ∀ {pre : Code} {i : Instruction} (front rest : Code) {n : Int},
      body' ++ cond ++ [backSkip cond body] = front ++ rest → Balanced front →
      i.operand = some (.integer n) →
      n = (Measure.slots.length front : Int) - Measure.slots.length (pre ++ [i]) →
      Lands .slots (skippingLoop cond body) (withNumber .skip body.slotCount :: pre) i := by
    intro pre i front rest n hsplit hfront hi hn
    refine ⟨withNumber .skip body.slotCount :: front, rest, ?_, .cons rfl hfront, ?_⟩
    · rw [hcode, loopHost, hsplit, List.cons_append]
    · rw [hi, hn, List.cons_append, Measure.length_cons, Measure.length_cons]
      congr 2
      omega
  have key : ∀ {pre i post}, skippingLoop cond body = pre ++ i :: post → Balanced pre →
      i.opcode.isJump = false ∧
        (i.opcode.isSkip → Lands .slots (skippingLoop cond body) pre i) := by
    intro pre i post h hpre
    rw [hcode, loopHost] at h
    rcases cons_split rfl hpre h with ⟨rfl, rfl⟩ | ⟨pre, rfl, h, hpre⟩
    · -- the skip to the condition
      refine ⟨rfl, fun _ => ⟨withNumber .skip body.slotCount :: body',
        cond ++ [backSkip cond body], ?_, .cons rfl hbody, ?_⟩⟩
      · rw [hcode, loopHost, List.append_assoc, List.cons_append]
      · rw [List.nil_append, Measure.length_cons, Measure.length_cons, Measure.length_nil, hlen]
        show some (Operand.integer body.slotCount) = _
        congr 2
        omega
    rcases (hbody.append hcond).split hpre h with ⟨post₁, h₁, rfl⟩ | ⟨pre₁, rfl, h₁, _⟩
    · rcases hbody.split hpre h₁ with ⟨post₂, h₂, rfl⟩ | ⟨pre₂, rfl, h₂, _⟩
      · -- an instruction of the body, or the skip that replaces a jump of it
        have hlen₂ : Measure.slots.length body' =
            Measure.slots.length (pre ++ [i]) + Measure.slots.length post₂ := by
          rw [h₂, List.append_cons, Measure.length_append]
        obtain ⟨hj, hi⟩ := hp.at_right h₂ hpre
        refine ⟨hj, fun hs => ?_⟩
        rcases hi with ⟨pre₀, post₀, h₀, hpre₀, hm⟩ | hi | hi
        · obtain ⟨front, rest, hf, hfront, hop⟩ := hb.lands h₀ hpre₀ hs
          obtain ⟨front', rest', hf', _, hfm, hfront', _⟩ := Patched.split hfront (hf ▸ hp)
          refine hlands front' (rest' ++ cond ++ [backSkip cond body]) (by simp [hf']) hfront'
            hop ?_
          simp only [Measure.length_append, hfm, hm]
        · refine hlands body' (cond ++ [backSkip cond body]) (by simp) hbody (by rw [hi]; rfl) ?_
          omega
        · refine hlands (body' ++ cond ++ [backSkip cond body]) [] (by simp)
            ((hbody.append hcond).append hback) (by rw [hi]; rfl) ?_
          have hwidth : Measure.slots.length [backSkip cond body] = 2 := rfl
          rw [Measure.length_append, Measure.length_append, hwidth, hlen₂, slotCount]
          omega
      · have hi : i.opcode.acts := hc i (by simp [h₂])
        exact ⟨Opcode.not_isJump_of_acts hi, fun hs => by
          simp [Opcode.not_isSkip_of_acts hi] at hs⟩
    · -- the skip back to the body
      obtain ⟨rfl, rfl⟩ : pre₁ = [] ∧ i = backSkip cond body := by
        cases pre₁ with
        | nil => exact ⟨rfl, (List.cons.inj h₁).1.symm⟩
        | cons => simp at h₁
      refine ⟨rfl, fun _ => hlands [] (body' ++ cond ++ [backSkip cond body]) (by simp) .nil rfl ?_⟩
      have hwidth : Measure.slots.length [backSkip cond body] = 2 := rfl
      rw [Measure.length_append, List.append_nil, Measure.length_append, hwidth, hlen, slotCount,
        Measure.length_nil]
      simp only [slotCount]
      omega
  refine ⟨?_, fun h hpre hs => (key h hpre).2 hs, fun h hpre hj => ?_⟩
  · rw [hcode]
    exact .cons rfl ((hbody.append hcond).append hback)
  · rw [(key h hpre).1] at hj
    cases hj

section
variable {body' : Code} (hc : Acts cond)
  (hp : Patched .slots (some (0, (cond.slotCount : Int) + 2)) body body')

/-- The loop from its condition on. -/
def fromCondition (cond body body' : Code) : Bounded Machine Flow :=
  runningAt .slots (loopHost cond body body') (body'.length + 1)

/-- The loop from its skip back on. -/
def fromBack (cond body body' : Code) : Bounded Machine Flow :=
  runningAt .slots (loopHost cond body body') (body'.length + 1 + cond.length)

include hp in
theorem loopHost_follows :
    Follows (running .slots (loopHost cond body body')) (fromCondition cond body body') := by
  have h := runningAt_skip (m := .slots) [] body' (cond ++ [backSkip cond body])
  rw [hp.measure_eq, List.nil_append, ← List.append_assoc, List.length_nil, Nat.zero_add,
    Nat.add_comm 1] at h
  exact h

include hc in
theorem fromCondition_follows :
    Follows (fromCondition cond body body')
      (actingAll cond >>= fun _ => fromBack cond body body') := by
  have h := runningAt_middle (m := .slots) (.of_acts hc) (withNumber .skip body.slotCount :: body')
    [backSkip cond body]
  have h' := h.trans ((running_acts hc).bind fun flow => Follows.refl _)
  rwa [Bounded.bind_assoc] at h'

include hp in
/-- The skip back leads to the body or, if the condition does not hold, to the end. -/
theorem stepping_back :
    stepping .slots (loopHost cond body body') (body'.length + 1 + cond.length)
        (backSkip cond body) =
      (.of takeTruth >>= fun t =>
        pure (.to (if t then 1 else body'.length + 1 + cond.length + 1))) := by
  let first := withNumber .skip body.slotCount
  have hhost : loopHost cond body body' =
      (first :: (body' ++ cond)) ++ backSkip cond body :: [] := by simp [loopHost, first]
  have hfront : loopHost cond body body' = [first] ++ (body' ++ cond ++ [backSkip cond body]) := rfl
  have hskip := skipFrom_exit (m := .slots) hhost hfront rfl (by
    have hw : ∀ n o, Measure.slots.width (withNumber o n) = 2 := by
      intro n o
      simp [Measure.width, width, withNumber]
    simp only [first, backSkip, Measure.length_append, Measure.length_cons, Measure.length_nil, hw,
      hp.measure_eq, slotCount]
    omega)
  rw [show (first :: (body' ++ cond)).length = body'.length + 1 + cond.length by simp; omega]
    at hskip
  ext n s
  show (do
    if ← takeTruth then
      return Move.to (← skipFrom .slots (loopHost cond body body') (body'.length + 1 + cond.length)
        (backSkip cond body))
    else return Move.to (body'.length + 1 + cond.length + 1)) s = _
  rw [hskip]
  refine congrFun (congrArg (takeTruth >>= ·) (funext fun t => ?_)) s
  cases t <;> rfl

include hp in
/-- The loop goes on with its condition, whether its body is done or a `continue` has ended it. -/
theorem body_follows (hb : Closed .slots body) :
    Follows (runningAt .slots (loopHost cond body body') 1)
      (running .slots body >>= afterBody (fromCondition cond body body')) := by
  let first := withNumber .skip body.slotCount
  have hhost : [first] ++ body' ++ (cond ++ [backSkip cond body]) = loopHost cond body body' := by
    simp [loopHost, first]
  have hnext : [first] ++ body' ++ (cond ++ [backSkip cond body]) =
      (first :: body') ++ (cond ++ [backSkip cond body]) := rfl
  have hleave : [first] ++ body' ++ (cond ++ [backSkip cond body]) =
      loopHost cond body body' ++ [] := by rw [hhost, List.append_nil]
  have hexits : Exits .slots [first] body' (cond ++ [backSkip cond body])
      (some (0, (cond.slotCount : Int) + 2))
      (some ((first :: body').length, (loopHost cond body body').length)) := by
    refine .some hnext hleave ?_ ?_
    · simp only [Measure.length_cons, Measure.length_nil]
      omega
    · have hwidth : Measure.slots.length [backSkip cond body] = 2 := rfl
      simp only [loopHost, Measure.length_cons, Measure.length_append, Measure.length_nil, hwidth,
        slotCount, first]
      omega
  have h := running_patched hb hp hexits
  rw [hhost] at h
  refine h.trans ((Follows.refl _).bind fun flow => ?_)
  cases flow with
  | done =>
    rw [← hp.length_eq, Nat.add_comm]
    exact Follows.refl _
  | next => exact Follows.refl _
  | leave => exact runningAt_end (by simp)
  | gaveBack v => exact Follows.refl _

include hp in
/-- The loop from its skip back on, after this instruction. -/
theorem turning_follows (hb : Closed .slots body) :
    Follows (stepping .slots (loopHost cond body body') (body'.length + 1 + cond.length)
        (backSkip cond body) >>= proceeding .slots (loopHost cond body body'))
      (turning (running .slots body) (fromCondition cond body body')) := by
  rw [stepping_back hp, Bounded.bind_assoc]
  refine (Follows.refl _).bind fun t => ?_
  cases t with
  | true => exact body_follows hp hb
  | false => exact runningAt_end (by simp [loopHost]; omega)

theorem loopHost_back :
    (loopHost cond body body')[body'.length + 1 + cond.length]? = some (backSkip cond body) := by
  have hhost : loopHost cond body body' =
      (withNumber .skip body.slotCount :: (body' ++ cond)) ++ [backSkip cond body] := by
    simp [loopHost]
  rw [hhost, show body'.length + 1 + cond.length =
    (withNumber .skip body.slotCount :: (body' ++ cond)).length by simp; omega]
  exact List.getElem?_concat_length

theorem fromBack_run (n : Nat) :
    (fromBack cond body body').run (n + 1) =
      (stepping .slots (loopHost cond body body') (body'.length + 1 + cond.length)
        (backSkip cond body) >>= proceeding .slots (loopHost cond body body')).run n :=
  runningAt_succ loopHost_back n

include hc hp in
/-- The loop from its condition on does no more than its rounds. -/
theorem fromCondition_below (hb : Closed .slots body) {N : Nat} (n : Nat) (hn : n ≤ N) :
    Below ((fromCondition cond body body').run n)
      (rounds ((actingAll cond).run N >>= fun _ => pure .done) ((running .slots body).run N) n) := by
  induction n with
  | zero => exact Below.of_exhausted fun s => ⟨s, rfl⟩
  | succ n ih =>
    refine ((fromCondition_follows hc).below (n + 1)).trans ?_
    have hround : ∀ (a : Exec Unit) (b r : Exec Flow),
        round (a >>= fun _ => pure .done) b r = a >>= fun _ => turn b r := by
      intro a b r
      rw [round, bind_assoc]
      rfl
    rw [rounds, hround, Bounded.bind_run]
    refine ((actingAll cond).below hn).bind fun _ => ?_
    rw [fromBack_run]
    refine ((turning_follows hp hb).below n).trans ?_
    rw [turning_run]
    exact turn_below ((running .slots body).below (by omega)) (ih (by omega))

include hc hp in
/-- A round, and then the loop from its condition on. -/
theorem fromCondition_round (hb : Closed .slots body) :
    Follows (fromCondition cond body body')
      (roundThen (actingAll cond >>= fun _ => pure .done) (running .slots body)
        (fromCondition cond body body')) := by
  rw [roundThen, Bounded.bind_assoc]
  refine (fromCondition_follows hc).trans ((Follows.refl _).bind fun _ => ?_)
  exact (runningAt_follows loopHost_back).trans (turning_follows hp hb)

end

/-- A loop made of skips makes the rounds of its condition and its body. -/
theorem running_skippingLoop (hc : Acts cond) (hb : Closed .slots body) :
    Follows (running .slots (skippingLoop cond body))
      (looping (actingAll cond >>= fun _ => pure .done) (running .slots body)) := by
  obtain ⟨body', hcode, hp⟩ := skippingLoop_eq hc hb
  rw [hcode]
  refine (loopHost_follows hp).trans ⟨fun n => fromCondition_below hc hp hb n (Nat.le_refl n),
    fun n => ?_⟩
  have hreach : ∀ k, Reached id (rounds ((actingAll cond).run n >>= fun _ => pure .done)
      ((running .slots body).run n) k) (fromCondition cond body body') := by
    intro k
    induction k with
    | zero => exact .of_exhausted fun s => ⟨s, rfl⟩
    | succ k ih =>
      refine Reached.of_follows (fromCondition_round hc hp hb) ?_
      exact reached_round (fun _ => (mapState_id _).symm) (.of_below (n := n) (Below.refl _))
        (.of_below (n := n) (Below.refl _)) ih
  exact hreach n

/-- A recorded loop makes the same rounds. -/
theorem running_recordedLoop_acts (hc : Acts cond) (hb : Balanced body) :
    Follows (running m (recordedLoop cond body))
      (looping (actingAll cond >>= fun _ => pure .done) (running .slots body)) :=
  (running_recordedLoop (.of_acts hc) hb).trans (looping_congr (running_acts hc) (Follows.refl _))

end Machine

end StackScript
