import StackScript.Proofs.Soundness

/-!
# StackScript.Proofs.Joining — statements in sequence become one program

A run of programs on lines of their own is a run of chunks of one block, or of the file.  In their
place there may be one chunk with the statements of all, and the block stays the same.
-/

namespace StackScript

open Leaf

/-- A match of the rule for sequences: programs on lines of their own, and no `else` after them. -/
structure Joins (run post : List Leaf) : Prop where
  two : 2 ≤ run.length
  programs : ∀ l ∈ run, l.tag = .program
  lines : ∀ l ∈ run.tail, l.broken = true
  next : ∀ o w, post = o :: w → o.tag ≠ .elseWord ∧ o.tag ≠ .elseIfWord

/-- One chunk with the statements of several. -/
def Chunk.join (ds : List Chunk) : Chunk :=
  ((ds.head?.map Prod.fst).getD default, .several (.mk ((ds.head?.map (·.1.line)).getD 1)
    (ds.flatMap fun d => d.2.statements)))

/-! ### Blocks -/

theorem blockOf_of_two {line : Nat} {c : Chunk} {cs : List Chunk} (h : cs ≠ []) :
    blockOf line (c :: cs) = .mk c.1.line ((c :: cs).flatMap fun c => c.2.statements) := by
  cases cs with
  | nil => exact absurd rfl h
  | cons d cs => rfl

/-- Joining chunks of a block does not change the block. -/
theorem blockOf_join {cs₁ ds cs₂ : List Chunk} (hds : 2 ≤ ds.length) (line : Nat) :
    blockOf line (cs₁ ++ Chunk.join ds :: cs₂) = blockOf line (cs₁ ++ (ds ++ cs₂)) := by
  match ds, hds with
  | d :: d' :: ds, _ =>
    cases cs₁ with
    | nil =>
      cases cs₂ with
      | nil =>
        rw [List.append_nil]
        rfl
      | cons c cs₂ =>
        rw [List.nil_append, List.nil_append, blockOf_of_two (by simp), List.cons_append,
          blockOf_of_two (by simp)]
        simp [Chunk.join, Program.statements, Block.statements]
    | cons c cs₁ =>
      rw [List.cons_append, List.cons_append, blockOf_of_two (by simp), blockOf_of_two (by simp)]
      simp [Chunk.join, Program.statements, Block.statements]

/-- In a sequence only the last chunk may end with a bare `return`. -/
theorem Chunks.not_endsBare {cs cs' : List Chunk} {d : Chunk} (h : Chunks (cs ++ d :: cs')) {c : Chunk}
    (hc : c ∈ cs) : c.2.endsBare = false := by
  induction cs with
  | nil => cases hc
  | cons c' cs ih =>
    obtain ⟨hhead, htail⟩ := List.isChain_cons.mp h
    rcases List.mem_cons.mp hc with rfl | hc
    · obtain ⟨e, he⟩ : ∃ e, e ∈ (cs ++ d :: cs').head? := by cases cs <;> simp
      exact (hhead e he).2
    · exact ih htail hc

/-- A join ends with a bare `return` only if one of the chunks does. -/
theorem Chunk.join_not_endsBare {ds : List Chunk} (h : ∀ d ∈ ds, d.2.endsBare = false) :
    (Chunk.join ds).2.endsBare = false := by
  rw [Chunk.join, Program.endsBare, Program.statements, Block.statements]
  induction ds with
  | nil => rfl
  | cons d ds ih =>
    rw [List.flatMap_cons, List.getLast?_append]
    have hrest := ih fun d hd => h d (List.mem_cons_of_mem _ hd)
    cases hlast : (ds.flatMap fun d => d.2.statements).getLast? with
    | none =>
      rw [Option.none_or]
      exact h d List.mem_cons_self
    | some s =>
      rw [hlast] at hrest
      rw [Option.some_or]
      exact hrest

/-- A join can stand where the chunks stand. -/
theorem Chunks.join {cs₁ ds cs₂ : List Chunk} (h : Chunks (cs₁ ++ (ds ++ cs₂))) (hds : ds ≠ []) :
    Chunks (cs₁ ++ Chunk.join ds :: cs₂) := by
  obtain ⟨d, ds, rfl⟩ := List.exists_cons_of_ne_nil hds
  obtain ⟨h₁, h₂, hbefore⟩ := List.isChain_append.mp h
  refine List.isChain_append.mpr ⟨h₁, List.isChain_cons.mpr ⟨?_, ?_⟩, ?_⟩
  · intro c hc
    obtain ⟨cs₂, rfl⟩ : ∃ cs, cs₂ = c :: cs := by
      cases cs₂ with
      | nil => cases hc
      | cons c' cs =>
        obtain rfl : c' = c := Option.some.inj hc
        exact ⟨cs, rfl⟩
    refine ⟨?_, Chunk.join_not_endsBare fun e he => Chunks.not_endsBare h₂ he⟩
    have hlast := (List.isChain_append.mp h₂).2.2
    exact (hlast _ (List.getLast?_eq_getLast_of_ne_nil (List.cons_ne_nil d ds)) c rfl).1
  · exact (List.isChain_append.mp h₂).2.1
  · rintro c hc _ ⟨⟩
    exact hbefore c hc d rfl

/-! ### Runs of chunks -/

section Runs

variable {gone : List Rule} {cs : List Chunk} {pre run post : List Leaf}

/-- A run of programs, each but the first on a line of its own, is a run of chunks. -/
theorem run_chunks {ps : List Phrase} {ys w : List Leaf} {c : Chunk} {a : Leaf} (rest : List Leaf)
    (h : Forest gone (c.phrase :: (cs.map Chunk.phrase ++ ps)) ys)
    (hps : ps = [] ∧ w = [] ∨ ∃ b : Leaf, ps = [.token b] ∧ b.tag = .rightBrace)
    (hrun : ∀ l ∈ a :: rest, l.tag = .program) (hw : ys ++ w = a :: (rest ++ post))
    (hnext : ∀ o w, post = o :: w → o.tag ≠ .elseWord ∧ o.tag ≠ .elseIfWord) :
    ∃ ds cs' zs, cs = ds ++ cs' ∧ List.Forall₂ Stands (a :: rest) ((c :: ds).map Chunk.phrase) ∧
      Forest gone (cs'.map Chunk.phrase ++ ps) zs ∧ zs ++ w = post := by
  induction rest generalizing c a cs ys with
  | nil =>
    obtain ⟨ha, zs, rfl, hzs, hw⟩ := take_program h hw (hrun a List.mem_cons_self) hnext
    exact ⟨[], cs, zs, rfl, .cons ha .nil, hzs, hw⟩
  | cons b rest ih =>
    have hb := hrun b (by simp)
    obtain ⟨ha, zs, rfl, hzs, hw⟩ := take_program h hw (hrun a List.mem_cons_self) (by
      rintro o w' ⟨⟩
      rw [hb]
      exact ⟨by decide, by decide⟩)
    cases cs with
    | nil =>
      rcases hps with ⟨rfl, rfl⟩ | ⟨b', rfl, hb'⟩
      · obtain rfl := take_nil hzs
        cases hw
      · have htag := (take_token hzs hw).1.tag_eq
        rw [Phrase.tag_token, hb', hb] at htag
        cases htag
    | cons c' cs =>
      obtain ⟨ds, cs', zs, rfl, hall, hzs, hw⟩ :=
        ih hzs (fun l hl => hrun l (List.mem_cons_of_mem _ hl)) hw
      exact ⟨c' :: ds, cs', zs, rfl, .cons ha hall, hzs, hw⟩

/-- Where a program is a part and no `else` follows, it is a chunk of a block, and other chunks that
make the same block may be in the place of those of the block. -/
theorem Production.chunk {r : Rule} {qs qs₁ qs₂ : List Phrase} {q p : Phrase}
    (h : Production r qs q) (hqs : qs = qs₁ ++ p :: qs₂) (hp : p.tag = .program)
    (hnext : ∀ o ps, qs₂ = .token o :: ps → o.tag ≠ .elseWord ∧ o.tag ≠ .elseIfWord) :
    ∃ head cs₁ c cs₂ b, qs₁ = head ++ List.map Chunk.phrase cs₁ ∧ p = Chunk.phrase c ∧
      qs₂ = cs₂.map Chunk.phrase ++ [.token b] ∧ b.tag = .rightBrace ∧ Chunks (cs₁ ++ c :: cs₂) ∧
      ∀ ds, Chunks ds → (∀ line, blockOf line ds = blockOf line (cs₁ ++ c :: cs₂)) →
        Production r (head ++ (ds.map Chunk.phrase ++ [.token b])) q := by
  have hmem := h.tag_mem (p := p) (by simp [hqs])
  rw [hp] at hmem
  have hwhole : p.fragment?.isSome := by
    cases p with
    | token l =>
      have htag := h.token_tag (l := l) (by simp [hqs])
      rw [← Phrase.tag_token l, hp] at htag
      cases htag
    | whole => rfl
  cases h with
  | binary ho hr =>
    rw [← hr, Tag.alphabet_of_operator? ho] at hmem
    simp only [List.mem_cons, List.not_mem_nil, or_false, reduceCtorEq, false_or] at hmem
    rw [← hmem] at ho
    cases ho
  | block hhead hcs hb hs =>
    rcases mem_split hqs with ⟨us, rfl, hbody⟩ | ⟨us, hfront, rfl⟩
    · obtain ⟨cs₁, c, cs₂, rfl, rfl, rfl, rfl⟩ := Chunk.of_map_phrase hbody hwhole
      refine ⟨_, cs₁, c, cs₂, _, rfl, rfl, rfl, hb, hcs, fun ds hds hsame => ?_⟩
      refine .block hhead hds hb ?_
      rw [← hs]
      exact congrArg _ (funext hsame)
    · have hin : p ∈ qs₁ ++ p :: us := by simp
      rw [← hfront] at hin
      cases hhead with
      | branch | loop =>
        simp only [List.mem_cons, List.not_mem_nil, or_false] at hin
        rcases hin with rfl | rfl | rfl
        · cases hwhole
        · cases hp
        · cases hwhole
      | functionEnd | classEnd =>
        rw [List.mem_singleton.mp hin] at hp
        cases hp
      | elseIf ho =>
        simp [List.cons_eq_append_iff] at hfront
        rcases hfront with ⟨rfl, rfl, rfl⟩ | ⟨_, rfl, ⟨rfl, rfl, rfl⟩ | ⟨_, rfl, ⟨rfl, rfl, rfl⟩ |
          ⟨rfl, rfl, rfl⟩⟩⟩
        · exact absurd ho (hnext _ _ rfl).2
        · cases hwhole
        · cases hp
        · cases hwhole
      | otherwise ho =>
        simp [List.cons_eq_append_iff] at hfront
        rcases hfront with ⟨rfl, rfl, rfl⟩ | ⟨_, rfl, ⟨rfl, rfl, rfl⟩ | ⟨rfl, rfl, rfl⟩⟩
        · exact absurd ho (hnext _ _ rfl).1
        · cases hwhole
        · cases hwhole
  | _ => simp [Rule.alphabet] at hmem

/-- Programs in sequence are chunks, which one chunk can stand for. -/
theorem Reading.join (h : Reading gone cs (pre ++ (run ++ post))) (hj : Joins run post) :
    ∃ ds : List Chunk, List.Forall₂ Stands run (ds.map Chunk.phrase) ∧
      ∀ l : Leaf, Stands l (Chunk.join ds).phrase → ∃ cs', Reading gone cs' (pre ++ l :: post) ∧
        ∀ line, blockOf line cs' = blockOf line cs := by
  obtain ⟨htwo, hprograms, hlines, hnext⟩ := hj
  obtain ⟨a, b, rest, rfl⟩ : ∃ a b rest, run = a :: b :: rest := by
    match run, htwo with
    | a :: b :: rest, _ => exact ⟨a, b, rest, rfl⟩
  have hapart : ∀ l : Leaf, l.tag = .program → Apart (pre ++ l :: post) := by
    intro l hl l' hl' hline
    rcases List.mem_append.mp hl' with hl' | hl'
    · exact h.apart l' (List.mem_append_left _ hl') hline
    rcases List.mem_cons.mp hl' with rfl | hl'
    · rw [hl]
      exact ⟨by decide, by decide⟩
    · exact h.apart l' (List.mem_append_right _ (List.mem_append_right _ hl')) hline
  obtain ⟨p, hspot, ha⟩ := locate (l := a) (v := b :: (rest ++ post)) h.forest
  generalize hv : b :: (rest ++ post) = v at hspot
  cases hspot with
  | @chunk cs₁ cs₂ c _ _ hcs h₁ h₂ =>
    obtain ⟨ds, cs', zs, rfl, hall, hzs, hw⟩ := run_chunks (b :: rest)
      (by rw [List.append_nil]; exact .leaf ha h₂) (.inl ⟨rfl, rfl⟩) hprograms
      (by rw [← hv]; simp) hnext
    rw [List.append_nil] at hw hzs
    subst hw
    have htwo : 2 ≤ (c :: ds).length := by
      have := hall.length_eq
      simp at this ⊢
      omega
    refine ⟨c :: ds, hall, fun l hl => ⟨cs₁ ++ Chunk.join (c :: ds) :: cs', ⟨?_, ?_, ?_⟩, ?_⟩⟩
    · rw [List.map_append, List.map_cons]
      exact h₁.append (.leaf hl hzs)
    · exact Chunks.join (hcs ▸ h.chunks) (by simp)
    · exact hapart l hl.tag_eq.symm
    · intro line
      rw [blockOf_join htwo, hcs]
      rfl
  | @part u w ys zs r qs₁ qs₂ p q hq hr hgone h₁ h₂ =>
    obtain ⟨head, cs₁, c, cs₂, b', rfl, rfl, rfl, hb', hcs, hmake⟩ := hr.chunk rfl
      (ha.tag_eq.trans (hprograms a (by simp))) (by
        rintro o ps rfl
        have htag := (take_token h₂ hv.symm).1.tag_eq
        rw [Phrase.tag_token, hprograms b (by simp)] at htag
        rw [htag]
        exact ⟨by decide, by decide⟩)
    obtain ⟨ds, cs', zs, rfl, hall, hzs, hw⟩ := run_chunks (b :: rest) (.leaf ha h₂)
      (.inr ⟨b', rfl, hb'⟩) hprograms (by rw [List.cons_append, ← hv]; simp) hnext
    have htwo : 2 ≤ (c :: ds).length := by
      have := hall.length_eq
      simp at this ⊢
      omega
    refine ⟨c :: ds, hall, fun l hl => ⟨cs, ⟨?_, h.chunks, ?_⟩, fun _ => rfl⟩⟩
    · have hnode := hmake (cs₁ ++ Chunk.join (c :: ds) :: cs') (Chunks.join hcs (by simp))
        fun line => blockOf_join htwo line
      have hforest : Forest gone (head ++ ((cs₁ ++ Chunk.join (c :: ds) :: cs').map Chunk.phrase ++
          [.token b'])) (ys ++ l :: zs) := by
        have h₂ : Forest gone ((Chunk.join (c :: ds)).phrase ::
            (cs'.map Chunk.phrase ++ [.token b'])) (l :: zs) := .leaf hl hzs
        simpa using h₁.append h₂
      have hplug := hq.plug (.of_production hnode hgone hforest)
      rw [← hw]
      simpa using hplug
    · exact hapart l hl.tag_eq.symm

end Runs

end StackScript
