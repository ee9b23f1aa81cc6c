import StackScript.Proofs.Literals
import StackScript.Proofs.Numerals
import StackScript.Proofs.Unlined
import StackScript.Proofs.Wording
import StackScript.Proofs.Writing

/-!
# StackScript.Proofs.Reread — what the words of an expression derive

Whatever tokens have the words of an expression, they derive this expression, with the lines where
they stand (`Expr.rereads`).  A parenthesis around an operand lifts it to the highest level, so each
operand is of a level that can stand where it is.
-/

namespace StackScript

open Leaf

/-! ### Literals -/

/-- A quoted text is unquoted to the text. -/
theorem Token.unquote_quoted (s : String) : unquote (Word.quoted s).toList = s.toList := by
  rw [Word.quoted, String.toList_ofList, unquote_written standsFor_escape]

/-! ### Operators -/

theorem BinaryOp.operator?_tag (op : BinaryOp) :
    ∃ r, op.tag.operator? = some ⟨r, op.level, op.leftLevel, op.rightLevel⟩ := by
  cases op <;> exact ⟨_, rfl⟩

theorem BinaryOp.level_le (op : BinaryOp) : op.level ≤ 7 := by cases op <;> decide

theorem BinaryOp.leftLevel_le (op : BinaryOp) : op.leftLevel ≤ 7 := by cases op <;> decide

theorem BinaryOp.rightLevel_le (op : BinaryOp) : op.rightLevel ≤ 7 := by cases op <;> decide

theorem Leaf.binaryOp_of_word {o : Token} {op : BinaryOp} (h : o.word = ⟨op.tag, op.symbol⟩) :
    (ofToken o false).binaryOp = op := by
  have htag : o.tag = op.tag := Token.tag_of_word h
  have htext : o.text = op.symbol := Token.text_of_word h
  rw [binaryOp, tag_ofToken, text_ofToken, htag, htext]
  cases op <;> rfl

theorem Leaf.unaryOp_of_word {o : Token} {op : UnaryOp} (h : o.word = ⟨op.tag, op.symbol⟩) :
    (ofToken o false).IsPrefix ∧ (ofToken o false).unaryOp = op := by
  have htag : o.tag = op.tag := Token.tag_of_word h
  have htext : o.text = op.symbol := Token.text_of_word h
  rw [IsPrefix, unaryOp, tag_ofToken, text_ofToken, htag, htext]
  cases op
  · exact ⟨.inl ⟨rfl, rfl⟩, rfl⟩
  · exact ⟨.inr (.inl rfl), rfl⟩
  · exact ⟨.inr (.inr rfl), rfl⟩

/-! ### Expressions -/

theorem Expr.level_le (e : Expr) : e.level ≤ 7 := by
  cases e with
  | binary _ op => exact op.level_le
  | _ => simp [level]

/-- The tokens derive this expression, lines apart, as one of this level. -/
def Rereads (level : Nat) (e : Expr) (ts : List Token) : Prop :=
  ∃ line e', Written line level e' ts ∧ e'.unlined = e.unlined

/-- The tokens derive these expressions, lines apart, with commas between them. -/
def RereadsAll (es : List Expr) (ts : List Token) : Prop :=
  ∃ es', WrittenList es' ts ∧ Expr.unlinedAll es' = Expr.unlinedAll es

namespace Rereads

variable {least level : Nat} {e : Expr} {es : List Expr} {ts : List Token} {ws : List Word}

/-- The words of an operand are those of its expression, or there are parentheses around them. -/
theorem operand (h : ∀ us, Spells us ws → Rereads level e us) (hlevel : level ≤ 7)
    (hleast : least ≤ 7) (hts : Spells ts (Word.operand least level ws)) :
    ∃ k, least ≤ k ∧ k ≤ 7 ∧ Rereads k e ts := by
  rw [Word.operand] at hts
  split at hts
  case isTrue hle => exact ⟨level, hle, hlevel, h ts hts⟩
  case isFalse =>
    obtain ⟨l, _, rfl, hl, hrest⟩ := hts.cons
    obtain ⟨us, r, rfl, hus, hr⟩ := hrest.concat
    obtain ⟨line, e', hwritten, hsame⟩ := h us hus
    exact ⟨7, hleast, Nat.le_refl 7, _, e',
      .group (Token.tag_of_word hl) hwritten (Token.tag_of_word hr), hsame⟩

/-- What stands before a point is of the highest level. -/
theorem receiver (h : ∀ us, Spells us ws → Rereads level e us) (hlevel : level ≤ 7)
    (hts : Spells ts (Word.operand 7 level ws)) : Rereads 7 e ts := by
  obtain ⟨k, hle, hge, hreads⟩ := operand h hlevel (Nat.le_refl 7) hts
  rwa [Nat.le_antisymm hge hle] at hreads

/-- The words of expressions with commas between them. -/
theorem separated (h : ∀ e ∈ es, ∀ us, Spells us e.words → ∃ k, Rereads k e us)
    (hts : Spells ts (Word.separated (Expr.wordsEach es))) : RereadsAll es ts := by
  suffices hitems : ∀ {e es ts}, (∀ d ∈ e :: es, ∀ us, Spells us d.words → ∃ k, Rereads k d us) →
      Spells ts (Word.separated (Expr.wordsEach (e :: es))) →
      ∃ es', WrittenItems es' ts ∧ Expr.unlinedAll es' = Expr.unlinedAll (e :: es) by
    cases es with
    | nil => exact ⟨[], .inl ⟨rfl, hts.nil⟩, rfl⟩
    | cons e es =>
      obtain ⟨es', hwritten, hsame⟩ := hitems h hts
      exact ⟨es', .inr hwritten, hsame⟩
  intro e es ts h hts
  induction es generalizing e ts with
  | nil =>
    obtain ⟨k, line, e', hwritten, hsame⟩ := h e List.mem_cons_self ts hts
    exact ⟨[e'], .last hwritten, by rw [Expr.unlinedAll, hsame]; rfl⟩
  | cons d es ih =>
    obtain ⟨us, _, rfl, hus, hrest⟩ := hts.append
    obtain ⟨c, vs, rfl, hc, hvs⟩ := hrest.cons
    obtain ⟨k, line, e', hwritten, hsame⟩ := h e List.mem_cons_self us hus
    obtain ⟨es', hitems, htail⟩ := ih (fun d hd => h d (List.mem_cons_of_mem _ hd)) hvs
    exact ⟨e' :: es', WrittenItems.more hwritten (Token.tag_of_word hc) hitems, by
      rw [Expr.unlinedAll, Expr.unlinedAll, hsame, htail]⟩

end Rereads

mutual

/-- Tokens with the words of an expression derive the expression. -/
theorem Expr.rereads : (e : Expr) → e.writable = true → {ts : List Token} → Spells ts e.words →
    Rereads e.level e ts
  | .number _ d, _, _, hts => by
    obtain ⟨t, rfl, ht⟩ := hts.single
    refine ⟨t.line, .number t.line d, .literal ?_, rfl⟩
    rw [Leaf.literal?, tag_ofToken, Token.tag_of_word ht, text_ofToken, Token.text_of_word ht]
    dsimp only
    rw [Decimal.ofText?_text]
    rfl
  | .text _ s, _, _, hts => by
    obtain ⟨t, rfl, ht⟩ := hts.single
    refine ⟨t.line, .text t.line s, .literal ?_, rfl⟩
    rw [Leaf.literal?, tag_ofToken, Token.tag_of_word ht, text_ofToken, Token.text_of_word ht]
    dsimp only
    rw [Token.unquote_quoted, String.ofList_toList]
    rfl
  | .boolean _ b, _, _, hts => by
    obtain ⟨t, rfl, ht⟩ := hts.single
    refine ⟨t.line, .boolean t.line b, .literal ?_, rfl⟩
    rw [Leaf.literal?, tag_ofToken, Token.tag_of_word ht, text_ofToken, Token.text_of_word ht]
    cases b <;> rfl
  | .null _, _, _, hts => by
    obtain ⟨t, rfl, ht⟩ := hts.single
    refine ⟨t.line, .null t.line, .literal ?_, rfl⟩
    rw [Leaf.literal?, tag_ofToken, Token.tag_of_word ht]
    rfl
  | .this _, _, _, hts => by
    obtain ⟨t, rfl, ht⟩ := hts.single
    refine ⟨t.line, .this t.line, .literal ?_, rfl⟩
    rw [Leaf.literal?, tag_ofToken, Token.tag_of_word ht]
    rfl
  | .super _, _, _, hts => by
    obtain ⟨t, rfl, ht⟩ := hts.single
    refine ⟨t.line, .super t.line, .literal ?_, rfl⟩
    rw [Leaf.literal?, tag_ofToken, Token.tag_of_word ht]
    rfl
  | .list _ items, h, _, hts => by
    obtain ⟨l, _, rfl, hl, hrest⟩ := hts.cons
    obtain ⟨us, r, rfl, hus, hr⟩ := hrest.concat
    obtain ⟨es', hwritten, hsame⟩ := Rereads.separated (Expr.rereadsEach items h) hus
    exact ⟨_, _, .list (Token.tag_of_word hl) hwritten (Token.tag_of_word hr), by
      rw [Expr.unlined, Expr.unlined, hsame]⟩
  | .map .., h, _, _ => absurd h Bool.false_ne_true
  | .variable _ x binding, h, _, hts => by
    obtain ⟨t, rfl, ht⟩ := hts.single
    rw [Expr.writable, Bool.and_eq_true, Option.isNone_iff_eq_none] at h
    refine ⟨_, _, .variable (Token.tag_of_word ht), ?_⟩
    rw [Token.text_of_word ht, h.2]
    rfl
  | .field _ receiver x, h, _, hts => by
    rw [Expr.writable, Bool.and_eq_true] at h
    obtain ⟨us, vs, rfl, hus, hvs⟩ := hts.append
    obtain ⟨d, _, rfl, hd, hrest⟩ := hvs.cons
    obtain ⟨t, rfl, ht⟩ := hrest.single
    obtain ⟨line, e', hwritten, hsame⟩ :=
      Rereads.receiver (fun _ => receiver.rereads h.1) receiver.level_le hus
    refine ⟨line, _, hwritten.field (Token.tag_of_word hd) (Token.tag_of_word ht), ?_⟩
    rw [Expr.unlined, Expr.unlined, hsame, Token.text_of_word ht]
    rfl
  | .binary _ op left right target, h, _, hts => by
    rw [Expr.writable, Bool.and_eq_true, Bool.and_eq_true, Option.isNone_iff_eq_none] at h
    obtain ⟨us, _, rfl, hus, hrest⟩ := hts.append
    obtain ⟨o, vs, rfl, ho, hvs⟩ := hrest.cons
    obtain ⟨j, hj, -, line, a, ha, hleft⟩ :=
      Rereads.operand (fun _ => left.rereads h.1.1) left.level_le op.leftLevel_le hus
    obtain ⟨k, hk, -, _, b, hb, hright⟩ :=
      Rereads.operand (fun _ => right.rereads h.1.2) right.level_le op.rightLevel_le hvs
    obtain ⟨r, hop⟩ := op.operator?_tag
    have hoperator : o.tag.operator? = some ⟨r, op.level, op.leftLevel, op.rightLevel⟩ := by
      rw [Token.tag_of_word ho]
      exact hop
    refine ⟨line, _, .binary hoperator ha hj hb hk, ?_⟩
    rw [Leaf.binaryOp_of_word ho, Expr.unlined, Expr.unlined, hleft, hright, h.2]
  | .unary _ op a, h, _, hts => by
    obtain ⟨o, us, rfl, ho, hus⟩ := hts.cons
    obtain ⟨k, hk, -, _, a', ha, hsame⟩ :=
      Rereads.operand (fun _ => a.rereads h) a.level_le (by decide) hus
    obtain ⟨hunary, hop⟩ := Leaf.unaryOp_of_word ho
    refine ⟨_, _, .unary hunary ha hk, ?_⟩
    rw [hop, Expr.unlined, Expr.unlined, hsame]
  | .call _ x args, h, _, hts => by
    rw [Expr.writable, Bool.and_eq_true] at h
    obtain ⟨t, _, rfl, ht, hrest⟩ := hts.cons
    obtain ⟨l, _, rfl, hl, hrest⟩ := hrest.cons
    obtain ⟨us, r, rfl, hus, hr⟩ := hrest.concat
    obtain ⟨es', hwritten, hsame⟩ := Rereads.separated (Expr.rereadsEach args h.2) hus
    refine ⟨_, _, .call (Token.tag_of_word ht) (Token.tag_of_word hl) hwritten
      (Token.tag_of_word hr), ?_⟩
    rw [Expr.unlined, Expr.unlined, hsame, Token.text_of_word ht]
    rfl
  | .method _ receiver x args, h, _, hts => by
    rw [Expr.writable, Bool.and_eq_true, Bool.and_eq_true] at h
    obtain ⟨us, _, rfl, hus, hrest⟩ := hts.append
    obtain ⟨d, _, rfl, hd, hrest⟩ := hrest.cons
    obtain ⟨t, _, rfl, ht, hrest⟩ := hrest.cons
    obtain ⟨l, _, rfl, hl, hrest⟩ := hrest.cons
    obtain ⟨vs, r, rfl, hvs, hr⟩ := hrest.concat
    obtain ⟨line, e', hreceiver, hsame⟩ :=
      Rereads.receiver (fun _ => receiver.rereads h.1.1) receiver.level_le hus
    obtain ⟨es', hwritten, hargs⟩ := Rereads.separated (Expr.rereadsEach args h.2) hvs
    refine ⟨line, _, hreceiver.method (Token.tag_of_word hd) (Token.tag_of_word ht)
      (Token.tag_of_word hl) hwritten (Token.tag_of_word hr), ?_⟩
    rw [Expr.unlined, Expr.unlined, hsame, hargs, Token.text_of_word ht]
    rfl
  | .create _ x args, h, _, hts => by
    rw [Expr.writable, Bool.and_eq_true] at h
    obtain ⟨w, _, rfl, hw, hrest⟩ := hts.cons
    obtain ⟨t, _, rfl, ht, hrest⟩ := hrest.cons
    obtain ⟨l, _, rfl, hl, hrest⟩ := hrest.cons
    obtain ⟨us, r, rfl, hus, hr⟩ := hrest.concat
    obtain ⟨es', hwritten, hsame⟩ := Rereads.separated (Expr.rereadsEach args h.2) hus
    refine ⟨_, _, .create (Token.tag_of_word hw) (Token.tag_of_word ht) (Token.tag_of_word hl)
      hwritten (Token.tag_of_word hr), ?_⟩
    rw [Expr.unlined, Expr.unlined, hsame, Token.text_of_word ht]
    rfl

/-- Tokens with the words of one of the expressions derive this expression. -/
theorem Expr.rereadsEach : (es : List Expr) → Expr.writableAll es = true →
    ∀ e ∈ es, ∀ ts, Spells ts e.words → ∃ k, Rereads k e ts
  | [], _ => fun _ he => absurd he List.not_mem_nil
  | e :: es, h => by
    rw [Expr.writableAll, Bool.and_eq_true] at h
    exact List.forall_mem_cons.mpr
      ⟨fun _ hts => ⟨_, e.rereads h.1 hts⟩, Expr.rereadsEach es h.2⟩

end

end StackScript
