import Mathlib.Data.List.TakeWhile
import StackScript.Token.Lexer

/-!
# StackScript.Proofs.Lossless — the tokens of a source are the source

A lexer cuts a source into pieces from its first byte on.  Each token carries its piece, the bytes
that the piece covers and the line that it starts on.  Where the pieces end, the source ends too, or
no recognizer makes progress; the failure says where that is.

A recognizer may tell any length.  Those of the language tell none that goes beyond the text before
them (`Recognizer.Within`), so that a token is exactly what was recognized.
-/

namespace StackScript

/-! ### Bytes -/

namespace Text

/-- The bytes of the UTF-8 encoding of a text. -/
def bytes (s : String) : List UInt8 := s.toByteArray.data.toList

/-- The byte of a line feed. -/
def lineFeed : UInt8 := 10

/-- The line that a byte of a source stands on: one more than the line feeds before it. -/
def lineAt (source : String) (offset : Nat) : Nat :=
  1 + ((bytes source).take offset).count lineFeed

/-- The bytes of characters. -/
def encode (cs : List Char) : List UInt8 := cs.flatMap String.utf8EncodeChar

@[simp] theorem encode_cons (c : Char) (cs : List Char) :
    encode (c :: cs) = String.utf8EncodeChar c ++ encode cs := rfl

@[simp] theorem encode_append (cs ds : List Char) : encode (cs ++ ds) = encode cs ++ encode ds :=
  List.flatMap_append

theorem bytes_ofList (cs : List Char) : bytes (String.ofList cs) = encode cs := by
  rw [bytes, String.toByteArray_ofList, List.utf8Encode, List.data_toByteArray]
  rfl

@[simp] theorem length_encode (cs : List Char) : (encode cs).length = byteLength cs := by
  induction cs with
  | nil => rfl
  | cons c cs ih =>
    rw [encode_cons, List.length_append, ih, String.length_utf8EncodeChar, byteLength_cons]

theorem length_bytes (s : String) : (bytes s).length = byteLength s.toList := by
  rw [← length_encode, ← bytes_ofList, String.ofList_toList]

/-- The byte of a line feed is a line feed's alone: all others in longer encodings are above. -/
theorem count_utf8EncodeChar (c : Char) :
    (String.utf8EncodeChar c).count lineFeed = if c = '\n' then 1 else 0 := by
  by_cases h : c = '\n'
  · subst h
    decide
  · have hv : c.val.toNat ≠ 10 := fun hv => h (Char.ext (UInt32.toNat_inj.mp hv))
    have hbyte : ∀ n : Nat, lineFeed = UInt8.ofNat n → n % 256 = 10 := fun n hn =>
      (congrArg UInt8.toNat hn).symm
    rw [if_neg h, List.count_eq_zero]
    unfold String.utf8EncodeChar
    intro hmem
    dsimp only at hmem
    split at hmem
    · have := hbyte _ (List.mem_singleton.mp hmem)
      omega
    · split at hmem
      · rcases List.mem_cons.mp hmem with heq | hmem
        · have := hbyte _ heq
          omega
        · have := hbyte _ (List.mem_singleton.mp hmem)
          omega
      · have hlead : ∀ k, 128 ≤ k → k < 256 → lineFeed ≠ UInt8.ofNat k := by
          intro k hlow hhigh heq
          have := hbyte k heq
          omega
        split at hmem <;> simp only [List.mem_cons, List.not_mem_nil, or_false] at hmem
        · obtain heq | hmem := hmem
          · exact hlead _ (by omega) (by omega) heq
          · obtain heq | heq := hmem <;> exact hlead _ (by omega) (by omega) heq
        · obtain heq | hmem := hmem
          · exact hlead _ (by omega) (by omega) heq
          · obtain heq | hmem := hmem
            · exact hlead _ (by omega) (by omega) heq
            · obtain heq | heq := hmem <;> exact hlead _ (by omega) (by omega) heq

theorem count_encode (cs : List Char) : (encode cs).count lineFeed = cs.count '\n' := by
  induction cs with
  | nil => rfl
  | cons c cs ih =>
    rw [encode_cons, List.count_append, ih, count_utf8EncodeChar, List.count_cons, Nat.add_comm]
    simp only [beq_iff_eq]

theorem drop_encode (cs ds : List Char) : (encode (cs ++ ds)).drop (byteLength cs) = encode ds := by
  rw [encode_append, ← length_encode, List.drop_left]

theorem take_encode (cs ds : List Char) : (encode (cs ++ ds)).take (byteLength cs) = encode cs := by
  rw [encode_append, ← length_encode, List.take_left]

end Text

/-! ### Recognizers -/

namespace Recognizer

open Text

/-- The length that is told is no longer than the text. -/
def Within (r : Recognizer) : Prop := ∀ cs n, r cs = some n → n ≤ cs.length

theorem length_takeWhile_le (p : Char → Bool) (cs : List Char) :
    (cs.takeWhile p).length ≤ cs.length := (List.takeWhile_prefix p).length_le

theorem length_of_dropStart? {start cs rest : List Char} (h : dropStart? start cs = some rest) :
    cs.length = start.length + rest.length := by
  rw [dropStart?_eq_some_iff.mp h, List.length_append]

@[simp] theorem within_symbol (s : String) : (symbol s).Within := by
  intro cs n h
  obtain ⟨rest, hrest, rfl⟩ := Option.map_eq_some_iff.mp h
  have := length_of_dropStart? hrest
  omega

@[simp] theorem within_word (s : String) : (word s).Within := by
  intro cs n h
  obtain ⟨rest, hrest, h⟩ := Option.bind_eq_some_iff.mp h
  have := length_of_dropStart? hrest
  split at h
  · obtain rfl := Option.some.inj h
    omega
  · cases h

@[simp] theorem within_oneOf {rs : List Recognizer} (h : ∀ r ∈ rs, r.Within) :
    (oneOf rs).Within := by
  intro cs n hn
  obtain ⟨r, hr, hsome⟩ := List.exists_of_findSome?_eq_some hn
  exact h r hr cs n hsome

@[simp] theorem within_run (p : Char → Bool) : (run p).Within := by
  intro cs n h
  have := length_takeWhile_le p cs
  unfold run at h
  split at h
  · cases h
  · obtain rfl := Option.some.inj h
    exact this

@[simp] theorem within_comment : comment.Within := by
  intro cs n h
  obtain ⟨rest, hrest, rfl⟩ := Option.map_eq_some_iff.mp h
  have hcs := length_of_dropStart? hrest
  have := length_takeWhile_le (· != '\n') rest
  rw [hcs]
  exact Nat.add_le_add_left this 2

@[simp] theorem within_numeral : numeral.Within := by
  intro cs n h
  have hcs : (cs.takeWhile Char.isDigit).length + (cs.dropWhile Char.isDigit).length =
      cs.length := by
    rw [← List.length_append, List.takeWhile_append_dropWhile]
  unfold numeral at h
  split at h
  · cases h
  · split at h
    · rename_i rest hrest
      rw [hrest, List.length_cons] at hcs
      have := length_takeWhile_le Char.isDigit rest
      split at h
      · obtain rfl := Option.some.inj h
        omega
      · obtain rfl := Option.some.inj h
        omega
    · obtain rfl := Option.some.inj h
      omega

@[simp] theorem within_elseIf : elseIf.Within := by
  intro cs n h
  obtain ⟨rest, hrest, h⟩ := Option.bind_eq_some_iff.mp h
  have hcs := length_of_dropStart? hrest
  have hgap : (rest.takeWhile isBlank).length + (rest.dropWhile isBlank).length = rest.length := by
    rw [← List.length_append, List.takeWhile_append_dropWhile]
  split at h
  · cases h
  · obtain ⟨k, hk, rfl⟩ := Option.map_eq_some_iff.mp h
    have := within_word "if" _ k hk
    simp only [List.length_cons, List.length_nil] at hcs
    omega

@[simp] theorem within_identifier : identifier.Within := by
  intro cs n h
  cases cs with
  | nil => cases h
  | cons c cs =>
    have := length_takeWhile_le isAsciiWord cs
    rw [identifier] at h
    split at h
    · obtain rfl := Option.some.inj h
      rw [List.length_cons]
      omega
    · cases h

theorem lastBreak_le (seen upTo : Nat) (cs : List Char) (h : upTo ≤ seen) :
    Token.lastBreak seen upTo cs ≤ seen + cs.length := by
  fun_induction Token.lastBreak seen upTo cs with
  | case1 seen upTo cs ih => simpa [Nat.add_assoc, Nat.add_comm 1] using ih (Nat.le_refl _)
  | case2 seen upTo cs ih | case3 seen upTo cs ih | case4 seen upTo cs ih =>
    simpa [Nat.add_assoc, Nat.add_comm 1] using ih (Nat.le_succ_of_le h)
  | case5 => omega

@[simp] theorem within_newlineRun : Within Token.newlineRun? := by
  intro cs n h
  unfold Token.newlineRun? at h
  split at h
  · rename_i cs
    obtain rfl := Option.some.inj h
    have := lastBreak_le 1 1 cs (Nat.le_refl 1)
    rw [List.length_cons]
    omega
  · rename_i cs
    obtain rfl := Option.some.inj h
    have := lastBreak_le 2 2 cs (Nat.le_refl 2)
    rw [List.length_cons, List.length_cons]
    omega
  · cases h

theorem closingQuote?_le {quote : Char} {escaped : Bool} {cs : List Char} {n : Nat}
    (h : Token.closingQuote? quote escaped cs = some n) : n ≤ cs.length := by
  induction cs generalizing escaped n with
  | nil => cases h
  | cons c cs ih =>
    have hnext : ∀ b, (Token.closingQuote? quote b cs).map (· + 1) = some n →
        n ≤ (c :: cs).length := by
      intro b hb
      obtain ⟨k, hk, rfl⟩ := Option.map_eq_some_iff.mp hb
      exact Nat.succ_le_succ (ih hk)
    rw [Token.closingQuote?] at h
    split at h
    · exact hnext _ h
    · split at h
      · exact hnext _ h
      · split at h
        · obtain rfl := Option.some.inj h
          exact Nat.succ_le_succ (Nat.zero_le _)
        · exact hnext _ h

@[simp] theorem within_stringLiteral : Within Token.stringLiteral? := by
  intro cs n h
  cases cs with
  | nil => cases h
  | cons q cs =>
    rw [Token.stringLiteral?] at h
    split at h
    · obtain ⟨k, hk, rfl⟩ := Option.map_eq_some_iff.mp h
      exact Nat.succ_le_succ (closingQuote?_le hk)
    · cases h

end Recognizer

/-! ### The lexer -/

namespace Lexer

open Text

variable {lexer : Lexer}

/-- No recognizer tells a length beyond the text. -/
def Within (lexer : Lexer) : Prop := ∀ p ∈ lexer, Recognizer.Within p.2

theorem standard_within : standard.Within := by
  simp [Within, standard]

/-- What is taken first is what one of the recognizers takes. -/
theorem exists_of_first?_eq_some {cs : List Char} {tag : Tag} {n : Nat}
    (h : lexer.first? cs = some (tag, n)) : ∃ r, (tag, r) ∈ lexer ∧ r cs = some n := by
  obtain ⟨p, hp, hsome⟩ := List.exists_of_findSome?_eq_some h
  split at hsome
  · rename_i k hk
    obtain ⟨rfl, rfl⟩ := Prod.mk.inj (Option.some.inj hsome)
    exact ⟨p.2, hp, hk⟩
  · cases hsome

theorem first?_le (h : lexer.Within) {cs : List Char} {tag : Tag} {n : Nat}
    (hn : lexer.first? cs = some (tag, n)) : n ≤ cs.length := by
  obtain ⟨r, hr, hsome⟩ := exists_of_first?_eq_some hn
  exact h _ hr cs n hsome

/-- Where the lexer stops, each recognizer matches nothing or takes nothing. -/
theorem eq_zero_of_first?_eq_none {cs : List Char} (h : lexer.first? cs = none)
    {p : Tag × Recognizer} (hp : p ∈ lexer) {n : Nat} (hn : p.2 cs = some n) : n = 0 := by
  have hnone := List.findSome?_eq_none_iff.mp h p hp
  rw [hn] at hnone
  cases n with
  | zero => rfl
  | succ n => cases hnone

theorem scan_of_first?_eq_none {offset line : Nat} {cs : List Char} (hcs : cs ≠ [])
    (h : lexer.first? cs = none) :
    lexer.scan offset line cs =
      ⟨[], some (.lexical line offset (String.ofList (cs.take 12)))⟩ := by
  rw [scan, dif_neg hcs]
  split
  · rfl
  · rename_i h'
    rw [h] at h'
    cases h'

theorem scan_of_first?_eq_some {offset line : Nat} {tag : Tag} {piece rest : List Char}
    (h : lexer.first? (piece ++ rest) = some (tag, piece.length)) :
    lexer.scan offset line (piece ++ rest) =
      let stop := offset + byteLength piece
      let after := lexer.scan stop (line + piece.count '\n') rest
      ⟨⟨tag, String.ofList piece, line, ⟨offset, stop⟩⟩ :: after.tokens, after.failure⟩ := by
  have hpos := first?_pos h
  have hcs : piece ++ rest ≠ [] := by
    rw [← List.length_pos_iff, List.length_append]
    omega
  conv => lhs; rw [scan, dif_neg hcs]
  split
  · rename_i h'
    rw [h] at h'
    cases h'
  · rename_i tag' n' h'
    rw [h] at h'
    obtain ⟨rfl, rfl⟩ := Prod.mk.inj (Option.some.inj h')
    simp only [List.take_left, List.drop_left]

/-- Where tokens end that stand at `offset`. -/
def stopOf (offset : Nat) : List Token → Nat
  | [] => offset
  | t :: ts => stopOf t.span.stop ts

/-- The tokens are next to each other, and the first one stands at `offset`. -/
def Contiguous (offset : Nat) : List Token → Prop
  | [] => True
  | t :: ts => t.span.start = offset ∧ Contiguous t.span.stop ts

/-- A token is a piece of the source at its span and on its line, and the piece is what the first
recognizer that makes progress there takes. -/
structure Carries (lexer : Lexer) (source : String) (t : Token) : Prop where
  nonempty : t.text ≠ ""
  stop_eq : t.span.stop = t.span.start + (bytes t.text).length
  bytes_eq : bytes t.text =
    ((bytes source).drop t.span.start).take (t.span.stop - t.span.start)
  line_eq : t.line = lineAt source t.span.start
  recognized : ∃ rest, bytes rest = (bytes source).drop t.span.start ∧
    lexer.first? rest.toList = some (t.tag, t.text.toList.length)

/-- The failure of a lexer that stops at an offset before the end of the source. -/
structure Stops (lexer : Lexer) (source : String) (offset : Nat) (d : Diagnostic) : Prop where
  lt_length : offset < (bytes source).length
  failure : ∃ rest, bytes rest = (bytes source).drop offset ∧
    d = .lexical (lineAt source offset) offset (String.ofList (rest.toList.take 12)) ∧
    ∀ p ∈ lexer, ∀ n, p.2 rest.toList = some n → n = 0

/-- The line of what follows some characters of the source. -/
theorem lineAt_ofList (cs ds : List Char) :
    lineAt (String.ofList (cs ++ ds)) (byteLength cs) = 1 + cs.count '\n' := by
  rw [lineAt, bytes_ofList, take_encode, count_encode]

/-- What is read from a place of the source on, behind the characters `past`. -/
theorem scan_spec (hlexer : lexer.Within) (past cs : List Char) :
    let source := String.ofList (past ++ cs)
    let lexed := lexer.scan (byteLength past) (1 + past.count '\n') cs
    let stop := stopOf (byteLength past) lexed.tokens
    (∀ t ∈ lexed.tokens, lexer.Carries source t) ∧
      Contiguous (byteLength past) lexed.tokens ∧
      match lexed.failure with
      | none => stop = (bytes source).length
      | some d => lexer.Stops source stop d := by
  induction hlen : cs.length using Nat.strongRecOn generalizing past cs with
  | ind len ih =>
  intro source lexed stop
  have hdrop : (bytes source).drop (byteLength past) = encode cs := by
    rw [bytes_ofList, drop_encode]
  have hlength : (bytes source).length = byteLength past + byteLength cs := by
    rw [bytes_ofList, length_encode, byteLength_append]
  by_cases hcs : cs = []
  · subst hcs
    have hlexed : lexed = ⟨[], none⟩ := by simp [lexed, scan]
    refine ⟨by simp [hlexed], by simp [hlexed, Contiguous], ?_⟩
    simp only [stop, hlexed, stopOf]
    simpa using hlength.symm
  cases hfirst : lexer.first? cs with
  | none =>
    have hlexed : lexed = ⟨[], some (.lexical (1 + past.count '\n') (byteLength past)
        (String.ofList (cs.take 12)))⟩ := scan_of_first?_eq_none hcs hfirst
    refine ⟨by simp [hlexed], by simp [hlexed, Contiguous], ?_⟩
    simp only [stop, hlexed, stopOf]
    refine ⟨?_, String.ofList cs, ?_, ?_, ?_⟩
    · obtain ⟨c, cs, rfl⟩ := List.exists_cons_of_ne_nil hcs
      rw [hlength, byteLength_cons]
      have := c.utf8Size_pos
      omega
    · rw [hdrop, bytes_ofList]
    · rw [lineAt_ofList, String.toList_ofList]
    · intro p hp n hn
      rw [String.toList_ofList] at hn
      exact eq_zero_of_first?_eq_none hfirst hp hn
  | some r =>
    obtain ⟨tag, n⟩ := r
    have hpos := first?_pos hfirst
    have hle := first?_le hlexer hfirst
    -- the piece, and the rest, behind which the scan goes on
    obtain ⟨piece, rest, rfl, rfl⟩ : ∃ piece rest, cs = piece ++ rest ∧ n = piece.length :=
      ⟨cs.take n, cs.drop n, (List.take_append_drop n cs).symm, by rw [List.length_take]; omega⟩
    have hlexed : lexed =
        let after := lexer.scan (byteLength (past ++ piece)) (1 + (past ++ piece).count '\n') rest
        ⟨⟨tag, String.ofList piece, 1 + past.count '\n',
          ⟨byteLength past, byteLength (past ++ piece)⟩⟩ :: after.tokens, after.failure⟩ := by
      simp only [lexed, scan_of_first?_eq_some hfirst, byteLength_append, List.count_append,
        Nat.add_assoc]
    have hshorter : rest.length < len := by
      rw [← hlen, List.length_append]
      omega
    have hrest := ih rest.length hshorter (past ++ piece) rest rfl
    rw [List.append_assoc] at hrest
    obtain ⟨hcarries, hcontiguous, hstop⟩ := hrest
    refine ⟨?_, ?_, ?_⟩
    · rw [hlexed]
      refine List.forall_mem_cons.mpr ⟨⟨?_, ?_, ?_, ?_, ?_⟩, hcarries⟩
      · intro hempty
        have hnil : piece = [] := by simpa using hempty
        rw [hnil] at hpos
        exact Nat.lt_irrefl 0 hpos
      · simp only [bytes_ofList, length_encode, byteLength_append]
      · have hwidth : byteLength (past ++ piece) - byteLength past = byteLength piece := by
          rw [byteLength_append]
          omega
        simp only [hwidth]
        rw [hdrop, take_encode, bytes_ofList]
      · exact (lineAt_ofList past (piece ++ rest)).symm
      · refine ⟨String.ofList (piece ++ rest), ?_, ?_⟩
        · rw [hdrop, bytes_ofList]
        · simpa only [String.toList_ofList] using hfirst
    · rw [hlexed]
      exact ⟨rfl, hcontiguous⟩
    · simp only [stop, hlexed, stopOf]
      exact hstop

/-- The standard lexer loses nothing of a source: its tokens are not empty, stand next to each other
from the first byte on, and each is the bytes of its span, on its line.  They end where the source
ends, or before that at a place where no recognizer makes progress; this is then the failure, and it
is the failure of the whole. -/
theorem tokens_are_the_source (source : String) :
    (∀ t ∈ (standard.scanSource source).tokens, standard.Carries source t) ∧
      Contiguous 0 (standard.scanSource source).tokens ∧
      match (standard.scanSource source).failure with
      | none =>
        stopOf 0 (standard.scanSource source).tokens = (bytes source).length ∧
          standard.tokenize source = .ok (standard.scanSource source).tokens
      | some d =>
        standard.Stops source (stopOf 0 (standard.scanSource source).tokens) d ∧
          standard.tokenize source = .error d := by
  generalize hsource : standard.scanSource source = lexed
  have hspec := scan_spec standard_within [] source.toList
  rw [List.nil_append, String.ofList_toList] at hspec
  have hlexed : standard.scan (byteLength []) (1 + [].count '\n') source.toList = lexed := hsource
  rw [hlexed] at hspec
  obtain ⟨hcarries, hcontiguous, hstop⟩ := hspec
  refine ⟨hcarries, hcontiguous, ?_⟩
  have htokenize : standard.tokenize source =
      match lexed.failure with
      | none => .ok lexed.tokens
      | some d => .error d := by
    rw [← hsource]
    rfl
  cases hfailure : lexed.failure with
  | none =>
    rw [hfailure] at hstop htokenize
    exact ⟨hstop, htokenize⟩
  | some d =>
    rw [hfailure] at hstop htokenize
    exact ⟨hstop, htokenize⟩

end Lexer

end StackScript
