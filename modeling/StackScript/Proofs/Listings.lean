import StackScript.Code.Listing
import StackScript.Proofs.Numerals

/-!
# StackScript.Proofs.Listings — a listing is read back

Reading a listing takes lines, then fields, then the parts of an operand; writing one goes the other
way.  No field holds the separators around it: names of opcodes are free of blanks, numbers consist
of digits, signs and points, and texts have their separators escaped (`Text.isSolid`).  Only a
decimal of a very large scale keeps code from being written (`Code.SmallScales`).
-/

namespace StackScript

open Text

/-! ### Characters that separate nothing -/

/-- The character separates neither the fields of a line nor lines. -/
def Text.isSolid (c : Char) : Bool := c != '\t' && c != '\n' && c != '\r'

theorem Text.isSolid_iff {c : Char} : isSolid c = true ↔ c ≠ '\t' ∧ c ≠ '\n' ∧ c ≠ '\r' := by
  simp [isSolid, and_assoc]

/-- A class of characters without the separators. -/
theorem Text.isSolid_of {p : Char → Bool} {c : Char} (h : p c = true) (htab : p '\t' = false)
    (hline : p '\n' = false) (hreturn : p '\r' = false) : isSolid c = true := by
  refine isSolid_iff.mpr ⟨?_, ?_, ?_⟩
  · rintro rfl
    exact Bool.false_ne_true (htab.symm.trans h)
  · rintro rfl
    exact Bool.false_ne_true (hline.symm.trans h)
  · rintro rfl
    exact Bool.false_ne_true (hreturn.symm.trans h)

theorem Text.isSolid_of_isDigit {c : Char} (h : c.isDigit = true) : isSolid c = true :=
  isSolid_of h rfl rfl rfl

/-! ### Texts -/

theorem isSolid_of_mem_escapedChar {c d : Char} (h : d ∈ escapedChar c) : isSolid d = true := by
  rw [escapedChar] at h
  split at h
  case isTrue => simp at h; subst h; rfl
  split at h
  case isTrue => simp at h; rcases h with rfl | rfl <;> rfl
  split at h
  case isTrue => simp at h; rcases h with rfl | rfl <;> rfl
  split at h
  case isTrue => simp at h; rcases h with rfl | rfl <;> rfl
  case isFalse _ hn ht hr =>
    rw [List.mem_singleton] at h
    subst h
    simp [isSolid, ht, hn, hr]

/-- A text is read back from its escaped form. -/
theorem unescapeOperand_escaped (cs : List Char) :
    unescapeOperand (cs.flatMap escapedChar) = cs := by
  induction cs with
  | nil => rfl
  | cons c cs ih =>
    rw [List.flatMap_cons]
    by_cases hslash : c = '\\'
    · subst hslash
      exact congrArg ('\\' :: ·) ih
    by_cases hline : c = '\n'
    · subst hline
      exact congrArg ('\n' :: ·) ih
    by_cases htab : c = '\t'
    · subst htab
      exact congrArg ('\t' :: ·) ih
    by_cases hreturn : c = '\r'
    · subst hreturn
      exact congrArg ('\r' :: ·) ih
    have hsame : escapedChar c = [c] := by simp [escapedChar, hslash, hline, htab, hreturn]
    rw [hsame, List.singleton_append]
    simp [unescapeOperand, hslash, ih]

/-! ### Operands -/

namespace Operand

/-- An integer operand is a signed 64-bit word. -/
def Fits : Operand → Prop
  | integer i => fitsWord i = true
  | boolean _ | decimal _ | text _ => True

theorem isSolid_of_mem_signedDigits {i : Int} {c : Char} (h : c ∈ signedDigits i) :
    isSolid c = true := by
  rw [signedDigits] at h
  split at h
  · rcases List.mem_cons.mp h with rfl | h
    · rfl
    · exact isSolid_of_isDigit (isDigit_of_mem_digits h)
  · exact isSolid_of_isDigit (isDigit_of_mem_digits h)

theorem isSolid_of_mem_decimal {d : Decimal} {c : Char} (h : c ∈ d.chars) : isSolid c = true := by
  have hunsigned : ∀ {c : Char}, c ∈ d.unsignedChars → isSolid c = true := by
    intro c hc
    rcases Decimal.mem_unsignedChars hc with hc | rfl
    · exact isSolid_of_isDigit hc
    · rfl
  rw [Decimal.chars] at h
  split at h
  · rcases List.mem_cons.mp h with rfl | h
    · rfl
    · exact hunsigned h
  · exact hunsigned h

/-- An operand does not end its field. -/
theorem isSolid_of_mem_chars {o : Operand} {c : Char} (h : c ∈ o.chars) : isSolid c = true := by
  cases o with
  | boolean b => cases b <;> exact List.all_eq_true.mp (by decide) c h
  | integer i =>
    rcases List.mem_append.mp (show c ∈ ['N', 'U', 'M'] ++ signedDigits i from h) with h | h
    · exact List.all_eq_true.mp (by decide) c h
    · exact isSolid_of_mem_signedDigits h
  | decimal d =>
    rcases List.mem_append.mp (show c ∈ ['D', 'E', 'C'] ++ d.chars from h) with h | h
    · exact List.all_eq_true.mp (by decide) c h
    · exact isSolid_of_mem_decimal h
  | text s =>
    rcases List.mem_append.mp
      (show c ∈ ['T', 'X', 'T'] ++ s.toList.flatMap escapedChar from h) with h | h
    · exact List.all_eq_true.mp (by decide) c h
    · obtain ⟨d, -, hd⟩ := List.mem_flatMap.mp h
      exact isSolid_of_mem_escapedChar hd

/-- An operand is read back. -/
theorem ofChars?_chars {o : Operand} (h : o.Fits) : ofChars? o.chars = .ok (some o) := by
  cases o with
  | boolean b => cases b <;> rfl
  | integer i =>
    have hword : word? (signedDigits i) = some i := by
      rw [word?, integer?_signedDigits]
      exact Option.filter_some_pos h
    simp [ofChars?, chars, hword]
  | decimal d => simp [ofChars?, chars, Decimal.ofChars?_chars]
  | text s => simp [ofChars?, chars, unescapeOperand_escaped]

/-- Whatever operand is read fits. -/
theorem fits_of_ofChars? {cs : List Char} {o : Operand} (h : ofChars? cs = .ok (some o)) :
    o.Fits := by
  cases o with
  | integer i =>
    unfold ofChars? at h
    split at h
    · cases h
    split at h
    case h_1 =>
      split at h
      · cases h
      · split at h <;> cases h
    case h_2 =>
      split at h
      case h_1 _ i' hword =>
        obtain rfl : i' = i := by simpa using h
        exact (Option.filter_eq_some_iff.mp hword).2
      case h_2 => cases h
    case h_3 => split at h <;> cases h
    case h_4 | h_5 => cases h
  | boolean | decimal | text => trivial

end Operand

/-! ### Instructions -/

namespace Opcode

/-- The name of an opcode is free of blanks. -/
theorem isBlank_of_mem_name {o : Opcode} {c : Char} (h : c ∈ o.name.toList) : isBlank c = false := by
  have hall : o.name.toList.all (fun c => !isBlank c) = true := by cases o <;> decide
  simpa using List.all_eq_true.mp hall c h

theorem name_ne_nil (o : Opcode) : o.name.toList ≠ [] := by cases o <;> decide

theorem ofName?_name (o : Opcode) : ofName? o.name = some o := by cases o <;> decide

end Opcode

namespace Instruction

/-- An integer operand is a signed 64-bit word. -/
def Fits (i : Instruction) : Prop := ∀ o, i.operand = some o → o.Fits

theorem isSolid_of_mem_name {o : Opcode} {c : Char} (h : c ∈ o.name.toList) : isSolid c = true := by
  have hblank : (!isBlank c) = true := by rw [Opcode.isBlank_of_mem_name h]; rfl
  exact isSolid_of (p := fun c => !isBlank c) hblank (by decide) (by decide) (by decide)

/-- An instruction does not end its line. -/
theorem ne_of_mem_chars {i : Instruction} {c : Char} (h : c ∈ i.chars) : c ≠ '\n' ∧ c ≠ '\r' := by
  rw [chars] at h
  rcases List.mem_append.mp h with h | h
  · exact (isSolid_iff.mp (isSolid_of_mem_name h)).2
  split at h
  · rcases List.mem_cons.mp h with rfl | h
    · exact ⟨by decide, by decide⟩
    · exact (isSolid_iff.mp (Operand.isSolid_of_mem_chars h)).2
  split at h
  · simp at h
    rcases h with rfl | rfl | rfl | rfl <;> exact ⟨by decide, by decide⟩
  · cases h

/-- An instruction is no blank line. -/
theorem not_blank (i : Instruction) : i.chars.all isBlank = false := by
  obtain ⟨c, cs, hcs⟩ := List.exists_cons_of_ne_nil i.opcode.name_ne_nil
  have hblank := Opcode.isBlank_of_mem_name (hcs ▸ List.mem_cons_self (a := c) (l := cs))
  rw [chars, hcs, List.cons_append, List.all_cons, hblank, Bool.false_and]

/-- The name of an opcode is found in its field. -/
theorem ofName?_trimBy (o : Opcode) :
    Opcode.ofName? (String.ofList (trimBy isBlank o.name.toList)) = some o := by
  have hdrop : ∀ cs : List Char, (∀ c ∈ cs, isBlank c = false) → cs.dropWhile isBlank = cs := by
    intro cs h
    cases cs with
    | nil => rfl
    | cons c cs => rw [List.dropWhile_cons_of_neg (by simp [h c List.mem_cons_self])]
  have hname : ∀ c ∈ o.name.toList, isBlank c = false := fun _ => Opcode.isBlank_of_mem_name
  rw [trimBy, hdrop _ hname, hdrop _ fun c hc => hname c (List.mem_reverse.mp hc),
    List.reverse_reverse, String.ofList_toList, Opcode.ofName?_name]

/-- An instruction is read back. -/
theorem ofChars?_chars {i : Instruction} (h : i.Fits) : ofChars? i.chars = .ok i := by
  obtain ⟨opcode, operand⟩ := i
  have hname : ∀ c ∈ opcode.name.toList, (c == '\t') = false :=
    fun c hc => beq_eq_false_iff_ne.mpr (isSolid_iff.mp (isSolid_of_mem_name hc)).1
  cases operand with
  | some o =>
    rw [chars, ofChars?]
    dsimp only
    rw [splitFirst_append_cons hname rfl]
    dsimp only
    rw [ofName?_trimBy, Operand.ofChars?_chars (h o rfl)]
    rfl
  | none =>
    rw [chars, ofChars?]
    dsimp only
    cases opcode.takesOperand with
    | true =>
      rw [if_pos rfl, splitFirst_append_cons hname rfl]
      dsimp only
      rw [ofName?_trimBy]
      rfl
    | false =>
      rw [if_neg Bool.false_ne_true, List.append_nil, splitFirst_eq_none hname]
      dsimp only
      rw [ofName?_trimBy]

theorem fits_of_ofChars? {cs : List Char} {i : Instruction} (h : ofChars? cs = .ok i) : i.Fits := by
  rw [ofChars?] at h
  dsimp only at h
  split at h
  · cases h
  split at h
  · cases h
    intro o ho
    cases ho
  · cases hread : Operand.ofChars? _ with
    | error => rw [hread] at h; cases h
    | ok o? =>
      rw [hread] at h
      cases h
      rintro o rfl
      exact Operand.fits_of_ofChars? hread

end Instruction

/-! ### Lines -/

theorem chompReturn_eq {line : List Char} (h : '\r' ∉ line) : chompReturn line = line := by
  rw [chompReturn, if_neg]
  exact fun hlast => h (List.mem_of_getLast? hlast)

/-- A line is read up to its line break. -/
theorem linesFrom_append {line acc : List Char} (h : '\n' ∉ line) (rest : List Char) :
    linesFrom acc (line ++ '\n' :: rest) = chompReturn (acc ++ line) :: linesFrom [] rest := by
  induction line generalizing acc with
  | nil => rw [List.nil_append, linesFrom, if_pos rfl, List.append_nil]
  | cons c line ih =>
    have hc : c ≠ '\n' := fun hc => h (hc ▸ List.mem_cons_self)
    rw [List.cons_append, linesFrom, if_neg hc, ih fun hmem => h (List.mem_cons_of_mem _ hmem),
      List.append_assoc, List.singleton_append]

/-! ### Listings -/

namespace Code

/-- Every integer operand is a signed 64-bit word. -/
def Fits (c : Code) : Prop := ∀ i ∈ c, i.Fits

/-- The lines of a listing are those of its instructions. -/
theorem linesFrom_chars (c : Code) : linesFrom [] c.chars = c.map Instruction.chars := by
  induction c with
  | nil => rfl
  | cons i c ih =>
    have hline : '\n' ∉ i.chars := fun h => (Instruction.ne_of_mem_chars h).1 rfl
    have hreturn : '\r' ∉ i.chars := fun h => (Instruction.ne_of_mem_chars h).2 rfl
    rw [chars, List.flatMap_cons, List.append_assoc, List.singleton_append, linesFrom_append hline,
      List.nil_append, chompReturn_eq hreturn]
    exact congrArg _ ih

theorem ofLines?_map_chars {c : Code} (h : c.Fits) (number : Nat) :
    ofLines? number (c.map Instruction.chars) = .ok c := by
  induction c generalizing number with
  | nil => rfl
  | cons i c ih =>
    obtain ⟨hi, hc⟩ := List.forall_mem_cons.mp h
    rw [List.map_cons, ofLines?, i.not_blank, Instruction.ofChars?_chars hi]
    dsimp only
    rw [ih hc]
    rfl

/-- Code is read back from the characters of its listing. -/
theorem ofListing?_chars {c : Code} (h : c.Fits) : ofListing? (String.ofList c.chars) = .ok c := by
  rw [ofListing?, String.toList_ofList, linesFrom_chars, ofLines?_map_chars h]

/-- Every decimal operand is of a scale that can be written. -/
def SmallScales (c : Code) : Prop :=
  ∀ i ∈ c, ∀ d, i.operand = some (.decimal d) → d.scale < 65535

theorem isPrintable_iff {c : Code} : c.isPrintable = true ↔ c.SmallScales := by
  have hoperand : ∀ o? : Option Operand, o?.all Operand.isPrintable = true ↔
      ∀ d, o? = some (.decimal d) → d.scale < 65535 := by
    rintro (_ | _ | _ | d | _) <;> simp [Operand.isPrintable, Decimal.isPrintable_iff]
  rw [isPrintable, List.all_eq_true]
  exact forall₂_congr fun i _ => hoperand i.operand

/-- Code that can be written is read back from its listing. -/
theorem exists_listing? {c : Code} (h : c.Fits) (hscales : c.SmallScales) :
    ∃ s, c.listing? = some s ∧ ofListing? s = .ok c :=
  ⟨_, if_pos (isPrintable_iff.mpr hscales), ofListing?_chars h⟩

theorem listing?_eq_none {c : Code} (h : ¬ c.SmallScales) : c.listing? = none :=
  if_neg fun hc => h (isPrintable_iff.mp hc)

theorem fits_of_ofLines? {number : Nat} {lines : List (List Char)} {c : Code}
    (h : ofLines? number lines = .ok c) : c.Fits := by
  induction lines generalizing number c with
  | nil =>
    cases h
    exact fun _ hi => absurd hi List.not_mem_nil
  | cons line lines ih =>
    rw [ofLines?] at h
    split at h
    · exact ih h
    split at h
    · cases h
    case h_2 _ i hi =>
      cases hread : ofLines? (number + 1) lines with
      | error => rw [hread] at h; cases h
      | ok rest =>
        rw [hread] at h
        cases h
        exact List.forall_mem_cons.mpr ⟨Instruction.fits_of_ofChars? hi, ih hread⟩

/-- Reading a listing undoes writing it, for all code whose decimals are of scales below `65535`; so
any listing that is read as such code is brought into a form that gives the same code.  Of other
code no listing is written. -/
theorem reading_undoes_listing (c : Code) :
    (c.Fits → c.SmallScales → ∃ s, c.listing? = some s ∧ ofListing? s = .ok c) ∧
    (∀ s, ofListing? s = .ok c → c.SmallScales →
      ∃ t, c.listing? = some t ∧ ofListing? t = .ok c) ∧
    (¬ c.SmallScales → c.listing? = none) :=
  ⟨exists_listing?, fun _ h => exists_listing? (fits_of_ofLines? h), listing?_eq_none⟩

/-- Every kind of operand, a missing one, and one where none is expected; then a listing with blanks
that are not written; then a decimal that cannot be written. -/
theorem reading_undoes_listing_kinds :
    let c : Code := [⟨.put, some (.text "a\t\\n\r\n")⟩, ⟨.put, some (.decimal ⟨-50, 3⟩)⟩,
      ⟨.skip, some (.integer (-7))⟩, ⟨.load, none⟩, ⟨.pop, some (.boolean true)⟩]
    let s := "\n POP \tBOOLtrue\r\n  "
    let d : Code := [⟨.pop, some (.boolean true)⟩]
    let e : Code := [⟨.put, some (.decimal ⟨1, 65535⟩)⟩]
    (c.Fits ∧ c.SmallScales ∧ ∃ t, c.listing? = some t ∧ ofListing? t = .ok c) ∧
      (ofListing? s = .ok d ∧ d.SmallScales ∧ ∃ t, d.listing? = some t ∧ ofListing? t = .ok d) ∧
      ¬ e.SmallScales ∧ e.listing? = none := by
  intro c s d e
  have hfits : c.Fits := by
    simp [Fits, Instruction.Fits, Operand.Fits, c]
    decide
  have hc : c.SmallScales := isPrintable_iff.mp (by decide)
  have hd : d.SmallScales := isPrintable_iff.mp (by decide)
  have he : ¬ e.SmallScales := fun h => absurd (isPrintable_iff.mpr h) (by decide)
  have hread : ofListing? "\n POP \tBOOLtrue\r\n  " = .ok [⟨.pop, some (.boolean true)⟩] := by rfl
  exact ⟨⟨hfits, hc, (reading_undoes_listing c).1 hfits hc⟩,
    ⟨hread, hd, (reading_undoes_listing d).2.1 s hread hd⟩, he, (reading_undoes_listing e).2.2 he⟩

/-- Code that is read from a listing, and of which no listing can be written. -/
theorem long_decimal_is_not_listed :
    let c : Code := [⟨.put, some (.decimal ⟨0, 65535⟩)⟩]
    c.Fits ∧ c.listing? = none ∧ ofListing? (String.ofList
      ("PUT\tDEC0.".toList ++ List.replicate 65535 '0' ++ ['\n'])) = .ok c := by
  intro c
  have hfits : c.Fits := by simp [Fits, Instruction.Fits, Operand.Fits, c]
  have hname : "PUT\tDEC0.".toList = Opcode.put.name.toList ++ ['\t', 'D', 'E', 'C', '0', '.'] := rfl
  have hchars : c.chars = "PUT\tDEC0.".toList ++ List.replicate 65535 '0' ++ ['\n'] := by
    rw [chars, List.flatMap_singleton]
    show (Opcode.put.name.toList ++ '\t' :: 'D' :: 'E' :: 'C' :: Decimal.chars _) ++ ['\n'] = _
    rw [Decimal.chars_zero (by decide), hname, List.append_assoc _ ['\t', _, _, _, _, _]]
    rfl
  refine ⟨hfits, listing?_eq_none fun h => ?_, hchars ▸ ofListing?_chars hfits⟩
  exact absurd (isPrintable_iff.mpr h) (by decide)

end Code

end StackScript
