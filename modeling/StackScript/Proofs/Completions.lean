import StackScript.Proofs.Colouring
import StackScript.Shell.Completion

/-!
# StackScript.Proofs.Completions — where the word begins that is completed

The word before the cursor begins one byte behind the last character that is no part of a word, its
separator.  So a separator of one byte is what completion needs: behind a wider one the word would
begin within a character, and nothing can be offered.  What is offered makes the word a whole one.
-/

namespace StackScript

/-! ### Cuts behind a known text -/

namespace Text

theorem byteLength_reverse (cs : List Char) : byteLength cs.reverse = byteLength cs := by
  induction cs with
  | nil => rfl
  | cons c cs ih =>
    rw [List.reverse_cons, byteLength_append, ih, byteLength_cons, byteLength_cons, byteLength_nil,
      Nat.add_zero, Nat.add_comm]

theorem takeBytes_byteLength_add (past cs : List Char) (n : Nat) :
    takeBytes (byteLength past + n) (past ++ cs) = past ++ takeBytes n cs := by
  induction past with
  | nil => rw [byteLength_nil, Nat.zero_add, List.nil_append, List.nil_append]
  | cons c past ih =>
    rw [byteLength_cons, Nat.add_assoc, List.cons_append, takeBytes,
      if_pos (Nat.le_add_right _ _), Nat.add_sub_cancel_left, ih, List.cons_append]

/-- A cut behind all of a text leaves nothing. -/
theorem takeBytes_of_le {n : Nat} {cs : List Char} (h : byteLength cs ≤ n) :
    takeBytes n cs = cs := by
  obtain ⟨k, rfl⟩ := Nat.exists_eq_add_of_le h
  have hall := takeBytes_byteLength_add cs [] k
  rwa [List.append_nil, takeBytes, List.append_nil] at hall

end Text

namespace Shell

open Text

/-! ### Separators -/

/-- The last character of a text that is no part of a word. -/
def separator? (cs : List Char) : Option Char := cs.reverse.find? fun c => !isWordPart c

/-- A text in which a word, maybe an empty one, is the last: it begins at the start, or behind a
separator. -/
inductive EndsInWord : List Char → Prop
  | whole {word : List Char} (hseparator : separator? word = none)
    (hstart : wordStart word = 0) : EndsInWord word
  | behind {past word : List Char} {c : Char} (hseparator : separator? (past ++ c :: word) = some c)
    (hstart : wordStart (past ++ c :: word) = byteLength past + 1) :
    EndsInWord (past ++ c :: word)

theorem endsInWord (cs : List Char) : EndsInWord cs := by
  have hsplit := List.takeWhile_append_dropWhile (p := isWordPart) (l := cs.reverse)
  have hfind : separator? cs = (cs.reverse.dropWhile isWordPart).head? := by
    simp only [separator?, List.find?_eq_head?_dropWhile_not, Bool.not_not]
  generalize cs.reverse.takeWhile isWordPart = word at hsplit
  cases hrest : cs.reverse.dropWhile isWordPart with
  | nil =>
    rw [hrest] at hfind
    exact .whole hfind (by rw [wordStart, hrest])
  | cons c before =>
    rw [hrest] at hsplit hfind
    have hstart : wordStart cs = byteLength before + 1 := by rw [wordStart, hrest]
    have hcs : cs = before.reverse ++ c :: word.reverse := by
      rw [← List.reverse_reverse cs, ← hsplit]
      simp
    rw [hcs] at hfind hstart ⊢
    refine .behind hfind ?_
    rw [hstart, byteLength_reverse]

theorem isBoundary_iff {offset : Nat} {cs : List Char} :
    isBoundary offset cs = true ↔ byteLength (takeBytes offset cs) = offset := beq_iff_eq

/-- One byte behind a place, there is another place between characters if the character there takes
one byte. -/
theorem isBoundary_succ_iff (past word : List Char) (c : Char) :
    isBoundary (byteLength past + 1) (past ++ c :: word) = true ↔ c.utf8Size = 1 := by
  rw [isBoundary_iff, takeBytes_byteLength_add, byteLength_append, Nat.add_left_cancel_iff,
    takeBytes]
  have hpos := c.utf8Size_pos
  split
  case isTrue hle =>
    have hone : c.utf8Size = 1 := Nat.le_antisymm hle hpos
    rw [hone, Nat.sub_self, takeBytes_zero, byteLength_cons, hone, byteLength_nil]
  case isFalse hgt =>
    rw [byteLength_nil]
    omega

theorem wordStart_le (cs : List Char) : wordStart cs ≤ byteLength cs := by
  cases endsInWord cs with
  | whole _ hstart =>
    rw [hstart]
    exact Nat.zero_le _
  | @behind past word c _ hstart =>
    have hpos := c.utf8Size_pos
    rw [hstart, byteLength_append, byteLength_cons]
    omega

/-- The last word begins between two characters if no separator is before it, or one of one byte. -/
theorem isBoundary_wordStart_iff (cs : List Char) :
    isBoundary (wordStart cs) cs = true ↔ ∀ c ∈ separator? cs, c.utf8Size = 1 := by
  cases endsInWord cs with
  | whole hseparator hstart =>
    rw [hseparator, hstart]
    refine iff_of_true ?_ fun c hc => nomatch hc
    rw [isBoundary_iff, takeBytes_zero, byteLength_nil]
  | behind hseparator hstart =>
    rw [hseparator, hstart, isBoundary_succ_iff]
    exact ⟨fun h c hc => Option.some.inj hc ▸ h, fun h => h _ rfl⟩

/-- A place between two characters cuts the text in two. -/
theorem dropBytes_of_isBoundary {offset : Nat} {cs : List Char}
    (h : isBoundary offset cs = true) (rest : List Char) :
    dropBytes offset (cs ++ rest) = dropBytes offset cs ++ rest := by
  have hlength := isBoundary_iff.mp h
  have hcut := takeBytes_append_dropBytes offset cs
  generalize takeBytes offset cs = past at hlength hcut
  generalize dropBytes offset cs = word at hcut
  rw [← hcut, ← hlength, List.append_assoc, dropBytes_byteLength]

/-! ### Offers -/

theorem isSome_lastWord?_iff (cs : List Char) :
    (lastWord? cs).isSome ↔ ∀ c ∈ separator? cs, c.utf8Size = 1 := by
  rw [← isBoundary_wordStart_iff, lastWord?]
  split
  case isTrue h => exact iff_of_true rfl h
  case isFalse h => exact iff_of_false Bool.false_ne_true h

/-- A word that is offered begins with the last word, and its rest is what is put behind it. -/
theorem display_eq {before : String} {candidates : List Candidate} {c : Candidate}
    (h : complete? before = some candidates) (hc : c ∈ candidates) :
    dropBytes (wordStart before.toList) (before.toList ++ c.replacement.toList) =
      c.display.toList := by
  obtain ⟨word, hword, rfl⟩ := Option.map_eq_some_iff.mp h
  rw [lastWord?] at hword
  split at hword
  case isFalse => cases hword
  case isTrue hboundary =>
    obtain rfl := Option.some.inj hword
    split at hc
    case isTrue => cases hc
    case isFalse =>
      obtain ⟨w, -, hw⟩ := List.mem_filterMap.mp hc
      obtain ⟨rest, hrest, rfl⟩ := Option.map_eq_some_iff.mp hw
      rw [dropBytes_of_isBoundary hboundary, String.toList_ofList]
      exact (dropStart?_eq_some_iff.mp hrest).symm

/-- An offer has candidates, and at the end of the line a hint; either can fail. -/
theorem offer?_eq (line : String) (cursor : Nat) :
    offer? line cursor =
      (complete? (String.ofList (takeBytes cursor line.toList))).bind fun candidates =>
        (if cursor < byteLength line.toList then some none else hint? line).map fun hint =>
          ⟨candidates, hint⟩ := by
  rw [offer?]
  cases complete? (String.ofList (takeBytes cursor line.toList)) with
  | none => rfl
  | some candidates =>
    by_cases hend : cursor < byteLength line.toList
    · rw [if_pos hend]
      exact if_pos hend
    · rw [if_neg hend]
      refine (if_neg hend).trans ?_
      cases hint? line <;> rfl

/-- For any line and any place between two characters of it: the last word before that place begins
at the place or before it.  It begins between two characters if and only if its separator, if there
is one, takes one byte, and then, and only then, something is offered; and every candidate that is
offered makes the last word the word that is displayed. -/
theorem completion_needs_a_separator_of_one_byte {line : String} {cursor : Nat}
    (hcursor : isBoundary cursor line.toList = true) :
    let before := takeBytes cursor line.toList
    wordStart before ≤ cursor ∧
      (isBoundary (wordStart before) before = true ↔
        ∀ c ∈ separator? before, c.utf8Size = 1) ∧
      ((offer? line cursor).isSome ↔ ∀ c ∈ separator? before, c.utf8Size = 1) ∧
      ∀ offer ∈ offer? line cursor, ∀ c ∈ offer.candidates,
        dropBytes (wordStart before) (before ++ c.replacement.toList) = c.display.toList := by
  intro before
  have hlength : byteLength before = cursor := isBoundary_iff.mp hcursor
  have hcandidates : (complete? (String.ofList before)).isSome ↔
      ∀ c ∈ separator? before, c.utf8Size = 1 := by
    rw [complete?, Option.isSome_map, String.toList_ofList, isSome_lastWord?_iff]
  -- a hint is asked for at the end of the line only, where the last word is the same
  have hhint : (∀ c ∈ separator? before, c.utf8Size = 1) →
      (if cursor < byteLength line.toList then some none else hint? line).isSome := by
    intro hnarrow
    split
    case isTrue => rfl
    case isFalse hend =>
      have hall : before = line.toList := takeBytes_of_le (Nat.le_of_not_lt hend)
      rwa [hint?, Option.isSome_map, isSome_lastWord?_iff, ← hall]
  refine ⟨hlength ▸ wordStart_le before, isBoundary_wordStart_iff before, ?_, ?_⟩
  · rw [offer?_eq, Option.isSome_bind, Option.any_eq_true_iff_get, ← hcandidates]
    refine ⟨fun ⟨h, _⟩ => h, fun h => ⟨h, ?_⟩⟩
    rw [Option.isSome_map]
    exact hhint (hcandidates.mp h)
  · intro offer hoffer c hc
    rw [offer?_eq] at hoffer
    obtain ⟨candidates, hcomplete, hoffer⟩ := Option.bind_eq_some_iff.mp hoffer
    obtain ⟨hint, -, rfl⟩ := Option.map_eq_some_iff.mp hoffer
    have hdisplay := display_eq hcomplete hc
    rwa [String.toList_ofList] at hdisplay

/-- Behind the sign for euros, which takes three bytes, no word can be completed. -/
theorem word_begins_within_a_character :
    isBoundary 4 "€n".toList = true ∧
      ¬ isBoundary (wordStart (takeBytes 4 "€n".toList)) (takeBytes 4 "€n".toList) = true ∧
      offer? "€n" 4 = none := by
  decide +kernel

/-- Behind a blank, `n` is completed: the sign for euros takes three bytes, the blank one. -/
theorem completion_needs_a_separator_of_one_byte_blank :
    isBoundary 5 "€ n".toList = true ∧ (offer? "€ n" 5).isSome ∧
      ∀ offer ∈ offer? "€ n" 5, ∀ c ∈ offer.candidates,
        'n' :: c.replacement.toList = c.display.toList := by
  have hcursor : isBoundary 5 "€ n".toList = true := by decide
  obtain ⟨-, -, hsome, hdisplay⟩ := completion_needs_a_separator_of_one_byte hcursor
  have hseparator : separator? (takeBytes 5 "€ n".toList) = some ' ' := by decide
  have hstart : wordStart (takeBytes 5 "€ n".toList) = 4 := by decide
  rw [hstart] at hdisplay
  refine ⟨hcursor, hsome.mpr ?_, hdisplay⟩
  rw [hseparator]
  rintro c ⟨⟩
  rfl

end Shell

end StackScript
