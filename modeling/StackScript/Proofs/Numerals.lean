import Mathlib.Data.List.TakeDrop
import StackScript.Decimal

/-!
# StackScript.Proofs.Numerals — written numbers are read back

A run of digits denotes the number that it was written for, also with zeros in front, which the
fraction of a decimal needs.  Integers of any size are read back from their written form, and
decimals from their digits, sign and scale included.  Only the scale of a decimal can keep it from
being written (`Decimal.isPrintable_iff`).
-/

namespace StackScript

namespace Text

variable {separator : Char → Bool} {cs : List Char}

/-! ### Splitting at a separator -/

theorem splitFirst_eq_none (h : ∀ c ∈ cs, separator c = false) : splitFirst separator cs = none := by
  induction cs with
  | nil => rfl
  | cons c cs ih =>
    obtain ⟨hc, hcs⟩ := List.forall_mem_cons.mp h
    rw [splitFirst, hc, ih hcs]
    rfl

theorem splitFirst_append_cons {c : Char} (h : ∀ c ∈ cs, separator c = false)
    (hc : separator c = true) (rest : List Char) :
    splitFirst separator (cs ++ c :: rest) = some (cs, rest) := by
  induction cs with
  | nil => rw [List.nil_append, splitFirst, if_pos hc]
  | cons d cs ih =>
    obtain ⟨hd, hcs⟩ := List.forall_mem_cons.mp h
    rw [List.cons_append, splitFirst, hd, ih hcs]
    rfl

/-! ### Natural numbers -/

theorem isDigit_of_mem_digits {n : Nat} {c : Char} (h : c ∈ digits n) : c.isDigit = true :=
  Nat.isDigit_of_mem_toDigits (by decide) (by decide) h

theorem digits_ne_nil (n : Nat) : digits n ≠ [] := Nat.toDigits_ne_nil

theorem value_digits (n : Nat) : value (digits n) = n :=
  Nat.ofDigitChars_toDigits (by decide) (by decide)

/-- Zeros in front do not change a number. -/
theorem value_replicate_zero (k : Nat) (ds : List Char) :
    value (List.replicate k '0' ++ ds) = value ds := by
  induction k with
  | zero => rfl
  | succ k ih =>
    rw [List.replicate_succ, List.cons_append, ← ih]
    rfl

theorem natural?_eq_some (hne : cs ≠ []) (h : ∀ c ∈ cs, c.isDigit = true) :
    natural? cs = some (value cs) := by
  rw [natural?, if_pos]
  rw [Bool.and_eq_true, List.all_eq_true]
  refine ⟨?_, h⟩
  cases cs with
  | nil => exact absurd rfl hne
  | cons => rfl

theorem natural?_digits (n : Nat) : natural? (digits n) = some n := by
  rw [natural?_eq_some (digits_ne_nil n) fun _ => isDigit_of_mem_digits, value_digits]

/-! ### Integers -/

/-- A digit is no sign and no point. -/
theorem ne_of_isDigit {c : Char} (h : c.isDigit = true) : c ≠ '+' ∧ c ≠ '-' ∧ c ≠ '.' := by
  refine ⟨?_, ?_, ?_⟩ <;>
    · rintro rfl
      exact absurd h (by decide)

/-- Without a sign, an integer is a natural number. -/
theorem integer?_eq (h : ∀ c ∈ cs, c.isDigit = true) :
    integer? cs = (natural? cs).map Int.ofNat := by
  cases cs with
  | nil => rfl
  | cons c cs =>
    obtain ⟨hplus, hminus, -⟩ := ne_of_isDigit (h c List.mem_cons_self)
    simp [integer?, hplus, hminus]

theorem neg_ofNat_natAbs {i : Int} (h : i < 0) : -Int.ofNat i.natAbs = i := by
  have := Int.ofNat_natAbs_of_nonpos (Int.le_of_lt h)
  rw [Int.ofNat_eq_natCast]
  omega

/-- An integer is read back from its digits. -/
theorem integer?_signedDigits (i : Int) : integer? (signedDigits i) = some i := by
  rw [signedDigits]
  split
  case isTrue hneg =>
    rw [integer?, natural?_digits, Option.map_some]
    exact congrArg some (neg_ofNat_natAbs hneg)
  case isFalse hpos =>
    rw [integer?_eq fun _ => isDigit_of_mem_digits, natural?_digits, Option.map_some]
    exact congrArg some (Int.natAbs_of_nonneg (Int.not_lt.mp hpos))

end Text

namespace Decimal

open Text

variable {cs : List Char}

/-- The digits with zeros in front, so that one stands before the point. -/
def padded (d : Decimal) : List Char :=
  List.replicate (d.scale.toNat + 1 - (digits d.unscaled.natAbs).length) '0' ++
    digits d.unscaled.natAbs

theorem isDigit_of_mem_padded {d : Decimal} {c : Char} (h : c ∈ d.padded) : c.isDigit = true := by
  rcases List.mem_append.mp h with h | h
  · rw [List.eq_of_mem_replicate h]
    rfl
  · exact isDigit_of_mem_digits h

theorem value_padded (d : Decimal) : value d.padded = d.unscaled.natAbs := by
  rw [padded, value_replicate_zero, value_digits]

theorem scale_lt_length_padded (d : Decimal) : d.scale.toNat < d.padded.length := by
  rw [padded, List.length_append, List.length_replicate]
  omega

/-- The absolute value is read back, with the scale. -/
theorem ofUnsigned?_unsignedChars (d : Decimal) :
    ofUnsigned? d.unsignedChars = some (d.unscaled.natAbs, d.scale) := by
  rw [unsignedChars]
  split
  case isTrue hscale =>
    rw [ofUnsigned?, splitFirst_eq_none, hscale]
    · dsimp only
      rw [natural?_digits, Option.map_some]
    · intro c hc
      exact beq_eq_false_iff_ne.mpr (ne_of_isDigit (isDigit_of_mem_digits hc)).2.2
  case isFalse hscale =>
    have hlength := d.scale_lt_length_padded
    have hpos : d.scale.toNat ≠ 0 := fun h => hscale (UInt32.toNat_inj.mp h)
    have hwhole : ∀ c ∈ d.padded.take (d.padded.length - d.scale.toNat), c.isDigit = true :=
      fun c hc => isDigit_of_mem_padded (List.mem_of_mem_take hc)
    have hfraction : ∀ c ∈ d.padded.drop (d.padded.length - d.scale.toNat), c.isDigit = true :=
      fun c hc => isDigit_of_mem_padded (List.mem_of_mem_drop hc)
    have hlengthTake : (d.padded.take (d.padded.length - d.scale.toNat)).length =
        d.padded.length - d.scale.toNat := List.length_take_of_le (Nat.sub_le _ _)
    have hlengthDrop : (d.padded.drop (d.padded.length - d.scale.toNat)).length = d.scale.toNat := by
      rw [List.length_drop]
      omega
    change ofUnsigned? (d.padded.take (d.padded.length - d.scale.toNat) ++
      '.' :: d.padded.drop (d.padded.length - d.scale.toNat)) = _
    rw [ofUnsigned?, splitFirst_append_cons
      (fun c hc => beq_eq_false_iff_ne.mpr (ne_of_isDigit (hwhole c hc)).2.2) rfl]
    dsimp only
    rw [natural?_eq_some (List.ne_nil_of_length_pos (by omega)) hwhole,
      natural?_eq_some (List.ne_nil_of_length_pos (by omega)) hfraction]
    dsimp only
    rw [List.take_append_drop, value_padded, hlengthDrop, UInt32.ofNat_toNat]

theorem mem_unsignedChars {d : Decimal} {c : Char} (h : c ∈ d.unsignedChars) :
    c.isDigit = true ∨ c = '.' := by
  rw [unsignedChars] at h
  split at h
  · exact .inl (isDigit_of_mem_digits h)
  · change c ∈ d.padded.take _ ++ '.' :: d.padded.drop _ at h
    rcases List.mem_append.mp h with h | h
    · exact .inl (isDigit_of_mem_padded (List.mem_of_mem_take h))
    rcases List.mem_cons.mp h with h | h
    · exact .inr h
    · exact .inl (isDigit_of_mem_padded (List.mem_of_mem_drop h))

/-- A decimal is read back, whatever its size and its scale. -/
theorem ofChars?_chars (d : Decimal) : ofChars? d.chars = some d := by
  rw [chars]
  split
  case isTrue hneg =>
    rw [ofChars?, ofUnsigned?_unsignedChars, Option.map_some]
    rw [neg_ofNat_natAbs hneg]
  case isFalse hpos =>
    have hread : ofChars? d.unsignedChars =
        (ofUnsigned? d.unsignedChars).map fun p => ⟨Int.ofNat p.1, p.2⟩ := by
      have hminus : '-' ∉ d.unsignedChars := fun h =>
        (mem_unsignedChars h).elim (absurd · (by decide)) (absurd · (by decide))
      cases hcs : d.unsignedChars with
      | nil => rfl
      | cons c cs =>
        rw [hcs] at hminus
        have hc : c ≠ '-' := fun h => hminus (h ▸ List.mem_cons_self)
        simp [ofChars?, hc]
    have hvalue : Int.ofNat d.unscaled.natAbs = d.unscaled :=
      Int.natAbs_of_nonneg (Int.not_lt.mp hpos)
    rw [hread, ofUnsigned?_unsignedChars, Option.map_some, hvalue]

/-- A decimal is read back from its digits. -/
theorem ofText?_text (d : Decimal) : ofText? d.text = some d := by
  rw [ofText?, text, String.toList_ofList, ofChars?_chars]

/-- Zero has all the digits of its scale. -/
theorem chars_zero {scale : UInt32} (h : scale ≠ 0) :
    (⟨0, scale⟩ : Decimal).chars = '0' :: '.' :: List.replicate scale.toNat '0' := by
  have hdigits : digits (0 : Int).natAbs = ['0'] := rfl
  have hpadded : List.replicate (scale.toNat + 1 - 1) '0' ++ ['0'] =
      '0' :: List.replicate scale.toNat '0' := by
    rw [Nat.add_sub_cancel, ← List.replicate_succ', List.replicate_succ]
  rw [chars, if_neg (Int.lt_irrefl 0), unsignedChars, hdigits]
  dsimp only
  rw [if_neg h, List.length_singleton, hpadded, List.length_cons, List.length_replicate,
    Nat.add_sub_cancel_left]
  rfl

/-! ### Which decimals can be written -/

theorem isPrintable_iff {d : Decimal} : d.isPrintable = true ↔ d.scale < 65535 := by
  rw [isPrintable, decide_eq_true_eq, UInt32.lt_iff_toNat_lt]
  exact Nat.lt_sub_iff_add_lt.symm

theorem text?_of_lt {d : Decimal} (h : d.scale < 65535) : d.text? = some d.text :=
  if_pos (isPrintable_iff.mpr h)

theorem text?_of_le {d : Decimal} (h : 65535 ≤ d.scale) : d.text? = none :=
  if_neg fun hd => UInt32.not_lt.mpr h (isPrintable_iff.mp hd)

end Decimal

end StackScript
