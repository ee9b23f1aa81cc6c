import Mathlib.Algebra.Order.Field.Rat
import Mathlib.Data.List.Induction
import Mathlib.Tactic.FieldSimp
import Mathlib.Tactic.IntervalCases
import Mathlib.Tactic.Ring
import StackScript.Proofs.Numerals

/-!
# StackScript.Proofs.ExactDecimals — what a written decimal denotes

A decimal is written with digits, with a point and more digits if it has a fraction, and with a
minus sign in front if it has one (`Decimal.Written`).  Each digit counts by its place, so that what
is written denotes a rational number.  The reader takes these texts and no others, and of a fraction
whose length fits the scale it loses nothing but zeros in front and the sign of zero.  A decimal is
written again only if its scale is below `65535` (`Decimal.decimals_are_exact`).
-/

namespace StackScript

namespace Text

/-! ### The value of digits -/

theorem value_concat (ds : List Char) (c : Char) :
    value (ds ++ [c]) = 10 * value ds + (c.toNat - '0'.toNat) := List.foldl_concat ..

theorem value_append (ds es : List Char) :
    value (ds ++ es) = 10 ^ es.length * value ds + value es := by
  induction es using List.reverseRecOn with
  | nil => simp [value]
  | append_singleton es c ih =>
    rw [← List.append_assoc, value_concat, value_concat, ih, List.length_append,
      List.length_singleton, Nat.pow_succ]
    ring

theorem value_cons (c : Char) (ds : List Char) :
    value (c :: ds) = 10 ^ ds.length * (c.toNat - '0'.toNat) + value ds := by
  rw [← List.singleton_append, value_append]
  congr 2
  exact Nat.zero_add _

/-- A digit has a number below ten, and is the digit of this number. -/
theorem digit_of_isDigit {c : Char} (h : c.isDigit = true) :
    c.toNat - '0'.toNat < 10 ∧ Nat.digitChar (c.toNat - '0'.toNat) = c := by
  have hbounds : 48 ≤ c.toNat ∧ c.toNat ≤ 57 := by
    simpa [Char.isDigit, Char.le_def, UInt32.le_iff_toNat_le] using h
  have hc := Char.ofNat_toNat c
  generalize c.toNat = n at hbounds hc
  obtain ⟨hlow, hhigh⟩ := hbounds
  subst hc
  interval_cases n <;> exact ⟨by decide, rfl⟩

/-! ### Zeros in front -/

/-- Digits without the zeros in front of another digit. -/
def withoutZeros : List Char → List Char
  | c :: d :: ds => if c = '0' then withoutZeros (d :: ds) else c :: d :: ds
  | ds => ds

theorem length_withoutZeros_le (ds : List Char) : (withoutZeros ds).length ≤ ds.length := by
  fun_induction withoutZeros ds with
  | case1 d ds ih => exact Nat.le_succ_of_le ih
  | case2 | case3 => exact Nat.le_refl _

example : withoutZeros ['0', '0', '7'] = ['7'] ∧ withoutZeros ['0', '0'] = ['0'] := by
  decide +kernel

/-- The zeros can be put back. -/
theorem replicate_append_withoutZeros (ds : List Char) :
    List.replicate (ds.length - (withoutZeros ds).length) '0' ++ withoutZeros ds = ds := by
  fun_induction withoutZeros ds with
  | case1 d ds ih =>
    have := length_withoutZeros_le (d :: ds)
    rw [List.length_cons, Nat.succ_sub this, List.replicate_succ, List.cons_append, ih]
  | case2 | case3 => rw [Nat.sub_self]; rfl

theorem withoutZeros_concat {ds : List Char} (c : Char) (h : value ds ≠ 0) :
    withoutZeros (ds ++ [c]) = withoutZeros ds ++ [c] := by
  fun_induction withoutZeros ds with
  | case1 d ds ih =>
    have hvalue : value (d :: ds) ≠ 0 := by
      rwa [value_cons, Nat.sub_self, Nat.mul_zero, Nat.zero_add] at h
    rw [← ih hvalue]
    rfl
  | case2 d e ds hd => rw [List.cons_append, List.cons_append, withoutZeros, if_neg hd]
  | case3 ds hds =>
    match ds with
    | [] => exact absurd rfl h
    | [d] =>
      have hd : d ≠ '0' := by
        rintro rfl
        exact h rfl
      show withoutZeros [d, c] = [d, c]
      rw [withoutZeros, if_neg hd]
    | d :: e :: ds => exact absurd rfl (hds d e ds)

theorem value_eq_zero_iff {ds : List Char} (h : ∀ c ∈ ds, c.isDigit = true) :
    value ds = 0 ↔ ∀ c ∈ ds, c = '0' := by
  induction ds with
  | nil => exact ⟨fun _ => List.forall_mem_nil _, fun _ => rfl⟩
  | cons d ds ih =>
    obtain ⟨hd, hds⟩ := List.forall_mem_cons.mp h
    have hpow : 10 ^ ds.length ≠ 0 := Nat.pos_iff_ne_zero.mp (Nat.pow_pos (by decide))
    have hdigit : d.toNat - '0'.toNat = 0 ↔ d = '0' := by
      refine ⟨fun hzero => ?_, fun hd => by rw [hd, Nat.sub_self]⟩
      have hchar := (digit_of_isDigit hd).2
      rw [hzero] at hchar
      exact hchar.symm
    rw [value_cons, Nat.add_eq_zero_iff, Nat.mul_eq_zero, or_iff_right hpow, hdigit, ih hds,
      List.forall_mem_cons]

theorem withoutZeros_concat_of_zeros {ds : List Char} (c : Char) (h : ∀ d ∈ ds, d = '0') :
    withoutZeros (ds ++ [c]) = [c] := by
  induction ds with
  | nil => rfl
  | cons d ds ih =>
    obtain ⟨rfl, hds⟩ := List.forall_mem_cons.mp h
    obtain ⟨e, es, hes⟩ : ∃ e es, ds ++ [c] = e :: es := List.exists_cons_of_ne_nil (by simp)
    rw [List.cons_append, hes, withoutZeros, if_pos rfl, ← hes, ih hds]

/-- The digits of a number are those that it was written with, but for zeros in front. -/
theorem digits_value {ds : List Char} (hne : ds ≠ []) (h : ∀ c ∈ ds, c.isDigit = true) :
    digits (value ds) = withoutZeros ds := by
  induction ds using List.reverseRecOn with
  | nil => exact absurd rfl hne
  | append_singleton ds c ih =>
    obtain ⟨hds, hc⟩ := List.forall_mem_append.mp h
    obtain ⟨hlt, hchar⟩ := digit_of_isDigit (hc c (List.mem_singleton_self c))
    have hdigit : digits (c.toNat - '0'.toNat) = [c] := by
      rw [digits, Nat.toDigits_of_lt_base hlt, hchar]
    rw [value_concat]
    by_cases hvalue : value ds = 0
    · rw [hvalue, Nat.mul_zero, Nat.zero_add, hdigit,
        withoutZeros_concat_of_zeros c ((value_eq_zero_iff hds).mp hvalue)]
    · have hne : ds ≠ [] := by
        rintro rfl
        exact hvalue rfl
      rw [withoutZeros_concat c hvalue, ← ih hne hds, ← hdigit]
      exact (Nat.toDigits_append_toDigits (by decide) (Nat.pos_of_ne_zero hvalue) hlt).symm

/-- Digits in front of others, without the zeros that no digit stands before. -/
theorem replicate_append_withoutZeros_append {ds es : List Char} (hne : ds ≠ []) :
    List.replicate (es.length + 1 - (withoutZeros (ds ++ es)).length) '0' ++
      withoutZeros (ds ++ es) = withoutZeros ds ++ es := by
  fun_induction withoutZeros ds with
  | case1 d ds ih => exact ih (List.cons_ne_nil _ _)
  | case2 c d ds hc =>
    have hkeep : withoutZeros (c :: d :: ds ++ es) = c :: d :: ds ++ es := by
      rw [List.cons_append, List.cons_append, withoutZeros, if_neg hc]
    have hlength : es.length + 1 - (c :: d :: ds ++ es).length = 0 := by simp; omega
    rw [hkeep, hlength]
    rfl
  | case3 ds hds =>
    match ds with
    | [] => exact absurd rfl hne
    | [c] => exact replicate_append_withoutZeros (c :: es)
    | c :: d :: ds => exact absurd rfl (hds c d ds)

theorem withoutZeros_ne_nil {ds : List Char} (hne : ds ≠ []) : withoutZeros ds ≠ [] := by
  fun_induction withoutZeros ds with
  | case1 d ds ih => exact ih (List.cons_ne_nil _ _)
  | case2 => exact List.cons_ne_nil _ _
  | case3 => exact hne

theorem mem_of_mem_withoutZeros {ds : List Char} {c : Char} (h : c ∈ withoutZeros ds) : c ∈ ds := by
  rw [← replicate_append_withoutZeros ds]
  exact List.mem_append_right _ h

/-! ### Readers of digits -/

theorem natural?_eq_some_iff {cs : List Char} {n : Nat} :
    natural? cs = some n ↔ cs ≠ [] ∧ (∀ c ∈ cs, c.isDigit = true) ∧ value cs = n := by
  constructor
  · intro h
    unfold natural? at h
    split at h
    · rename_i hdigits
      rw [Bool.and_eq_true, List.all_eq_true] at hdigits
      refine ⟨?_, hdigits.2, Option.some.inj h⟩
      rintro rfl
      cases hdigits.1
    · cases h
  · rintro ⟨hne, hdigits, rfl⟩
    exact natural?_eq_some hne hdigits

theorem eq_of_splitFirst {separator : Char → Bool} {cs before after : List Char}
    (h : splitFirst separator cs = some (before, after)) :
    ∃ c, separator c = true ∧ cs = before ++ c :: after := by
  induction cs generalizing before with
  | nil => cases h
  | cons c cs ih =>
    rw [splitFirst] at h
    split at h
    · rename_i hc
      cases h
      exact ⟨c, hc, rfl⟩
    · obtain ⟨⟨before', after'⟩, hp, heq⟩ := Option.map_eq_some_iff.mp h
      cases heq
      obtain ⟨d, hd, rfl⟩ := ih hp
      exact ⟨d, hd, rfl⟩

end Text

namespace Decimal

open Text

/-! ### Written decimals -/

/-- A decimal as it is written. -/
structure Written where
  minus : Bool
  whole : List Char
  /-- the digits behind the point, if there is one -/
  fraction : List Char
  whole_ne_nil : whole ≠ []
  isDigit_whole : ∀ c ∈ whole, c.isDigit = true
  isDigit_fraction : ∀ c ∈ fraction, c.isDigit = true

/-- The number that a digit stands for. -/
def digit (c : Char) : ℚ := ((c.toNat - '0'.toNat : Nat) : ℚ)

/-- The number that digits before the point denote. -/
def wholeValue : List Char → ℚ
  | [] => 0
  | c :: cs => digit c * 10 ^ cs.length + wholeValue cs

/-- The number that digits behind the point denote. -/
def fractionValue : List Char → ℚ
  | [] => 0
  | c :: cs => (digit c + fractionValue cs) / 10

/-- The number of a decimal. -/
def toRat (d : Decimal) : ℚ := d.unscaled / 10 ^ d.scale.toNat

namespace Written

variable (w : Written)

/-- The digits, with the point if there is one. -/
def unsignedChars : List Char :=
  if w.fraction = [] then w.whole else w.whole ++ '.' :: w.fraction

/-- The characters that are written. -/
def chars : List Char := if w.minus then '-' :: w.unsignedChars else w.unsignedChars

/-- The text that is written. -/
def text : String := String.ofList w.chars

/-- The number that is denoted. -/
def value : ℚ :=
  (if w.minus then -1 else 1) * (wholeValue w.whole + fractionValue w.fraction)

/-- The same number without superfluous zeros in front, and without a sign if it is zero. -/
def tidy : Written where
  minus := w.minus && (w.whole ++ w.fraction).any (· ≠ '0')
  whole := withoutZeros w.whole
  fraction := w.fraction
  whole_ne_nil := withoutZeros_ne_nil w.whole_ne_nil
  isDigit_whole c hc := w.isDigit_whole c (mem_of_mem_withoutZeros hc)
  isDigit_fraction := w.isDigit_fraction

/-- All digits, read as one number. -/
def magnitude : Nat := Text.value (w.whole ++ w.fraction)

/-- What is read. -/
def decimal : Decimal :=
  ⟨if w.minus then -Int.ofNat w.magnitude else Int.ofNat w.magnitude, .ofNat w.fraction.length⟩

theorem isDigit_digits : ∀ c ∈ w.whole ++ w.fraction, c.isDigit = true :=
  List.forall_mem_append.mpr ⟨w.isDigit_whole, w.isDigit_fraction⟩

/-! ### Reading -/

theorem ofUnsigned?_unsignedChars :
    ofUnsigned? w.unsignedChars = some (w.magnitude, .ofNat w.fraction.length) := by
  have hpoint : ∀ c ∈ w.whole, (c == '.') = false := fun c hc =>
    beq_eq_false_iff_ne.mpr (ne_of_isDigit (w.isDigit_whole c hc)).2.2
  unfold ofUnsigned? unsignedChars magnitude
  by_cases hfraction : w.fraction = []
  · rw [if_pos hfraction, splitFirst_eq_none hpoint, hfraction, List.append_nil]
    dsimp only
    rw [natural?_eq_some w.whole_ne_nil w.isDigit_whole]
    rfl
  · rw [if_neg hfraction, splitFirst_append_cons hpoint rfl]
    dsimp only
    rw [natural?_eq_some w.whole_ne_nil w.isDigit_whole,
      natural?_eq_some hfraction w.isDigit_fraction]

theorem unsignedChars_ne_minus (cs : List Char) : w.unsignedChars ≠ '-' :: cs := by
  obtain ⟨c, ds, hwhole⟩ := List.exists_cons_of_ne_nil w.whole_ne_nil
  have hc := (ne_of_isDigit (w.isDigit_whole c (hwhole ▸ List.mem_cons_self))).2.1
  unfold unsignedChars
  rw [hwhole]
  split <;> exact fun h => hc (List.cons_eq_cons.mp h).1

/-- A written decimal is read. -/
theorem ofChars?_eq_some : ofChars? w.chars = some w.decimal := by
  unfold chars decimal
  cases w.minus with
  | true =>
    rw [if_pos rfl, if_pos rfl, ofChars?, ofUnsigned?_unsignedChars]
    rfl
  | false =>
    rw [if_neg Bool.false_ne_true, if_neg Bool.false_ne_true, ofChars?,
      ofUnsigned?_unsignedChars]
    · rfl
    · exact w.unsignedChars_ne_minus

/-- The text of a written decimal is read. -/
theorem ofText?_text : ofText? w.text = some w.decimal := by
  rw [ofText?, text, String.toList_ofList, w.ofChars?_eq_some]

/-- Whatever digits are read have been written. -/
theorem exists_of_ofUnsigned? {cs : List Char} {p : Nat × UInt32} (h : ofUnsigned? cs = some p)
    (minus : Bool) : ∃ w : Written, w.minus = minus ∧ w.unsignedChars = cs := by
  unfold ofUnsigned? at h
  split at h
  · obtain ⟨n, hn, -⟩ := Option.map_eq_some_iff.mp h
    obtain ⟨hne, hdigits, -⟩ := natural?_eq_some_iff.mp hn
    exact ⟨⟨minus, cs, [], hne, hdigits, List.forall_mem_nil _⟩, rfl, if_pos rfl⟩
  · rename_i whole fraction hsplit
    split at h
    · rename_i n k hn hk
      obtain ⟨hne, hdigits, -⟩ := natural?_eq_some_iff.mp hn
      obtain ⟨hne', hdigits', -⟩ := natural?_eq_some_iff.mp hk
      obtain ⟨c, hc, rfl⟩ := eq_of_splitFirst hsplit
      obtain rfl : c = '.' := eq_of_beq hc
      exact ⟨⟨minus, whole, fraction, hne, hdigits, hdigits'⟩, rfl, if_neg hne'⟩
    · cases h

/-- Whatever is read has been written. -/
theorem exists_of_ofChars? {cs : List Char} {d : Decimal} (h : ofChars? cs = some d) :
    ∃ w : Written, w.chars = cs := by
  unfold ofChars? at h
  split at h
  · obtain ⟨p, hp, -⟩ := Option.map_eq_some_iff.mp h
    obtain ⟨w, hminus, rfl⟩ := exists_of_ofUnsigned? hp true
    exact ⟨w, if_pos hminus⟩
  · obtain ⟨p, hp, -⟩ := Option.map_eq_some_iff.mp h
    obtain ⟨w, hminus, rfl⟩ := exists_of_ofUnsigned? hp false
    exact ⟨w, if_neg (by rw [hminus]; exact Bool.false_ne_true)⟩

/-! ### The number -/

theorem wholeValue_eq (ds : List Char) : wholeValue ds = (Text.value ds : ℚ) := by
  induction ds with
  | nil => exact Nat.cast_zero.symm
  | cons c ds ih =>
    rw [wholeValue, ih, value_cons, digit]
    push_cast
    ring

theorem fractionValue_eq (ds : List Char) :
    fractionValue ds = (Text.value ds : ℚ) / 10 ^ ds.length := by
  induction ds with
  | nil => simp [fractionValue, Text.value]
  | cons c ds ih =>
    rw [fractionValue, ih, value_cons, digit, List.length_cons, pow_succ]
    push_cast
    field_simp

/-- The number that is denoted, by the digits that are read. -/
theorem value_eq : w.value = w.decimal.unscaled / 10 ^ w.fraction.length := by
  have hmagnitude : wholeValue w.whole + fractionValue w.fraction =
      (w.magnitude : ℚ) / 10 ^ w.fraction.length := by
    rw [magnitude, value_append, wholeValue_eq, fractionValue_eq]
    push_cast
    field_simp
  unfold value decimal
  rw [hmagnitude]
  dsimp only
  rw [Int.ofNat_eq_natCast]
  cases w.minus with
  | true =>
    rw [if_pos rfl, if_pos rfl]
    push_cast
    ring
  | false =>
    rw [if_neg Bool.false_ne_true, if_neg Bool.false_ne_true]
    push_cast
    ring

/-- The scale keeps the length of a fraction that it can count. -/
theorem toNat_scale_decimal (h : w.fraction.length < 2 ^ 32) :
    w.decimal.scale.toNat = w.fraction.length := UInt32.toNat_ofNat_of_lt' h

/-- What is read is the number that is denoted, if the scale can count the digits of the fraction. -/
theorem toRat_decimal_eq_iff :
    w.decimal.toRat = w.value ↔ w.fraction.length < 2 ^ 32 ∨ w.value = 0 := by
  have hpow : ∀ n : Nat, (10 : ℚ) ^ n ≠ 0 := fun n => pow_ne_zero n (by norm_num)
  have hvalue : w.value = 0 ↔ (w.decimal.unscaled : ℚ) = 0 := by
    rw [value_eq, div_eq_zero_iff, or_iff_left (hpow _)]
  rw [hvalue, value_eq, toRat]
  by_cases hzero : (w.decimal.unscaled : ℚ) = 0
  · rw [hzero, zero_div, zero_div]
    exact iff_of_true rfl (.inr rfl)
  · rw [div_eq_div_iff (hpow _) (hpow _), mul_right_inj' hzero,
      pow_right_inj₀ (by norm_num) (by norm_num), or_iff_left hzero]
    exact ⟨fun h => h ▸ w.decimal.scale.toNat_lt, fun h => (w.toNat_scale_decimal h).symm⟩

/-! ### Writing -/

/-- The digits of what has been read are those that were written, but for zeros in front. -/
theorem unsignedChars_decimal (h : w.fraction.length < 2 ^ 32) :
    w.decimal.unsignedChars = w.tidy.unsignedChars := by
  have habs : w.decimal.unscaled.natAbs = w.magnitude := by
    unfold decimal
    dsimp only
    split
    · rw [Int.natAbs_neg]
      rfl
    · rfl
  have hdigits : digits w.magnitude = withoutZeros (w.whole ++ w.fraction) :=
    digits_value (List.append_ne_nil_of_left_ne_nil w.whole_ne_nil _) w.isDigit_digits
  have hscale := w.toNat_scale_decimal h
  have hscale_zero : w.decimal.scale = 0 ↔ w.fraction = [] := by
    rw [← UInt32.toNat_inj, hscale, ← List.length_eq_zero_iff]
    rfl
  unfold Decimal.unsignedChars unsignedChars
  rw [habs, hdigits, hscale]
  show _ = if w.fraction = [] then withoutZeros w.whole else
    withoutZeros w.whole ++ '.' :: w.fraction
  dsimp only
  by_cases hfraction : w.fraction = []
  · rw [if_pos hfraction, if_pos (hscale_zero.mpr hfraction), hfraction, List.append_nil]
  · rw [if_neg hfraction, if_neg fun h => hfraction (hscale_zero.mp h),
      replicate_append_withoutZeros_append w.whole_ne_nil,
      List.length_append, Nat.add_sub_cancel, List.take_left, List.drop_left]

theorem unscaled_neg_iff : w.decimal.unscaled < 0 ↔ w.tidy.minus = true := by
  have hzero : w.magnitude = 0 ↔ ∀ c ∈ w.whole ++ w.fraction, c = '0' :=
    value_eq_zero_iff w.isDigit_digits
  have hsome : (w.whole ++ w.fraction).any (· ≠ '0') = true ↔ w.magnitude ≠ 0 := by
    rw [Ne, hzero, List.any_eq_true]
    simp
  show _ ↔ (w.minus && (w.whole ++ w.fraction).any (· ≠ '0')) = true
  rw [Bool.and_eq_true, hsome]
  unfold decimal
  dsimp only
  cases w.minus with
  | true =>
    rw [if_pos rfl, Int.ofNat_eq_natCast, and_iff_right rfl]
    omega
  | false =>
    rw [if_neg Bool.false_ne_true, Int.ofNat_eq_natCast]
    exact iff_of_false (by omega) fun h => Bool.false_ne_true h.1

/-- What has been read has the digits that were written, without superfluous zeros and signs. -/
theorem text_decimal (h : w.fraction.length < 2 ^ 32) : w.decimal.text = w.tidy.text := by
  unfold Decimal.text text Decimal.chars chars
  rw [w.unsignedChars_decimal h]
  by_cases hminus : w.tidy.minus = true
  · rw [if_pos (w.unscaled_neg_iff.mpr hminus), if_pos hminus]
  · rw [if_neg fun h => hminus (w.unscaled_neg_iff.mp h), if_neg hminus]

end Written

/-- What has been read is written as it was, or not at all. -/
theorem Written.text?_decimal (w : Written) (h : w.fraction.length < 2 ^ 32) :
    w.decimal.text? = if w.fraction.length < 65535 then some w.tidy.text else none := by
  have hscale := w.toNat_scale_decimal h
  split
  case isTrue hlt =>
    rw [text?_of_lt (UInt32.lt_iff_toNat_lt.mpr (hscale ▸ hlt)), w.text_decimal h]
  case isFalse hge =>
    exact text?_of_le (UInt32.le_iff_toNat_le.mpr (hscale ▸ Nat.not_lt.mp hge))

/-! ### Words -/

theorem toRat_of_scale_zero {d : Decimal} (h : d.scale = 0) : d.toRat = d.unscaled := by
  rw [toRat, h, UInt32.toNat_zero, pow_zero, div_one]

theorem toWord?_eq_some {d : Decimal} {v : Int} : d.toWord? = some v ↔
    d.scale = 0 ∧ d.toRat = v ∧ -2 ^ 63 ≤ v ∧ v < 2 ^ 63 := by
  have hfits : ∀ i : Int, fitsWord i = true ↔ -2 ^ 63 ≤ i ∧ i < 2 ^ 63 := by
    intro i
    have hmin : Int64.minValue.toInt = -2 ^ 63 := rfl
    have hmax : Int64.maxValue.toInt = 2 ^ 63 - 1 := rfl
    rw [fitsWord, hmin, hmax, Bool.and_eq_true, decide_eq_true_eq, decide_eq_true_eq,
      Int.le_sub_one_iff]
  rw [toWord?, Option.ite_none_right_eq_some, Bool.and_eq_true, decide_eq_true_eq, hfits,
    Option.some_inj, and_assoc]
  refine and_congr_right fun hscale => ?_
  rw [toRat_of_scale_zero hscale, Int.cast_inj, and_comm]
  exact and_congr_right fun heq => by rw [heq]

/-- The texts that are read as decimals are those of written decimals.  The scale of what is read is
the length of the fraction, in 32 bits, and its value is the number that was written exactly if this
length needs no more of them, zero apart.  It is written again as it was, but for superfluous zeros
in front and the sign of zero, if the fraction has fewer than `65535` digits, and not at all if it
has more.  A decimal of a smaller scale than this has a text, from which it is read back, and one of
a larger scale has none.  A decimal is a 64-bit word just if it has no fraction and its number is
one. -/
theorem decimals_are_exact (s : String) (w : Written) (d : Decimal) :
    ((ofText? s).isSome = true ↔ ∃ x : Written, x.text = s) ∧
    (∃ e, ofText? w.text = some e ∧ e.scale = .ofNat w.fraction.length ∧
      (e.toRat = w.value ↔ w.fraction.length < 2 ^ 32 ∨ w.value = 0) ∧
      (w.fraction.length < 2 ^ 32 →
        e.text? = if w.fraction.length < 65535 then some w.tidy.text else none)) ∧
    ((d.scale < 65535 → ∃ t, d.text? = some t ∧ ofText? t = some d) ∧
      (65535 ≤ d.scale → d.text? = none)) ∧
    ∀ v : Int, d.toWord? = some v ↔ d.scale = 0 ∧ d.toRat = v ∧ -2 ^ 63 ≤ v ∧ v < 2 ^ 63 := by
  refine ⟨⟨fun h => ?_, ?_⟩, ?_, ⟨fun h => ?_, text?_of_le⟩, fun v => toWord?_eq_some⟩
  · obtain ⟨e, he⟩ := Option.isSome_iff_exists.mp h
    obtain ⟨x, hx⟩ := Written.exists_of_ofChars? he
    exact ⟨x, by rw [Written.text, hx, String.ofList_toList]⟩
  · rintro ⟨x, rfl⟩
    rw [x.ofText?_text]
    rfl
  · exact ⟨w.decimal, w.ofText?_text, rfl, w.toRat_decimal_eq_iff, w.text?_decimal⟩
  · exact ⟨d.text, text?_of_lt h, ofText?_text d⟩

/-- Three digits with a zero in front, and a decimal of scale two. -/
theorem decimals_are_exact_cents :
    let w : Written := ⟨true, ['0', '1'], ['5', '0'], List.cons_ne_nil _ _, by simp, by simp⟩
    (w.fraction.length < 2 ^ 32 ∧ ∃ d, ofText? w.text = some d ∧ d.text? = some "-1.50") ∧
      (⟨-150, 2⟩ : Decimal).scale < 65535 ∧
      ∃ s, (⟨-150, 2⟩ : Decimal).text? = some s ∧ ofText? s = some ⟨-150, 2⟩ := by
  intro w
  have hlength : w.fraction.length < 2 ^ 32 := by decide
  obtain ⟨-, ⟨d, hread, -, -, htext⟩, ⟨hback, -⟩, -⟩ := decimals_are_exact "" w ⟨-150, 2⟩
  exact ⟨⟨hlength, d, hread, htext hlength⟩, by decide, hback (by decide)⟩

/-- A literal that is read, and of which no text can be made again. -/
theorem long_zero_has_no_text :
    ofText? (String.ofList ('0' :: '.' :: List.replicate 65535 '0')) = some ⟨0, 65535⟩ ∧
      (⟨0, 65535⟩ : Decimal).text? = none := by
  have hread := ofText?_text ⟨0, 65535⟩
  rw [text, chars_zero (by decide)] at hread
  exact ⟨hread, text?_of_le (UInt32.le_refl _)⟩

end Decimal

end StackScript
