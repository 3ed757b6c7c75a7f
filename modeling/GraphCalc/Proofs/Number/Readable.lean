import GraphCalc.Proofs.Number.Numeral
import GraphCalc.Proofs.Source.Spelling

/-! # Numbers in a few digits

A double that is written in a given number of digits can be read again, although not always as the same
double: what is written is a numeral, with a sign or without, or one of the words for infinity and the
undefined value. Main notions and statements:

* `Decimal.digits_rounded_pos`: a positive double has a first digit;
* `Decimal.exists_numeral_significant`: digits in any number are laid out as a numeral;
* `isFigure`: the characters in which numbers are written;
* `Readable`: a text of such characters that is read as a number;
* `readable_floatText`: all doubles are written readably.
-/

namespace GraphCalc
open GraphCalc.Text GraphCalc.Binary64
set_option autoImplicit false

/-! ## The first digit -/

namespace Decimal

theorem ten_pow_le {n : ℕ} (hn : 0 < n) : 10 ^ ((Nat.toDigits 10 n).length - 1) ≤ n := by
  rcases Nat.eq_zero_or_pos ((Nat.toDigits 10 n).length - 1) with hzero | hpos
  · rw [hzero]
    exact hn
  · have hiff := Nat.length_toDigits_le_iff (b := 10) (n := n) (by decide) hpos
    by_contra hlt
    have hle := hiff.mpr (Nat.lt_of_not_le hlt)
    omega

theorem ten_zpow_leadingPlace_le {num den : ℕ} (hn : 0 < num) (hd : 0 < den) :
    (10 : ℚ) ^ leadingPlace num den ≤ num / den := by
  have hiff := @div_lt_zpow_iff num den hd 10 (by decide)
  unfold leadingPlace
  dsimp only
  set guess : ℤ := (num.repr.length : ℤ) - den.repr.length with hguess
  split
  -- the guess was too large by one, and one less is what the lengths of both numbers ensure
  · have hlength (n : ℕ) : n.repr.length = (Nat.toDigits 10 n).length := by
      rw [← String.length_toList, Nat.toList_repr]
    have hpos : 0 < (Nat.toDigits 10 num).length := Nat.length_toDigits_pos
    have hnum : ((10 ^ ((Nat.toDigits 10 num).length - 1) : ℕ) : ℚ) ≤ num :=
      Nat.cast_le.mpr (ten_pow_le hn)
    have hden : (den : ℚ) ≤ ((10 ^ (Nat.toDigits 10 den).length : ℕ) : ℚ) := by
      refine Nat.cast_le.mpr (Nat.le_of_lt ?_)
      exact (Nat.length_toDigits_le_iff (by decide) Nat.length_toDigits_pos).mp le_rfl
    have hguess' : guess - 1 = (((Nat.toDigits 10 num).length - 1 : ℕ) : ℤ) -
        ((Nat.toDigits 10 den).length : ℕ) := by
      rw [hguess, hlength, hlength]
      omega
    have hden' : (0 : ℚ) < den := Nat.cast_pos.mpr hd
    rw [hguess', zpow_sub₀ (by norm_num), zpow_natCast, zpow_natCast]
    push_cast at hnum hden
    gcongr
  · next hnot =>
    have hlt := (hiff guess).not.mpr hnot
    push_cast at hlt
    exact not_lt.mp hlt

/-- A positive finite double has a first digit in any number of digits. -/
theorem digits_rounded_pos {count : ℕ} (hcount : 0 < count) {v : Float} (hpos : 0 < v.toBits.toNat)
    (hlt : v.toBits.toNat < infinityBits) : 0 < (rounded count v).digits := by
  have hden : 0 < (parts v).denominator := Nat.pow_pos (by decide)
  have hnum : 0 < (parts v).numerator := by
    rw [Nat.pos_iff_ne_zero]
    intro hzero
    have hread := ofRatio_of_parts hpos hlt
    rw [hzero, ofRatio_eq_zero (ratioBits_zero _)] at hread
    rw [← hread, toBits_zero] at hpos
    exact absurd hpos (by decide)
  unfold rounded
  dsimp only
  generalize hplace : leadingPlace (parts v).numerator (parts v).denominator - count + 1 = place
  have hle : (10 : ℚ) ^ place ≤ (parts v).numerator / (parts v).denominator := by
    refine le_trans ?_ (ten_zpow_leadingPlace_le hnum hden)
    exact zpow_le_zpow_right₀ (by norm_num) (by omega)
  have hunits : (inUnits (parts v).numerator (parts v).denominator place).2 ≤
      (inUnits (parts v).numerator (parts v).denominator place).1 := by
    have hiff := @div_lt_zpow_iff (parts v).numerator _ hden 10 (by decide) place
    push_cast at hiff
    exact Nat.le_of_not_lt (hiff.not.mp (not_lt.mpr hle))
  have hunit : 0 < (inUnits (parts v).numerator (parts v).denominator place).2 :=
    Nat.mul_pos hden (Nat.pow_pos (by decide))
  exact lt_of_lt_of_le (Nat.div_pos hunits hunit) (le_roundQuotient _ _)

end Decimal

/-! ## Digits as a numeral -/

/-- The numeral of digits with a point only in front of a fraction. -/
def plainNumeral (digits : List Char) (lead : ℤ) : Numeral :=
  if lead < 0 then ⟨['0'], some (List.replicate (-lead - 1).toNat '0' ++ digits), none⟩
  else
    let whole := (lead + 1).toNat
    let fraction := digits.drop whole
    ⟨digits.take whole ++ List.replicate (whole - digits.length) '0',
      if fraction.isEmpty then none else some fraction, none⟩

section Layout
variable {digits : List Char} {lead : ℤ}

theorem text_plainNumeral : (plainNumeral digits lead).text = positionalText false digits lead := by
  unfold plainNumeral positionalText
  split
  · simp [Numeral.text]
  · dsimp only
    split <;> simp [Numeral.text]

theorem valid_plainNumeral (hdigits : ∀ c ∈ digits, isDigit c = true) (hne : digits ≠ []) :
    (plainNumeral digits lead).Valid := by
  unfold plainNumeral
  split
  · refine ⟨by simp [isDigit_zero], ?_, .inl (by simp), by simp⟩
    intro c hc
    rcases List.mem_append.mp hc with hc | hc
    · exact isDigit_of_mem_replicate c hc
    · exact hdigits c hc
  · next hlead =>
    refine ⟨?_, ?_, .inl ?_, by simp⟩
    · intro c hc
      rcases List.mem_append.mp hc with hc | hc
      · exact hdigits c (List.mem_of_mem_take hc)
      · exact isDigit_of_mem_replicate c hc
    · intro c hc
      simp only [Numeral.fractionDigits] at hc
      split at hc
      · cases hc
      · exact hdigits c (List.mem_of_mem_drop hc)
    · obtain ⟨c, more, rfl⟩ := List.exists_cons_of_ne_nil hne
      obtain ⟨whole, hwhole⟩ : ∃ whole, (lead + 1).toNat = whole + 1 := ⟨lead.toNat, by omega⟩
      simp [hwhole]

end Layout

theorem withoutTrailingZeros_repr {n : ℕ} (hn : 0 < n) :
    withoutTrailingZeros n.repr.toList ≠ [] ∧
      ∀ c ∈ withoutTrailingZeros n.repr.toList, isDigit c = true := by
  rw [Nat.toList_repr]
  obtain ⟨k, hall⟩ := exists_zeros (Nat.toDigits 10 n)
  constructor
  · intro hnil
    have hvalue := digitsValue_toDigits n
    rw [hall, hnil, List.nil_append, digitsValue_replicate_zero] at hvalue
    omega
  · intro c hc
    have hmem := List.mem_append_left (List.replicate k '0') hc
    rw [← hall] at hmem
    exact isDigit_of_mem_toDigits c hmem

theorem Decimal.exists_numeral_significant (count : ℕ) {d : Decimal} (hpos : 0 < d.digits) :
    ∃ n : Numeral, n.Valid ∧ n.text = d.text (Style.significant count) := by
  obtain ⟨hne, hdigits⟩ := withoutTrailingZeros_repr hpos
  unfold Decimal.text
  dsimp only
  split
  · exact ⟨plainNumeral _ _, valid_plainNumeral hdigits hne, text_plainNumeral⟩
  · exact ⟨scientificNumeral _ _, valid_scientificNumeral hdigits hne, text_scientificNumeral⟩

/-! ## Characters of numbers -/

/-- The characters in which numbers are written: digits, signs, the point, and the letters of exponents
and of the words for infinity and the undefined value. -/
def isFigure (c : Char) : Bool :=
  isDigit c || ['+', '-', '.', 'e', 'E', 'i', 'n', 'f', 'a'].contains c

theorem isBlank_of_isFigure {c : Char} (h : isFigure c = true) : isBlank c = false := by
  rcases Bool.or_eq_true _ _ ▸ h with hdigit | hother
  · exact Token.isBlank_eq_false_of_isDigitLike (by simp [isDigitLike, hdigit])
  · simp only [List.contains_iff_mem, List.mem_cons, List.not_mem_nil, or_false] at hother
    rcases hother with rfl | rfl | rfl | rfl | rfl | rfl | rfl | rfl | rfl <;> rfl

namespace Numeral

theorem Exponent.Valid.isFigure {e : Exponent} (h : e.Valid) : ∀ c ∈ e.text, isFigure c = true := by
  intro c hc
  rcases List.mem_append.mp hc with hc | hc
  · rcases List.mem_cons.mp hc with rfl | hc
    · rcases h.mark with hmark | hmark <;> rw [hmark] <;> decide
    · rcases h.sign c (Option.mem_toList.mp hc) with rfl | rfl <;> decide
  · simp [GraphCalc.isFigure, h.digits c hc]

theorem Valid.isFigure {n : Numeral} (h : n.Valid) : ∀ c ∈ n.text, isFigure c = true := by
  obtain ⟨whole, fraction, exponent⟩ := n
  intro c hc
  rcases List.mem_append.mp hc with hc | hc
  · rcases List.mem_append.mp hc with hc | hc
    · simp [GraphCalc.isFigure, h.whole c hc]
    · cases fraction with
      | none => cases hc
      | some digits =>
        rcases List.mem_cons.mp hc with rfl | hc
        · decide
        · simp [GraphCalc.isFigure, h.fraction c hc]
  · cases exponent with
    | none => cases hc
    | some e => exact (h.exponent e rfl).isFigure c hc

end Numeral

/-! ## Reading again -/

/-- A text that is written in the characters of numbers and reads as one. -/
structure Readable (text : List Char) : Prop where
  nonempty : text ≠ []
  figures : ∀ c ∈ text, isFigure c = true
  reads : (Numeral.readFloat? text).isSome

namespace Numeral
variable {text : List Char}

theorem ungroup_eq_some (h : '_' ∉ text) (afterDigit : Bool) : ungroup afterDigit text = some text := by
  induction text generalizing afterDigit with
  | nil => rfl
  | cons c text ih =>
    obtain ⟨hc, htext⟩ := not_or.mp (List.mem_cons.not.mp h)
    rw [ungroup.eq_3 _ _ _ (by rintro rfl; exact absurd rfl hc), ih htext]
    rfl

/-- Between figures there is nothing that reading leaves out. -/
theorem readFloat?_of_figures (h : ∀ c ∈ text, GraphCalc.isFigure c = true) :
    readFloat? text = readSigned? text := by
  have hdrop (t : List Char) (ht : ∀ c ∈ t, GraphCalc.isFigure c = true) : t.dropWhile isMargin = t := by
    refine List.dropWhile_eq_self_iff.mpr fun hpos => ?_
    simp [isMargin, isBlank_of_isFigure (ht _ (List.getElem_mem hpos))]
  have hmargin : withoutMargin text = text := by
    rw [withoutMargin, hdrop text h, hdrop text.reverse fun c hc => h c (List.mem_reverse.mp hc),
      List.reverse_reverse]
  have hgroup : '_' ∉ text := fun hmem => absurd (h _ hmem) (by decide)
  rw [readFloat?, hmargin, ungroup_eq_some hgroup]
  rfl

/-- The first character of a numeral is its own small letter. -/
theorem toLower_of_starts {c : Char} (h : (isDigitLike c || c == '.') = true) : c.toLower = c := by
  refine Char.toLower_eq_of_not_isUpper fun hupper => ?_
  have hbounds : 65 ≤ c.toNat ∧ c.toNat ≤ 90 := by
    simpa [Char.isUpper, UInt32.le_iff_toNat_le] using hupper
  rw [Token.isDigitLike_of_between (by omega) (by omega), Bool.false_or, beq_iff_eq] at h
  rw [h] at hbounds
  exact absurd hbounds.1 (by decide)

theorem lookup_words {n : Numeral} (h : n.Valid) :
    words.lookup (String.ofList (n.text.map Char.toLower)) = none := by
  obtain ⟨c, more, htext⟩ := List.exists_cons_of_ne_nil h.ne_nil
  have hstart : (isDigitLike c || c == '.') = true := h.starts c (by rw [htext]; rfl)
  rw [htext, List.map_cons, toLower_of_starts hstart, List.lookup_eq_none_iff]
  intro p hp
  rw [bne_iff_ne]
  intro heq
  -- a word starts with a letter, which no numeral does
  have hhead : p.1.toList.head? = some c := by
    rw [← heq, String.toList_ofList]
    rfl
  simp only [words, List.mem_cons, List.not_mem_nil, or_false] at hp
  rcases hp with rfl | rfl | rfl
  · obtain rfl : 'i' = c := Option.some.inj hhead
    exact absurd hstart (by decide)
  · obtain rfl : 'i' = c := Option.some.inj hhead
    exact absurd hstart (by decide)
  · obtain rfl : 'n' = c := Option.some.inj hhead
    exact absurd hstart (by decide)

theorem readMagnitude?_text {n : Numeral} (h : n.Valid) : readMagnitude? n.text = some n.value := by
  have hstop : StopsAt continues [] := fun c hc => by cases hc
  have hlongest := longest?_text hstop h
  rw [List.append_nil] at hlongest
  rw [readMagnitude?, lookup_words h, hlongest]
  simp

theorem splitSign_text {n : Numeral} (h : n.Valid) : splitSign n.text = (false, n.text) := by
  obtain ⟨c, more, htext⟩ := List.exists_cons_of_ne_nil h.ne_nil
  have hstart : (isDigitLike c || c == '.') = true := h.starts c (by rw [htext]; rfl)
  rw [htext]
  refine splitSign.eq_3 _ ?_ ?_
  · rintro rest ⟨rfl, -⟩
    exact absurd hstart (by decide)
  · rintro rest ⟨rfl, -⟩
    exact absurd hstart (by decide)

theorem readable_text {n : Numeral} (h : n.Valid) : Readable n.text := by
  refine ⟨h.ne_nil, h.isFigure, ?_⟩
  rw [readFloat?_of_figures h.isFigure, readSigned?, splitSign_text h]
  simp [readMagnitude?_text h]

theorem readable_minus {n : Numeral} (h : n.Valid) : Readable ('-' :: n.text) := by
  have hfigures : ∀ c ∈ '-' :: n.text, GraphCalc.isFigure c = true :=
    List.forall_mem_cons.mpr ⟨by decide, h.isFigure⟩
  refine ⟨List.cons_ne_nil _ _, hfigures, ?_⟩
  rw [readFloat?_of_figures hfigures, readSigned?]
  simp [splitSign, readMagnitude?_text h]

end Numeral

/-! ## All doubles -/

section Significant
variable {count : ℕ} (hcount : 0 < count) {v : Float}
include hcount

theorem exists_numeral_magnitudeText (hfinite : v.isFinite = true) (hsign : isNegative v = false) :
    ∃ n : Numeral, n.Valid ∧ n.text = magnitudeText (Style.significant count) v := by
  have hmagnitude := magnitude_of_not_isNegative hsign
  have hlt := isFinite_iff.mp hfinite
  have hinf : v.isInf = false := by
    rw [Bool.eq_false_iff, ne_eq, isInf_iff]
    omega
  rw [magnitudeText, hinf, if_neg Bool.false_ne_true]
  split
  · exact ⟨⟨['0'], none, none⟩, ⟨by simp [isDigit_zero], by simp [Numeral.fractionDigits],
      .inl (by simp), by simp⟩, rfl⟩
  · next hnonzero =>
    have hpos : 0 < v.toBits.toNat := by
      rw [beq_zero_iff] at hnonzero
      omega
    exact Decimal.exists_numeral_significant count
      (Decimal.digits_rounded_pos hcount hpos (hmagnitude ▸ hlt))

/-- Every double is written readably. -/
theorem readable_floatText (v : Float) : Readable (floatText (Style.significant count) v) := by
  cases hnan : v.isNaN with
  | true =>
    rw [floatText_of_isNaN hnan]
    refine ⟨List.cons_ne_nil _ _, ?_, rfl⟩
    show ∀ c ∈ ['n', 'a', 'n'], isFigure c = true
    simp [isFigure]
  | false =>
    have hsign := isNegative_abs hnan
    cases hfinite : v.isFinite with
    | true =>
      have habs := (isFinite_abs hnan).trans hfinite
      cases hnegative : isNegative v with
      | true =>
        obtain ⟨n, hvalid, htext⟩ := exists_numeral_magnitudeText hcount habs hsign
        rw [floatText_of_isNegative hnan hnegative,
          floatText_of_not_isNegative (isNaN_abs hnan) hsign, ← htext]
        exact Numeral.readable_minus hvalid
      | false =>
        obtain ⟨n, hvalid, htext⟩ := exists_numeral_magnitudeText hcount hfinite hnegative
        rw [floatText_of_not_isNegative hnan hnegative, ← htext]
        exact Numeral.readable_text hvalid
    | false =>
      have habs : v.abs.isInf = true :=
        isInf_of_not_isFinite (isNaN_abs hnan) ((isFinite_abs hnan).trans hfinite)
      cases hnegative : isNegative v with
      | true =>
        rw [floatText, hnan, hnegative, magnitudeText, habs]
        refine ⟨List.cons_ne_nil _ _, ?_, rfl⟩
        show ∀ c ∈ ['-', 'i', 'n', 'f'], isFigure c = true
        simp [isFigure]
      | false =>
        rw [floatText_of_not_isNegative hnan hnegative, magnitudeText,
          isInf_of_not_isFinite hnan hfinite]
        refine ⟨List.cons_ne_nil _ _, ?_, rfl⟩
        show ∀ c ∈ ['i', 'n', 'f'], isFigure c = true
        simp [isFigure]

end Significant
end GraphCalc
