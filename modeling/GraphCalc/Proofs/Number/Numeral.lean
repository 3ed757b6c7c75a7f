import GraphCalc.Number.Text
import GraphCalc.Proofs.Number.Decimal

/-! # Numerals and the texts of doubles

What is written for a double is a numeral of its value, and the longest numeral at the start of a
text is the one that stands there. Main notions and statements:

* `Numeral.Valid`: the digits of a numeral are digits and its exponent is one;
* `Numeral.longest?_text`: a valid numeral is found again in front of anything that does not
  continue it;
* `Decimal.exists_numeral`: the full text of a decimal is a valid numeral of the same number;
* `exists_numeral_floatText`: the full text of a finite double without sign is a valid numeral whose
  value is that double;
* `bracket_not_mem_floatText`: no text of a double holds a bracket, in which styles are written.
-/

namespace GraphCalc
open GraphCalc.Text GraphCalc.Binary64
set_option autoImplicit false

/-! ## Runs of characters -/

section Runs
variable {p : Char → Bool}

/-- What follows a run does not continue it. -/
def StopsAt (p : Char → Bool) (rest : List Char) : Prop := ∀ c ∈ rest.head?, p c = false

theorem takeWhile_run {run rest : List Char} (hrun : ∀ c ∈ run, p c = true) (hrest : StopsAt p rest) :
    (run ++ rest).takeWhile p = run := by
  rw [List.takeWhile_append_of_pos hrun]
  cases rest with
  | nil => simp
  | cons c rest => simp [hrest c rfl]

theorem dropWhile_run {run rest : List Char} (hrun : ∀ c ∈ run, p c = true) (hrest : StopsAt p rest) :
    (run ++ rest).dropWhile p = rest := by
  rw [List.dropWhile_append_of_pos hrun]
  cases rest with
  | nil => simp
  | cons c rest => simp [hrest c rfl]

end Runs

/-! ## Digits of base ten -/

namespace Text

theorem digitsValue_foldl (digits : List Char) (value : ℕ) :
    digits.foldl (fun value c => 10 * value + (digitValue? c).getD 0) value =
      value * 10 ^ digits.length + digitsValue digits := by
  induction digits generalizing value with
  | nil => simp [digitsValue]
  | cons c digits ih =>
    rw [digitsValue, List.foldl_cons, List.foldl_cons, ih, ih, List.length_cons, pow_succ]
    ring

theorem digitsValue_append (digits more : List Char) :
    digitsValue (digits ++ more) = digitsValue digits * 10 ^ more.length + digitsValue more := by
  rw [digitsValue, List.foldl_append, digitsValue_foldl]
  rfl

theorem digitsValue_cons (c : Char) (digits : List Char) :
    digitsValue (c :: digits) = (digitValue? c).getD 0 * 10 ^ digits.length + digitsValue digits := by
  rw [digitsValue, List.foldl_cons, digitsValue_foldl]
  simp

theorem digitValue?_digitChar {d : ℕ} (h : d < 10) : digitValue? d.digitChar = some d := by
  unfold digitValue?
  rw [Nat.toNat_digitChar_of_lt_ten h]
  have h1 : 48 + d < 0x80 := by omega
  have h2 : 0x30 ≤ 48 + d ∧ 48 + d ≤ 0x39 := by omega
  simp [h1, h2]

theorem isDigit_digitChar {d : ℕ} (h : d < 10) : isDigit d.digitChar = true := by
  rw [isDigit, digitValue?_digitChar h]
  rfl

theorem isDigit_zero : isDigit '0' = true := isDigit_digitChar (d := 0) (by decide)

theorem isDigit_of_mem_toDigits {n : ℕ} : ∀ c ∈ Nat.toDigits 10 n, isDigit c = true := by
  induction n using Nat.strongRecOn with
  | ind n ih =>
    intro c hc
    rw [Nat.toDigits_eq_if (by decide)] at hc
    split at hc
    · next hlt =>
      obtain rfl := List.mem_singleton.mp hc
      exact isDigit_digitChar hlt
    · next hge =>
      rcases List.mem_append.mp hc with hc | hc
      · exact ih (n / 10) (by omega) c hc
      · obtain rfl := List.mem_singleton.mp hc
        exact isDigit_digitChar (Nat.mod_lt _ (by decide))

theorem digitsValue_toDigits (n : ℕ) : digitsValue (Nat.toDigits 10 n) = n := by
  induction n using Nat.strongRecOn with
  | ind n ih =>
    rw [Nat.toDigits_eq_if (by decide)]
    split
    · next hlt => simp [digitsValue, digitValue?_digitChar hlt]
    · next hge =>
      rw [digitsValue_append, ih (n / 10) (by omega)]
      have hmod : n % 10 < 10 := Nat.mod_lt _ (by decide)
      simp [digitsValue, digitValue?_digitChar hmod]
      omega

@[simp] theorem digitsValue_replicate_zero (k : ℕ) : digitsValue (List.replicate k '0') = 0 := by
  induction k with
  | zero => rfl
  | succ k ih =>
    rw [List.replicate_succ, digitsValue_cons, ih]
    simp [digitValue?]

theorem digitsValue_append_zeros (digits : List Char) (k : ℕ) :
    digitsValue (digits ++ List.replicate k '0') = digitsValue digits * 10 ^ k := by
  rw [digitsValue_append, digitsValue_replicate_zero, List.length_replicate, Nat.add_zero]

end Text

/-! ## Valid numerals -/

namespace Numeral

/-- An exponent as texts have it. -/
structure Exponent.Valid (e : Exponent) : Prop where
  mark : e.mark = 'e' ∨ e.mark = 'E'
  sign : ∀ c ∈ e.sign, c = '+' ∨ c = '-'
  nonempty : e.digits ≠ []
  digits : ∀ c ∈ e.digits, isDigit c = true

/-- A numeral as texts have it. -/
structure Valid (n : Numeral) : Prop where
  whole : ∀ c ∈ n.whole, isDigit c = true
  fraction : ∀ c ∈ n.fractionDigits, isDigit c = true
  nonempty : n.whole ≠ [] ∨ n.fractionDigits ≠ []
  exponent : ∀ e ∈ n.exponent, e.Valid

/-- Whether a character may continue a numeral. -/
def continues (c : Char) : Bool := isDigit c || c == '.' || c == 'e' || c == 'E'

section Longest
variable {rest : List Char} (hrest : StopsAt continues rest)
include hrest

theorem stopsAt_isDigit : StopsAt isDigit rest := by
  intro c hc
  have h := hrest c hc
  simp only [continues, Bool.or_eq_false_iff] at h
  exact h.1.1.1

theorem Exponent.longest?_rest : Exponent.longest? rest = none := by
  cases rest with
  | nil => rfl
  | cons c rest =>
    have h := hrest c rfl
    simp only [continues, Bool.or_eq_false_iff, beq_eq_false_iff_ne] at h
    simp [Exponent.longest?, h.1.2, h.2]

theorem Exponent.longest?_text {e : Exponent} (h : e.Valid) :
    Exponent.longest? (e.text ++ rest) = some e := by
  obtain ⟨mark, sign, digits⟩ := e
  have hmark : mark = 'e' ∨ mark = 'E' := h.mark
  have hrun := takeWhile_run h.digits (stopsAt_isDigit hrest)
  have hnonempty : digits.isEmpty = false := by simpa using h.nonempty
  dsimp only at hrun
  cases sign with
  | none =>
    obtain ⟨c, more, rfl⟩ := List.exists_cons_of_ne_nil h.nonempty
    have hc : isDigit c = true := h.digits c (List.mem_cons_self ..)
    have hsign : ¬ (c = '+' ∨ c = '-') := by
      rintro (rfl | rfl) <;> exact absurd hc (by decide)
    simp only [Exponent.text, Exponent.longest?, Option.toList_none, List.nil_append,
      List.cons_append, if_pos hmark, if_neg hsign]
    rw [List.cons_append] at hrun
    simp [hrun]
  | some c =>
    have hsign : c = '+' ∨ c = '-' := h.sign c rfl
    simp [Exponent.text, Exponent.longest?, hmark, hsign, hrun, hnonempty]

theorem exponent_rest {o : Option Exponent} (h : ∀ e ∈ o, e.Valid) :
    Exponent.longest? ((o.map Exponent.text).getD [] ++ rest) = o := by
  cases o with
  | none => exact Exponent.longest?_rest hrest
  | some e => exact Exponent.longest?_text hrest (h e rfl)

/-- Neither an exponent nor what stops a numeral starts with a digit or a point. -/
theorem exponent_rest_stops {o : Option Exponent} (h : ∀ e ∈ o, e.Valid) :
    StopsAt (fun c => isDigit c || c == '.') ((o.map Exponent.text).getD [] ++ rest) := by
  intro c hc
  cases o with
  | none =>
    have hstop := hrest c hc
    simp only [continues, Bool.or_eq_false_iff] at hstop
    simp [hstop.1.1.1, hstop.1.1.2]
  | some e =>
    obtain rfl : e.mark = c := by simpa [Exponent.text] using hc
    rcases (h e rfl).mark with hmark | hmark <;> rw [hmark] <;> decide

/-- A valid numeral is found again in front of anything that does not continue it. -/
theorem longest?_text {n : Numeral} (h : n.Valid) : longest? (n.text ++ rest) = some n := by
  obtain ⟨whole, fraction, exponent⟩ := n
  have hexponent := exponent_rest hrest h.exponent
  have hstops := exponent_rest_stops hrest h.exponent
  have hwhole : ∀ c ∈ whole, isDigit c = true := h.whole
  dsimp only at hexponent hstops
  generalize htail : (exponent.map Exponent.text).getD [] ++ rest = tail at hexponent hstops
  have hdigit : StopsAt isDigit tail := fun c hc => (Bool.or_eq_false_iff.mp (hstops c hc)).1
  cases fraction with
  | none =>
    have hnonempty : whole.isEmpty = false := by
      rcases h.nonempty with hne | hne
      · simpa using hne
      · exact absurd rfl hne
    have htext : (⟨whole, none, exponent⟩ : Numeral).text ++ rest = whole ++ tail := by
      simp [text, ← htail]
    rw [htext, longest?, takeWhile_run hwhole hdigit, dropWhile_run hwhole hdigit]
    dsimp only
    split
    · exact absurd (hstops '.' rfl) (by decide)
    · simp [hnonempty, hexponent]
  | some digits =>
    have hdigits : ∀ c ∈ digits, isDigit c = true := h.fraction
    have hpoint : StopsAt isDigit ('.' :: (digits ++ tail)) := by
      rintro c ⟨⟩
      decide
    have hnonempty : (whole.isEmpty && digits.isEmpty) = false := by
      rcases h.nonempty with hne | hne
      · simpa using fun hempty => absurd hempty hne
      · exact Bool.and_eq_false_imp.mpr fun _ => by simpa [fractionDigits] using hne
    have htext : (⟨whole, some digits, exponent⟩ : Numeral).text ++ rest =
        whole ++ '.' :: (digits ++ tail) := by
      simp [text, ← htail]
    rw [htext, longest?, takeWhile_run hwhole hpoint, dropWhile_run hwhole hpoint]
    simp only [takeWhile_run hdigits hdigit, dropWhile_run hdigits hdigit, hexponent, hnonempty]
    rfl

end Longest

theorem Valid.ne_nil {n : Numeral} (h : n.Valid) : n.text ≠ [] := by
  obtain ⟨whole, fraction, exponent⟩ := n
  intro hnil
  simp only [text, List.append_eq_nil_iff] at hnil
  rcases h.nonempty with hne | hne
  · exact hne hnil.1.1
  · cases fraction with
    | none => exact hne rfl
    | some digits => exact absurd hnil.1.2 (by simp)

theorem Valid.starts {n : Numeral} (h : n.Valid) :
    ∀ c ∈ n.text.head?, (isDigitLike c || c == '.') = true := by
  obtain ⟨whole, fraction, exponent⟩ := n
  intro c hc
  cases whole with
  | cons d whole =>
    obtain rfl : d = c := by simpa [text] using hc
    have hd : isDigit d = true := h.whole d (List.mem_cons_self ..)
    simp [isDigitLike, hd]
  | nil =>
    cases fraction with
    | none => exact absurd rfl (h.nonempty.resolve_left (fun hne => hne rfl))
    | some digits =>
      obtain rfl : '.' = c := by simpa [text] using hc
      decide

end Numeral

/-! ## The number of a numeral -/

namespace Numeral

theorem rational_decimal (n : Numeral) :
    n.decimal.rational = digitsValue (n.whole ++ n.fractionDigits) *
      (10 : ℚ) ^ ((n.exponent.map Exponent.value).getD 0 - n.fractionDigits.length) :=
  rfl

end Numeral

/-! ## Layouts of digits -/

/-- The numeral of digits with a point where the powers of ten turn negative. -/
def positionalNumeral (digits : List Char) (lead : ℤ) : Numeral :=
  if lead < 0 then ⟨['0'], some (List.replicate (-lead - 1).toNat '0' ++ digits), none⟩
  else
    let whole := (lead + 1).toNat
    let fraction := digits.drop whole
    ⟨digits.take whole ++ List.replicate (whole - digits.length) '0',
      some (if fraction.isEmpty then ['0'] else fraction), none⟩

/-- The exponent of a power of ten. -/
def exponentNumeral (power : ℤ) : Numeral.Exponent :=
  let digits := Nat.toDigits 10 power.natAbs
  ⟨'e', some (if power < 0 then '-' else '+'), if digits.length < 2 then '0' :: digits else digits⟩

/-- The numeral of digits with a point after the first one. -/
def scientificNumeral (digits : List Char) (lead : ℤ) : Numeral :=
  let fraction := digits.drop 1
  ⟨digits.take 1, if fraction.isEmpty then none else some fraction, some (exponentNumeral lead)⟩

section Layout
variable {digits : List Char} {lead : ℤ}

theorem text_positionalNumeral :
    (positionalNumeral digits lead).text = positionalText true digits lead := by
  unfold positionalNumeral positionalText
  split
  · simp [Numeral.text]
  · dsimp only
    split <;> simp [Numeral.text]

theorem text_exponentNumeral : (exponentNumeral lead).text = exponentText lead := by
  simp [exponentNumeral, exponentText, Numeral.Exponent.text]

theorem text_scientificNumeral :
    (scientificNumeral digits lead).text = scientificText digits lead := by
  unfold scientificNumeral scientificText
  dsimp only
  split <;> simp [Numeral.text, text_exponentNumeral]

theorem isDigit_of_mem_replicate {k : ℕ} : ∀ c ∈ List.replicate k '0', isDigit c = true := by
  intro c hc
  rw [List.eq_of_mem_replicate hc]
  exact isDigit_zero

theorem valid_positionalNumeral (hdigits : ∀ c ∈ digits, isDigit c = true) :
    (positionalNumeral digits lead).Valid := by
  unfold positionalNumeral
  split
  · refine ⟨by simp [isDigit_zero], ?_, .inl (by simp), by simp⟩
    intro c hc
    rcases List.mem_append.mp hc with hc | hc
    · exact isDigit_of_mem_replicate c hc
    · exact hdigits c hc
  · dsimp only
    refine ⟨?_, ?_, .inr ?_, by simp⟩
    · intro c hc
      rcases List.mem_append.mp hc with hc | hc
      · exact hdigits c (List.mem_of_mem_take hc)
      · exact isDigit_of_mem_replicate c hc
    · intro c hc
      simp only [Numeral.fractionDigits, Option.getD_some] at hc
      split at hc
      · obtain rfl := List.mem_singleton.mp hc
        exact isDigit_zero
      · exact hdigits c (List.mem_of_mem_drop hc)
    · simp only [Numeral.fractionDigits, Option.getD_some]
      split
      · simp
      · next h => simpa using h

theorem valid_exponentNumeral : (exponentNumeral lead).Valid := by
  refine ⟨.inl rfl, ?_, ?_, ?_⟩
  · intro c hc
    obtain rfl := Option.mem_some.mp hc
    split <;> simp
  · unfold exponentNumeral
    dsimp only
    split <;> simp
  · intro c hc
    unfold exponentNumeral at hc
    dsimp only at hc
    split at hc
    · rcases List.mem_cons.mp hc with rfl | hc
      · exact isDigit_zero
      · exact isDigit_of_mem_toDigits c hc
    · exact isDigit_of_mem_toDigits c hc

theorem valid_scientificNumeral (hdigits : ∀ c ∈ digits, isDigit c = true) (hne : digits ≠ []) :
    (scientificNumeral digits lead).Valid := by
  refine ⟨?_, ?_, .inl ?_, ?_⟩
  · exact fun c hc => hdigits c (List.mem_of_mem_take hc)
  · intro c hc
    unfold scientificNumeral Numeral.fractionDigits at hc
    dsimp only at hc
    split at hc
    · simp at hc
    · exact hdigits c (List.mem_of_mem_drop hc)
  · obtain ⟨c, digits, rfl⟩ := List.exists_cons_of_ne_nil hne
    simp [scientificNumeral]
  · intro e he
    obtain rfl := Option.mem_some.mp he
    exact valid_exponentNumeral

/-- The first digit counts `10 ^ lead`, so the last one counts the power by their number less. -/
theorem rational_positionalNumeral : (positionalNumeral digits lead).decimal.rational =
    digitsValue digits * (10 : ℚ) ^ (lead + 1 - digits.length) := by
  have hten : (10 : ℚ) ≠ 0 := by norm_num
  rw [Numeral.rational_decimal]
  unfold positionalNumeral
  split
  · next hneg =>
    have hvalue : digitsValue (['0'] ++ (List.replicate (-lead - 1).toNat '0' ++ digits)) =
        digitsValue digits := by
      rw [← List.append_assoc, digitsValue_append,
        show ['0'] ++ List.replicate (-lead - 1).toNat '0' = List.replicate _ '0' from
          List.replicate_succ.symm, digitsValue_replicate_zero]
      simp
    simp only [Numeral.fractionDigits, Option.getD_some, hvalue, Option.map_none, Option.getD_none]
    congr 2
    simp
    omega
  · next hpos =>
    simp only [Numeral.fractionDigits, Option.getD_some, Option.map_none, Option.getD_none]
    generalize hwhole : (lead + 1).toNat = whole
    split
    · next hempty =>
      have hle : digits.length ≤ whole := by simpa using hempty
      have hzeros : digits.take whole ++ List.replicate (whole - digits.length) '0' ++ ['0'] =
          digits ++ List.replicate (whole - digits.length + 1) '0' := by
        rw [List.take_of_length_le hle, List.replicate_succ', List.append_assoc]
      rw [hzeros, digitsValue_append_zeros]
      push_cast
      rw [mul_assoc, ← zpow_natCast, ← zpow_add₀ hten]
      congr 2
      simp
      omega
    · next hmore =>
      have hlt : whole < digits.length := by simpa using hmore
      have hnone : whole - digits.length = 0 := by omega
      rw [hnone, List.replicate_zero, List.append_nil, List.take_append_drop]
      congr 2
      simp
      omega

theorem value_exponentNumeral : (exponentNumeral lead).value = lead := by
  have hvalue : digitsValue (exponentNumeral lead).digits = lead.natAbs := by
    unfold exponentNumeral
    dsimp only
    split
    · rw [digitsValue_cons, digitsValue_toDigits]
      simp [digitValue?]
    · exact digitsValue_toDigits _
  have hsign : (exponentNumeral lead).sign = some '-' ↔ lead < 0 := by
    unfold exponentNumeral
    by_cases hneg : lead < 0 <;> simp [hneg]
  unfold Numeral.Exponent.value
  rw [hvalue]
  dsimp only
  split
  · next h =>
    have hneg := hsign.mp h
    omega
  · next h =>
    have hpos := hsign.not.mp h
    omega

theorem rational_scientificNumeral (hne : digits ≠ []) :
    (scientificNumeral digits lead).decimal.rational =
      digitsValue digits * (10 : ℚ) ^ (lead + 1 - digits.length) := by
  have hfraction : (scientificNumeral digits lead).fractionDigits = digits.drop 1 := by
    unfold scientificNumeral Numeral.fractionDigits
    dsimp only
    split
    · next hempty => simpa using hempty
    · rfl
  have hwhole : (scientificNumeral digits lead).whole = digits.take 1 := rfl
  have hexponent : (scientificNumeral digits lead).exponent = some (exponentNumeral lead) := rfl
  have hlength : 0 < digits.length := List.length_pos_of_ne_nil hne
  rw [Numeral.rational_decimal, hfraction, hwhole, hexponent, List.take_append_drop,
    Option.map_some, Option.getD_some, value_exponentNumeral]
  congr 2
  simp
  omega

end Layout

/-! ## Texts of decimals and doubles -/

/-- Digits without the zeros at their end, and as many zeros as there were. -/
theorem exists_zeros (all : List Char) :
    ∃ k, all = withoutTrailingZeros all ++ List.replicate k '0' := by
  have hsplit := List.takeWhile_append_dropWhile (p := (· == '0')) (l := all.reverse)
  have hzeros : ∀ c ∈ all.reverse.takeWhile (· == '0'), c = '0' := fun c hc => by
    simpa using List.mem_takeWhile_imp hc
  obtain ⟨k, hk⟩ : ∃ k, all.reverse.takeWhile (· == '0') = List.replicate k '0' :=
    ⟨_, List.eq_replicate_iff.mpr ⟨rfl, hzeros⟩⟩
  refine ⟨k, ?_⟩
  calc all = (all.reverse.takeWhile (· == '0') ++ all.reverse.dropWhile (· == '0')).reverse := by
        rw [hsplit, List.reverse_reverse]
    _ = withoutTrailingZeros all ++ List.replicate k '0' := by
        rw [hk, List.reverse_append, List.reverse_replicate, withoutTrailingZeros]

/-- The full text of a positive decimal is a valid numeral of the same number. -/
theorem Decimal.exists_numeral {d : Decimal} (hpos : 0 < d.digits) :
    ∃ n : Numeral, n.Valid ∧ n.text = d.text Style.full ∧ n.decimal.rational = d.rational := by
  obtain ⟨k, hall⟩ := exists_zeros (Nat.toDigits 10 d.digits)
  generalize hdigits : withoutTrailingZeros (Nat.toDigits 10 d.digits) = digits at hall
  set lead : ℤ := d.exponent + (Nat.toDigits 10 d.digits).length - 1 with hlead
  have htext : d.text Style.full = if -4 ≤ lead ∧ lead < 16 then positionalText true digits lead
      else scientificText digits lead := by
    simp [Decimal.text, Style.full, hdigits, hlead]
  have hvalue : d.digits = digitsValue digits * 10 ^ k := by
    rw [← digitsValue_append_zeros, ← hall, digitsValue_toDigits]
  have hrational : d.rational = digitsValue digits * (10 : ℚ) ^ (lead + 1 - digits.length) := by
    have hlength := congrArg List.length hall
    rw [List.length_append, List.length_replicate] at hlength
    have hexponent : lead + 1 - digits.length = k + d.exponent := by omega
    rw [Decimal.rational, hvalue, hexponent, zpow_add₀ (by norm_num), zpow_natCast, ← mul_assoc]
    push_cast
    rfl
  have hmem : ∀ c ∈ digits, isDigit c = true := fun c hc =>
    isDigit_of_mem_toDigits c (hall ▸ List.mem_append_left _ hc)
  have hne : digits ≠ [] := by
    rintro rfl
    simp [digitsValue] at hvalue
    omega
  rw [htext, hrational]
  split
  · exact ⟨positionalNumeral digits lead, valid_positionalNumeral hmem, text_positionalNumeral,
      rational_positionalNumeral⟩
  · exact ⟨scientificNumeral digits lead, valid_scientificNumeral hmem hne, text_scientificNumeral,
      rational_scientificNumeral hne⟩

theorem floatText_of_isNaN {v : Float} (h : v.isNaN = true) (style : Style) :
    floatText style v = "nan".toList := by
  rw [floatText, if_pos h]

theorem floatText_of_not_isNegative {v : Float} (hnan : v.isNaN = false)
    (hsign : isNegative v = false) (style : Style) : floatText style v = magnitudeText style v := by
  rw [floatText, hnan, hsign]
  rfl

/-- A double with a sign is written as a minus sign before the text of its magnitude. -/
theorem floatText_of_isNegative {v : Float} (hnan : v.isNaN = false) (hsign : isNegative v = true)
    (style : Style) : floatText style v = '-' :: floatText style v.abs := by
  rw [floatText_of_not_isNegative (isNaN_abs hnan) (isNegative_abs hnan), floatText, hnan, hsign]
  rfl

/-- The full text of a finite double without sign is a valid numeral whose value is that double. -/
theorem exists_numeral_floatText {v : Float} (hfinite : v.isFinite = true)
    (hsign : isNegative v = false) :
    ∃ n : Numeral, n.Valid ∧ n.text = floatText Style.full v ∧ n.value = v := by
  have hmagnitude := magnitude_of_not_isNegative hsign
  have hlt := isFinite_iff.mp hfinite
  have hinf : v.isInf = false := by
    rw [Bool.eq_false_iff, ne_eq, isInf_iff]
    omega
  have htext : floatText Style.full v =
      if v == 0.0 then "0.0".toList else (Decimal.shortest v).text Style.full := by
    rw [floatText_of_not_isNegative (isNaN_of_isFinite hfinite) hsign, magnitudeText, hinf]
    rfl
  rw [htext]
  split
  · next hzero =>
    have hbits : v.toBits = 0 := by
      apply UInt64.toNat_inj.mp
      rw [← hmagnitude, beq_zero_iff.mp hzero]
      rfl
    refine ⟨⟨['0'], some ['0'], none⟩, ⟨by simp [isDigit_zero],
      by simp [Numeral.fractionDigits, isDigit_zero], .inl (by simp), by simp⟩, rfl, ?_⟩
    exact toBits_injective (toBits_zero.trans hbits.symm)
  · next hnonzero =>
    have hpos : 0 < v.toBits.toNat := by
      rw [beq_zero_iff] at hnonzero
      omega
    have hread := Decimal.toFloat_shortest hpos (hmagnitude ▸ hlt)
    obtain ⟨n, hvalid, htext, hrational⟩ :=
      Decimal.exists_numeral (Decimal.digits_shortest_pos hpos (hmagnitude ▸ hlt))
    exact ⟨n, hvalid, htext, (Decimal.toFloat_congr hrational).trans hread⟩

/-! ## Brackets -/

section Brackets
variable {digits : List Char} {lead : ℤ}

theorem bracket_not_mem_positionalText {keepsFraction : Bool} (h : '[' ∉ digits) :
    '[' ∉ positionalText keepsFraction digits lead := by
  have htake (n : ℕ) : '[' ∉ digits.take n := fun hc => h (List.mem_of_mem_take hc)
  have hdrop (n : ℕ) : '[' ∉ digits.drop n := fun hc => h (List.mem_of_mem_drop hc)
  unfold positionalText
  split
  · simp [h]
  · dsimp only
    split
    · split <;> simp [htake]
    · simp [htake, hdrop]

theorem bracket_not_mem_digits {n : ℕ} : '[' ∉ Nat.toDigits 10 n := fun hc =>
  absurd (isDigit_of_mem_toDigits _ hc) (by decide)

theorem bracket_not_mem_scientificText (h : '[' ∉ digits) : '[' ∉ scientificText digits lead := by
  have htake : '[' ∉ digits.take 1 := fun hc => h (List.mem_of_mem_take hc)
  have htail : '[' ∉ digits.tail := fun hc => h (List.mem_of_mem_tail hc)
  have hexponent : '[' ∉ exponentText lead := by
    unfold exponentText
    dsimp only
    split <;> split <;> simp [bracket_not_mem_digits]
  unfold scientificText
  dsimp only
  split <;> simp [htake, htail, hexponent]

theorem bracket_not_mem_text (style : Style) (d : Decimal) : '[' ∉ d.text style := by
  have hdigits : '[' ∉ withoutTrailingZeros d.digits.repr.toList := by
    intro hc
    obtain ⟨k, hall⟩ := exists_zeros d.digits.repr.toList
    have hmem := List.mem_append_left (List.replicate k '0') hc
    rw [← hall, Nat.toList_repr] at hmem
    exact bracket_not_mem_digits hmem
  unfold Decimal.text
  dsimp only
  split
  · exact bracket_not_mem_positionalText hdigits
  · exact bracket_not_mem_scientificText hdigits

theorem bracket_not_mem_floatText (style : Style) (v : Float) : '[' ∉ floatText style v := by
  have hmagnitude (w : Float) : '[' ∉ magnitudeText style w := by
    unfold magnitudeText
    split
    · decide
    · split
      · split <;> decide
      · exact bracket_not_mem_text style _
  unfold floatText
  split
  · decide
  · split
    · simp [hmagnitude]
    · exact hmagnitude v

/-- What is shown for a double holds no style mark. -/
theorem bracket_not_mem_displayFloat (v : Float) : '[' ∉ (displayFloat v).toList := by
  unfold displayFloat
  split_ifs
  · decide
  · decide
  · decide
  · decide
  · rw [writeFloat, String.toList_ofList]
    exact bracket_not_mem_floatText _ v

end Brackets

end GraphCalc
