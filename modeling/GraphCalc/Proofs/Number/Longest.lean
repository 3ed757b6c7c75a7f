import GraphCalc.Proofs.Number.Numeral

/-! # The longest numeral

What is found as the longest numeral at the start of a text is one, and there is no longer one.
Main statements:

* `Numeral.of_longest?`: what is found is a numeral at the start of the text;
* `Numeral.longest?_greatest`: no numeral there is longer, and one is found if there is any.
-/

namespace GraphCalc
open GraphCalc.Text
set_option autoImplicit false

/-! ## Runs -/

theorem length_le_takeWhile {p : Char → Bool} {run text : List Char} (hrun : ∀ c ∈ run, p c = true)
    (h : run <+: text) : run.length ≤ (text.takeWhile p).length := by
  obtain ⟨rest, rfl⟩ := h
  rw [List.takeWhile_append_of_pos hrun, List.length_append]
  exact Nat.le_add_right _ _

theorem takeWhile_append_isPrefix {p : Char → Bool} {text more : List Char}
    (h : more <+: text.dropWhile p) : text.takeWhile p ++ more <+: text :=
  calc text.takeWhile p ++ more <+: text.takeWhile p ++ text.dropWhile p :=
        (List.prefix_append_right_inj _).mpr h
    _ = text := List.takeWhile_append_dropWhile

namespace Numeral

/-! ## Exponents -/

theorem Exponent.of_longest? {text : List Char} {e : Exponent} (h : Exponent.longest? text = some e) :
    e.Valid ∧ e.text <+: text := by
  cases text with
  | nil => cases h
  | cons mark rest =>
    rw [Exponent.longest?.eq_def] at h
    dsimp only at h
    split at h
    · next hmark =>
      -- With or without a sign, the digits are the run behind it.
      have hdigits (sign : Option Char) (more : List Char) (hsign : ∀ c ∈ sign, c = '+' ∨ c = '-')
          (htext : rest = sign.toList ++ more)
          (h : (if (more.takeWhile isDigit).isEmpty then none
            else some (⟨mark, sign, more.takeWhile isDigit⟩ : Exponent)) = some e) :
          e.Valid ∧ e.text <+: mark :: rest := by
        split at h
        · cases h
        · next hne =>
          cases h
          refine ⟨⟨hmark, hsign, by simpa using hne, fun c hc => List.mem_takeWhile_imp hc⟩, ?_⟩
          rw [htext]
          exact (List.prefix_append_right_inj (mark :: sign.toList)).mpr
            (List.takeWhile_prefix isDigit)
      cases rest with
      | nil => cases h
      | cons c more =>
        dsimp only at h
        split at h
        · next hc => exact hdigits (some c) more (by simpa using hc) rfl h
        · exact hdigits none (c :: more) (by simp) rfl h
    · cases h

theorem Exponent.longest?_greatest {text : List Char} {e : Exponent} (he : e.Valid)
    (h : e.text <+: text) :
    ∃ e', Exponent.longest? text = some e' ∧ e.text.length ≤ e'.text.length := by
  obtain ⟨mark, sign, digits⟩ := e
  obtain ⟨rest, rfl⟩ := h
  have hmark : mark = 'e' ∨ mark = 'E' := he.mark
  have hlength : digits.length ≤ ((digits ++ rest).takeWhile isDigit).length :=
    length_le_takeWhile he.digits (List.prefix_append _ _)
  have hne : ((digits ++ rest).takeWhile isDigit).isEmpty = false := by
    have hpos := List.length_pos_iff.mpr he.nonempty
    rw [List.isEmpty_eq_false_iff, ← List.length_pos_iff]
    dsimp only at hpos
    omega
  refine ⟨⟨mark, sign, (digits ++ rest).takeWhile isDigit⟩, ?_, ?_⟩
  · cases sign with
    | none =>
      obtain ⟨c, more, rfl⟩ := List.exists_cons_of_ne_nil he.nonempty
      have hc : isDigit c = true := he.digits c (List.mem_cons_self ..)
      have hsign : ¬ (c = '+' ∨ c = '-') := by
        rintro (rfl | rfl) <;> exact absurd hc (by decide)
      simp only [Exponent.text, Exponent.longest?, Option.toList_none, List.nil_append,
        List.cons_append, if_pos hmark, if_neg hsign] at hne ⊢
      simp [hne]
    | some c =>
      have hsign : c = '+' ∨ c = '-' := he.sign c rfl
      simp [Exponent.text, Exponent.longest?, hmark, hsign, hne]
  · simpa [Exponent.text] using hlength

/-! ## Numerals -/

/-- What is found is a numeral at the start of the text. -/
theorem of_longest? {text : List Char} {n : Numeral} (h : longest? text = some n) :
    n.Valid ∧ n.text <+: text := by
  have hwhole : ∀ c ∈ text.takeWhile isDigit, isDigit c = true := fun c => List.mem_takeWhile_imp
  have hexponent (rest : List Char) : (∀ e ∈ Exponent.longest? rest, e.Valid) ∧
      ((Exponent.longest? rest).map Exponent.text).getD [] <+: rest := by
    cases he : Exponent.longest? rest with
    | none => simp
    | some e =>
      obtain ⟨hvalid, hahead⟩ := Exponent.of_longest? he
      simpa [hvalid] using hahead
  unfold longest? at h
  dsimp only at h
  split at h
  · next rest hrest =>
    split at h
    · cases h
    · next hne =>
      cases h
      obtain ⟨hvalid, hahead⟩ := hexponent (rest.dropWhile isDigit)
      refine ⟨⟨hwhole, fun c hc => List.mem_takeWhile_imp hc, ?_, hvalid⟩, ?_⟩
      · rw [Bool.and_eq_true, not_and_or] at hne
        simpa [fractionDigits] using hne
      · rw [Numeral.text, List.append_assoc]
        refine takeWhile_append_isPrefix ?_
        rw [hrest]
        exact List.cons_prefix_cons.mpr ⟨rfl, takeWhile_append_isPrefix hahead⟩
  · split at h
    · cases h
    · next hne =>
      cases h
      obtain ⟨hvalid, hahead⟩ := hexponent (text.dropWhile isDigit)
      refine ⟨⟨hwhole, by simp [fractionDigits], .inl (by simpa using hne), hvalid⟩, ?_⟩
      rw [Numeral.text, List.append_assoc]
      exact takeWhile_append_isPrefix hahead

section Greatest
variable {o : Option Exponent} (rest : List Char)

theorem stopsAt_exponent {e : Exponent} (he : e.Valid) :
    StopsAt (fun c => isDigit c || c == '.') (e.text ++ rest) := by
  rintro c ⟨⟩
  rcases he.mark with hmark | hmark <;> rw [hmark] <;> decide

/-- A run of digits with an optional exponent is not longer than the longest run with the longest
exponent behind it. -/
theorem length_run_exponent_le (ho : ∀ e ∈ o, e.Valid) {run : List Char}
    (hrun : ∀ c ∈ run, isDigit c = true) :
    let text := run ++ ((o.map Exponent.text).getD [] ++ rest)
    run.length + ((o.map Exponent.text).getD []).length ≤ (text.takeWhile isDigit).length +
      (((Exponent.longest? (text.dropWhile isDigit)).map Exponent.text).getD []).length := by
  cases o with
  | none => exact Nat.add_le_add (length_le_takeWhile hrun (List.prefix_append ..)) (Nat.zero_le _)
  | some e =>
    have he : e.Valid := ho e rfl
    have hstop : StopsAt isDigit (e.text ++ rest) := fun c hc =>
      (Bool.or_eq_false_iff.mp (stopsAt_exponent rest he c hc)).1
    obtain ⟨e', he', hlength⟩ := Exponent.longest?_greatest he (List.prefix_append e.text rest)
    simp only [Option.map_some, Option.getD_some, takeWhile_run hrun hstop, dropWhile_run hrun hstop,
      he']
    exact Nat.add_le_add_left hlength _

/-- An exponent that may be there is not, if a point goes on behind the whole digits. -/
theorem exponent_eq_none_of_point (ho : ∀ e ∈ o, e.Valid) {whole after : List Char}
    (hwhole : ∀ c ∈ whole, isDigit c = true)
    (h : (whole ++ ((o.map Exponent.text).getD [] ++ rest)).dropWhile isDigit = '.' :: after) :
    o = none := by
  cases o with
  | none => rfl
  | some e =>
    have hstop := stopsAt_exponent rest (ho e rfl)
    have hdigit : StopsAt isDigit (e.text ++ rest) := fun c hc =>
      (Bool.or_eq_false_iff.mp (hstop c hc)).1
    rw [Option.map_some, Option.getD_some, dropWhile_run hwhole hdigit] at h
    have hc := hstop '.' (by rw [h]; rfl)
    exact absurd hc (by decide)

theorem longest?_greatest_some {whole digits : List Char}
    (hn : (⟨whole, some digits, o⟩ : Numeral).Valid) :
    let n : Numeral := ⟨whole, some digits, o⟩
    ∃ m, longest? (n.text ++ rest) = some m ∧ n.text.length ≤ m.text.length := by
  have hwhole : ∀ c ∈ whole, isDigit c = true := hn.whole
  have hdigits : ∀ c ∈ digits, isDigit c = true := hn.fraction
  have hpoint (more : List Char) : StopsAt isDigit ('.' :: more) := by
    rintro c ⟨⟩
    decide
  have hlength := length_run_exponent_le rest hn.exponent hdigits
  dsimp only at hlength
  have hne : ¬ (whole.isEmpty && ((digits ++ ((o.map Exponent.text).getD [] ++ rest)).takeWhile
      isDigit).isEmpty) = true := by
    have hle := length_le_takeWhile hdigits
      (List.prefix_append digits ((o.map Exponent.text).getD [] ++ rest))
    rw [Bool.and_eq_true, List.isEmpty_iff_length_eq_zero, List.isEmpty_iff_length_eq_zero]
    rintro ⟨hw, hd⟩
    rcases hn.nonempty with hne | hne
    · exact hne (List.length_eq_zero_iff.mp hw)
    · exact hne (List.length_eq_zero_iff.mp (by simp only [fractionDigits, Option.getD_some]; omega))
  dsimp only
  rw [longest?.eq_def]
  simp only [Numeral.text, Option.map_some, Option.getD_some, List.append_assoc, List.cons_append,
    takeWhile_run hwhole (hpoint _), dropWhile_run hwhole (hpoint _), if_neg hne]
  refine ⟨_, rfl, ?_⟩
  simp only [Option.map_some, Option.getD_some, List.length_append, List.length_cons]
  omega

theorem longest?_greatest_none {whole : List Char} (hn : (⟨whole, none, o⟩ : Numeral).Valid) :
    let n : Numeral := ⟨whole, none, o⟩
    ∃ m, longest? (n.text ++ rest) = some m ∧ n.text.length ≤ m.text.length := by
  have hwhole : ∀ c ∈ whole, isDigit c = true := hn.whole
  have hlength := length_run_exponent_le rest hn.exponent hwhole
  dsimp only at hlength
  have hle := length_le_takeWhile hwhole
    (List.prefix_append whole ((o.map Exponent.text).getD [] ++ rest))
  have hne : ¬ ((whole ++ ((o.map Exponent.text).getD [] ++ rest)).takeWhile
      isDigit).isEmpty = true := by
    rw [List.isEmpty_iff_length_eq_zero]
    have hpos := List.length_pos_iff.mpr (hn.nonempty.resolve_right fun hd => hd rfl)
    dsimp only at hpos
    omega
  dsimp only
  rw [longest?.eq_def]
  simp only [Numeral.text, Option.map_none, Option.getD_none, List.append_nil, List.append_assoc]
  split
  · next after hpoint =>
    obtain rfl := exponent_eq_none_of_point rest hn.exponent hwhole hpoint
    rw [if_neg fun hboth => hne (Bool.and_eq_true_iff.mp hboth).1]
    refine ⟨_, rfl, ?_⟩
    simp only [Option.map_none, Option.getD_none, List.nil_append, List.length_append,
      List.length_nil] at hle ⊢
    omega
  · rw [if_neg hne]
    refine ⟨_, rfl, ?_⟩
    simp only [Option.map_none, Option.getD_none, List.nil_append, List.length_append] at hlength ⊢
    omega

end Greatest

/-- No numeral at the start of the text is longer than the one that is found. -/
theorem longest?_greatest {text : List Char} {n : Numeral} (hn : n.Valid) (h : n.text <+: text) :
    ∃ m, longest? text = some m ∧ n.text.length ≤ m.text.length := by
  obtain ⟨whole, fraction, exponent⟩ := n
  obtain ⟨rest, rfl⟩ := h
  cases fraction with
  | some digits => exact longest?_greatest_some rest hn
  | none => exact longest?_greatest_none rest hn

/-! ## Characters of numerals -/

/-- A numeral holds digits, points, signs and exponent marks. -/
theorem Valid.not_mem {n : Numeral} {c : Char} (h : n.Valid) (hdigit : isDigit c = false)
    (hc : c ∉ ['.', 'e', 'E', '+', '-']) : c ∉ n.text := by
  simp only [List.mem_cons, List.not_mem_nil, or_false, not_or] at hc
  obtain ⟨hpoint, he, hE, hplus, hminus⟩ := hc
  have hdigits {digits : List Char} (hd : ∀ c ∈ digits, isDigit c = true) : c ∉ digits := fun hmem => by
    rw [hd c hmem] at hdigit
    cases hdigit
  have hexponent : c ∉ (n.exponent.map Exponent.text).getD [] := by
    cases hn : n.exponent with
    | none => simp
    | some e =>
      obtain ⟨hmark, hsign, -, hrun⟩ := h.exponent e hn
      simp only [Option.map_some, Option.getD_some, Exponent.text, List.mem_cons,
        List.mem_append, Option.mem_toList, not_or]
      refine ⟨⟨?_, fun hmem => ?_⟩, hdigits hrun⟩
      · rcases hmark with hmark | hmark <;> simp [hmark, he, hE]
      · rcases hsign c hmem with hsign | hsign
        · exact hplus hsign
        · exact hminus hsign
  have hfraction : c ∉ (n.fraction.map ('.' :: ·)).getD [] := by
    have hf := h.fraction
    rw [fractionDigits] at hf
    cases hn : n.fraction with
    | none => simp
    | some digits =>
      rw [hn] at hf
      simp only [Option.map_some, Option.getD_some, List.mem_cons, not_or]
      exact ⟨hpoint, hdigits hf⟩
  simp only [Numeral.text, List.mem_append, not_or]
  exact ⟨⟨hdigits h.whole, hfraction⟩, hexponent⟩

end Numeral
end GraphCalc
