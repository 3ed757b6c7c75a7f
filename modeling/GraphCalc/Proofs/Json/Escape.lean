import GraphCalc.Json.Escape
import Mathlib

/-! # Strings in JSON read back

The escaped form of a text, followed by a quote, is read as the UTF-16 units of its characters, and
joining these units gives the text. Main statements:

* `hexNumber?_hexDigits`: four digits of a unit are read as the unit;
* `readUnits?_escapedChar`: the escaped form of one character is read as its units;
* `joinUnits_unitsOf`: the units of a character are joined to it, whatever units follow;
* `readText?_escaped`: an escaped text is read up to its closing quote.
-/

namespace GraphCalc.Text
set_option autoImplicit false

/-! ## Hexadecimal digits -/

theorem hexValue?_hexDigit : ∀ d < 16, hexValue? (hexDigit d) = some d := by decide

theorem hexNumber?_append (high : ℕ) (digits more : List Char) :
    hexNumber? high (digits ++ more) = (hexNumber? high digits).bind (hexNumber? · more) := by
  induction digits generalizing high with
  | nil => rfl
  | cons c digits ih =>
    rw [List.cons_append, hexNumber?, hexNumber?, Option.bind_assoc]
    exact Option.bind_congr fun d _ => ih _

theorem hexNumber?_hexDigits (places n : ℕ) :
    hexNumber? 0 (hexDigits places n) = some (n % 16 ^ places) := by
  induction places generalizing n with
  | zero => simp [hexDigits, hexNumber?, Nat.mod_one]
  | succ places ih =>
    rw [hexDigits, hexNumber?_append, ih, Option.bind_some, hexNumber?,
      hexValue?_hexDigit _ (Nat.mod_lt _ (by decide)), Option.bind_some, hexNumber?,
      Nat.pow_succ', Nat.mod_mul, Nat.add_comm]

end GraphCalc.Text

namespace GraphCalc.Json
open GraphCalc.Text
set_option autoImplicit false

/-! ## Units -/

/-- The UTF-16 units of a character. -/
def unitsOf (c : Char) : List ℕ :=
  if c.toNat < 0x10000 then [c.toNat]
  else [0xd800 + (c.toNat - 0x10000) / 0x400, 0xdc00 + (c.toNat - 0x10000) % 0x400]

theorem isValid_toNat (c : Char) : c.toNat < 0xd800 ∨ 0xdfff < c.toNat ∧ c.toNat < 0x110000 :=
  c.valid

/-- A unit below the second plane stands for its character, and is no half of a pair. -/
theorem unitChar_toNat {c : Char} : isHighHalf c.toNat = false ∧ unitChar c.toNat = c := by
  have hvalid := isValid_toNat c
  have hhigh : isHighHalf c.toNat = false := by
    simp [isHighHalf]
    omega
  have hlow : isLowHalf c.toNat = false := by
    simp [isLowHalf]
    omega
  refine ⟨hhigh, ?_⟩
  rw [unitChar, hhigh, hlow, Bool.or_false, if_neg (by decide), Char.ofNat_toNat]

theorem joinUnits_unitsOf (c : Char) (units : List ℕ) :
    joinUnits (unitsOf c ++ units) = c :: joinUnits units := by
  rw [unitsOf]
  split
  · obtain ⟨hhigh, hchar⟩ := unitChar_toNat (c := c)
    cases units with
    | nil => simp [joinUnits, hchar]
    | cons m units => simp [joinUnits, hchar, hhigh]
  · next hplane =>
    have hvalid := isValid_toNat c
    have hhigh : isHighHalf (0xd800 + (c.toNat - 0x10000) / 0x400) = true := by
      simp [isHighHalf]
      omega
    have hlow : isLowHalf (0xdc00 + (c.toNat - 0x10000) % 0x400) = true := by
      simp [isLowHalf]
      omega
    have hjoined : 0x10000 + (0xd800 + (c.toNat - 0x10000) / 0x400 - 0xd800) * 0x400 +
        (0xdc00 + (c.toNat - 0x10000) % 0x400 - 0xdc00) = c.toNat := by omega
    rw [List.cons_append, List.cons_append, List.nil_append, joinUnits, hhigh, hlow, hjoined,
      Char.ofNat_toNat]
    rfl

theorem joinUnits_flatMap (text : List Char) : joinUnits (text.flatMap unitsOf) = text := by
  induction text with
  | nil => rfl
  | cons c text ih => rw [List.flatMap_cons, joinUnits_unitsOf, ih]

/-! ## Reading -/

theorem readUnits?_unitEscape {n : ℕ} (h : n < 0x10000) (rest : List Char) :
    readUnits? (unitEscape n ++ rest) =
      (readUnits? rest).map fun (units, rest) => (n :: units, rest) := by
  have hunit : hexNumber? 0 (hexDigits 4 n) = some n := by
    rw [hexNumber?_hexDigits, Nat.mod_eq_of_lt (by simpa using h)]
  simp only [hexDigits, List.nil_append, List.cons_append] at hunit
  simp only [unitEscape, hexDigits, List.nil_append, List.cons_append]
  rw [readUnits?.eq_def]
  dsimp only
  rw [if_neg (by decide), if_pos rfl, if_pos rfl, hunit]
  cases readUnits? rest <;> rfl

/-- A letter escape is read as the character that it stands for. -/
theorem readUnits?_letter {letter c : Char} (hletter : letter ≠ 'u')
    (h : letterUnit? letter = some c.toNat) (rest : List Char) :
    readUnits? ('\\' :: letter :: rest) =
      (readUnits? rest).map fun (units, rest) => (c.toNat :: units, rest) := by
  rw [readUnits?.eq_def]
  dsimp only
  rw [if_neg (by decide), if_pos rfl, if_neg hletter, h]
  cases readUnits? rest <;> rfl

theorem letterUnit?_of_mem : ∀ entry ∈ letterEscapes,
    entry.1 ≠ 'u' ∧ letterUnit? entry.1 = some entry.2.toNat ∧ entry.2.toNat < 0x10000 := by
  decide

/-- The escaped form of a character is read as its units. The cases are those of the writing. -/
theorem readUnits?_escapedChar (c : Char) (rest : List Char) :
    readUnits? (escapedChar c ++ rest) =
      (readUnits? rest).map fun (units, rest) => (unitsOf c ++ units, rest) := by
  rw [escapedChar]
  dsimp only
  split
  · next hquote =>
    have hletter : c ≠ 'u' := by rintro rfl; revert hquote; decide
    have hplane : c.toNat < 0x10000 := by rcases hquote with rfl | rfl <;> decide
    have hunit : letterUnit? c = some c.toNat := by rcases hquote with rfl | rfl <;> rfl
    rw [unitsOf, if_pos hplane]
    exact readUnits?_letter hletter hunit rest
  · next hquote =>
    split
    · next letter c' hfind =>
      obtain rfl : c' = c := by simpa using List.find?_some hfind
      obtain ⟨hletter, hunit, hplane⟩ := letterUnit?_of_mem _ (List.mem_of_find?_eq_some hfind)
      rw [unitsOf, if_pos hplane]
      exact readUnits?_letter hletter hunit rest
    · split
      · next hplain =>
        rw [not_or] at hquote
        rw [unitsOf, if_pos (by omega), List.singleton_append, readUnits?.eq_def]
        dsimp only
        rw [if_neg hquote.1, if_neg hquote.2, if_neg (by omega)]
        cases readUnits? rest <;> rfl
      · split
        · next hplane =>
          rw [unitsOf, if_pos hplane]
          exact readUnits?_unitEscape hplane rest
        · next hplane =>
          have hvalid := isValid_toNat c
          rw [unitsOf, if_neg hplane, List.append_assoc, readUnits?_unitEscape (by omega),
            readUnits?_unitEscape (by omega), Option.map_map]
          rfl

theorem readUnits?_escaped (text rest : List Char) :
    readUnits? (escaped text ++ '"' :: rest) = some (text.flatMap unitsOf, rest) := by
  induction text with
  | nil =>
    rw [escaped, List.flatMap_nil, List.nil_append, readUnits?.eq_def]
    rfl
  | cons c text ih =>
    rw [escaped] at ih ⊢
    rw [List.flatMap_cons, List.append_assoc, readUnits?_escapedChar, ih, List.flatMap_cons]
    rfl

/-- An escaped text is read up to its closing quote. -/
theorem readText?_escaped (text rest : List Char) :
    readText? (escaped text ++ '"' :: rest) = some (text, rest) := by
  rw [readText?, readUnits?_escaped]
  simp [joinUnits_flatMap]

end GraphCalc.Json
