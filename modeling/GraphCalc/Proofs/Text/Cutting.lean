import GraphCalc.Text.Cutting
import Mathlib

/-! # Cut and trimmed texts

Where a text is cut at a character, and what trimming does to a text that holds a character which is
not blank. Main statements:

* `splitFirst?_eq_some_iff`, `splitLast?_eq_some_iff`: the cut is at the first or last occurrence;
* `trim_append_cons`: around such a character the two sides are trimmed on their own;
* `mem_trim_iff`: no character is lost but blanks;
* `trim_idem`: trimming twice is trimming once.
-/

namespace GraphCalc.Text
set_option autoImplicit false

/-! ## Cuts -/

section Cuts
variable {mark : Char} {text before after : List Char}

theorem splitFirst?_eq_none_iff : splitFirst? mark text = none ↔ mark ∉ text := by
  induction text with
  | nil => simp [splitFirst?]
  | cons c rest ih =>
    rw [splitFirst?]
    by_cases hc : c = mark
    · simp [hc]
    · rw [if_neg hc, Option.map_eq_none_iff, ih, List.mem_cons]
      simp [Ne.symm hc]

theorem splitFirst?_eq_some_iff :
    splitFirst? mark text = some (before, after) ↔ text = before ++ mark :: after ∧ mark ∉ before := by
  induction text generalizing before with
  | nil => simp [splitFirst?]
  | cons c rest ih =>
    rw [splitFirst?]
    by_cases hc : c = mark
    · subst hc
      rw [if_pos rfl]
      cases before with
      | nil => simp
      | cons b before => simp; grind
    · rw [if_neg hc]
      cases before with
      | nil => simp [hc]
      | cons b before => simp [ih]; grind

theorem splitLast?_eq_none_iff : splitLast? mark text = none ↔ mark ∉ text := by
  induction text with
  | nil => simp [splitLast?]
  | cons c rest ih =>
    rw [splitLast?]
    cases hrest : splitLast? mark rest with
    | none =>
      have hnot := ih.mp hrest
      grind
    | some cut =>
      have hmem : mark ∈ rest := by
        by_contra hnot
        rw [ih.mpr hnot] at hrest
        cases hrest
      simp [hmem]

/-- A text whose last part lacks the mark is cut at the mark before that part. -/
theorem splitLast?_append_cons (h : mark ∉ after) :
    splitLast? mark (before ++ mark :: after) = some (before, after) := by
  induction before with
  | nil =>
    rw [List.nil_append, splitLast?, splitLast?_eq_none_iff.mpr h]
    simp
  | cons b before ih => rw [List.cons_append, splitLast?, ih]

theorem splitLast?_eq_some_iff :
    splitLast? mark text = some (before, after) ↔ text = before ++ mark :: after ∧ mark ∉ after := by
  constructor
  · intro h
    induction text generalizing before with
    | nil => cases h
    | cons c rest ih =>
      rw [splitLast?] at h
      cases hrest : splitLast? mark rest with
      | some cut =>
        obtain ⟨before', after'⟩ := cut
        rw [hrest] at h
        cases h
        obtain ⟨rfl, hafter⟩ := ih hrest
        exact ⟨rfl, hafter⟩
      | none =>
        rw [hrest] at h
        dsimp only at h
        split at h
        · next hc =>
          cases h
          exact ⟨by rw [hc, List.nil_append], splitLast?_eq_none_iff.mp hrest⟩
        · cases h
  · rintro ⟨rfl, h⟩
    exact splitLast?_append_cons h

/-- A beginning without the mark goes to the first piece. -/
theorem splitLast?_append (h : mark ∉ before) :
    splitLast? mark (before ++ text) =
      (splitLast? mark text).map fun (before', after) => (before ++ before', after) := by
  cases hcut : splitLast? mark text with
  | none =>
    rw [Option.map_none, splitLast?_eq_none_iff, List.mem_append]
    exact fun hmem => hmem.elim h (splitLast?_eq_none_iff.mp hcut)
  | some cut =>
    obtain ⟨before', after⟩ := cut
    obtain ⟨rfl, hafter⟩ := splitLast?_eq_some_iff.mp hcut
    rw [← List.append_assoc]
    exact splitLast?_append_cons hafter

end Cuts

/-! ## Trimming -/

section Trimming
variable {c : Char} {text before after : List Char}

/-- A text is its trimmed form between two stretches of blanks. -/
theorem exists_trim (text : List Char) : ∃ start finish, text = start ++ trim text ++ finish ∧
    (∀ c ∈ start, isBlank c = true) ∧ ∀ c ∈ finish, isBlank c = true := by
  have hstart := List.takeWhile_append_dropWhile (p := isBlank) (l := text)
  have hfinish := List.rdropWhile_append_rtakeWhile (p := isBlank) (l := trimStart text)
  refine ⟨text.takeWhile isBlank, (trimStart text).rtakeWhile isBlank, ?_, ?_, ?_⟩
  · calc text = text.takeWhile isBlank ++ trimStart text := hstart.symm
      _ = text.takeWhile isBlank ++ (trim text ++ (trimStart text).rtakeWhile isBlank) := by
        rw [trim, trimEnd]
        exact congrArg _ hfinish.symm
      _ = _ := (List.append_assoc ..).symm
  · exact fun c hc => List.mem_takeWhile_imp hc
  · exact fun c hc => List.mem_rtakeWhile_imp hc

theorem trimStart_subset (text : List Char) : trimStart text ⊆ text :=
  (List.dropWhile_suffix isBlank).subset

theorem trimEnd_subset (text : List Char) : trimEnd text ⊆ text :=
  (List.rdropWhile_prefix isBlank text).subset

theorem trimStart_trimStart (text : List Char) : trimStart (trimStart text) = trimStart text :=
  List.dropWhile_idempotent isBlank text

theorem trimEnd_trimEnd (text : List Char) : trimEnd (trimEnd text) = trimEnd text :=
  List.rdropWhile_idempotent isBlank text

theorem trimStart_append_cons (h : isBlank c = false) :
    trimStart (before ++ c :: after) = trimStart before ++ c :: after := by
  rw [trimStart, trimStart, List.dropWhile_append]
  split
  · next hempty =>
    rw [List.isEmpty_iff.mp hempty, List.dropWhile_cons_of_neg (by simp [h]), List.nil_append]
  · rfl

theorem trimEnd_append_cons (h : isBlank c = false) :
    trimEnd (before ++ c :: after) = before ++ c :: trimEnd after := by
  rw [trimEnd, trimEnd, List.reverse_append, List.reverse_cons, List.append_assoc,
    List.singleton_append]
  have hstart : trimStart (after.reverse ++ c :: before.reverse) = _ := trimStart_append_cons h
  rw [trimStart, trimStart] at hstart
  rw [hstart]
  simp

/-- Left and right of a character that is not blank a text is trimmed on its own. -/
theorem trim_append_cons (h : isBlank c = false) :
    trim (before ++ c :: after) = trimStart before ++ c :: trimEnd after := by
  rw [trim, trimStart_append_cons h, trimEnd_append_cons h]

theorem mem_trim_iff (h : isBlank c = false) : c ∈ trim text ↔ c ∈ text := by
  obtain ⟨start, finish, htext, hstart, hfinish⟩ := exists_trim text
  constructor
  · intro hc
    rw [htext]
    exact List.mem_append_left _ (List.mem_append_right _ hc)
  · intro hc
    rw [htext, List.mem_append, List.mem_append] at hc
    rcases hc with (hc | hc) | hc
    · exact absurd (hstart c hc) (by simp [h])
    · exact hc
    · exact absurd (hfinish c hc) (by simp [h])

theorem trim_eq_nil_iff : trim text = [] ↔ ∀ c ∈ text, isBlank c = true := by
  constructor
  · intro h c hc
    by_contra hnot
    have hmem : c ∈ trim text := (mem_trim_iff (by simpa using hnot)).mpr hc
    rw [h] at hmem
    cases hmem
  · intro h
    have hstart : trimStart text = [] := List.dropWhile_eq_nil_iff.mpr h
    rw [trim, hstart]
    rfl

/-- A text without blanks is trimmed already. -/
theorem trim_eq_self (h : ∀ c ∈ text, isBlank c = false) : trim text = text := by
  have hstart : trimStart text = text := by
    cases text with
    | nil => rfl
    | cons c text => exact List.dropWhile_cons_of_neg (by simp [h c])
  rw [trim, hstart]
  exact List.rdropWhile_eq_self_iff.mpr fun hne => by simp [h _ (List.getLast_mem hne)]

/-- The two ends of a text are trimmed independently. -/
theorem trimStart_trimEnd (text : List Char) : trimStart (trimEnd text) = trimEnd (trimStart text) := by
  by_cases hblank : ∀ c ∈ text, isBlank c = true
  · have hstart : trimStart text = [] := List.dropWhile_eq_nil_iff.mpr hblank
    have hend : trimEnd text = [] := List.rdropWhile_eq_nil_iff.mpr hblank
    rw [hstart, hend]
    rfl
  · push Not at hblank
    obtain ⟨c, hc, hnot⟩ := hblank
    obtain ⟨before, after, rfl⟩ := List.append_of_mem hc
    have hc' : isBlank c = false := by simpa using hnot
    rw [trimEnd_append_cons hc', trimStart_append_cons hc', trimStart_append_cons hc',
      trimEnd_append_cons hc']

theorem trim_trimStart (text : List Char) : trim (trimStart text) = trim text := by
  rw [trim, trimStart_trimStart, trim]

theorem trim_trimEnd (text : List Char) : trim (trimEnd text) = trim text := by
  rw [trim, trimStart_trimEnd, trimEnd_trimEnd, trim]

theorem trim_idem (text : List Char) : trim (trim text) = trim text := by
  rw [trim, trim, trimStart_trimEnd, trimStart_trimStart, trimEnd_trimEnd]

theorem length_trim_le (text : List Char) : (trim text).length ≤ text.length :=
  calc (trim text).length ≤ (trimStart text).length :=
        (List.rdropWhile_prefix isBlank (trimStart text)).length_le
    _ ≤ text.length := (List.dropWhile_suffix isBlank).length_le

end Trimming
end GraphCalc.Text
