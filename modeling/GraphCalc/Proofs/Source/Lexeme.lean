import GraphCalc.Proofs.Number.Longest
import GraphCalc.Proofs.Source.Spelling

/-! # Lexemes

Which texts are words of which kind, said without scanning, and that the scanner takes the longest
one at each place. Main notions and statements:

* `IsLexeme kind word`: the text `word` is a word of a kind, as numerals, names, operators and marks
  are written;
* `Munch kind word rest`: no longer lexeme than `word` starts in front of `rest`;
* `munch_of_start`, `Munch.start_eq`: the scanner takes the longest lexeme at its place, and no other;
* `start_eq_error`: where the scanner starts no token, no lexeme starts.
-/

namespace GraphCalc
open GraphCalc.Text
set_option autoImplicit false

namespace Token

/-! ## Lexemes -/

/-- A text that is one word of a kind. -/
inductive IsLexeme : Kind → List Char → Prop where
  | number {n : Numeral} (h : n.Valid) : IsLexeme (.number n.value) n.text
  | word {c more} (first : isNameStart c = true) (parts : ∀ d ∈ more, isNamePart d = true) :
      IsLexeme .name (c :: more)
  | constant {c} (h : isSymbolConstant c = true) : IsLexeme .name [c]
  | operator {c} (h : isOperator c = true) : IsLexeme .operator [c]
  | opening : IsLexeme .opening ['(']
  | closing : IsLexeme .closing [')']
  | comma : IsLexeme .comma [',']

/-- A lexeme in front of a text such that no longer one starts where it does. -/
structure Munch (kind : Kind) (word rest : List Char) : Prop where
  lexeme : IsLexeme kind word
  longest : ∀ kind' word', IsLexeme kind' word' → word' <+: word ++ rest →
    word'.length ≤ word.length

/-- A longer text than the one that stands there goes on with the character behind it. -/
theorem mem_of_longer_prefix {c : Char} {word word' rest : List Char} (h : word' <+: word ++ c :: rest)
    (hlonger : word.length < word'.length) : c ∈ word' := by
  have hseam : word ++ [c] <+: word ++ c :: rest :=
    (List.prefix_append_right_inj _).mpr (List.cons_prefix_cons.mpr ⟨rfl, List.nil_prefix⟩)
  have hover := List.prefix_of_prefix_length_le hseam h (by rw [List.length_append]; exact hlonger)
  exact hover.subset (by simp)

/-! ### First characters -/

theorem isDigitLike_of_isNameStart {c : Char} (h : isNameStart c = true) :
    (isDigitLike c || c == '.') = false := by
  obtain ⟨hlo, hhi, hpoint⟩ := toNat_of_isNameStart h
  simp [isDigitLike_of_between hlo hhi, hpoint]

theorem isDigitLike_of_isSymbolConstant {c : Char} (h : isSymbolConstant c = true) :
    (isDigitLike c || c == '.') = false ∧ isNameStart c = false := by
  obtain ⟨-, hdigit, hpoint, hname⟩ := isBlank_of_isSymbolConstant h
  exact ⟨by simp [hdigit, hpoint], hname⟩

/-- The classes of first characters are tried in the order in which they are listed, and none of the
marks is in an earlier class. -/
theorem classes_of_mark {c : Char} (h : isOperator c = true ∨ c = '(' ∨ c = ')' ∨ c = ',') :
    (isDigitLike c || c == '.') = false ∧ isNameStart c = false ∧ isSymbolConstant c = false := by
  rcases h with h | rfl | rfl | rfl
  · have hmem : c ∈ ['+', '-', '*', '/', '^', '%'] := by simpa [isOperator] using h
    simp only [List.mem_cons, List.not_mem_nil, or_false] at hmem
    rcases hmem with rfl | rfl | rfl | rfl | rfl | rfl <;> decide
  all_goals decide

theorem IsLexeme.start_alone {kind : Kind} {c : Char} {more : List Char}
    (h : IsLexeme kind (c :: more)) (position : ℕ) :
    start position c more = .ok (kind, more.length) := by
  generalize hword : c :: more = word at h
  cases h with
  | @number n hn =>
    have hc : (isDigitLike c || c == '.') = true := hn.starts c (by rw [← hword]; rfl)
    have hstop : StopsAt Numeral.continues [] := by rintro d ⟨⟩
    have hlongest := Numeral.longest?_text hstop hn
    rw [List.append_nil, ← hword] at hlongest
    have hlength := congrArg List.length hword
    rw [List.length_cons] at hlength
    simp [start, hc, hlongest, ← hlength]
  | word first parts =>
    cases hword
    have hrun := takeWhile_run parts (show StopsAt isNamePart [] by rintro d ⟨⟩)
    rw [List.append_nil] at hrun
    simp [start, isDigitLike_of_isNameStart first, first, hrun]
  | constant hc =>
    cases hword
    simp [start, isDigitLike_of_isSymbolConstant hc, hc]
  | operator hc =>
    cases hword
    simp [start, classes_of_mark (.inl hc), hc]
  | opening | closing | comma =>
    cases hword
    rfl

theorem IsLexeme.ne_nil {kind : Kind} {word : List Char} (h : IsLexeme kind word) : word ≠ [] := by
  cases h with
  | number hn => exact hn.ne_nil
  | _ => simp

theorem IsLexeme.exists_cons {kind : Kind} {word : List Char} (h : IsLexeme kind word) :
    ∃ c more, word = c :: more :=
  List.exists_cons_of_ne_nil h.ne_nil

theorem IsLexeme.kind_unique {kind kind' : Kind} {word : List Char} (h : IsLexeme kind word)
    (h' : IsLexeme kind' word) : kind = kind' := by
  obtain ⟨c, more, rfl⟩ := h.exists_cons
  have halone := (h.start_alone 0).symm.trans (h'.start_alone 0)
  exact (Prod.mk.inj (Except.ok.inj halone)).1

section First
variable {kind : Kind} {c : Char} {more : List Char}

theorem IsLexeme.exists_numeral (h : IsLexeme kind (c :: more))
    (hc : (isDigitLike c || c == '.') = true) :
    ∃ n : Numeral, n.Valid ∧ kind = .number n.value ∧ n.text = c :: more := by
  generalize hword : c :: more = word at h
  cases h with
  | number hn => exact ⟨_, hn, rfl, rfl⟩
  | word first => cases hword; rw [isDigitLike_of_isNameStart first] at hc; cases hc
  | constant h => cases hword; rw [(isDigitLike_of_isSymbolConstant h).1] at hc; cases hc
  | operator h => cases hword; rw [(classes_of_mark (.inl h)).1] at hc; cases hc
  | opening | closing | comma => cases hword; exact absurd hc (by decide)

theorem IsLexeme.parts (h : IsLexeme kind (c :: more)) (hc : isNameStart c = true) :
    kind = .name ∧ ∀ d ∈ more, isNamePart d = true := by
  generalize hword : c :: more = word at h
  cases h with
  | number hn =>
    have hdigit := hn.starts c (by rw [← hword]; rfl)
    rw [isDigitLike_of_isNameStart hc] at hdigit
    cases hdigit
  | word _ parts => cases hword; exact ⟨rfl, parts⟩
  | constant h => cases hword; rw [(isDigitLike_of_isSymbolConstant h).2] at hc; cases hc
  | operator h => cases hword; rw [(classes_of_mark (.inl h)).2.1] at hc; cases hc
  | opening | closing | comma => cases hword; exact absurd hc (by decide)

/-- Only numerals and words have more than one character. -/
theorem IsLexeme.more_eq_nil (h : IsLexeme kind (c :: more))
    (hdigit : (isDigitLike c || c == '.') = false) (hname : isNameStart c = false) : more = [] := by
  generalize hword : c :: more = word at h
  cases h with
  | number hn =>
    have hc := hn.starts c (by rw [← hword]; rfl)
    rw [hdigit] at hc
    cases hc
  | word first => cases hword; rw [hname] at first; cases first
  | _ => cases hword; rfl

end First

/-! ### All characters -/

/-- A bracket or a comma is a lexeme by itself. -/
theorem IsLexeme.eq_singleton_of_mark {kind : Kind} {word : List Char} {c : Char}
    (h : IsLexeme kind word) (hmem : c ∈ word) (hc : c ∈ ['(', ')', ',']) : word = [c] := by
  have hmark : isDigit c = false ∧ c ∉ ['.', 'e', 'E', '+', '-'] ∧ isNamePart c = false := by
    simp only [List.mem_cons, List.not_mem_nil, or_false] at hc
    rcases hc with rfl | rfl | rfl <;> decide
  cases h with
  | number hn => exact absurd hmem (hn.not_mem hmark.1 hmark.2.1)
  | word first parts =>
    have hpart : isNamePart c = true := by
      rcases List.mem_cons.mp hmem with rfl | hmem
      · exact isNamePart_of_isNameStart first
      · exact parts c hmem
    rw [hmark.2.2] at hpart
    cases hpart
  | constant | operator | opening | closing | comma => rw [List.mem_singleton.mp hmem]

theorem isBlank_of_isNamePart {c : Char} (h : isNamePart c = true) : isBlank c = false := by
  have hcases : isNameStart c = true ∨ c.isDigit = true := by
    simp only [isNamePart, isNameStart, Char.isAlphanum, Bool.or_eq_true] at h ⊢
    tauto
  rcases hcases with hc | hc
  · exact isBlank_of_isNameStart hc
  · have hrange : 48 ≤ c.toNat ∧ c.toNat ≤ 57 := by
      simpa [Char.isDigit, UInt32.le_iff_toNat_le] using hc
    exact isBlank_eq_false_of_between (by omega) (by omega)

/-- No blank is part of a lexeme. -/
theorem IsLexeme.not_blank {kind : Kind} {word : List Char} {c : Char} (h : IsLexeme kind word)
    (hmem : c ∈ word) : isBlank c = false := by
  cases h with
  | number hn =>
    rw [Bool.eq_false_iff]
    intro hblank
    have hdigit := isDigitLike_of_isBlank hblank
    rw [isDigitLike, Bool.or_eq_false_iff] at hdigit
    refine hn.not_mem hdigit.1 (fun hc => ?_) hmem
    simp only [List.mem_cons, List.not_mem_nil, or_false] at hc
    rcases hc with rfl | rfl | rfl | rfl | rfl <;> exact absurd hblank (by decide)
  | word first parts =>
    rcases List.mem_cons.mp hmem with rfl | hmem
    · exact isBlank_of_isNameStart first
    · exact isBlank_of_isNamePart (parts c hmem)
  | constant hc =>
    rw [List.mem_singleton.mp hmem]
    exact (isBlank_of_isSymbolConstant hc).1
  | operator hc =>
    rw [← List.mem_singleton.mp hmem] at hc
    have hsign : c ∈ ['+', '-', '*', '/', '^', '%'] := by simpa [isOperator] using hc
    simp only [List.mem_cons, List.not_mem_nil, or_false] at hsign
    rcases hsign with rfl | rfl | rfl | rfl | rfl | rfl <;> decide
  | opening | closing | comma =>
    rw [List.mem_singleton.mp hmem]
    decide

/-- Only names hold the letter `i`. -/
theorem IsLexeme.eq_name_of_mem {kind : Kind} {word : List Char} (h : IsLexeme kind word)
    (hmem : 'i' ∈ word) : kind = .name := by
  cases h with
  | number hn => exact absurd hmem (hn.not_mem (by decide) (by decide))
  | word | constant => rfl
  | operator h =>
    rw [← List.mem_singleton.mp hmem] at h
    exact absurd h (by decide)
  | opening | closing | comma => exact absurd hmem (by decide)

/-! ### What the scanner takes -/

section Start
variable {kind : Kind} {position length : ℕ} {c : Char} {word rest : List Char}

theorem munch_single (h : IsLexeme kind [c]) (hdigit : (isDigitLike c || c == '.') = false)
    (hname : isNameStart c = false) (rest : List Char) : Munch kind [c] rest := by
  refine ⟨h, fun kind' word' h' hahead => ?_⟩
  obtain ⟨d, more, rfl⟩ := h'.exists_cons
  obtain ⟨rfl, -⟩ := List.cons_prefix_cons.mp hahead
  rw [h'.more_eq_nil hdigit hname]

theorem munch_word (hc : isNameStart c = true) (hword : ∀ d ∈ word, isNamePart d = true)
    (hrest : StopsAt isNamePart rest) : Munch .name (c :: word) rest := by
  refine ⟨.word hc hword, fun kind' word' h' hahead => ?_⟩
  obtain ⟨d, more, rfl⟩ := h'.exists_cons
  obtain ⟨rfl, hmore⟩ := List.cons_prefix_cons.mp hahead
  have hlength := length_le_takeWhile (h'.parts hc).2 hmore
  rw [show word.append rest = word ++ rest from rfl, takeWhile_run hword hrest] at hlength
  exact Nat.succ_le_succ hlength

theorem munch_number {n : Numeral} (h : Numeral.longest? (n.text ++ rest) = some n) :
    Munch (.number n.value) n.text rest := by
  have hn : n.Valid := (Numeral.of_longest? h).1
  refine ⟨.number hn, fun kind' word' h' hahead => ?_⟩
  obtain ⟨c, more, htext⟩ := List.exists_cons_of_ne_nil hn.ne_nil
  obtain ⟨d, letters, rfl⟩ := h'.exists_cons
  obtain rfl : d = c := by
    have hahead' : d :: letters <+: n.text ++ rest := hahead
    rw [htext, List.cons_append] at hahead'
    exact (List.cons_prefix_cons.mp hahead').1
  obtain ⟨m, hm, -, hmtext⟩ := h'.exists_numeral (hn.starts d (by rw [htext]; rfl))
  obtain ⟨n', hn', hle⟩ := Numeral.longest?_greatest hm (hmtext ▸ hahead)
  obtain rfl := Option.some.inj (h.symm.trans hn')
  rwa [hmtext] at hle

/-- What the scanner takes is the longest lexeme at its place. -/
theorem munch_of_start (h : start position c rest = .ok (kind, length)) :
    ∃ word after, rest = word ++ after ∧ word.length = length ∧ Munch kind (c :: word) after := by
  unfold start at h
  split at h
  · next hdigit =>
    split at h
    · next n hlongest =>
      cases h
      obtain ⟨hn, after, hafter⟩ := Numeral.of_longest? hlongest
      obtain ⟨d, word, hword⟩ := List.exists_cons_of_ne_nil hn.ne_nil
      have hmunch : Munch (.number n.value) n.text after := munch_number (hafter.symm ▸ hlongest)
      rw [hword] at hafter hmunch
      obtain ⟨rfl, rfl⟩ := List.cons.inj hafter
      exact ⟨word, after, rfl, by rw [hword]; rfl, hmunch⟩
    · cases h
  rename_i hdigit
  rw [Bool.not_eq_true] at hdigit
  split at h
  · next hc =>
    cases h
    refine ⟨rest.takeWhile isNamePart, rest.dropWhile isNamePart,
      List.takeWhile_append_dropWhile.symm, rfl, ?_⟩
    refine munch_word hc (fun d hd => List.mem_takeWhile_imp hd) ?_
    intro d hd
    have hhead := List.head?_dropWhile_not isNamePart rest
    rwa [Option.mem_def.mp hd] at hhead
  rename_i hname
  rw [Bool.not_eq_true] at hname
  -- All other tokens are single characters.
  have hsingle (h : IsLexeme kind [c]) (hlength : 0 = length) : ∃ word after, rest = word ++ after ∧
      word.length = length ∧ Munch kind (c :: word) after :=
    ⟨[], rest, rfl, hlength, munch_single h hdigit hname rest⟩
  split at h
  · next hc => cases h; exact hsingle (.constant hc) rfl
  split at h
  · next hc => cases h; exact hsingle (.operator hc) rfl
  split at h
  · next hc => cases h; exact hsingle (beq_iff_eq.mp hc ▸ .opening) rfl
  split at h
  · next hc => cases h; exact hsingle (beq_iff_eq.mp hc ▸ .closing) rfl
  split at h
  · next hc => cases h; exact hsingle (beq_iff_eq.mp hc ▸ .comma) rfl
  · cases h

/-- The fault of a place where no token starts. -/
def faultAt (c : Char) (position : ℕ) : ScanError :=
  if isDigitLike c || c == '.' then .malformedNumber c position else .unexpectedCharacter c position

/-- Where the scanner starts no token, no lexeme starts. -/
theorem start_eq_error {e : ScanError} (h : start position c rest = .error e) :
    e = faultAt c position ∧ ∀ kind word, IsLexeme kind word → ¬ word <+: c :: rest := by
  unfold start at h
  split at h
  · next hdigit =>
    split at h
    · cases h
    · next hlongest =>
      cases h
      refine ⟨by rw [faultAt, if_pos hdigit], fun kind word hword hahead => ?_⟩
      obtain ⟨d, more, rfl⟩ := hword.exists_cons
      obtain ⟨rfl, -⟩ := List.cons_prefix_cons.mp hahead
      obtain ⟨n, hn, -, htext⟩ := hword.exists_numeral hdigit
      obtain ⟨m, hm, -⟩ := Numeral.longest?_greatest hn (htext ▸ hahead)
      rw [hlongest] at hm
      cases hm
  · next hdigit =>
    split at h
    · cases h
    next hname =>
    refine ⟨?_, fun kind word hword hahead => ?_⟩
    · rw [faultAt, if_neg hdigit]
      repeat' split at h
      all_goals cases h
      rfl
    · obtain ⟨d, more, rfl⟩ := hword.exists_cons
      obtain ⟨rfl, -⟩ := List.cons_prefix_cons.mp hahead
      -- The lexeme alone would be scanned, by the class of its first character.
      have halone := hword.start_alone position
      simp only [start, if_neg hdigit, if_neg hname] at halone
      repeat' split at h
      all_goals simp_all

/-- With less behind it, a lexeme stays the longest one. -/
theorem Munch.of_isPrefix (h : Munch kind word rest) {front : List Char} (hfront : front <+: rest) :
    Munch kind word front :=
  ⟨h.lexeme, fun kind' word' h' hahead =>
    h.longest kind' word' h' (hahead.trans ((List.prefix_append_right_inj word).mpr hfront))⟩

/-- No part of a name stands right behind a name. -/
theorem Munch.stopsAt (h : Munch kind (c :: word) rest) (hc : isNameStart c = true) :
    StopsAt isNamePart rest := by
  intro d hd
  obtain ⟨rfl, hparts⟩ := h.lexeme.parts hc
  obtain ⟨more, rfl⟩ : ∃ more, rest = d :: more := by
    cases rest with
    | nil => cases hd
    | cons e more => cases hd; exact ⟨more, rfl⟩
  by_contra hpart
  rw [Bool.not_eq_false] at hpart
  have hlonger : IsLexeme .name (c :: (word ++ [d])) := .word hc fun e he => by
    rcases List.mem_append.mp he with he | he
    · exact hparts e he
    · rw [List.mem_singleton.mp he]
      exact hpart
  have hle := h.longest _ _ hlonger (by simp)
  simp at hle

/-- The scanner takes exactly the longest lexeme at its place. -/
theorem Munch.start_eq (h : Munch kind (c :: word) rest) (position : ℕ) :
    start position c (word ++ rest) = .ok (kind, word.length) := by
  cases hstart : start position c (word ++ rest) with
  | error e => exact absurd (List.prefix_append ..) ((start_eq_error hstart).2 _ _ h.lexeme)
  | ok found =>
    obtain ⟨kind', length⟩ := found
    obtain ⟨word', rest', hcut, rfl, h'⟩ := munch_of_start hstart
    have hle := h.longest _ _ h'.lexeme (by rw [List.cons_append, hcut]; exact List.prefix_append ..)
    have hge := h'.longest _ _ h.lexeme (by
      rw [List.cons_append, ← hcut]
      exact List.prefix_append (c :: word) rest)
    obtain ⟨rfl, rfl⟩ := List.append_inj hcut (by simp only [List.length_cons] at hle hge; omega)
    rw [h.lexeme.kind_unique h'.lexeme]

end Start
end Token
end GraphCalc
