import GraphCalc.Expr.Token
import GraphCalc.Proofs.Number.Numeral

/-! # What a text spells

A text that is followed by nothing that continues its last token is scanned apart from what follows.
So the tokens of a long text are those of its pieces. Main notions and statements:

* `Delimited rest`: the text `rest` continues neither a name nor a numeral;
* `Spells text P`: in front of any delimited text, `text` is scanned to tokens with the property `P`;
* `Spells.char`, `Spells.blank`, `Spells.append`: texts put together from pieces;
* `spells_name`, `spells_numeral`: names and numerals as pieces;
* `IsName`: a text that is one name;
* `scan_tokens`: what holds of the tokens of any text.
-/

namespace GraphCalc.Token
open GraphCalc.Text
set_option autoImplicit false

/-! ## First characters -/

/-- A character above the digits and below the first digit beyond ASCII shows no digit. -/
theorem isDigitLike_of_between {c : Char} (hlo : 0x39 < c.toNat) (hhi : c.toNat < 0x80) :
    isDigitLike c = false := by
  have hornament : ∀ r ∈ ornamentalDigits, 0x80 ≤ r.1 := by decide
  have hdigit : isDigit c = false := by
    simp only [isDigit, digitValue?, if_pos hhi]
    rw [if_neg (by simp; omega)]
    rfl
  rw [isDigitLike, hdigit, Bool.false_or, List.any_eq_false]
  intro r hr
  have h := hornament r hr
  simp
  omega

theorem isBlank_eq_false_of_between {c : Char} (hlo : 0x20 < c.toNat) (hhi : c.toNat < 0x80) :
    isBlank c = false := by
  simp only [isBlank, Bool.or_eq_false_iff, Bool.and_eq_false_iff, decide_eq_false_iff_not,
    beq_eq_false_iff_ne]
  omega

/-- The twenty-nine blanks show no digit. -/
theorem isDigitLike_of_isBlank {c : Char} (h : isBlank c = true) : isDigitLike c = false := by
  have hmem : c.toNat ∈ [9, 10, 11, 12, 13, 28, 29, 30, 31, 32, 0x85, 0xa0, 0x1680, 0x2000, 0x2001,
      0x2002, 0x2003, 0x2004, 0x2005, 0x2006, 0x2007, 0x2008, 0x2009, 0x200a, 0x2028, 0x2029,
      0x202f, 0x205f, 0x3000] := by
    simp only [isBlank, Bool.or_eq_true, Bool.and_eq_true, decide_eq_true_eq, beq_iff_eq] at h
    simp only [List.mem_cons, List.not_mem_nil, or_false]
    omega
  revert hmem
  simp only [isDigitLike, isDigit, digitValue?]
  generalize c.toNat = n
  revert n
  decide

theorem isBlank_eq_false_of_isDigitLike {c : Char} (h : (isDigitLike c || c == '.') = true) :
    isBlank c = false := by
  rw [Bool.eq_false_iff]
  intro hblank
  rcases Bool.or_eq_true _ _ ▸ h with hdigit | hpoint
  · rw [isDigitLike_of_isBlank hblank] at hdigit
    cases hdigit
  · rw [beq_iff_eq.mp hpoint] at hblank
    exact absurd hblank (by decide)

theorem toNat_of_isNameStart {c : Char} (h : isNameStart c = true) :
    0x39 < c.toNat ∧ c.toNat < 0x80 ∧ c ≠ '.' := by
  have hcases : (65 ≤ c.toNat ∧ c.toNat ≤ 90) ∨ (97 ≤ c.toNat ∧ c.toNat ≤ 122) ∨ c = '_' := by
    simpa [isNameStart, Char.isAlpha, Char.isUpper, Char.isLower, UInt32.le_iff_toNat_le, or_assoc]
      using h
  rcases hcases with hupper | hlower | rfl
  · exact ⟨by omega, by omega, by rintro rfl; simp at hupper⟩
  · exact ⟨by omega, by omega, by rintro rfl; simp at hlower⟩
  · decide

theorem isBlank_of_isNameStart {c : Char} (h : isNameStart c = true) : isBlank c = false := by
  obtain ⟨hlo, hhi, -⟩ := toNat_of_isNameStart h
  exact isBlank_eq_false_of_between (by omega) hhi

theorem isNamePart_of_isNameStart {c : Char} (h : isNameStart c = true) : isNamePart c = true := by
  rw [isNameStart, Bool.or_eq_true] at h
  rw [isNamePart, Bool.or_eq_true, Char.isAlphanum, Bool.or_eq_true]
  exact h.imp .inl id

/-! ## Scanning a piece -/

/-- Whether a character continues neither a name nor a numeral. -/
def isBreak (c : Char) : Bool := !isNamePart c && !isDigit c && c != '.'

/-- A text that continues neither a name nor a numeral. -/
def Delimited (rest : List Char) : Prop := ∀ c ∈ rest.head?, isBreak c = true

theorem of_isBreak {c : Char} (h : isBreak c = true) :
    isNamePart c = false ∧ isDigit c = false ∧ c ≠ '.' := by
  simpa [isBreak, and_assoc] using h

theorem Delimited.nil : Delimited [] := by
  rintro c ⟨⟩

/-- In front of any delimited text, `text` is scanned to tokens with a property, and what follows is
scanned on its own. -/
def Spells (text : List Char) (P : List Token → Prop) : Prop :=
  ∀ position, ∃ ts, P ts ∧ ∀ rest, Delimited rest →
    scanFrom position (text ++ rest) =
      (scanFrom (position + text.length) rest).map (ts ++ ·)

section Pieces
variable {text : List Char} {P : List Token → Prop}

theorem scanFrom_blank {position : ℕ} {c : Char} {rest : List Char} (h : isBlank c = true) :
    scanFrom position (c :: rest) = scanFrom (position + 1) rest := by
  rw [scanFrom, if_pos h]

theorem scanFrom_token {position more : ℕ} {c : Char} {rest : List Char} {kind : Kind}
    (hblank : isBlank c = false) (hstart : start position c rest = .ok (kind, more)) :
    scanFrom position (c :: rest) = (scanFrom (position + 1 + more) (rest.drop more)).map
      (⟨kind, String.ofList (c :: rest.take more), position⟩ :: ·) := by
  rw [scanFrom, if_neg (by simp [hblank]), hstart]
  simp only [bind, Except.bind]
  cases scanFrom (position + 1 + more) (rest.drop more) <;> rfl

theorem Spells.mono {Q : List Token → Prop} (h : Spells text P) (himp : ∀ ts, P ts → Q ts) :
    Spells text Q := fun position =>
  let ⟨ts, hts, hscan⟩ := h position
  ⟨ts, himp ts hts, hscan⟩

theorem spells_nil : Spells [] (· = []) := fun position => by
  refine ⟨[], rfl, fun rest _ => ?_⟩
  rw [List.nil_append, List.length_nil, Nat.add_zero]
  cases scanFrom position rest <;> rfl

theorem Spells.blank {c : Char} (hc : isBlank c = true) (h : Spells text P) :
    Spells (c :: text) P := fun position => by
  obtain ⟨ts, hts, hscan⟩ := h (position + 1)
  refine ⟨ts, hts, fun rest hrest => ?_⟩
  rw [List.cons_append, scanFrom_blank hc, hscan rest hrest, List.length_cons,
    Nat.add_right_comm, Nat.add_assoc]

/-- A character that is a token by itself. -/
def IsMark (c : Char) (kind : Kind) : Prop :=
  isBlank c = false ∧ ∀ position rest, start position c rest = .ok (kind, 0)

theorem Spells.char {c : Char} {kind : Kind} (hc : IsMark c kind) (h : Spells text P) :
    Spells (c :: text) (fun ts => ∃ p us, ts = ⟨kind, String.ofList [c], p⟩ :: us ∧ P us) :=
  fun position => by
    obtain ⟨ts, hts, hscan⟩ := h (position + 1)
    refine ⟨_, ⟨position, ts, rfl, hts⟩, fun rest hrest => ?_⟩
    rw [List.cons_append, scanFrom_token hc.1 (hc.2 _ _), List.drop_zero, List.take_zero,
      Nat.add_zero, hscan rest hrest, List.length_cons, Nat.add_right_comm, Nat.add_assoc]
    cases scanFrom (position + (text.length + 1)) rest <;> rfl

theorem Spells.append {c : Char} {more : List Char} {Q : List Token → Prop} (h : Spells text P)
    (h' : Spells (c :: more) Q) (hc : isBreak c = true) :
    Spells (text ++ c :: more) (fun ts => ∃ us vs, ts = us ++ vs ∧ P us ∧ Q vs) := fun position => by
  obtain ⟨us, hus, hscan⟩ := h position
  obtain ⟨vs, hvs, hscan'⟩ := h' (position + text.length)
  refine ⟨us ++ vs, ⟨us, vs, rfl, hus, hvs⟩, fun rest hrest => ?_⟩
  have hmore : Delimited (c :: more ++ rest) := by
    rintro d ⟨⟩
    exact hc
  rw [List.append_assoc, hscan _ hmore, hscan' rest hrest, List.length_append, Nat.add_assoc]
  cases scanFrom (position + (text.length + (c :: more).length)) rest <;> simp [Except.map]

theorem Spells.scan (h : Spells text P) : ∃ stream, scan text = .ok stream ∧ P stream.tokens := by
  obtain ⟨ts, hts, hscan⟩ := h 0
  have hall := hscan [] Delimited.nil
  rw [List.append_nil, scanFrom] at hall
  refine ⟨⟨ts, text.length⟩, ?_, hts⟩
  simp [Token.scan, hall, Except.map, bind, Except.bind, pure, Except.pure]

end Pieces

/-! ## Names and numbers -/

/-- A text that is one name. -/
def IsName (name : String) : Prop :=
  ∃ c rest, name = String.ofList (c :: rest) ∧
    ((isNameStart c = true ∧ ∀ d ∈ rest, isNamePart d = true) ∨
      (isSymbolConstant c = true ∧ rest = []))

theorem isBlank_of_isSymbolConstant {c : Char} (h : isSymbolConstant c = true) :
    isBlank c = false ∧ isDigitLike c = false ∧ c ≠ '.' ∧ isNameStart c = false := by
  simp only [isSymbolConstant, Bool.or_eq_true, beq_iff_eq] at h
  rcases h with rfl | rfl <;> decide

theorem spells_name {name : String} (h : IsName name) :
    Spells name.toList (fun ts => ∃ p, ts = [⟨.name, name, p⟩]) := fun position => by
  obtain ⟨c, more, rfl, ⟨hc, hmore⟩ | ⟨hc, rfl⟩⟩ := h
  · refine ⟨_, ⟨position, rfl⟩, fun rest hrest => ?_⟩
    obtain ⟨hlo, hhi, hpoint⟩ := toNat_of_isNameStart hc
    have hstop : StopsAt isNamePart rest := fun d hd => (of_isBreak (hrest d hd)).1
    have hstart : start position c (more ++ rest) = .ok (.name, more.length) := by
      simp [start, isDigitLike_of_between hlo hhi, hpoint, hc, takeWhile_run hmore hstop]
    rw [String.toList_ofList, List.cons_append,
      scanFrom_token (isBlank_eq_false_of_between (by omega) hhi) hstart, List.drop_left,
      List.take_left, List.length_cons, Nat.add_right_comm, Nat.add_assoc]
    rfl
  · obtain ⟨hblank, hdigit, hpoint, hname⟩ := isBlank_of_isSymbolConstant hc
    have hmark : IsMark c .name := ⟨hblank, fun p rest => by
      simp [start, hdigit, hpoint, hname, hc]⟩
    refine ⟨_, ⟨position, rfl⟩, fun rest hrest => ?_⟩
    rw [String.toList_ofList, List.cons_append, scanFrom_token hmark.1 (hmark.2 _ _)]
    rfl

theorem spells_numeral {n : Numeral} (h : n.Valid) :
    Spells n.text (fun ts => ∃ text p, ts = [⟨.number n.value, text, p⟩]) := fun position => by
  obtain ⟨c, more, htext⟩ := List.exists_cons_of_ne_nil h.ne_nil
  refine ⟨_, ⟨String.ofList (c :: more), position, rfl⟩, fun rest hrest => ?_⟩
  have hc : (isDigitLike c || c == '.') = true := h.starts c (by rw [htext]; rfl)
  have hstop : StopsAt Numeral.continues rest := by
    intro d hd
    obtain ⟨hpart, hdigit, hpoint⟩ := of_isBreak (hrest d hd)
    have hmark : ∀ e, isNamePart e = true → d ≠ e := by
      rintro e he rfl
      rw [hpart] at he
      cases he
    simp [Numeral.continues, hdigit, hpoint, hmark 'e' (by decide), hmark 'E' (by decide)]
  have hlongest := Numeral.longest?_text hstop h
  rw [htext, List.cons_append] at hlongest
  have hstart : start position c (more ++ rest) = .ok (.number n.value, more.length) := by
    simp [start, hc, hlongest, htext]
  rw [htext, List.cons_append, scanFrom_token (isBlank_eq_false_of_isDigitLike hc) hstart,
    List.drop_left, List.take_left, List.length_cons, Nat.add_right_comm, Nat.add_assoc]
  rfl

/-! ## The tokens of any text -/

/-- What holds of every token of a text. -/
def Scanned (t : Token) : Prop :=
  match t.kind with
  | .number value => ∃ n : Numeral, n.value = value
  | .name => IsName t.text
  | _ => True

theorem start_scanned {position more p : ℕ} {c : Char} {rest : List Char} {kind : Kind}
    (h : start position c rest = .ok (kind, more)) :
    Scanned ⟨kind, String.ofList (c :: rest.take more), p⟩ := by
  unfold start at h
  split at h
  · split at h
    · next n _ =>
      cases h
      exact ⟨n, rfl⟩
    · cases h
  split at h
  · next hc =>
    cases h
    refine ⟨c, _, rfl, .inl ⟨hc, fun d hd => ?_⟩⟩
    rw [← List.prefix_iff_eq_take.mp (List.takeWhile_prefix _)] at hd
    exact List.mem_takeWhile_imp hd
  split at h
  · next hc =>
    cases h
    exact ⟨c, [], rfl, .inr ⟨hc, rfl⟩⟩
  repeat' split at h
  all_goals cases h
  all_goals trivial

theorem scanFrom_tokens {position : ℕ} {text : List Char} {ts : List Token}
    (h : scanFrom position text = .ok ts) :
    (∀ t ∈ ts, Scanned t) ∧ ts.length ≤ text.length := by
  fun_induction scanFrom position text generalizing ts with
  | case1 =>
    cases h
    exact ⟨by simp, Nat.le_refl _⟩
  | case2 position c rest hblank ih =>
    obtain ⟨hscanned, hlength⟩ := ih h
    exact ⟨hscanned, Nat.le_succ_of_le hlength⟩
  | case3 position c rest hblank ih =>
    cases hstart : start position c rest with
    | error e => simp [hstart, bind, Except.bind] at h
    | ok x =>
      obtain ⟨kind, more⟩ := x
      cases htail : scanFrom (position + 1 + more) (rest.drop more) with
      | error e => simp [hstart, htail, bind, Except.bind] at h
      | ok us =>
        simp only [hstart, htail, bind, Except.bind, pure, Except.pure] at h
        cases h
        obtain ⟨hscanned, hlength⟩ := ih more htail
        rw [List.length_drop] at hlength
        refine ⟨?_, by simp only [List.length_cons]; omega⟩
        intro t ht
        rcases List.mem_cons.mp ht with rfl | ht
        · exact start_scanned hstart
        · exact hscanned t ht

/-- The tokens of a text are names as written and numbers of numerals, and there are no more of them
than characters. -/
theorem scan_tokens {text : List Char} {stream : Stream} (h : scan text = .ok stream) :
    (∀ t ∈ stream.tokens, Scanned t) ∧ stream.tokens.length ≤ text.length := by
  unfold scan at h
  cases hscan : scanFrom 0 text with
  | error e => simp [hscan, bind, Except.bind] at h
  | ok ts =>
    rw [hscan] at h
    cases h
    exact scanFrom_tokens hscan

end GraphCalc.Token
