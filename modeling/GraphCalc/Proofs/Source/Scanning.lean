import GraphCalc.Proofs.Source.Lexeme

/-! # Runs of the scanner

A text is scanned from left to right, blank by blank and lexeme by lexeme. Main notions and
statements:

* `Scans before tokens rest`: a run of the scanner that stands between `before` and `rest`;
* `Halts rest`: a place where no run goes on: the end of a text, or its first fault;
* `exists_halt`: every text has a run that halts;
* `Scans.scan_eq_ok`, `Scans.scan_eq_error`: `scan` answers as this run does;
* `Scans.of_isPrefix`: a run does not depend on what stands far behind its place;
* `Alike f t t'`: two tokens that are the same up to their places and the names that `f` maps;
* `Lexed`, `Refused`, `scan_lexed_or_refused`: what the tokens of a text are, and where a text without
  tokens is refused.
-/

namespace GraphCalc.Token
open GraphCalc.Text
set_option autoImplicit false

/-! ## Runs -/

/-- The scanner has read `before`, found these tokens in it, and stands in front of `rest`. -/
inductive Scans : List Char → List Token → List Char → Prop where
  | nil {text} : Scans [] [] text
  | blank {before tokens c rest} (h : Scans before tokens (c :: rest)) (hc : isBlank c = true) :
      Scans (before ++ [c]) tokens rest
  | token {before tokens kind word rest} (h : Scans before tokens (word ++ rest))
      (hword : Munch kind word rest) :
      Scans (before ++ word) (tokens ++ [⟨kind, String.ofList word, before.length⟩]) rest

/-- A place in front of a text that starts neither with a blank nor with a lexeme. -/
structure Halts (rest : List Char) : Prop where
  blank : ∀ c ∈ rest.head?, isBlank c = false
  lexeme : ∀ kind word, IsLexeme kind word → ¬ word <+: rest

theorem halts_nil : Halts [] :=
  ⟨by rintro c ⟨⟩, fun _ _ h hword => h.ne_nil (List.prefix_nil.mp hword)⟩

theorem IsLexeme.isBlank_eq_false {kind : Kind} {c : Char} {more : List Char}
    (h : IsLexeme kind (c :: more)) : isBlank c = false :=
  h.not_blank List.mem_cons_self

/-- The scanner can go on, unless it halts. -/
theorem goes_on_or_halts (rest : List Char) :
    (∃ c after, rest = c :: after ∧ isBlank c = true) ∨
      (∃ kind word after, rest = word ++ after ∧ Munch kind word after) ∨ Halts rest := by
  cases rest with
  | nil => exact .inr (.inr halts_nil)
  | cons c tail =>
    cases hblank : isBlank c with
    | true => exact .inl ⟨c, tail, rfl, hblank⟩
    | false =>
      cases hstart : start 0 c tail with
      | ok found =>
        obtain ⟨word, after, rfl, -, hmunch⟩ := munch_of_start hstart
        exact .inr (.inl ⟨found.1, c :: word, after, rfl, hmunch⟩)
      | error e =>
        refine .inr (.inr ⟨?_, (start_eq_error hstart).2⟩)
        rintro d ⟨⟩
        exact hblank

theorem Scans.exists_halt {before rest : List Char} {tokens : List Token}
    (h : Scans before tokens rest) :
    ∃ read more after, rest = read ++ after ∧ Scans (before ++ read) (tokens ++ more) after ∧
      Halts after := by
  induction hlength : rest.length using Nat.strong_induction_on generalizing before tokens rest with
  | _ length ih =>
    rcases goes_on_or_halts rest with ⟨c, after, rfl, hc⟩ | ⟨kind, word, after, rfl, hword⟩ | hhalt
    · rw [List.length_cons] at hlength
      obtain ⟨read, more, last, rfl, hrun, hlast⟩ := ih after.length (by omega) (h.blank hc) rfl
      exact ⟨c :: read, more, last, rfl, by simpa using hrun, hlast⟩
    · have hpos := List.length_pos_iff.mpr hword.lexeme.ne_nil
      rw [List.length_append] at hlength
      obtain ⟨read, more, last, rfl, hrun, hlast⟩ := ih after.length (by omega) (h.token hword) rfl
      exact ⟨word ++ read, _ :: more, last, (List.append_assoc ..).symm, by simpa using hrun, hlast⟩
    · exact ⟨[], [], rest, rfl, by simpa using h, hhalt⟩

theorem exists_halt (text : List Char) :
    ∃ before tokens rest, text = before ++ rest ∧ Scans before tokens rest ∧ Halts rest := by
  obtain ⟨read, more, after, rfl, hrun, hhalt⟩ := (show Scans [] [] text from .nil).exists_halt
  exact ⟨read, more, after, rfl, hrun, hhalt⟩

section Run
variable {before rest : List Char} {tokens : List Token}

/-- What a run has read is scanned to what it found, and the rest is scanned on its own. -/
theorem Scans.scanFrom_eq (h : Scans before tokens rest) :
    scanFrom 0 (before ++ rest) = (scanFrom before.length rest).map (tokens ++ ·) := by
  induction h with
  | @nil text =>
    rw [List.nil_append]
    cases scanFrom 0 text <;> simp [Except.map]
  | @blank before tokens c rest _ hc ih =>
    rw [List.append_assoc, List.singleton_append, ih, scanFrom_blank hc, List.length_append]
    rfl
  | @token before tokens kind word rest _ hword ih =>
    obtain ⟨c, more, rfl⟩ := hword.lexeme.exists_cons
    rw [List.append_assoc, ih, List.cons_append,
      scanFrom_token hword.lexeme.isBlank_eq_false (hword.start_eq _), List.drop_left,
      List.take_left, List.length_append, List.length_cons, Nat.add_assoc, Nat.add_comm 1]
    cases scanFrom (before.length + (more.length + 1)) rest <;> simp [Except.map]

/-- A run depends on what stands behind its place only as far as lexemes end there. -/
theorem Scans.of_isPrefix (h : Scans before tokens rest) {front : List Char} (hfront : front <+: rest) :
    Scans before tokens front := by
  induction h generalizing front with
  | nil => exact .nil
  | @blank before tokens c rest _ hc ih => exact (ih (List.cons_prefix_cons.mpr ⟨rfl, hfront⟩)).blank hc
  | @token before tokens kind word rest _ hword ih =>
    have hwhole : word ++ front <+: word ++ rest := (List.prefix_append_right_inj word).mpr hfront
    exact (ih hwhole).token (hword.of_isPrefix hfront)

/-- At the end of the text the scanner answers with the tokens it found. -/
theorem Scans.scan_eq_ok (h : Scans before tokens []) : scan before = .ok ⟨tokens, before.length⟩ := by
  have hscan := h.scanFrom_eq
  rw [List.append_nil, scanFrom] at hscan
  simp [scan, hscan, Except.map, bind, Except.bind, pure, Except.pure]

/-- At its first fault the scanner refuses the text. -/
theorem Scans.scan_eq_error {c : Char} (h : Scans before tokens (c :: rest)) (hhalt : Halts (c :: rest)) :
    scan (before ++ c :: rest) = .error (faultAt c before.length) := by
  have hblank : isBlank c = false := hhalt.blank c rfl
  cases hstart : start before.length c rest with
  | ok found =>
    obtain ⟨word, after, rfl, -, hword⟩ := munch_of_start hstart
    exact absurd (List.prefix_append (c :: word) after) (hhalt.lexeme _ _ hword.lexeme)
  | error e =>
    have hscan := h.scanFrom_eq
    rw [scanFrom, if_neg (by simp [hblank]), hstart, (start_eq_error hstart).1] at hscan
    simp [scan, hscan, Except.map, bind, Except.bind]

/-- The tokens of a text are those of the run through it. -/
theorem scans_of_scan {text : List Char} {stream : Stream} (h : scan text = .ok stream) :
    Scans text stream.tokens [] ∧ stream.finish = text.length := by
  obtain ⟨before, tokens, rest, rfl, hrun, hhalt⟩ := exists_halt text
  cases rest with
  | nil =>
    rw [List.append_nil] at h ⊢
    rw [hrun.scan_eq_ok] at h
    cases h
    exact ⟨hrun, rfl⟩
  | cons c tail =>
    rw [hrun.scan_eq_error hhalt] at h
    cases h

/-! ## What a run found -/

/-- Whether a place in a text belongs to a token. -/
def Covers (t : Token) (i : ℕ) : Prop := t.position ≤ i ∧ i < t.position + t.text.length

/-- Each token found is the longest lexeme at its place. -/
theorem Scans.cut (h : Scans before tokens rest) :
    ∀ t ∈ tokens, ∃ after, (before ++ rest).drop t.position = t.text.toList ++ after ∧
      Munch t.kind t.text.toList after := by
  induction h with
  | nil => simp
  | blank _ _ ih => simpa using ih
  | @token before tokens kind word rest _ hword ih =>
    intro t ht
    rcases List.mem_append.mp ht with ht | ht
    · simpa using ih t ht
    · rw [List.mem_singleton.mp ht, List.append_assoc, List.drop_left, String.toList_ofList]
      exact ⟨rest, rfl, hword⟩

theorem Scans.ends_le (h : Scans before tokens rest) :
    ∀ t ∈ tokens, t.position + t.text.length ≤ before.length := by
  induction h with
  | nil => simp
  | blank _ _ ih => exact fun t ht => (ih t ht).trans (by simp)
  | @token before tokens kind word rest _ hword ih =>
    intro t ht
    rw [List.length_append]
    rcases List.mem_append.mp ht with ht | ht
    · exact (ih t ht).trans (Nat.le_add_right ..)
    · rw [List.mem_singleton.mp ht, String.length_ofList]

theorem Scans.ordered (h : Scans before tokens rest) :
    tokens.Pairwise fun t u => t.position + t.text.length ≤ u.position := by
  induction h with
  | nil => exact .nil
  | blank _ _ ih => exact ih
  | @token before tokens kind word rest h hword ih =>
    refine List.pairwise_append.mpr ⟨ih, List.pairwise_singleton .., fun t ht u hu => ?_⟩
    rw [List.mem_singleton.mp hu]
    exact h.ends_le t ht

/-- What the run has read outside its tokens is blank. -/
theorem Scans.blank_or_covered (h : Scans before tokens rest) (i : ℕ) {c : Char}
    (hc : before[i]? = some c) : isBlank c = true ∨ ∃ t ∈ tokens, Covers t i := by
  induction h with
  | nil => simp at hc
  | @blank before tokens d rest _ hd ih =>
    rcases Nat.lt_or_ge i before.length with hi | hi
    · rw [List.getElem?_append_left hi] at hc
      exact ih hc
    · rw [List.getElem?_append_right hi] at hc
      obtain rfl : c = d := by simpa using (List.mem_of_getElem? hc)
      exact .inl hd
  | @token before tokens kind word rest _ hword ih =>
    rcases Nat.lt_or_ge i before.length with hi | hi
    · rw [List.getElem?_append_left hi] at hc
      rcases ih hc with hblank | ⟨t, ht, hcovers⟩
      · exact .inl hblank
      · exact .inr ⟨t, List.mem_append_left _ ht, hcovers⟩
    · refine .inr ⟨_, List.mem_append_right _ (List.mem_singleton_self _), hi, ?_⟩
      have hlt := (List.getElem?_eq_some_iff.mp hc).1
      rw [List.length_append] at hlt
      rwa [String.length_ofList]

end Run

/-- Two tokens of one kind, with the same text, or with a name and what `f` makes of it; where they
stand plays no part. -/
structure Alike (f : String → String) (t t' : Token) : Prop where
  kind : t'.kind = t.kind
  text : t'.text = if t.kind = .name then f t.text else t.text

/-! ## Every text -/

/-- The tokens of a text: each is the longest lexeme at its place, they stand apart and in order, and
between them there are only blanks. -/
structure Lexed (text : List Char) (stream : Stream) : Prop where
  finish : stream.finish = text.length
  nonempty : ∀ t ∈ stream.tokens, t.text ≠ ""
  cut : ∀ t ∈ stream.tokens, ∃ after, text.drop t.position = t.text.toList ++ after ∧
    Munch t.kind t.text.toList after
  increasing : stream.tokens.Pairwise fun t u => t.position < u.position
  apart : stream.tokens.Pairwise fun t u => ∀ i, ¬ (Covers t i ∧ Covers u i)
  blank : ∀ i c, text[i]? = some c → (∀ t ∈ stream.tokens, ¬ Covers t i) → isBlank c = true

/-- A text is refused at its first character that is neither blank nor the start of a lexeme: what
stands before has tokens. -/
structure Refused (text : List Char) (e : ScanError) : Prop where
  before : ∃ stream, scan (text.take e.position) = .ok stream
  fault : ∃ c, text[e.position]? = some c ∧ e = faultAt c e.position ∧ isBlank c = false
  lexeme : ∀ kind word, IsLexeme kind word → ¬ word <+: text.drop e.position

theorem position_faultAt (c : Char) (position : ℕ) : (faultAt c position).position = position := by
  unfold faultAt
  split <;> rfl

theorem Scans.lexed {text : List Char} {tokens : List Token} (h : Scans text tokens []) :
    Lexed text ⟨tokens, text.length⟩ := by
  have hcut := h.cut
  rw [List.append_nil] at hcut
  have hnonempty : ∀ t ∈ tokens, t.text ≠ "" := by
    rintro t ht hempty
    obtain ⟨after, -, hword⟩ := hcut t ht
    exact hword.lexeme.ne_nil (by rw [hempty]; rfl)
  refine ⟨rfl, hnonempty, hcut, ?_, ?_, ?_⟩
  · refine h.ordered.imp_of_mem fun {t u} ht _ hle => ?_
    have hpos : 0 < t.text.length := Nat.pos_of_ne_zero fun hzero =>
      hnonempty t ht (String.length_eq_zero_iff.mp hzero)
    omega
  · refine h.ordered.imp fun {t u} hle i => ?_
    rintro ⟨⟨-, hlt⟩, hge, -⟩
    omega
  · intro i c hc houtside
    rcases h.blank_or_covered i hc with hblank | ⟨t, ht, hcovers⟩
    · exact hblank
    · exact absurd hcovers (houtside t ht)

/-- Every text has tokens, or is refused at its first fault. -/
theorem scan_lexed_or_refused (text : List Char) :
    (∃ stream, scan text = .ok stream ∧ Lexed text stream) ∨
      ∃ e, scan text = .error e ∧ Refused text e := by
  obtain ⟨before, tokens, rest, rfl, hrun, hhalt⟩ := exists_halt text
  cases rest with
  | nil =>
    rw [List.append_nil]
    exact .inl ⟨_, hrun.scan_eq_ok, hrun.lexed⟩
  | cons c tail =>
    refine .inr ⟨_, hrun.scan_eq_error hhalt, ?_, ?_, ?_⟩ <;> rw [position_faultAt]
    · rw [List.take_left]
      exact ⟨_, (hrun.of_isPrefix List.nil_prefix).scan_eq_ok⟩
    · exact ⟨c, by simp, rfl, hhalt.blank c rfl⟩
    · rw [List.drop_left]
      exact hhalt.lexeme

end GraphCalc.Token
