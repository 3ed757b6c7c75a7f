import GraphCalc.Area.IntegralCall
import GraphCalc.Proofs.Text.Brackets

/-! # Integrals found in a text

Which integrals the search finds, said of the text alone: an integral is a stretch from `int(` to the
bracket that matches, with two commas outside all inner brackets. Every text is searched to its end,
since the search goes down the text and passes over what it has found. Main notions:

* `Span`: a stretch of a text that starts with `int(` and ends with a closing bracket;
* `Span.StandsIn`: the stretch is there, and its brackets match;
* `Span.Spells`: the integral that is written there;
* `Extracts`: the spans that the search finds ahead of a place; `Extracts.character` and `Extracts.span` are
  its steps;
* `all_are_disjoint_spans`: the search finds spans from left to right, misses none outside them, and
  finds each of its answers again.
-/

namespace GraphCalc.IntegralCall
open GraphCalc.Text
set_option autoImplicit false

/-! ## The bracket that matches -/

theorem upToClosing?_eq_some_iff {depth : Nat} {text inside : List Char} :
    upToClosing? depth text = some inside ↔
      ClosesAll depth inside ∧ ∃ after, text = inside ++ ')' :: after := by
  induction text generalizing depth inside with
  | nil => simp [upToClosing?]
  | cons c text ih =>
    -- a bracket that does not match the outermost one goes to the inside with its level
    have hstep : ∀ depth' : Nat, (depth : Int) + level [c] = depth' → ¬ (c = ')' ∧ depth = 0) →
        ((upToClosing? depth' text).map (c :: ·) = some inside ↔
          ClosesAll depth inside ∧ ∃ after, c :: text = inside ++ ')' :: after) := by
      intro depth' hdepth hnot
      rw [Option.map_eq_some_iff]
      constructor
      · rintro ⟨tail, htail, rfl⟩
        obtain ⟨hcloses, after, rfl⟩ := ih.mp htail
        exact ⟨(closesAll_cons_iff hdepth).mpr hcloses, after, rfl⟩
      · rintro ⟨hcloses, after, hcut⟩
        cases inside with
        | nil =>
          obtain ⟨rfl, -⟩ := List.cons.inj hcut
          exact absurd ⟨rfl, closesAll_nil_iff.mp hcloses⟩ hnot
        | cons d tail =>
          obtain ⟨rfl, htext⟩ := List.cons.inj hcut
          exact ⟨tail, ih.mpr ⟨(closesAll_cons_iff hdepth).mp hcloses, after, htext⟩, rfl⟩
    rw [upToClosing?.eq_def]
    dsimp only
    by_cases ho : c = '('
    · rw [if_pos ho]
      exact hstep (depth + 1) (by rw [ho]; rfl) (by simp [ho])
    by_cases hc : c = ')'
    · rw [if_neg ho, if_pos hc]
      cases depth with
      | zero =>
        subst hc
        constructor
        · rintro ⟨⟩
          exact ⟨closesAll_nil_iff.mpr rfl, text, rfl⟩
        · rintro ⟨hcloses, after, hcut⟩
          cases inside with
          | nil => rfl
          | cons d tail =>
            obtain ⟨rfl, -⟩ := List.cons.inj hcut
            exact absurd hcloses not_closesAll_zero_closing
      | succ depth => exact hstep depth (by rw [hc]; simp) (by simp)
    · rw [if_neg ho, if_neg hc]
      exact hstep depth (by rw [level_singleton_of_ne ho hc, Int.add_zero]) fun h => hc h.1

/-! ## The pieces -/

theorem piecesFrom_cons (depth : Int) (c : Char) (text : List Char) :
    piecesFrom depth (c :: text) =
      if c = ',' ∧ depth = 0 then [] :: piecesFrom depth text
      else consFirst c (piecesFrom (depth + level [c]) text) := by
  have hlevel : (if c = '(' then depth + 1 else if c = ')' then depth - 1 else depth) =
      depth + level [c] := by
    by_cases ho : c = '('
    · simp [ho]
    · by_cases hc : c = ')'
      · simp [hc, Int.sub_eq_add_neg]
      · rw [if_neg ho, if_neg hc, level_singleton_of_ne ho hc, Int.add_zero]
  rw [piecesFrom, hlevel]

theorem piecesFrom_of_uncut {depth : Int} {text : List Char} (h : commasAt depth text = []) :
    piecesFrom depth text = [text] := by
  induction text generalizing depth with
  | nil => rfl
  | cons c text ih =>
    rw [commasAt_cons, List.append_eq_nil_iff, List.map_eq_nil_iff] at h
    have hc : ¬ (c = ',' ∧ depth = 0) := by simpa using h.1
    rw [piecesFrom_cons, if_neg hc, ih h.2]
    rfl

theorem piecesFrom_cut {depth : Int} {before : List Char} (h : commasAt depth before = [])
    (hlevel : depth + level before = 0) (after : List Char) :
    piecesFrom depth (before ++ ',' :: after) = before :: piecesFrom 0 after := by
  induction before generalizing depth with
  | nil =>
    rw [level_nil, Int.add_zero] at hlevel
    rw [List.nil_append, piecesFrom_cons, if_pos ⟨rfl, hlevel⟩, hlevel]
  | cons c before ih =>
    rw [commasAt_cons, List.append_eq_nil_iff, List.map_eq_nil_iff] at h
    have hc : ¬ (c = ',' ∧ depth = 0) := by simpa using h.1
    rw [level_cons, ← Int.add_assoc] at hlevel
    rw [List.cons_append, piecesFrom_cons, if_neg hc, ih h.2 hlevel]
    rfl

theorem piecesFrom_piece {piece : List Char} (h : IsPiece piece) : piecesFrom 0 piece = [piece] :=
  piecesFrom_of_uncut h.uncut

theorem piecesFrom_piece_cut {piece : List Char} (h : IsPiece piece) (after : List Char) :
    piecesFrom 0 (piece ++ ',' :: after) = piece :: piecesFrom 0 after :=
  piecesFrom_cut h.uncut ((Int.zero_add _).trans h.balanced.1) after

/-- The integral with the given pieces, without blanks at their ends. -/
def ofPieces (integrand lower upper : List Char) : IntegralCall :=
  ⟨String.ofList (trim integrand), String.ofList (trim lower), String.ofList (trim upper)⟩

theorem piecesFrom_pieces {a b c : List Char} (ha : IsPiece a) (hb : IsPiece b) (hc : IsPiece c) :
    piecesFrom 0 (a ++ ',' :: (b ++ ',' :: c)) = [a, b, c] := by
  rw [piecesFrom_piece_cut ha, piecesFrom_piece_cut hb, piecesFrom_piece hc]

theorem balanced_pieces {a b c : List Char} (ha : IsPiece a) (hb : IsPiece b) (hc : IsPiece c) :
    Balanced (a ++ ',' :: (b ++ ',' :: c)) := by
  have hcomma : ∀ {text}, Balanced text → Balanced (',' :: text) :=
    (balanced_cons_iff (by decide) (by decide)).mpr
  exact ha.balanced.append (hcomma (hb.balanced.append (hcomma hc.balanced)))

theorem ofInside?_pieces {a b c : List Char} (ha : IsPiece a) (hb : IsPiece b) (hc : IsPiece c) :
    ofInside? (a ++ ',' :: (b ++ ',' :: c)) = some (ofPieces a b c) := by
  rw [ofInside?, piecesFrom_pieces ha hb hc]
  rfl

/-- Whether the inside of matching brackets is that of an integral depends on its commas. -/
theorem ofInside?_cases {inside : List Char} (h : Balanced inside) :
    ((outerCommas inside).length ≠ 2 ∧ ofInside? inside = none) ∨
      ∃ a b c, IsPiece a ∧ IsPiece b ∧ IsPiece c ∧ inside = a ++ ',' :: (b ++ ',' :: c) := by
  rcases h.exists_first_piece with huncut | ⟨a, after, rfl, ha, hafter⟩
  · refine .inl ⟨by simp [huncut.uncut], ?_⟩
    rw [ofInside?, piecesFrom_piece huncut]
  rcases hafter.exists_first_piece with huncut | ⟨b, after, rfl, hb, hafter⟩
  · refine .inl ⟨by simp [ha.outerCommas_cut, huncut.uncut], ?_⟩
    rw [ofInside?, piecesFrom_piece_cut ha, piecesFrom_piece huncut]
  rcases hafter.exists_first_piece with huncut | ⟨c, after, rfl, hc, hafter⟩
  · exact .inr ⟨a, b, after, ha, hb, huncut, rfl⟩
  · refine .inl ⟨by simp [ha.outerCommas_cut, hb.outerCommas_cut, hc.outerCommas_cut], ?_⟩
    rw [ofInside?, piecesFrom_piece_cut ha, piecesFrom_piece_cut hb, piecesFrom_piece_cut hc]
    rcases hafter.exists_first_piece with huncut | ⟨d, after, rfl, hd, -⟩
    · rw [piecesFrom_piece huncut]
    · rw [piecesFrom_piece_cut hd]

/-! ## Spans -/

/-- A stretch of a text from `int(` to a closing bracket, and what is inside. -/
structure Span where
  start : Nat
  inside : List Char

/-- The place behind the closing bracket. -/
def Span.finish (s : Span) : Nat := s.start + (opening.length + s.inside.length + 1)

/-- The span is a stretch of the text, and the bracket at its end matches the one behind `int`. -/
def Span.StandsIn (s : Span) (text : List Char) : Prop :=
  Balanced s.inside ∧ ∃ before after, before.length = s.start ∧
    text = before ++ (opening ++ (s.inside ++ ')' :: after))

/-- Exactly two commas of the inside are outside all brackets, and the pieces between them, which are
balanced, are those of the integral. -/
def Span.Spells (s : Span) (call : IntegralCall) : Prop :=
  ∃ a b c, s.inside = a ++ ',' :: (b ++ ',' :: c) ∧
    outerCommas s.inside = [a.length, a.length + 1 + b.length] ∧
    IsPiece a ∧ IsPiece b ∧ IsPiece c ∧ call = ofPieces a b c

theorem Span.spells_of_ofInside? {inside : List Char} {call : IntegralCall}
    (hbalanced : Balanced inside) (h : ofInside? inside = some call) (start : Nat) :
    Span.Spells ⟨start, inside⟩ call := by
  rcases ofInside?_cases hbalanced with ⟨-, hnone⟩ | ⟨a, b, c, ha, hb, hc, rfl⟩
  · rw [hnone] at h
    cases h
  · rw [ofInside?_pieces ha hb hc] at h
    cases h
    refine ⟨a, b, c, rfl, ?_, ha, hb, hc, rfl⟩
    rw [ha.outerCommas_cut, hb.outerCommas_cut, hc.uncut]
    simp [Nat.add_comm, Nat.add_left_comm]

/-! ## An integral at the start -/

theorem afterStart?_eq_some_iff {beginning text after : List Char} :
    afterStart? beginning text = some after ↔ text = beginning ++ after := by
  unfold afterStart?
  by_cases h : beginning <+: text
  · obtain ⟨after', rfl⟩ := h
    rw [if_pos (List.isPrefixOf_iff_prefix.mpr (List.prefix_append ..)), List.drop_left,
      Option.some.injEq, List.append_cancel_left_eq]
  · rw [if_neg (by rwa [List.isPrefixOf_iff_prefix])]
    refine iff_of_false nofun ?_
    rintro rfl
    exact h (List.prefix_append ..)

theorem atStart?_eq_some_iff {text : List Char} {call : IntegralCall} {length : Nat} :
    atStart? text = some (call, length) ↔ ∃ inside after, Balanced inside ∧
      text = opening ++ (inside ++ ')' :: after) ∧ ofInside? inside = some call ∧
        length = opening.length + inside.length + 1 := by
  simp only [atStart?, Option.bind_eq_bind, Option.bind_eq_some_iff, afterStart?_eq_some_iff,
    upToClosing?_eq_some_iff, closesAll_zero_iff, Option.pure_def, Option.some.injEq, Prod.mk.injEq]
  constructor
  · rintro ⟨rest, rfl, inside, ⟨hbalanced, after, rfl⟩, call, hcall, rfl, rfl⟩
    exact ⟨inside, after, hbalanced, rfl, hcall, rfl⟩
  · rintro ⟨inside, after, hbalanced, rfl, hcall, rfl⟩
    exact ⟨_, rfl, inside, ⟨hbalanced, after, rfl⟩, call, hcall, rfl, rfl⟩

theorem atStart?_pieces {a b c : List Char} (ha : IsPiece a) (hb : IsPiece b) (hc : IsPiece c)
    (after : List Char) :
    atStart? (opening ++ ((a ++ ',' :: (b ++ ',' :: c)) ++ ')' :: after)) =
      some (ofPieces a b c, opening.length + (a ++ ',' :: (b ++ ',' :: c)).length + 1) :=
  atStart?_eq_some_iff.mpr
    ⟨_, after, balanced_pieces ha hb hc, rfl, ofInside?_pieces ha hb hc, rfl⟩

theorem atStart?_eq_none_of_commas {inside : List Char} (hbalanced : Balanced inside)
    (hcommas : (outerCommas inside).length ≠ 2) (after : List Char) :
    atStart? (opening ++ (inside ++ ')' :: after)) = none := by
  have hmatch : upToClosing? 0 (inside ++ ')' :: after) = some inside :=
    upToClosing?_eq_some_iff.mpr ⟨closesAll_zero_iff.mpr hbalanced, after, rfl⟩
  have hnone : ofInside? inside = none := by
    rcases ofInside?_cases hbalanced with ⟨-, hnone⟩ | ⟨a, b, c, ha, hb, hc, rfl⟩
    · exact hnone
    · rw [ha.outerCommas_cut, hb.outerCommas_cut, hc.uncut] at hcommas
      exact absurd rfl hcommas
  rw [atStart?, afterStart?_eq_some_iff.mpr rfl]
  simp [hmatch, hnone]

/-- Where no integral starts, no bracket matches or the commas are not two. -/
theorem outerCommas_of_atStart?_eq_none {inside after : List Char}
    (h : atStart? (opening ++ (inside ++ ')' :: after)) = none) (hbalanced : Balanced inside) :
    (outerCommas inside).length ≠ 2 := by
  rcases ofInside?_cases hbalanced with ⟨hcommas, -⟩ | ⟨a, b, c, ha, hb, hc, rfl⟩
  · exact hcommas
  · rw [atStart?_pieces ha hb hc] at h
    cases h

/-! ## The search -/

theorem allFrom_skip (skip : Nat) (text : List Char) :
    allFrom skip text = allFrom 0 (text.drop skip) := by
  induction text generalizing skip with
  | nil => rw [List.drop_nil]; rfl
  | cons c text ih =>
    cases skip with
    | zero => rfl
    | succ skip => exact ih skip

theorem allFrom_cons_of_none {c : Char} {text : List Char} (h : atStart? (c :: text) = none) :
    allFrom 0 (c :: text) = allFrom 0 text := by
  rw [allFrom, h]

theorem allFrom_of_some {text : List Char} {call : IntegralCall} {length : Nat}
    (h : atStart? text = some (call, length)) :
    allFrom 0 text = call :: allFrom 0 (text.drop length) := by
  obtain ⟨inside, after, -, htext, -, rfl⟩ := atStart?_eq_some_iff.mp h
  cases text with
  | nil => cases htext
  | cons c text =>
    rw [allFrom, h]
    dsimp only
    rw [allFrom_skip, Nat.add_sub_cancel, List.drop_succ_cons]

theorem drop_opening (inside after : List Char) :
    (opening ++ (inside ++ ')' :: after)).drop (opening.length + inside.length + 1) = after := by
  have hcut : opening ++ (inside ++ ')' :: after) = (opening ++ inside ++ [')']) ++ after := by simp
  rw [hcut, List.drop_left']
  simp [Nat.add_assoc]

/-- An integral at the start is found, and the search goes on behind it. -/
theorem allFrom_pieces {a b c : List Char} (ha : IsPiece a) (hb : IsPiece b) (hc : IsPiece c)
    (after : List Char) :
    allFrom 0 (opening ++ ((a ++ ',' :: (b ++ ',' :: c)) ++ ')' :: after)) =
      ofPieces a b c :: allFrom 0 after := by
  rw [allFrom_of_some (atStart?_pieces ha hb hc after), drop_opening]

/-- The spans are what the search finds ahead of a place: they start there or later, stand apart from left
to right, spell the integrals found, and outside them no integral starts. The characters behind the place
say where the spans stand in the whole text. -/
structure Extracts (before ahead : List Char) (spans : List Span) : Prop where
  onwards : ∀ s ∈ spans, before.length ≤ s.start
  apart : spans.Pairwise fun s t => s.finish ≤ t.start
  found : List.Forall₂ (fun s call => s.StandsIn (before ++ ahead) ∧ s.Spells call) spans
    (allFrom 0 ahead)
  missed : ∀ start after, before ++ ahead = start ++ (opening ++ after) → before.length ≤ start.length →
    (∀ s ∈ spans, ¬ (s.start ≤ start.length ∧ start.length < s.finish)) →
    atStart? (opening ++ after) = none

section Extraction
variable {before text inside after : List Char} {spans : List Span} {c : Char} {call : IntegralCall}

theorem extracts_nil : Extracts before [] [] := by
  refine ⟨by simp, .nil, .nil, fun start after hcut hle _ => ?_⟩
  have hlength := congrArg List.length hcut
  simp [opening] at hlength
  omega

/-- Where no integral starts the search goes on by a character. -/
theorem Extracts.character (h : Extracts (before ++ [c]) text spans)
    (hnone : atStart? (c :: text) = none) : Extracts before (c :: text) spans := by
  obtain ⟨hahead, hapart, hfound, hmissed⟩ := h
  rw [List.append_assoc, List.singleton_append] at hfound hmissed
  refine ⟨fun s hs => Nat.le_trans (by simp) (hahead s hs), hapart, ?_, ?_⟩
  · rwa [allFrom_cons_of_none hnone]
  · intro start after hcut hle hout
    rcases hle.eq_or_lt with hsame | hlt
    · rw [← (List.append_inj hcut hsame).2, hnone]
    · exact hmissed start after hcut (by simpa using hlt) hout

/-- Where an integral starts its span is found, and the search goes on behind the closing bracket. -/
theorem Extracts.span (h : Extracts (before ++ (opening ++ inside ++ [')'])) after spans)
    (hbalanced : Balanced inside) (hcall : ofInside? inside = some call) :
    Extracts before (opening ++ (inside ++ ')' :: after)) (⟨before.length, inside⟩ :: spans) := by
  obtain ⟨hahead, hapart, hfound, hmissed⟩ := h
  have hcut : before ++ (opening ++ inside ++ [')']) ++ after =
      before ++ (opening ++ (inside ++ ')' :: after)) := by simp
  have hfinish : (before ++ (opening ++ inside ++ [')'])).length =
      Span.finish ⟨before.length, inside⟩ := by simp [Span.finish, Nat.add_assoc]
  have hat : atStart? (opening ++ (inside ++ ')' :: after)) = some (call, _) :=
    atStart?_eq_some_iff.mpr ⟨inside, after, hbalanced, rfl, hcall, rfl⟩
  rw [hcut] at hfound hmissed
  rw [hfinish] at hahead hmissed
  refine ⟨?_, .cons hahead hapart, ?_, fun start after' hcut' hle hout => ?_⟩
  · intro s hs
    rcases List.mem_cons.mp hs with rfl | hs
    · exact Nat.le_refl _
    · exact Nat.le_trans (by simp [Span.finish]) (hahead s hs)
  · rw [allFrom_of_some hat, drop_opening]
    exact .cons ⟨⟨hbalanced, before, after, rfl, rfl⟩, Span.spells_of_ofInside? hbalanced hcall _⟩
      hfound
  · have hbehind : ¬ (before.length ≤ start.length ∧ start.length < _) := hout _ List.mem_cons_self
    exact hmissed start after' hcut' (by omega) fun s hs => hout s (List.mem_cons_of_mem _ hs)

/-- The search finds spans in every text. The induction is on the number of characters ahead. -/
theorem exists_extracts (before ahead : List Char) : ∃ spans, Extracts before ahead spans := by
  induction hlength : ahead.length using Nat.strong_induction_on generalizing before ahead with
  | _ n ih =>
    cases ahead with
    | nil => exact ⟨[], extracts_nil⟩
    | cons c text =>
      cases hat : atStart? (c :: text) with
      | none =>
        obtain ⟨spans, h⟩ := ih text.length (by simp [← hlength]) (before ++ [c]) text rfl
        exact ⟨spans, h.character hat⟩
      | some found =>
        obtain ⟨call, length⟩ := found
        obtain ⟨inside, after, hbalanced, htext, hcall, -⟩ := atStart?_eq_some_iff.mp hat
        have hshorter : after.length < n := by
          rw [← hlength, htext]
          simp
          omega
        obtain ⟨spans, h⟩ := ih after.length hshorter (before ++ (opening ++ inside ++ [')'])) after rfl
        rw [htext]
        exact ⟨_, h.span hbalanced hcall⟩

end Extraction

/-! ## An integral found again -/

theorem expression_ofPieces (a b c : List Char) : (ofPieces a b c).expression.toList =
    opening ++ ((trim a ++ ',' :: (trim b ++ ',' :: trim c)) ++ ')' :: []) := by
  simp [expression, ofPieces, opening]

theorem ofPieces_trim (a b c : List Char) :
    ofPieces (trim a) (trim b) (trim c) = ofPieces a b c := by
  simp only [ofPieces, trim_idem]

theorem trim_opening_closing (inside : List Char) :
    trim (opening ++ (inside ++ ')' :: [])) = opening ++ (inside ++ ')' :: []) := by
  have hend : trimEnd (['n', 't', '('] ++ inside ++ ')' :: []) = ['n', 't', '('] ++ inside ++ ')' :: [] :=
    trimEnd_append_cons (by decide)
  have htrim : trim ([] ++ 'i' :: (['n', 't', '('] ++ inside ++ ')' :: [])) = _ :=
    trim_append_cons (by decide)
  rw [hend] at htrim
  simpa [opening, integralName, trimStart] using htrim

theorem ofPieces_found_again {a b c : List Char} (ha : IsPiece a) (hb : IsPiece b) (hc : IsPiece c) :
    all (ofPieces a b c).expression = [ofPieces a b c] ∧
      isWhole (ofPieces a b c).expression = true := by
  constructor
  · rw [all, expression_ofPieces, allFrom_pieces ha.trim hb.trim hc.trim, ofPieces_trim]
    rfl
  · rw [isWhole, expression_ofPieces, trim_opening_closing]
    rw [atStart?_pieces ha.trim hb.trim hc.trim, beq_iff_eq]
    simp [Nat.add_assoc]

/-- The integrals of a text are those of disjoint spans from left to right; each occurrence of `int(`
that starts outside them has no matching bracket or not two outer commas; and the text of each
integral found is that integral alone. -/
theorem all_are_disjoint_spans (text : String) :
    ∃ spans : List Span, spans.Pairwise (fun s t => s.finish ≤ t.start) ∧
      List.Forall₂ (fun s call => s.StandsIn text.toList ∧ s.Spells call) spans (all text) ∧
      (∀ before after, text.toList = before ++ (opening ++ after) →
        (∀ s ∈ spans, ¬ (s.start ≤ before.length ∧ before.length < s.finish)) →
        ∀ inside rest, after = inside ++ ')' :: rest → Balanced inside →
          (outerCommas inside).length ≠ 2) ∧
      ∀ call ∈ all text, all call.expression = [call] ∧ isWhole call.expression = true := by
  obtain ⟨spans, -, hapart, hread, hmissed⟩ := exists_extracts [] text.toList
  refine ⟨spans, hapart, hread, ?_, fun call hcall => ?_⟩
  · rintro before after hcut hout inside rest rfl hbalanced
    exact outerCommas_of_atStart?_eq_none (hmissed before _ hcut (Nat.zero_le _) hout) hbalanced
  · obtain ⟨i, hi, rfl⟩ := List.getElem_of_mem hcall
    obtain ⟨-, a, b, c, -, -, ha, hb, hc, hcall⟩ := hread.get (hread.length_eq ▸ hi) hi
    have hfound : (all text)[i] = ofPieces a b c := hcall
    rw [hfound]
    exact ofPieces_found_again ha hb hc

/-- A bracket without a partner and a missing comma are passed over, and what is inside is searched. -/
example : all "int(x, (0), 1)int(2)print(int(t, int(s,0,1),3" = [⟨"x", "(0)", "1"⟩, ⟨"s", "0", "1"⟩] := by
  decide +kernel

end GraphCalc.IntegralCall
