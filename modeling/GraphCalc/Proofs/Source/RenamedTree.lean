import GraphCalc.Proofs.Grammar.LookAhead
import GraphCalc.Proofs.Source.Renaming

/-! # Trees of renamed texts

A name that does not stand right behind a digit is a whole word of its text wherever it is a token. If
besides no number holds it as a word, then renaming it in the text renames it in the tree. Main notions
and statements:

* `Occurs text t`: the scanner finds a token in a text, be the text refused later or not;
* `NotBehindDigit`, `NotInNumber`: how a name must not stand in a text;
* `renamesWell_of_occurs`: then tokens and words agree;
* `read_renamed`: the renamed text reads as the renamed tree, or both texts are refused.
-/

namespace GraphCalc
open GraphCalc.Text
set_option autoImplicit false

namespace Token

/-! ## Where a name stands -/

/-- The scanner finds a token in a text before it halts. -/
def Occurs (text : List Char) (t : Token) : Prop :=
  ∃ before tokens rest, text = before ++ rest ∧ Scans before tokens rest ∧ t ∈ tokens

/-- Wherever a text has the name as a token, no digit stands in front of it. -/
def NotBehindDigit (name : String) (text : List Char) : Prop :=
  ∀ t, Occurs text t → t.kind = .name → t.text = name →
    ∀ c ∈ (text.take t.position).getLast?, c.isDigit = false

/-- No number of a text holds the name as a whole word, as `1.e+5` holds `e`. -/
def NotInNumber (name : String) (text : List Char) : Prop :=
  ∀ t v, Occurs text t → t.kind = .number v → ∀ i, Covers t i → ¬ StandsAt name.toList text i

theorem mem_of_occurs {text : List Char} {stream : Stream} {t : Token} (h : scan text = .ok stream)
    (ht : Occurs text t) : t ∈ stream.tokens := by
  obtain ⟨before, tokens, rest, rfl, hrun, ht⟩ := ht
  have hscan := hrun.scanFrom_eq
  rw [scan] at h
  cases hrest : scanFrom before.length rest with
  | error e =>
    rw [hscan, hrest] at h
    cases h
  | ok more =>
    rw [hscan, hrest] at h
    cases h
    exact List.mem_append_left _ ht

/-- Where a text has tokens, those that are the name can be looked at one by one. -/
theorem notBehindDigit_of_scan {name : String} {text : List Char} {stream : Stream}
    (hscan : scan text = .ok stream)
    (h : (stream.tokens.all fun t =>
      t.text != name || !(text.take t.position).getLast?.any Char.isDigit) = true) :
    NotBehindDigit name text := by
  intro t ht _ hname c hc
  have hall := List.all_eq_true.mp h t (mem_of_occurs hscan ht)
  rw [Option.mem_def] at hc
  simpa [hname, hc] using hall

/-! ## Whole words -/

theorem isNameStart_of_isDigit {c : Char} (h : isDigit c = true) : isNameStart c = false := by
  rw [Bool.eq_false_iff]
  intro hc
  have hdigit := isDigitLike_of_isNameStart hc
  rw [isDigitLike, h] at hdigit
  cases hdigit

/-- A number ends in a digit or in its point. -/
theorem isNameStart_of_getLast?_numeral {n : Numeral} (h : n.Valid) {c : Char}
    (hc : n.text.getLast? = some c) : isNameStart c = false := by
  rw [Numeral.text] at hc
  cases he : n.exponent with
  | some e =>
    obtain ⟨-, -, hne, hdigits⟩ := h.exponent e he
    rw [he, Option.map_some, Option.getD_some, Numeral.Exponent.text, ← List.append_assoc,
      List.getLast?_append_of_ne_nil _ hne] at hc
    exact isNameStart_of_isDigit (hdigits c (List.mem_of_getLast? hc))
  | none =>
    have hfraction := h.fraction
    rw [Numeral.fractionDigits] at hfraction
    rw [he, Option.map_none, Option.getD_none, List.append_nil] at hc
    cases hn : n.fraction with
    | some digits =>
      rw [hn, Option.getD_some] at hfraction
      have hlast : ('.' :: digits).getLast? = some c := by simpa [hn] using hc
      rcases List.mem_cons.mp (List.mem_of_getLast? hlast) with rfl | hmem
      · decide
      · exact isNameStart_of_isDigit (hfraction c hmem)
    | none =>
      rw [hn, Option.map_none, Option.getD_none, List.append_nil] at hc
      exact isNameStart_of_isDigit (h.whole c (List.mem_of_getLast? hc))

section Words
variable {name : String} {before rest : List Char} {tokens : List Token}

/-- A letter in front of the scanner's place ends a name, and no name goes on there. -/
theorem Scans.isNamePart_of_behind_letter {c d : Char} (h : Scans before tokens (d :: rest))
    (hc : before.getLast? = some c) (hletter : isNameStart c = true) : isNamePart d = false := by
  generalize hahead : d :: rest = ahead at h
  cases h with
  | nil => cases hc
  | blank _ hb =>
    obtain rfl := Option.some.inj (List.getLast?_concat.symm.trans hc)
    rw [isBlank_of_isNameStart hletter] at hb
    cases hb
  | @token before tokens kind word _ _ hword =>
    subst hahead
    have hlast : word.getLast? = some c := by
      rw [List.getLast?_append_of_ne_nil _ hword.lexeme.ne_nil] at hc
      exact hc
    have hsingle {m : Char} (h : [m].getLast? = some c) (hm : isNameStart m = false) : False := by
      obtain rfl : m = c := by simpa using h
      rw [hletter] at hm
      cases hm
    have hlexeme := hword.lexeme
    cases hlexeme with
    | number hn =>
      rw [isNameStart_of_getLast?_numeral hn hlast] at hletter
      cases hletter
    | word first => exact hword.stopsAt first d rfl
    | constant h => exact (hsingle hlast (isDigitLike_of_isSymbolConstant h).2).elim
    | operator h => exact (hsingle hlast (classes_of_mark (.inl h)).2.1).elim
    | opening | closing | comma => exact (hsingle hlast (by decide)).elim

theorem isNamePart_of_isSymbolConstant {c : Char} (h : isSymbolConstant c = true) :
    isNamePart c = false := by
  simp only [isSymbolConstant, Bool.or_eq_true, beq_iff_eq] at h
  rcases h with rfl | rfl <;> decide

theorem isNamePart_eq_false {c : Char} (hletter : isNameStart c = false) (hdigit : c.isDigit = false) :
    isNamePart c = false := by
  rw [isNameStart, Bool.or_eq_false_iff] at hletter
  simp [isNamePart, Char.isAlphanum, hletter, hdigit]

theorem IsLexeme.isNameStart {c : Char} {more : List Char} (h : IsLexeme .name (c :: more))
    (hc : isNamePart c = true) : isNameStart c = true := by
  cases h with
  | word first => exact first
  | constant hconstant =>
    rw [isNamePart_of_isSymbolConstant hconstant] at hc
    cases hc

/-- A name that is made of parts of names, and is found where no digit stands in front of it, is a whole
word, and none stands right behind it. -/
theorem Scans.stands_of_munch {word : List Char} (h : Scans before tokens (word ++ rest))
    (hword : Munch .name word rest) (hparts : ∀ c ∈ word, isNamePart c = true)
    (hdigit : ∀ c ∈ before.getLast?, c.isDigit = false) :
    Stands word before (word ++ rest) ∧ ¬ Stands word (before ++ word) rest := by
  obtain ⟨c, more, rfl⟩ := hword.lexeme.exists_cons
  have hc : isNameStart c = true := hword.lexeme.isNameStart (hparts c (List.mem_cons_self ..))
  refine ⟨⟨fun d hd => ?_, rest, rfl, hword.stopsAt hc⟩, ?_⟩
  · refine isNamePart_eq_false ?_ (hdigit d hd)
    by_contra hletter
    rw [Bool.not_eq_false] at hletter
    have hnot := h.isNamePart_of_behind_letter hd hletter
    rw [isNamePart_of_isNameStart hc] at hnot
    cases hnot
  · obtain ⟨front, d, hfront⟩ := (List.eq_nil_or_concat (c :: more)).resolve_left (by simp)
    rw [List.concat_eq_append] at hfront
    rw [hfront, ← List.append_assoc]
    exact not_stands_of_part (hparts d (by rw [hfront]; simp))

/-- So it is at each token of a run. The induction is on the run that finds the token. -/
theorem Scans.standsAt (hparts : ∀ c ∈ name.toList, isNamePart c = true)
    (h : Scans before tokens rest) : ∀ t ∈ tokens, t.kind = .name → t.text = name →
      (∀ c ∈ ((before ++ rest).take t.position).getLast?, c.isDigit = false) →
      StandsAt name.toList (before ++ rest) t.position ∧
        ¬ StandsAt name.toList (before ++ rest) (t.position + name.toList.length) := by
  induction h with
  | nil => simp
  | blank _ _ ih => simpa using ih
  | @token before tokens kind word rest hrun hword ih =>
    rw [List.append_assoc]
    intro t ht hkind htext hdigit
    rcases List.mem_append.mp ht with ht | ht
    · exact ih t ht hkind htext hdigit
    · obtain rfl := List.mem_singleton.mp ht
      obtain rfl : kind = .name := hkind
      obtain rfl : String.ofList word = name := htext
      rw [String.toList_ofList] at hparts ⊢
      rw [List.take_left] at hdigit
      rw [standsAt_length, standsAt_front]
      exact hrun.stands_of_munch hword hparts hdigit

end Words

/-- A name that is a whole word wherever it occurs, and no part of a number, is renamed as the words of
the text are. -/
theorem renamesWell_of_occurs {name : String} {text : List Char}
    (hparts : ∀ c ∈ name.toList, isNamePart c = true) (hdigit : NotBehindDigit name text)
    (hnumber : NotInNumber name text) {t : Token} (ht : Occurs text t) :
    RenamesWell name.toList text t := by
  refine ⟨fun hkind htext => ?_, fun v hkind => hnumber t v ht hkind⟩
  have hname : t.text = name := String.toList_inj.mp htext
  have hbehind := hdigit t ht hkind hname
  obtain ⟨before, tokens, rest, rfl, hrun, hmem⟩ := ht
  exact hrun.standsAt hparts t hmem hkind hname hbehind

end Token

/-! ## Trees -/

section Trees
open GraphCalc.Token
variable {callable : String → Bool} {name : String} {text : List Char}

theorem renamedRest_ne_nil {old before rest : List Char} {x : Char} (hold : old ≠ [])
    (hrest : rest ≠ []) : renamedRest old [x] before rest ≠ [] := by
  by_cases hstands : Stands old before rest
  · obtain ⟨-, after, rfl, -⟩ := id hstands
    rw [renamedRest_replace hold hstands]
    simp
  · obtain ⟨c, tail, rfl⟩ := List.exists_cons_of_ne_nil hrest
    rw [renamedRest_keep hstands]
    simp

/-- A text whose scan halts in front of its end is refused. -/
theorem Token.Scans.read_eq_error {before rest : List Char} {tokens : List Token}
    (h : Scans before tokens rest) (hhalt : Halts rest) (hrest : rest ≠ []) :
    ∃ e, Expr.read callable (String.ofList (before ++ rest)) = .error e := by
  obtain ⟨c, tail, rfl⟩ := List.exists_cons_of_ne_nil hrest
  refine ⟨.scan (faultAt c before.length), ?_⟩
  rw [Expr.read, Expr.readWithin, String.toList_ofList, h.scan_eq_error hhalt]

theorem Token.Scans.read_eq {before : List Char} {tokens : List Token} (h : Scans before tokens []) :
    Expr.read callable (String.ofList before) = Expr.parse callable ⟨tokens, before.length⟩ := by
  rw [Expr.read, Expr.readWithin, String.toList_ofList, h.scan_eq_ok]
  rfl

/-- Renamed tokens have the renamed tree, or both lists are refused. -/
theorem parse_renamed (hold : callable name = false) (hnew : callable "x" = false)
    {stream stream' : Token.Stream}
    (h : List.Forall₂ (Alike (renamedName name "x")) stream.tokens stream'.tokens) :
    match Expr.parse callable stream with
    | .ok e => Expr.parse callable stream' = .ok (e.mapVars (renamedName name "x"))
    | .error _ => ∃ e, Expr.parse callable stream' = .error e := by
  have hcallable (other : String) : callable (renamedName name "x" other) = callable other := by
    unfold renamedName
    split
    · next hsame => rw [hsame, hold, hnew]
    · rfl
  have hkeep (other : String) (hother : callable other = true) :
      renamedName name "x" other = other := by
    refine if_neg fun hsame => ?_
    rw [hsame, hold] at hother
    cases hother
  have hparse : match Expr.parse callable stream with
      | .ok e => Expr.parse callable stream' = .ok (e.mapVars (renamedName name "x"))
      | .error e => ∃ e', Expr.parse callable stream' = .error e' ∧ e'.isNesting = e.isNesting :=
    Grammar.parseWithin_of_alike hcallable hkeep h
  cases hread : Expr.parse callable stream with
  | ok e =>
    rw [hread] at hparse
    exact hparse
  | error e =>
    rw [hread] at hparse
    obtain ⟨e', he', -⟩ := hparse
    exact ⟨e', he'⟩

/-- The renamed text reads as the renamed tree, or both texts are refused. -/
theorem read_renamed (hname : IsName name) (hx : name ≠ "x") (hold : callable name = false)
    (hnew : callable "x" = false) (hwell : ∀ t, Occurs text t → RenamesWell name.toList text t) :
    match Expr.read callable (String.ofList text) with
    | .ok e => Expr.read callable (String.ofList (renameWord name.toList ['x'] text)) =
        .ok (e.mapVars (renamedName name "x"))
    | .error _ => ∃ e, Expr.read callable (String.ofList (renameWord name.toList ['x'] text)) =
        .error e := by
  obtain ⟨before, tokens, rest, rfl, hrun, hhalt⟩ := exists_halt text
  obtain ⟨before', tokens', hrun', halike, hwhole⟩ := hrun.renamed hname fun t ht =>
    hwell t ⟨before, tokens, rest, rfl, hrun, ht⟩
  have hrename : renameWord name.toList ['x'] (before ++ rest) =
      before' ++ renamedRest name.toList ['x'] before rest := by
    have hne : name.toList ≠ ['x'] := fun hsame => hx (String.toList_inj.mp hsame)
    rw [renameWord, if_neg hne]
    exact hwhole.symm
  rw [hrename]
  by_cases hend : rest = []
  · subst hend
    rw [renamedRest_nil] at hrun' ⊢
    rw [List.append_nil, List.append_nil, hrun.read_eq, hrun'.read_eq]
    exact parse_renamed hold hnew halike
  · have hlexeme := isLexeme_of_isName hname
    have hrefused : ∃ e, Expr.read callable (String.ofList (before ++ rest)) = .error e :=
      hrun.read_eq_error hhalt hend
    obtain ⟨e, he⟩ := hrefused
    rw [he]
    exact hrun'.read_eq_error (hhalt.renamed hlexeme) (renamedRest_ne_nil hlexeme.ne_nil hend)

end Trees
end GraphCalc
