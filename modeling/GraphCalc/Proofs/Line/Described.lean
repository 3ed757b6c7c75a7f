import GraphCalc.Proofs.Line.Tightest
import GraphCalc.Proofs.Number.Readable
import GraphCalc.Proofs.Text.Cutting

/-! # Descriptions of limits

The description of limits is a text that gives limits, and these have the same bounds, each with the
number that its few digits read as. The description writes a clause for each axis that has a bound: with
one bound the axis stands in front, with two it stands between them. Main notions and statements:

* `Framed`, `splitPairs_append`: texts that are not trimmed, and texts cut at a pair of marks;
* `Clause.left?_append`, `Clause.right?_append`: a comparison with a number is found on its side;
* `Clause.bounds_one`, `Clause.bounds_two`: the bounds that clauses of both forms give;
* `Bound.reread`, `Limits.IsPart`: a bound with the number that its text reads as, and the part of a
  description that gives the bounds of its range so;
* `Limits.clauses_intercalate`, `Limits.given_describe`: a description gives the bounds of its parts;
* `Limits.read?_describe`: the description of limits reads as these limits.
-/

namespace GraphCalc
open GraphCalc.Text
set_option autoImplicit false

/-! ## Pieces of texts -/

namespace Text
variable {mark : Char} {text rest : List Char}

theorem splitPairs_cons {c : Char} (h : c ≠ mark) :
    splitPairs mark (c :: text) = consFirst c (splitPairs mark text) := by
  cases text with
  | nil => rfl
  | cons d text => rw [splitPairs, if_neg fun heq => h heq.1]

theorem splitPairs_of_not_mem (h : mark ∉ text) : splitPairs mark text = [text] := by
  induction text with
  | nil => rfl
  | cons c text ih =>
    obtain ⟨hc, htext⟩ := not_or.mp (List.mem_cons.not.mp h)
    rw [splitPairs_cons (Ne.symm hc), ih htext]
    rfl

/-- A text is cut at the first pair of marks behind a piece that holds none. -/
theorem splitPairs_append (h : mark ∉ text) :
    splitPairs mark (text ++ mark :: mark :: rest) = text :: splitPairs mark rest := by
  induction text with
  | nil => rw [List.nil_append, splitPairs, if_pos ⟨rfl, rfl⟩]
  | cons c text ih =>
    obtain ⟨hc, htext⟩ := not_or.mp (List.mem_cons.not.mp h)
    rw [List.cons_append, splitPairs_cons (Ne.symm hc), ih htext]
    rfl

/-- Whether a text begins and ends with a character that is not blank. -/
structure Framed (text : List Char) : Prop where
  head : ∃ c rest, text = c :: rest ∧ isBlank c = false
  last : ∃ rest c, text = rest ++ [c] ∧ isBlank c = false

namespace Framed

theorem singleton {c : Char} (h : isBlank c = false) : Framed [c] := ⟨⟨c, [], rfl, h⟩, ⟨[], c, rfl, h⟩⟩

theorem append {first last : List Char} (hfirst : Framed first) (middle : List Char)
    (hlast : Framed last) : Framed (first ++ middle ++ last) := by
  obtain ⟨c, front, rfl, hc⟩ := hfirst.head
  obtain ⟨back, d, rfl, hd⟩ := hlast.last
  exact ⟨⟨c, _, rfl, hc⟩, ⟨_, d, (List.append_assoc _ _ _).symm, hd⟩⟩

theorem trim_eq (h : Framed text) : trim text = text := by
  have hstart : trimStart text = text := by
    obtain ⟨c, rest, rfl, hc⟩ := h.head
    exact List.dropWhile_cons_of_neg (Bool.not_eq_true _ ▸ hc)
  rw [trim, hstart]
  obtain ⟨rest, c, rfl, hc⟩ := h.last
  exact List.rdropWhile_concat_neg _ _ _ (Bool.not_eq_true _ ▸ hc)

end Framed
end Text

/-! ## Comparisons with numbers -/

namespace Readable
variable {text : List Char} (h : Readable text)
include h

theorem not_mem {c : Char} (hc : isFigure c = false) : c ∉ text := fun hmem =>
  Bool.false_ne_true (hc.symm.trans (h.figures c hmem))

theorem framed : Framed text := by
  refine ⟨⟨text.head h.nonempty, text.tail, (List.cons_head_tail h.nonempty).symm, ?_⟩,
    ⟨text.dropLast, text.getLast h.nonempty, (List.dropLast_append_getLast h.nonempty).symm, ?_⟩⟩
  · exact isBlank_of_isFigure (h.figures _ (List.head_mem h.nonempty))
  · exact isBlank_of_isFigure (h.figures _ (List.getLast_mem h.nonempty))

theorem number?_eq : Clause.number? text = Numeral.readFloat? text := by
  rw [Clause.number?, h.framed.trim_eq]

end Readable

namespace Clause
variable {text : List Char} {v : Float}

theorem left?_append (c : Comparison) (h : Readable text) (hv : Numeral.readFloat? text = some v) :
    left? (text ++ c.text) = some (c, v) := by
  have hcut : (Comparison.all.findSome? fun d =>
      (beforeEnd? d.text (text ++ c.text)).map fun rest => (d, rest)) = some (c, text) := by
    obtain ⟨leftSmaller, inclusive⟩ := c
    cases leftSmaller <;> cases inclusive <;>
      simp [Comparison.all, Comparison.text, beforeEnd?, List.isSuffixOf]
  rw [left?, side?, hcut]
  simp [h.number?_eq, hv]

theorem right?_append (c : Comparison) (h : Readable text) (hv : Numeral.readFloat? text = some v) :
    right? (c.text ++ text) = some (c, v) := by
  have hcut : (Comparison.all.findSome? fun d =>
      (afterStart? d.text (c.text ++ text)).map fun rest => (d, rest)) = some (c, text) := by
    obtain ⟨d, more, rfl⟩ := List.exists_cons_of_ne_nil h.nonempty
    -- the longer signs are tried first, and would take the first character of the number
    have hd : d ≠ '=' := by
      rintro rfl
      exact absurd (h.figures '=' List.mem_cons_self) (by decide)
    obtain ⟨leftSmaller, inclusive⟩ := c
    cases leftSmaller <;> cases inclusive <;>
      simp [Comparison.all, Comparison.text, afterStart?, List.isPrefixOf, Ne.symm hd]
  rw [right?, side?, hcut]
  simp [h.number?_eq, hv]

/-! ## Clauses of descriptions -/

theorem letter_not_mem_text (axis : Axis) (c : Comparison) : axis.letter ∉ c.text := by
  obtain ⟨leftSmaller, inclusive⟩ := c
  cases axis <;> cases leftSmaller <;> cases inclusive <;> decide

theorem letter_not_mem (axis : Axis) (h : Readable text) : axis.letter ∉ text := by
  refine h.not_mem ?_
  cases axis <;> decide

theorem sides?_eq {axis : Axis} {left right : List Char} (hleft : ∀ a : Axis, a.letter ∉ left)
    (hright : ∀ a : Axis, a.letter ∉ right) :
    sides? (left ++ axis.letter :: right) = some (axis, left, right) := by
  rw [sides?]
  cases axis with
  | x => rw [splitFirst?_eq_some_iff.mpr ⟨rfl, hleft .x⟩]
  | y =>
    have hx : Axis.x.letter ∉ left ++ Axis.y.letter :: right := by
      rw [List.mem_append, List.mem_cons, not_or, not_or]
      exact ⟨hleft .x, by decide, hright .x⟩
    rw [splitFirst?_eq_none_iff.mpr hx, splitFirst?_eq_some_iff.mpr ⟨rfl, hleft .y⟩]
    rfl

theorem bounds_one (axis : Axis) (d : Comparison) (h : Readable text)
    (hv : Numeral.readFloat? text = some v) :
    bounds (axis.letter :: (d.text ++ text)) = [⟨axis, d.rightSide, ⟨v, d.inclusive⟩⟩] := by
  have hsides : sides? ([] ++ axis.letter :: (d.text ++ text)) = some (axis, [], d.text ++ text) := by
    refine sides?_eq (fun _ => List.not_mem_nil) fun a => ?_
    rw [List.mem_append, not_or]
    exact ⟨letter_not_mem_text a d, letter_not_mem a h⟩
  rw [List.nil_append] at hsides
  rw [bounds, hsides]
  dsimp only
  rw [right?_append d h hv]
  rfl

theorem bounds_two (axis : Axis) (c d : Comparison) (h : Readable text)
    (hv : Numeral.readFloat? text = some v) {text' : List Char} {w : Float} (h' : Readable text')
    (hw : Numeral.readFloat? text' = some w) :
    bounds (text ++ c.text ++ axis.letter :: (d.text ++ text')) =
      [⟨axis, c.leftSide, ⟨v, c.inclusive⟩⟩, ⟨axis, d.rightSide, ⟨w, d.inclusive⟩⟩] := by
  have hsides : sides? (text ++ c.text ++ axis.letter :: (d.text ++ text')) =
      some (axis, text ++ c.text, d.text ++ text') := by
    refine sides?_eq (fun a => ?_) fun a => ?_
    · rw [List.mem_append, not_or]
      exact ⟨letter_not_mem a h, letter_not_mem_text a c⟩
    · rw [List.mem_append, not_or]
      exact ⟨letter_not_mem_text a d, letter_not_mem a h'⟩
  rw [bounds, hsides]
  dsimp only
  rw [left?_append c h hv, right?_append d h' hw]
  rfl

end Clause

/-! ## Bounds of a description -/

/-- The text of a bound's value in a description. -/
def Bound.figures (b : Bound) : List Char := floatText Style.general b.value

theorem Bound.readable_figures (b : Bound) : Readable b.figures :=
  readable_floatText (by decide) b.value

/-- A bound with the number that its text in a description reads as. -/
def Bound.reread (b : Bound) : Bound :=
  ⟨(Numeral.readFloat? b.figures).getD Binary64.nan, b.inclusive⟩

theorem Bound.readFloat?_figures (b : Bound) : Numeral.readFloat? b.figures = some b.reread.value := by
  obtain ⟨v, hv⟩ := Option.isSome_iff_exists.mp b.readable_figures.reads
  rw [reread, hv]
  rfl

/-- The bounds of a range, reread. -/
def Range.rereads (axis : Axis) (r : Range) : List AxisBound :=
  (r.lower.map fun b => ⟨axis, .lower, b.reread⟩).toList ++
    (r.upper.map fun b => ⟨axis, .upper, b.reread⟩).toList

/-- Limits with all their bounds reread. -/
def Limits.reread (l : Limits) : Limits :=
  ⟨⟨l.x.lower.map Bound.reread, l.x.upper.map Bound.reread⟩,
    ⟨l.y.lower.map Bound.reread, l.y.upper.map Bound.reread⟩⟩

theorem Limits.applyAll_rereads (l : Limits) :
    Limits.none.applyAll (l.x.rereads .x ++ l.y.rereads .y) = l.reread := by
  obtain ⟨⟨a, b⟩, ⟨c, d⟩⟩ := l
  cases a <;> cases b <;> cases c <;> cases d <;> rfl

theorem Limits.isEmpty_reread (l : Limits) : l.reread.isEmpty = l.isEmpty := by
  simp [reread, isEmpty, Range.isFull]

theorem Limits.bound_reread (l : Limits) (axis : Axis) (side : Side) :
    l.reread.bound axis side = (l.bound axis side).map Bound.reread := by
  cases axis <;> cases side <;> rfl

/-! ## Parts of a description -/

namespace Limits

theorem toList_valueText (b : Bound) : (valueText b).toList = b.figures := String.toList_ofList

theorem toList_lessText (b : Bound) : (lessText b).toList = (⟨true, b.inclusive⟩ : Comparison).text := by
  unfold lessText
  cases b.inclusive <;> rfl

theorem toList_greaterText (b : Bound) :
    (greaterText b).toList = (⟨false, b.inclusive⟩ : Comparison).text := by
  unfold greaterText
  cases b.inclusive <;> rfl

/-- The part of a description for a range with one bound, on the right of its axis. -/
def oneSided (axis : Axis) (leftSmaller : Bool) (b : Bound) : List Char :=
  axis.letter :: ' ' :: (⟨leftSmaller, b.inclusive⟩ : Comparison).text ++ ' ' :: b.figures

/-- The part of a description for a range with two bounds. -/
def twoSided (axis : Axis) (lo hi : Bound) : List Char :=
  lo.figures ++ ' ' :: (⟨true, lo.inclusive⟩ : Comparison).text ++
    ' ' :: axis.letter :: ' ' :: (⟨true, hi.inclusive⟩ : Comparison).text ++ ' ' :: hi.figures

/-- The part of a description for a range, if it has a bound. -/
def part? (axis : Axis) (r : Range) : Option (List Char) :=
  match r.lower, r.upper with
  | some lo, some hi => some (twoSided axis lo hi)
  | some lo, .none => some (oneSided axis false lo)
  | .none, some hi => some (oneSided axis true hi)
  | .none, .none => .none

theorem map_toList_describeRange (axis : Axis) (r : Range) :
    (describeRange axis r).map String.toList = (part? axis r).toList := by
  obtain ⟨lower, upper⟩ := r
  cases lower with
  | none =>
    cases upper with
    | none => rfl
    | some hi => simp [describeRange, part?, oneSided, toList_valueText, toList_lessText]
  | some lo =>
    cases upper with
    | none => simp [describeRange, part?, oneSided, toList_valueText, toList_greaterText]
    | some hi => simp [describeRange, part?, twoSided, toList_valueText, toList_lessText]

/-- What joining parts needs of each: nothing of it is trimmed, it is not cut, and without its blanks
it is a clause that gives the bounds of its range. -/
structure IsPart (given : List AxisBound) (part : List Char) : Prop where
  framed : Framed part
  uncut : '&' ∉ part
  bounds_eq : Clause.bounds (part.filter (· != ' ')) = given

section Pieces
variable (axis : Axis) (b : Bound) (c : Comparison)

theorem letter_framed : Framed [axis.letter] := .singleton (by cases axis <;> rfl)

theorem mark_ne_letter : '&' ≠ axis.letter := by cases axis <;> decide

theorem letter_ne_blank : (axis.letter != ' ') = true := by cases axis <;> rfl

theorem mark_not_mem_figures : '&' ∉ b.figures := b.readable_figures.not_mem (by decide)

theorem filter_figures : b.figures.filter (· != ' ') = b.figures := by
  refine List.filter_eq_self.mpr fun c hc => bne_iff_ne.mpr ?_
  rintro rfl
  exact b.readable_figures.not_mem (by decide) hc

theorem mark_not_mem_sign : '&' ∉ c.text := by
  obtain ⟨leftSmaller, inclusive⟩ := c
  cases leftSmaller <;> cases inclusive <;> decide

theorem filter_sign : c.text.filter (· != ' ') = c.text := by
  obtain ⟨leftSmaller, inclusive⟩ := c
  cases leftSmaller <;> cases inclusive <;> rfl

end Pieces

theorem isPart_oneSided (axis : Axis) (leftSmaller : Bool) (b : Bound) :
    IsPart [⟨axis, (⟨leftSmaller, b.inclusive⟩ : Comparison).rightSide, b.reread⟩]
      (oneSided axis leftSmaller b) where
  framed := by
    simpa [oneSided] using (letter_framed axis).append
      (' ' :: (⟨leftSmaller, b.inclusive⟩ : Comparison).text ++ [' ']) b.readable_figures.framed
  uncut := by simp [oneSided, mark_ne_letter, mark_not_mem_sign, mark_not_mem_figures]
  bounds_eq := by
    have hclause : (oneSided axis leftSmaller b).filter (· != ' ') =
        axis.letter :: ((⟨leftSmaller, b.inclusive⟩ : Comparison).text ++ b.figures) := by
      simp [oneSided, letter_ne_blank, filter_sign, filter_figures]
    rw [hclause]
    exact Clause.bounds_one axis ⟨leftSmaller, b.inclusive⟩ b.readable_figures b.readFloat?_figures

theorem isPart_twoSided (axis : Axis) (lo hi : Bound) :
    IsPart [⟨axis, .lower, lo.reread⟩, ⟨axis, .upper, hi.reread⟩] (twoSided axis lo hi) where
  framed := by
    simpa [twoSided] using lo.readable_figures.framed.append
      (' ' :: (⟨true, lo.inclusive⟩ : Comparison).text ++
        ' ' :: axis.letter :: ' ' :: (⟨true, hi.inclusive⟩ : Comparison).text ++ [' '])
      hi.readable_figures.framed
  uncut := by simp [twoSided, mark_ne_letter, mark_not_mem_sign, mark_not_mem_figures]
  bounds_eq := by
    have hclause : (twoSided axis lo hi).filter (· != ' ') =
        lo.figures ++ (⟨true, lo.inclusive⟩ : Comparison).text ++
          axis.letter :: ((⟨true, hi.inclusive⟩ : Comparison).text ++ hi.figures) := by
      simp [twoSided, letter_ne_blank, filter_sign, filter_figures]
    rw [hclause]
    exact Clause.bounds_two axis ⟨true, lo.inclusive⟩ ⟨true, hi.inclusive⟩ lo.readable_figures
      lo.readFloat?_figures hi.readable_figures hi.readFloat?_figures

theorem isPart_of_part? {axis : Axis} {r : Range} {part : List Char} (h : part? axis r = some part) :
    IsPart (r.rereads axis) part := by
  obtain ⟨lower, upper⟩ := r
  cases lower with
  | none =>
    cases upper with
    | none => cases h
    | some hi =>
      obtain rfl := Option.some.inj h
      exact isPart_oneSided axis true hi
  | some lo =>
    cases upper with
    | none =>
      obtain rfl := Option.some.inj h
      exact isPart_oneSided axis false lo
    | some hi =>
      obtain rfl := Option.some.inj h
      exact isPart_twoSided axis lo hi

theorem flatMap_part? (axis : Axis) (r : Range) :
    ((part? axis r).toList.map (List.filter (· != ' '))).flatMap Clause.bounds = r.rereads axis := by
  cases h : part? axis r with
  | none =>
    obtain ⟨lower, upper⟩ := r
    cases lower <;> cases upper <;> first | rfl | cases h
  | some part =>
    rw [Option.toList_some, List.map_singleton, List.flatMap_singleton, (isPart_of_part? h).bounds_eq]

/-! ## Descriptions -/

section Joined
variable {parts : List (List Char)}

theorem framed_intercalate {part : List Char} (h : ∀ p ∈ part :: parts, Framed p) :
    Framed ([' ', '&', '&', ' '].intercalate (part :: parts)) := by
  induction parts generalizing part with
  | nil => simpa using h
  | cons next parts ih =>
    rw [List.intercalate_cons_cons]
    exact (h part List.mem_cons_self).append _ (ih fun p hp => h p (List.mem_cons_of_mem _ hp))

/-- The blanks at a pair of marks go with all the others. -/
theorem map_filter_splitPairs {part : List Char} (h : ∀ p ∈ part :: parts, '&' ∉ p) :
    (splitPairs '&' ([' ', '&', '&', ' '].intercalate (part :: parts))).map (List.filter (· != ' ')) =
      (part :: parts).map (List.filter (· != ' ')) := by
  induction parts generalizing part with
  | nil => rw [List.intercalate_singleton, splitPairs_of_not_mem (h part List.mem_cons_self)]
  | cons next parts ih =>
    have hrest := ih fun p hp => h p (List.mem_cons_of_mem _ hp)
    -- of the blanks around the marks one is cut off with the part, the other with the next one
    have hbefore : '&' ∉ part ++ [' '] := by simpa using h part List.mem_cons_self
    have htext : [' ', '&', '&', ' '].intercalate (part :: next :: parts) = (part ++ [' ']) ++
        '&' :: '&' :: ' ' :: [' ', '&', '&', ' '].intercalate (next :: parts) := by
      rw [List.intercalate_cons_cons]
      simp
    rw [htext, splitPairs_append hbefore, splitPairs_cons (by decide), List.map_cons, List.map_cons,
      ← hrest]
    generalize splitPairs '&' ([' ', '&', '&', ' '].intercalate (next :: parts)) = pieces at hrest ⊢
    cases pieces with
    | nil => cases hrest
    | cons piece pieces => simp [consFirst]

theorem clauses_intercalate (hne : parts ≠ []) (hframed : ∀ p ∈ parts, Framed p)
    (huncut : ∀ p ∈ parts, '&' ∉ p) : clauses ([' ', '&', '&', ' '].intercalate parts) =
      parts.map (List.filter (· != ' ')) := by
  cases parts with
  | nil => exact absurd rfl hne
  | cons part parts =>
    rw [clauses, (framed_intercalate hframed).trim_eq]
    exact map_filter_splitPairs huncut

end Joined

theorem toList_describe (l : Limits) : (describe l).toList =
    [' ', '&', '&', ' '].intercalate ((part? .x l.x).toList ++ (part? .y l.y).toList) := by
  rw [describe, String.toList_intercalate, List.map_append, map_toList_describeRange,
    map_toList_describeRange]
  rfl

theorem given_describe (l : Limits) :
    given (describe l).toList = l.x.rereads .x ++ l.y.rereads .y := by
  rw [toList_describe, ← flatMap_part?, ← flatMap_part?, ← List.flatMap_append, ← List.map_append, given]
  generalize hparts : (part? .x l.x).toList ++ (part? .y l.y).toList = parts
  have hpart : ∀ p ∈ parts, ∃ axis r, part? axis r = some p := by
    intro p hp
    rw [← hparts, List.mem_append, Option.mem_toList, Option.mem_toList] at hp
    rcases hp with hp | hp
    · exact ⟨.x, l.x, hp⟩
    · exact ⟨.y, l.y, hp⟩
  by_cases hne : parts = []
  · rw [hne]
    rfl
  · rw [clauses_intercalate hne]
    · intro p hp
      obtain ⟨axis, r, h⟩ := hpart p hp
      exact (isPart_of_part? h).framed
    · intro p hp
      obtain ⟨axis, r, h⟩ := hpart p hp
      exact (isPart_of_part? h).uncut

end Limits

/-- Whether a bound's value is written as a text that reads as that of another one of its kind. -/
def Bound.ReadsAs (b c : Bound) : Prop :=
  Numeral.readFloat? (writeFloat Style.general b.value).toList = some c.value ∧
    c.inclusive = b.inclusive

theorem Bound.readsAs_reread (b : Bound) : b.ReadsAs b.reread := by
  refine ⟨?_, rfl⟩
  rw [← b.readFloat?_figures, figures, writeFloat, String.toList_ofList]

/-- The description of limits with a bound reads as limits with the same bounds, each with the number
that its text reads as. -/
theorem Limits.read?_describe (l : Limits) (h : l.isEmpty = false) :
    ∃ m, read? (describe l).toList = some m ∧
      ∀ axis side, Option.Rel Bound.ReadsAs (l.bound axis side) (m.bound axis side) := by
  refine ⟨l.reread, ?_, fun axis side => ?_⟩
  · rw [read?_eq, given_describe, applyAll_rereads, isEmpty_reread, h]
    rfl
  · rw [bound_reread]
    cases l.bound axis side with
    | none => exact .none
    | some b => exact .some b.readsAs_reread

/-- Limits with one bound on each axis and one with two. -/
theorem Limits.description_of_three_bounds :
    describe ⟨⟨some ⟨-1.0, false⟩, some ⟨2.0, true⟩⟩, ⟨some ⟨0.0, true⟩, .none⟩⟩ =
      "-1 < x <= 2 && y >= 0" ∧
    ∃ m, read? "-1 < x <= 2 && y >= 0".toList = some m ∧ ∀ axis side, Option.Rel Bound.ReadsAs
      (bound axis side ⟨⟨some ⟨-1.0, false⟩, some ⟨2.0, true⟩⟩, ⟨some ⟨0.0, true⟩, .none⟩⟩)
      (m.bound axis side) := by
  have hdescribe : describe ⟨⟨some ⟨-1.0, false⟩, some ⟨2.0, true⟩⟩, ⟨some ⟨0.0, true⟩, .none⟩⟩ =
      "-1 < x <= 2 && y >= 0" := by rfl
  have hread := read?_describe
    ⟨⟨some ⟨-1.0, false⟩, some ⟨2.0, true⟩⟩, ⟨some ⟨0.0, true⟩, .none⟩⟩ rfl
  rw [hdescribe] at hread
  exact ⟨hdescribe, hread⟩

end GraphCalc
