import GraphCalc.Line.Basic
import GraphCalc.Proofs.Source.Spelling
import GraphCalc.Proofs.Text.Cutting

/-! # The definition of a line

A line is read for the function that it makes callable, and again for what it draws. The limits are
cut off once in the first reading and twice in the second, so a body that holds braces of its own
keeps them only where it is callable. Main notions and statements:

* `ofEquation?_eq_some_iff`: a definition is a head, the first equals sign and a body;
* `Definition.unbraced?`: a definition less the last pair of braces in its body;
* `ofChars?_eq_unbraced?`: limits are cut off the body, wherever the braces of the line stand;
* `definition_read`: what a line draws as a definition, in terms of what it makes callable;
* `definition_read_eq_iff`: when the two are the same.
-/

namespace GraphCalc
open GraphCalc.Text
set_option autoImplicit false

/-! ## Heads -/

/-- A character that may stand in the head of a definition. -/
def isHeadPart (c : Char) : Bool := isBlank c || isNamePart c || c == '(' || c == ')'

theorem splitName?_eq_some {text name rest : List Char} (h : splitName? text = some (name, rest)) :
    text = name ++ rest ∧ ∀ c ∈ name, isHeadPart c = true := by
  cases text with
  | nil => cases h
  | cons c text =>
    rw [splitName?] at h
    split at h
    · next hstart =>
      obtain ⟨rfl, rfl⟩ := Prod.mk.inj (Option.some.inj h)
      refine ⟨by simp, fun d hd => ?_⟩
      have hpart : isNamePart d = true := by
        rcases List.mem_cons.mp hd with rfl | hd
        · exact Token.isNamePart_of_isNameStart hstart
        · exact List.mem_takeWhile_imp hd
      simp [isHeadPart, hpart]
    · cases h

/-- The blanks that are dropped at the start of a text are head parts. -/
theorem isHeadPart_of_trimStart {text : List Char}
    (h : ∀ c ∈ trimStart text, isHeadPart c = true) : ∀ c ∈ text, isHeadPart c = true := by
  intro c hc
  rw [← List.takeWhile_append_dropWhile (p := isBlank) (l := text), List.mem_append] at hc
  rcases hc with hc | hc
  · have hblank : isBlank c = true := List.mem_takeWhile_imp hc
    simp [isHeadPart, hblank]
  · exact h c hc

theorem isHeadPart_of_splitName? {text name rest : List Char}
    (h : splitName? (trimStart text) = some (name, rest))
    (hrest : ∀ c ∈ rest, isHeadPart c = true) : ∀ c ∈ text, isHeadPart c = true := by
  obtain ⟨hcut, hname⟩ := splitName?_eq_some h
  refine isHeadPart_of_trimStart ?_
  rw [hcut]
  exact List.forall_mem_append.mpr ⟨hname, hrest⟩

theorem isHeadPart_of_bracket {text rest : List Char} {bracket : Char}
    (h : trimStart text = bracket :: rest) (hbracket : isHeadPart bracket = true)
    (hrest : ∀ c ∈ rest, isHeadPart c = true) : ∀ c ∈ text, isHeadPart c = true := by
  refine isHeadPart_of_trimStart ?_
  rw [h]
  exact List.forall_mem_cons.mpr ⟨hbracket, hrest⟩

theorem isHeadPart_of_readHead? {text : List Char} {head : List Char × List Char}
    (h : readHead? text = some head) : (∀ c ∈ text, isHeadPart c = true) ∧ '(' ∈ text := by
  simp only [readHead?, Option.bind_eq_bind, Option.bind_eq_some_iff] at h
  obtain ⟨⟨name, afterName⟩, hname, h⟩ := h
  dsimp only at h
  split at h
  · next inside hopening =>
    obtain ⟨⟨parameter, afterParameter⟩, hparameter, h⟩ := Option.bind_eq_some_iff.mp h
    dsimp only at h
    split at h
    · next finish hclosing =>
      split at h
      · next hempty =>
        -- From the end of the head to its start, each part is made of head parts.
        have hfinish : ∀ c ∈ finish, isHeadPart c = true :=
          isHeadPart_of_trimStart (by rw [List.isEmpty_iff.mp hempty]; simp)
        have hinside : ∀ c ∈ inside, isHeadPart c = true :=
          isHeadPart_of_splitName? hparameter
            (isHeadPart_of_bracket hclosing (by decide) hfinish)
        have hafterName : ∀ c ∈ afterName, isHeadPart c = true :=
          isHeadPart_of_bracket hopening (by decide) hinside
        refine ⟨isHeadPart_of_splitName? hname hafterName, ?_⟩
        have hbracket : '(' ∈ afterName := by
          refine trimStart_subset _ ?_
          rw [hopening]
          exact List.mem_cons_self ..
        refine trimStart_subset _ ?_
        rw [(splitName?_eq_some hname).1]
        exact List.mem_append_right _ hbracket
      · cases h
    · cases h
  · cases h

theorem readHead?_trimStart (text : List Char) : readHead? (trimStart text) = readHead? text := by
  rw [readHead?, readHead?, trimStart_trimStart]

theorem notMem_of_readHead? {text : List Char} {head : List Char × List Char}
    (h : readHead? text = some head) {c : Char} (hc : isHeadPart c = false) : c ∉ text := by
  intro hmem
  rw [(isHeadPart_of_readHead? h).1 c hmem] at hc
  cases hc

theorem readHead?_eq_none {text : List Char} (h : '(' ∉ trim text) : readHead? text = none := by
  rw [Option.eq_none_iff_forall_ne_some]
  intro head hhead
  exact h ((mem_trim_iff (by decide)).mpr (isHeadPart_of_readHead? hhead).2)

/-! ## Equations -/

/-- A text defines a function if it is a head, an equals sign and a body. The equals sign is the
first one, for no head holds any. -/
theorem ofEquation?_eq_some_iff {text : List Char} {d : Definition} :
    Definition.ofEquation? text = some d ↔ ∃ left right, text = left ++ '=' :: right ∧
      readHead? left = some (d.name.toList, d.parameter.toList) ∧
      isAxisName d.name.toList = false ∧ trim right ≠ [] ∧ d.body = String.ofList (trim right) := by
  rw [Definition.ofEquation?]
  simp only [Option.bind_eq_bind, Option.bind_eq_some_iff]
  constructor
  · rintro ⟨⟨left, right⟩, hcut, ⟨name, parameter⟩, hhead, h⟩
    dsimp only at h hhead
    split at h
    · cases h
    · next hrefused =>
      cases h
      rw [Bool.or_eq_true, not_or, List.isEmpty_iff, Bool.not_eq_true] at hrefused
      refine ⟨left, right, (splitFirst?_eq_some_iff.mp hcut).1, ?_, ?_, hrefused.1, rfl⟩
      · simpa using hhead
      · simpa using hrefused.2
  · rintro ⟨left, right, rfl, hhead, haxis, hbody, hd⟩
    have hcut : splitFirst? '=' (left ++ '=' :: right) = some (left, right) :=
      splitFirst?_eq_some_iff.mpr ⟨rfl, notMem_of_readHead? hhead (by decide)⟩
    refine ⟨(left, right), hcut, (d.name.toList, d.parameter.toList), hhead, ?_⟩
    dsimp only
    rw [if_neg (by simp [haxis, hbody])]
    simp [← hd]

theorem ofEquation?_eq_none_of_head {text left right : List Char}
    (hcut : splitFirst? '=' text = some (left, right)) (h : '(' ∉ trim left) :
    Definition.ofEquation? text = none := by
  rw [Definition.ofEquation?, hcut]
  simp [readHead?_eq_none h]

theorem ofEquation?_eq_none_of_body {left right : List Char} (hleft : '=' ∉ left)
    (h : trim right = []) : Definition.ofEquation? (left ++ '=' :: right) = none := by
  rw [Definition.ofEquation?, splitFirst?_eq_some_iff.mpr ⟨rfl, hleft⟩]
  simp [h]

theorem ofEquation?_trim (text : List Char) :
    Definition.ofEquation? (trim text) = Definition.ofEquation? text := by
  cases hcut : splitFirst? '=' text with
  | none =>
    have htrim : splitFirst? '=' (trim text) = none := by
      rw [splitFirst?_eq_none_iff, mem_trim_iff (by decide)]
      exact splitFirst?_eq_none_iff.mp hcut
    rw [Definition.ofEquation?, Definition.ofEquation?, hcut, htrim]
  | some cut =>
    obtain ⟨left, right⟩ := cut
    obtain ⟨htext, hleft⟩ := splitFirst?_eq_some_iff.mp hcut
    have htrim : splitFirst? '=' (trim text) = some (trimStart left, trimEnd right) := by
      rw [splitFirst?_eq_some_iff, htext]
      exact ⟨trim_append_cons (by decide), fun hmem => hleft (trimStart_subset _ hmem)⟩
    rw [Definition.ofEquation?, Definition.ofEquation?, hcut, htrim]
    simp only [Option.bind_eq_bind, Option.bind_some, readHead?_trimStart, trim_trimEnd]

/-! ## Braces -/

/-- A beginning without an opening brace stays before the last pair of braces. -/
theorem bracePair?_append {left text : List Char} (h : '\x7b' ∉ left) :
    bracePair? (left ++ text) =
      (bracePair? text).map fun (before, inside) => (left ++ before, inside) := by
  rw [bracePair?, bracePair?, splitLast?_append h]
  cases splitLast? '\x7b' text with
  | none => rfl
  | some cut => simp [Function.comp_def]

/-- Trimming leaves the last pair of braces as it is. -/
theorem bracePair?_trim (text : List Char) :
    bracePair? (trim text) =
      (bracePair? text).map fun (before, inside) => (trimStart before, inside) := by
  rw [bracePair?, bracePair?]
  cases hcut : splitLast? '\x7b' text with
  | none =>
    have htrim : splitLast? '\x7b' (trim text) = none := by
      rw [splitLast?_eq_none_iff, mem_trim_iff (by decide)]
      exact splitLast?_eq_none_iff.mp hcut
    rw [htrim]
    rfl
  | some cut =>
    obtain ⟨before, after⟩ := cut
    obtain ⟨rfl, hafter⟩ := splitLast?_eq_some_iff.mp hcut
    rw [trim_append_cons (by decide), splitLast?_append_cons fun hmem =>
      hafter (trimEnd_subset _ hmem)]
    dsimp only
    cases hinside : splitLast? '\x7d' after with
    | none =>
      have htrim : splitLast? '\x7d' (trimEnd after) = none := by
        rw [splitLast?_eq_none_iff]
        exact fun hmem => splitLast?_eq_none_iff.mp hinside
          (trimEnd_subset _ hmem)
      rw [htrim]
      rfl
    | some cut =>
      obtain ⟨inside, rest⟩ := cut
      obtain ⟨rfl, hrest⟩ := splitLast?_eq_some_iff.mp hinside
      rw [trimEnd_append_cons (by decide), splitLast?_append_cons fun hmem =>
        hrest (trimEnd_subset _ hmem)]
      rfl

theorem exists_of_bracePair? {text before inside : List Char}
    (h : bracePair? text = some (before, inside)) : ∃ rest, text = before ++ '\x7b' :: rest := by
  rw [bracePair?] at h
  cases hcut : splitLast? '\x7b' text with
  | none =>
    rw [hcut] at h
    cases h
  | some cut =>
    rw [hcut] at h
    obtain ⟨split, -, hbefore⟩ := Option.map_eq_some_iff.mp h
    obtain ⟨rfl, -⟩ := Prod.mk.inj hbefore
    exact ⟨_, (splitLast?_eq_some_iff.mp hcut).1⟩

/-- The limits stand at the end of a line. -/
theorem exists_withoutLimits (text : List Char) : ∃ rest, text = withoutLimits text ++ rest := by
  rw [withoutLimits]
  cases hpair : bracePair? text with
  | none => exact ⟨[], (List.append_nil _).symm⟩
  | some pair =>
    obtain ⟨before, inside⟩ := pair
    dsimp only
    split
    · exact ⟨[], (List.append_nil _).symm⟩
    · obtain ⟨rest, htext⟩ := exists_of_bracePair? hpair
      exact ⟨_, htext⟩

/-- The limits of an equation stand on its right side. -/
theorem withoutLimits_equation {left right : List Char} (h : '\x7b' ∉ left) :
    withoutLimits (left ++ '=' :: right) =
      left ++ '=' :: ((bracePair? right).map Prod.fst).getD right := by
  have hleft : '\x7b' ∉ left ++ ['='] := by simp [h]
  have hpair : bracePair? (left ++ ['='] ++ right) = _ := bracePair?_append hleft
  rw [List.append_assoc, List.singleton_append] at hpair
  rw [withoutLimits, hpair]
  cases bracePair? right with
  | none => rfl
  | some pair =>
    obtain ⟨before, inside⟩ := pair
    have hne : trim (left ++ '=' :: before) ≠ [] := by
      rw [trim_append_cons (by decide)]
      simp
    rw [Option.map_some]
    dsimp only
    rw [List.append_assoc, List.singleton_append, if_neg (by simpa using hne)]
    rfl

/-! ## Definitions -/

/-- A definition less the last pair of braces in its body, if a body is left. -/
def Definition.unbraced? (d : Definition) : Option Definition :=
  match bracePair? d.body.toList with
  | none => some d
  | some (before, _) =>
    if trim before = [] then none else some { d with body := String.ofList (trim before) }

/-- A definition in an equation less its limits is also one in the whole equation. -/
theorem ofEquation?_eq_none_of_withoutLimits {text : List Char}
    (h : Definition.ofEquation? text = none) :
    Definition.ofEquation? (withoutLimits text) = none := by
  rw [Option.eq_none_iff_forall_ne_some]
  intro d hd
  obtain ⟨left, right, hequation, hhead, haxis, hbody, -⟩ := ofEquation?_eq_some_iff.mp hd
  obtain ⟨rest, htext⟩ := exists_withoutLimits text
  have hbody' : trim (right ++ rest) ≠ [] := by
    intro hnil
    refine hbody (trim_eq_nil_iff.mpr fun c hc => ?_)
    exact trim_eq_nil_iff.mp hnil c (List.mem_append_left _ hc)
  have hdefined : Definition.ofEquation? text =
      some ⟨d.name, d.parameter, String.ofList (trim (right ++ rest))⟩ := by
    refine ofEquation?_eq_some_iff.mpr ⟨left, right ++ rest, ?_, hhead, haxis, hbody', rfl⟩
    rw [htext, hequation, List.append_assoc, List.cons_append]
  rw [h] at hdefined
  cases hdefined

theorem ofChars?_eq_unbraced? (text : List Char) :
    Definition.ofChars? text = (Definition.ofEquation? text).bind Definition.unbraced? := by
  rw [Definition.ofChars?]
  cases hequation : Definition.ofEquation? text with
  | none => exact ofEquation?_eq_none_of_withoutLimits hequation
  | some d =>
    obtain ⟨left, right, rfl, hhead, haxis, hbody, hd⟩ := ofEquation?_eq_some_iff.mp hequation
    rw [withoutLimits_equation (notMem_of_readHead? hhead (by decide)), Option.bind_some,
      Definition.unbraced?, hd, String.toList_ofList, bracePair?_trim]
    cases bracePair? right with
    | none => exact hequation
    | some pair =>
      obtain ⟨before, inside⟩ := pair
      simp only [Option.map_some, Option.getD_some, trim_trimStart]
      split
      · next hblank =>
        exact ofEquation?_eq_none_of_body (notMem_of_readHead? hhead (by decide)) hblank
      · next hne => exact ofEquation?_eq_some_iff.mpr ⟨left, before, rfl, hhead, haxis, hne, rfl⟩

/-- What a line without its limits draws as a definition is read by cutting limits off once more. -/
theorem classify_definition (text : List Char) :
    (Line.classify text).2 = Definition.ofChars? text := by
  rw [Line.classify]
  cases hcut : splitFirst? '=' text with
  | none =>
    rw [ofChars?_eq_unbraced?, Definition.ofEquation?, hcut]
    rfl
  | some cut =>
    obtain ⟨left, right⟩ := cut
    dsimp only
    split
    · next hleft =>
      have hhead : '(' ∉ trim left := by
        simp only [Bool.or_eq_true, beq_iff_eq] at hleft
        rcases hleft with (h | h) | h <;> simp [h]
      rw [ofChars?_eq_unbraced?, ofEquation?_eq_none_of_head hcut hhead]
      rfl
    · split
      · next hleft =>
        have hhead : '(' ∉ trim left := by
          simp only [Bool.or_eq_true, beq_iff_eq] at hleft
          rcases hleft with h | h <;> simp [h]
        rw [ofChars?_eq_unbraced?, ofEquation?_eq_none_of_head hcut hhead]
        rfl
      · cases Definition.ofChars? text <;> rfl

/-- The function that a line draws is the one that it makes callable, less the last pair of braces
in its body: limits are cut off twice from what is drawn, and once from what is callable. -/
theorem definition_read (line : String) :
    (Line.read line).definition = (Definition.ofLine? line).bind Definition.unbraced? := by
  show (Line.classify (trim (withoutLimits line.toList))).2 = _
  rw [classify_definition, ofChars?_eq_unbraced?, ofEquation?_trim]
  rfl

/-- A body without its last pair of braces is another body. -/
theorem unbraced?_eq_some_iff (d : Definition) :
    d.unbraced? = some d ↔ bracePair? d.body.toList = none := by
  rw [Definition.unbraced?]
  cases hpair : bracePair? d.body.toList with
  | none => simp
  | some pair =>
    obtain ⟨before, inside⟩ := pair
    simp only [reduceCtorEq, iff_false]
    split
    · simp
    · intro h
      have hbody : trim before = d.body.toList := by
        rw [← congrArg Definition.body (Option.some.inj h), String.toList_ofList]
      obtain ⟨rest, hrest⟩ := exists_of_bracePair? hpair
      have hlength := congrArg List.length (hbody.trans hrest)
      have htrim := length_trim_le before
      simp at hlength
      omega

/-- The function that a line draws is the one that it makes callable exactly if there is no pair of
braces in the body of the callable one. -/
theorem definition_read_eq_iff (line : String) :
    (Line.read line).definition = Definition.ofLine? line ↔
      ∀ d, Definition.ofLine? line = some d → bracePair? d.body.toList = none := by
  rw [definition_read]
  cases Definition.ofLine? line with
  | none => simp
  | some d => simp [unbraced?_eq_some_iff]

/-- With two pairs of braces the line draws `f(t) = t`, and `f(t) = t {x > 0}` is callable. -/
theorem two_limits_make_two_definitions :
    (Line.read "f(t) = t \x7bx > 0\x7d \x7by > 0\x7d").definition = some ⟨"f", "t", "t"⟩ ∧
    Definition.ofLine? "f(t) = t \x7bx > 0\x7d \x7by > 0\x7d" = some ⟨"f", "t", "t \x7bx > 0\x7d"⟩ :=
  ⟨by rw [definition_read]; cbv, by cbv⟩

end GraphCalc
