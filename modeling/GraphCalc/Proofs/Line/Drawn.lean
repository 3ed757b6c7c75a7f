import GraphCalc.Proofs.Line.Definition
import GraphCalc.Proofs.Source.Rendered
import GraphCalc.Worksheet.Basic

/-! # What definition lines draw

A line that defines a function draws its body with the parameter renamed to `x`; a call `f(x)` is a line
of its own, which draws the value of the function at `x`. Main notions and statements:

* `IsWord`: a name as heads of definitions have it, of letters, digits and underscores;
* `isWord_of_ofEquation?`: the names of every definition;
* `shape_of_definition`: the curve of a line that defines a function;
* `callAtX`, `read_callAtX`: the text `f(x)`, as a line and as an expression;
* `callable_definitionsOf_x`: no worksheet makes `x` callable.
-/

namespace GraphCalc
open GraphCalc.Text
set_option autoImplicit false

/-! ## Names -/

/-- A name that starts with a letter or an underscore. -/
def IsWord (name : String) : Prop :=
  ∃ c more, name = String.ofList (c :: more) ∧ isNameStart c = true ∧
    ∀ d ∈ more, isNamePart d = true

section Names
variable {name : String}

theorem IsWord.isName (h : IsWord name) : Token.IsName name := by
  obtain ⟨c, more, rfl, hc, hmore⟩ := h
  exact ⟨c, more, rfl, .inl ⟨hc, hmore⟩⟩

theorem IsWord.parts (h : IsWord name) : ∀ c ∈ name.toList, isNamePart c = true := by
  obtain ⟨c, more, rfl, hc, hmore⟩ := h
  rw [String.toList_ofList]
  exact List.forall_mem_cons.mpr ⟨Token.isNamePart_of_isNameStart hc, hmore⟩

theorem isWord_of_splitName? {text word rest : List Char} (h : splitName? text = some (word, rest)) :
    IsWord (String.ofList word) := by
  cases text with
  | nil => cases h
  | cons c text =>
    rw [splitName?] at h
    split at h
    · next hc =>
      obtain ⟨rfl, -⟩ := Prod.mk.inj (Option.some.inj h)
      exact ⟨c, _, rfl, hc, fun d hd => List.mem_takeWhile_imp hd⟩
    · cases h

theorem isWord_of_readHead? {text word parameter : List Char}
    (h : readHead? text = some (word, parameter)) :
    IsWord (String.ofList word) ∧ IsWord (String.ofList parameter) := by
  simp only [readHead?, Option.bind_eq_bind, Option.bind_eq_some_iff] at h
  obtain ⟨⟨word', afterName⟩, hname, h⟩ := h
  dsimp only at h
  split at h
  · obtain ⟨⟨parameter', afterParameter⟩, hparameter, h⟩ := Option.bind_eq_some_iff.mp h
    dsimp only at h
    split at h
    · split at h
      · cases h
        exact ⟨isWord_of_splitName? hname, isWord_of_splitName? hparameter⟩
      · cases h
    · cases h
  · cases h

end Names

/-! ## Definitions -/

/-- The names of a definition are words, and it defines no axis. -/
theorem isWord_of_ofEquation? {text : List Char} {d : Definition}
    (h : Definition.ofEquation? text = some d) :
    IsWord d.name ∧ IsWord d.parameter ∧ isAxisName d.name.toList = false := by
  obtain ⟨left, right, -, hhead, haxis, -, -⟩ := ofEquation?_eq_some_iff.mp h
  have hwords := isWord_of_readHead? hhead
  rw [String.ofList_toList, String.ofList_toList] at hwords
  exact ⟨hwords.1, hwords.2, haxis⟩

/-- A line that defines a function draws the body with the parameter renamed. -/
theorem classify_of_definition {text : List Char} {d : Definition}
    (h : (Line.classify text).2 = some d) :
    (Line.classify text).1 = .curve (String.ofList
      (renameWord d.parameter.toList integrationVariable.toList d.body.toList)) := by
  have hdefined := h
  rw [classify_definition] at hdefined
  unfold Line.classify at h ⊢
  cases hcut : splitFirst? '=' text with
  | none => rw [hcut] at h; cases h
  | some cut =>
    rw [hcut] at h
    dsimp only at h ⊢
    split at h
    · cases h
    · next hleft =>
      rw [if_neg hleft]
      split at h
      · cases h
      · next haxis =>
        rw [if_neg haxis, hdefined]

section Lines
variable {line : String} {d : Definition} (h : (Line.read line).definition = some d)
include h

theorem shape_of_definition : (Line.read line).shape = .curve (String.ofList
    (renameWord d.parameter.toList integrationVariable.toList d.body.toList)) :=
  classify_of_definition h

theorem isWord_of_definition : IsWord d.name ∧ IsWord d.parameter := by
  have hdefined : (Line.classify (trim (withoutLimits line.toList))).2 = some d := h
  rw [classify_definition] at hdefined
  obtain ⟨hname, hparameter, -⟩ := isWord_of_ofEquation? hdefined
  exact ⟨hname, hparameter⟩

end Lines

/-! ## Calls -/

/-- A text without equals sign and braces, and without blanks at its ends, is drawn as it is. -/
theorem read_plain {text : String} (hequals : '=' ∉ text.toList) (hbrace : '\x7b' ∉ text.toList)
    (htrim : trim text.toList = text.toList) : Line.read text = ⟨text, .curve text, none, none⟩ := by
  have hpair : bracePair? text.toList = none := by
    rw [bracePair?, splitLast?_eq_none_iff.mpr hbrace]
  have hcut : splitFirst? '=' text.toList = none := splitFirst?_eq_none_iff.mpr hequals
  simp only [Line.read, withoutLimits, hpair, htrim, Line.classify, hcut, String.ofList_toList,
    Option.bind_none]

/-- The text of the call of a function at `x`. -/
def callAtX (name : String) : String := name ++ "(x)"

section Calls
variable {name : String} (h : IsWord name)
include h

theorem read_callAtX : Line.read (callAtX name) = ⟨callAtX name, .curve (callAtX name), none, none⟩ := by
  have hnot {c : Char} (hc : isNamePart c = false) (hcall : c ∉ ['(', 'x', ')']) :
      c ∉ (callAtX name).toList := by
    rw [callAtX, String.toList_append, List.mem_append, not_or]
    refine ⟨fun hmem => ?_, hcall⟩
    rw [h.parts c hmem] at hc
    cases hc
  refine read_plain (hnot (by decide) (by decide)) (hnot (by decide) (by decide)) ?_
  obtain ⟨c, more, rfl, hc, -⟩ := h
  have htext : (callAtX (String.ofList (c :: more))).toList = [] ++ c :: (more ++ ['(', 'x'] ++ [')']) := by
    simp [callAtX]
  rw [htext, trim_append_cons (Token.isBlank_of_isNameStart hc), trimEnd_append_cons (by decide)]
  rfl

theorem spells_callAtX {callable : String → Bool} (hcallable : callable name = true) :
    Token.Spells (callAtX name).toList fun ts =>
      Grammar.AtomTakes callable 7 ts (.call name [.var "x"]) := by
  have hx : Token.IsName "x" := ⟨'x', [], rfl, .inl ⟨rfl, by simp⟩⟩
  have htext : (callAtX name).toList = name.toList ++ '(' :: ("x".toList ++ ')' :: []) := by
    simp [callAtX]
  have hclosing := Token.Spells.char Grammar.isMark_closing Token.spells_nil
  have hargument := (Token.spells_name hx).append hclosing (by decide)
  have hbracket := Token.Spells.char Grammar.isMark_opening hargument
  rw [htext]
  refine ((Token.spells_name h.isName).append hbracket (by decide)).mono ?_
  rintro _ ⟨_, _, rfl, ⟨p, rfl⟩, q, _, rfl, _, _, rfl, ⟨p', rfl⟩, r, _, rfl, rfl⟩
  exact .call hcallable (.last (.product (.signed (.power (.atom .var)))))

/-- As an expression, the call is the call of the function with one variable. -/
theorem readTree_callAtX {callable : String → Bool} (hcallable : callable name = true) :
    Expr.read callable (callAtX name) = .ok (.call name [.var "x"]) := by
  obtain ⟨stream, hscan, htakes⟩ := (spells_callAtX h hcallable).scan
  rw [Expr.read, Expr.readWithin, hscan]
  exact Grammar.parseWithin_eq_ok_iff_takes.mpr
    ⟨11, by decide, .product (.signed (.power (.atom htakes)))⟩

end Calls

/-! ## Tables -/

theorem FunctionTable.mem_insert {table : FunctionTable} {d e : Definition}
    (h : e ∈ (table.insert d).entries) : e = d ∨ e ∈ table.entries := by
  unfold FunctionTable.insert at h
  split at h
  · obtain ⟨e', he', hsame⟩ := List.mem_map.mp h
    split at hsame
    · exact .inl hsame.symm
    · exact .inr (hsame ▸ he')
  · rcases List.mem_append.mp h with h | h
    · exact .inr h
    · exact .inl (List.mem_singleton.mp h)

/-- A table holds only definitions that it was made from. -/
theorem FunctionTable.mem_of_mem_ofList {definitions : List Definition} {e : Definition}
    (h : e ∈ (FunctionTable.ofList definitions).entries) : e ∈ definitions := by
  have hempty : ∀ e ∈ FunctionTable.empty.entries, e ∈ definitions := nofun
  have hfold : ∀ e ∈ (FunctionTable.ofList definitions).entries, e ∈ definitions := by
    refine List.foldlRecOn (motive := fun table => ∀ e ∈ table.entries, e ∈ definitions)
      definitions FunctionTable.insert hempty fun table htable d hd e he => ?_
    rcases FunctionTable.mem_insert he with rfl | he
    · exact hd
    · exact htable e he
  exact hfold e h

/-- Axes cannot be defined, and `x` is no function of its own. -/
theorem callable_definitionsOf_x (lines : List String) :
    (Worksheet.definitionsOf lines).callable "x" = false := by
  rw [FunctionTable.callable, Bool.or_eq_false_iff]
  refine ⟨by decide, ?_⟩
  rw [FunctionTable.defines, Option.isSome_eq_false_iff, Option.isNone_iff_eq_none,
    Option.eq_none_iff_forall_ne_some]
  intro d hd
  have hname : d.name = "x" := by simpa using List.find?_some hd
  obtain ⟨line, -, hline⟩ :=
    List.mem_filterMap.mp (FunctionTable.mem_of_mem_ofList (List.mem_of_find?_eq_some hd))
  obtain ⟨-, -, haxis⟩ := isWord_of_ofEquation? hline
  rw [hname] at haxis
  cases haxis

end GraphCalc
