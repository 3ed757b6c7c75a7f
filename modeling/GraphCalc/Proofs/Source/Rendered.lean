import GraphCalc.Proofs.Grammar.Complete
import GraphCalc.Proofs.Source.Spelling

/-! # The tokens of a rendered tree

The text of a tree spells tokens that derive the tree, as long as its numbers are written as
numerals. Main notions and statements:

* `Expr.Legible`: the names of a tree are names of texts, its call heads are callable, and its
  operators are those of texts;
* `Expr.numbers`, `Expr.operatorCount`: the numbers of a tree in order, and how many operators it has;
* `Plain`: a double that is written as a numeral;
* `Renders`: what the tokens of the text of a tree have in common with the tree;
* `spells_source`: the text of a legible tree spells such tokens.
-/

namespace GraphCalc
open GraphCalc.Binary64 GraphCalc.Text
set_option autoImplicit false

namespace Expr

/-! ## Parts of a tree -/

mutual
/-- The numbers of a tree in order. -/
def numbers : Expr → List Float
  | number v => [v]
  | var _ => []
  | signed _ operand => operand.numbers
  | binary _ left right => left.numbers ++ right.numbers
  | call _ arguments => allNumbers arguments

/-- The numbers of several trees. -/
def allNumbers : List Expr → List Float
  | [] => []
  | e :: es => e.numbers ++ allNumbers es
end

mutual
/-- How many signs and operators a tree has. -/
def operatorCount : Expr → ℕ
  | number _ => 0
  | var _ => 0
  | signed _ operand => operand.operatorCount + 1
  | binary _ left right => left.operatorCount + right.operatorCount + 1
  | call _ arguments => allOperatorCount arguments

/-- How many signs and operators several trees have. -/
def allOperatorCount : List Expr → ℕ
  | [] => 0
  | e :: es => e.operatorCount + allOperatorCount es
end

mutual
/-- The names are names of texts, the heads of calls are callable, and the operators are those of
texts. -/
def Legible (callable : String → Bool) : Expr → Prop
  | number _ => True
  | var name => Token.IsName name
  | signed sign operand => sign ∈ [Sign.plus, Sign.minus] ∧ operand.Legible callable
  | binary operator left right =>
    operator ∈ Operator.known ∧ left.Legible callable ∧ right.Legible callable
  | call name arguments =>
    Token.IsName name ∧ callable name = true ∧ AllLegible callable arguments

/-- Several trees are legible. -/
def AllLegible (callable : String → Bool) : List Expr → Prop
  | [] => True
  | e :: es => e.Legible callable ∧ AllLegible callable es
end

end Expr

/-! ## Doubles in texts -/

/-- A finite double without sign. It is written as a numeral. -/
def Plain (v : Float) : Prop := v.isFinite = true ∧ isNegative v = false

/-- Whether a double is written with a sign. The undefined value is not. -/
def isMarked (v : Float) : Bool := !v.isNaN && isNegative v

theorem isMarked_of_not_isNaN {v : Float} (h : v.isNaN = false) : isMarked v = isNegative v := by
  rw [isMarked, h]
  rfl

theorem isMarked_of_isNaN {v : Float} (h : v.isNaN = true) : isMarked v = false := by
  rw [isMarked, h]
  rfl

theorem plain_iff {v : Float} : Plain v ↔ v.isFinite = true ∧ isMarked v = false := by
  refine and_congr_right fun hfinite => ?_
  rw [isMarked_of_not_isNaN (isNaN_of_isFinite hfinite)]

namespace Token

/-- Whether a token is a number. -/
def isNumber (t : Token) : Bool :=
  match t.kind with
  | .number _ => true
  | _ => false

/-- Whether a token is an operator. -/
def isOperation (t : Token) : Bool := t.kind == .operator

end Token

namespace Grammar
open Token

/-! ## Marks -/

theorem isMark_opening : IsMark '(' .opening := ⟨by decide, fun _ _ => rfl⟩
theorem isMark_closing : IsMark ')' .closing := ⟨by decide, fun _ _ => rfl⟩
theorem isMark_comma : IsMark ',' .comma := ⟨by decide, fun _ _ => rfl⟩

theorem isMark_operator {operator : Operator} (h : operator ∈ Operator.known) :
    ∃ c, operator.symbol = String.ofList [c] ∧ IsMark c .operator := by
  simp only [Operator.known, List.mem_cons, List.not_mem_nil, or_false] at h
  rcases h with rfl | rfl | rfl | rfl | rfl | rfl
  · exact ⟨'+', rfl, by decide, fun _ _ => rfl⟩
  · exact ⟨'-', rfl, by decide, fun _ _ => rfl⟩
  · exact ⟨'*', rfl, by decide, fun _ _ => rfl⟩
  · exact ⟨'/', rfl, by decide, fun _ _ => rfl⟩
  · exact ⟨'%', rfl, by decide, fun _ _ => rfl⟩
  · exact ⟨'^', rfl, by decide, fun _ _ => rfl⟩

theorem isMark_sign {sign : Sign} (h : sign ∈ [Sign.plus, Sign.minus]) :
    ∃ c, sign.symbol = String.ofList [c] ∧ IsMark c .operator := by
  simp only [List.mem_cons, List.not_mem_nil, or_false] at h
  rcases h with rfl | rfl
  · exact ⟨'+', rfl, by decide, fun _ _ => rfl⟩
  · exact ⟨'-', rfl, by decide, fun _ _ => rfl⟩

/-! ## Trees in brackets -/

section Brackets
variable {callable : String → Bool} {us vs : List Token} {a b : Expr}

theorem isAtom_signed {sign : Sign} {p q r : ℕ} {opening closing : String}
    (hsign : sign ∈ [Sign.plus, Sign.minus]) (ha : IsAtom callable us a) :
    IsAtom callable (⟨.opening, opening, p⟩ ::
      ((⟨.operator, sign.symbol, q⟩ :: us) ++ [⟨.closing, closing, r⟩])) (.signed sign a) :=
  .group (.product (.signed (.sign hsign (.power (.atom ha)))))

theorem isAtom_binary {operator : Operator} {p q r : ℕ} {opening closing : String}
    (hoperator : operator ∈ Operator.known) (ha : IsAtom callable us a) (hb : IsAtom callable vs b) :
    IsAtom callable (⟨.opening, opening, p⟩ ::
      (us ++ ⟨.operator, operator.symbol, q⟩ :: (vs ++ [⟨.closing, closing, r⟩])))
      (.binary operator a b) := by
  have hbracket : us ++ ⟨.operator, operator.symbol, q⟩ :: (vs ++ [⟨.closing, closing, r⟩]) =
      (us ++ ⟨.operator, operator.symbol, q⟩ :: vs) ++ [⟨.closing, closing, r⟩] := by simp
  rw [hbracket]
  refine .group ?_
  have ha' : IsSigned callable us a := .power (.atom ha)
  have hb' : IsSigned callable vs b := .power (.atom hb)
  have hsum : operator ∈ [Operator.add, .subtract] ∨ operator ∈ [Operator.multiply, .divide, .modulo]
      ∨ operator = .power := by
    simpa [Operator.known, or_assoc] using hoperator
  rcases hsum with hsum | hproduct | rfl
  · exact .join (.product (.signed ha')) hsum (.signed hb')
  · exact .product (.join (.signed ha') hproduct hb')
  · exact .product (.signed (.power (.power ha hb')))

end Brackets

/-! ## Rendered trees -/

section Rendered
variable (callable : String → Bool)

/-- What the tokens of the text of a tree have in common with the tree: they derive it if its numbers
are plain, each finite number is a number token, and each operator or sign of a number an operator
token. -/
structure Renders (e : Expr) (ts : List Token) : Prop where
  tree : (∀ v ∈ e.numbers, Plain v) → IsAtom callable ts e
  numbers : ts.countP isNumber = e.numbers.countP Float.isFinite
  operators : ts.countP isOperation = e.operatorCount + e.numbers.countP isMarked

/-- The same for the texts of several trees, separated by commas. -/
structure RendersAll (es : List Expr) (ts : List Token) : Prop where
  empty : es = [] → ts = []
  trees : es ≠ [] → (∀ v ∈ Expr.allNumbers es, Plain v) → AreArguments callable ts es
  numbers : ts.countP isNumber = (Expr.allNumbers es).countP Float.isFinite
  operators : ts.countP isOperation =
    Expr.allOperatorCount es + (Expr.allNumbers es).countP isMarked

variable {callable}

theorem isSum_of_isAtom {ts : List Token} {e : Expr} (h : IsAtom callable ts e) :
    IsSum callable ts e :=
  .product (.signed (.power (.atom h)))

/-! ## Numbers -/

theorem isName_inf : IsName "inf" := ⟨'i', ['n', 'f'], rfl, .inl ⟨rfl, List.all_eq_true.mp rfl⟩⟩
theorem isName_nan : IsName "nan" := ⟨'n', ['a', 'n'], rfl, .inl ⟨rfl, List.all_eq_true.mp rfl⟩⟩

/-- Without a sign, a finite number is written as its numeral and infinity as a name. -/
theorem spells_unsigned {v : Float} (hnan : v.isNaN = false) (hsign : isNegative v = false) :
    Spells (floatText Style.full v) (fun ts =>
      (v.isFinite = true ∧ ∃ text p, ts = [⟨.number v, text, p⟩]) ∨
      (v.isFinite = false ∧ ∃ p, ts = [⟨.name, "inf", p⟩])) := by
  cases hfinite : v.isFinite with
  | true =>
    obtain ⟨n, hvalid, htext, hvalue⟩ := exists_numeral_floatText hfinite hsign
    rw [← htext]
    refine (spells_numeral hvalid).mono ?_
    rintro ts ⟨text, p, rfl⟩
    exact .inl ⟨rfl, text, p, by rw [hvalue]⟩
  | false =>
    have htext : floatText Style.full v = "inf".toList := by
      rw [floatText_of_not_isNegative hnan hsign, magnitudeText, isInf_of_not_isFinite hnan hfinite]
      rfl
    rw [htext]
    exact (spells_name isName_inf).mono fun ts hts => .inr ⟨rfl, hts⟩

/-- The text of a number spells a numeral or a name, behind an operator if there is a sign. -/
theorem spells_floatText (v : Float) :
    Spells (floatText Style.full v) (Renders callable (.number v)) := by
  cases hnan : v.isNaN with
  | true =>
    have hfinite : v.isFinite = false := by
      rw [Bool.eq_false_iff]
      intro h
      rw [isNaN_of_isFinite h] at hnan
      cases hnan
    rw [floatText_of_isNaN hnan]
    refine (spells_name isName_nan).mono ?_
    rintro ts ⟨p, rfl⟩
    refine ⟨fun hplain => ?_, by simp [isNumber, Expr.numbers, hfinite],
      by simp [isOperation, Expr.numbers, Expr.operatorCount, isMarked_of_isNaN hnan]⟩
    rw [(hplain v (List.mem_singleton_self v)).1] at hfinite
    cases hfinite
  | false =>
    cases hsign : isNegative v with
    | false =>
      refine (spells_unsigned hnan hsign).mono ?_
      rintro ts (⟨hfinite, text, p, rfl⟩ | ⟨hfinite, p, rfl⟩)
      · exact ⟨fun _ => .number, by simp [isNumber, Expr.numbers, hfinite],
          by simp [isOperation, Expr.numbers, Expr.operatorCount, isMarked_of_not_isNaN hnan, hsign]⟩
      · refine ⟨fun hplain => ?_, by simp [isNumber, Expr.numbers, hfinite],
          by simp [isOperation, Expr.numbers, Expr.operatorCount, isMarked_of_not_isNaN hnan, hsign]⟩
        rw [(hplain v (List.mem_singleton_self v)).1] at hfinite
        cases hfinite
    | true =>
      have hmark : IsMark '-' .operator := ⟨by decide, fun _ _ => rfl⟩
      rw [floatText_of_isNegative hnan hsign]
      refine (Spells.char hmark (spells_unsigned (isNaN_abs hnan) (isNegative_abs hnan))).mono ?_
      rintro ts ⟨p, us, rfl, hus⟩
      rw [isFinite_abs hnan] at hus
      refine ⟨fun hplain => ?_, ?_, ?_⟩
      · have hplus := (hplain v (List.mem_singleton_self v)).2
        rw [hsign] at hplus
        cases hplus
      · rcases hus with ⟨hfinite, text, q, rfl⟩ | ⟨hfinite, q, rfl⟩ <;>
          simp [isNumber, Expr.numbers, hfinite]
      · rcases hus with ⟨hfinite, text, q, rfl⟩ | ⟨hfinite, q, rfl⟩ <;>
          simp [isOperation, Expr.numbers, Expr.operatorCount, isMarked_of_not_isNaN hnan, hsign]

/-! ## All trees -/

mutual

/-- The text of a legible tree spells tokens that derive it if its numbers are plain. -/
theorem spells_source : ∀ {e : Expr}, e.Legible callable →
    Spells e.source.toList (Renders callable e)
  | .number v, _ => by
      rw [Expr.source, writeFloat, String.toList_ofList]
      exact spells_floatText v
  | .var name, h => by
      rw [Expr.source]
      refine (spells_name h).mono ?_
      rintro ts ⟨p, rfl⟩
      exact ⟨fun _ => .var, by simp [isNumber, Expr.numbers], rfl⟩
  | .signed sign operand, ⟨hsign, h⟩ => by
      obtain ⟨c, hsymbol, hmark⟩ := isMark_sign hsign
      have htext : (Expr.signed sign operand).source.toList =
          '(' :: c :: (operand.source.toList ++ [')']) := by
        simp [Expr.source, hsymbol]
      rw [htext]
      refine (Spells.char isMark_opening (Spells.char hmark ((spells_source h).append
        (Spells.char isMark_closing spells_nil) (by decide)))).mono ?_
      rintro ts ⟨p, _, rfl, q, _, rfl, us, _, rfl, hus, r, _, rfl, rfl⟩
      rw [← hsymbol]
      refine ⟨fun hplain => isAtom_signed hsign (hus.tree hplain), ?_, ?_⟩
      · simp [isNumber, hus.numbers, Expr.numbers]
      · simp [isOperation, hus.operators, Expr.numbers, Expr.operatorCount]
        omega
  | .binary operator left right, ⟨hoperator, hleft, hright⟩ => by
      obtain ⟨c, hsymbol, hmark⟩ := isMark_operator hoperator
      have htext : (Expr.binary operator left right).source.toList =
          '(' :: (left.source.toList ++ ' ' :: c :: ' ' :: (right.source.toList ++ [')'])) := by
        simp [Expr.source, hsymbol]
      rw [htext]
      refine (Spells.char isMark_opening ((spells_source hleft).append
        (Spells.blank (by decide) (Spells.char hmark (Spells.blank (by decide)
          ((spells_source hright).append (Spells.char isMark_closing spells_nil)
            (by decide)))))
        (by decide))).mono ?_
      rintro ts ⟨p, _, rfl, us, _, rfl, hus, q, _, rfl, vs, _, rfl, hvs, r, _, rfl, rfl⟩
      rw [← hsymbol]
      refine ⟨fun hplain => ?_, ?_, ?_⟩
      · exact isAtom_binary hoperator
          (hus.tree fun v hv => hplain v (List.mem_append_left _ hv))
          (hvs.tree fun v hv => hplain v (List.mem_append_right _ hv))
      · simp [isNumber, hus.numbers, hvs.numbers, Expr.numbers]
      · simp [isOperation, hus.operators, hvs.operators, Expr.numbers, Expr.operatorCount]
        omega
  | .call name arguments, ⟨hname, hhead, h⟩ => by
      have htext : (Expr.call name arguments).source.toList = name.toList ++
          '(' :: ((", ".intercalate (Expr.sources arguments)).toList ++ [')']) := by
        simp [Expr.source]
      rw [htext]
      refine ((spells_name hname).append (Spells.char isMark_opening ((spells_sources h).append
        (Spells.char isMark_closing spells_nil) (by decide)))
        (by decide)).mono ?_
      rintro ts ⟨_, _, rfl, ⟨p, rfl⟩, q, _, rfl, us, _, rfl, hus, r, _, rfl, rfl⟩
      refine ⟨fun hplain => ?_, ?_, ?_⟩
      · cases arguments with
        | nil =>
          rw [hus.empty rfl]
          exact .callEmpty hhead
        | cons e es => exact .call hhead (hus.trees (by simp) hplain)
      · simp [isNumber, hus.numbers, Expr.numbers]
      · simp [isOperation, hus.operators, Expr.numbers, Expr.operatorCount]

/-- The texts of legible trees, separated by commas, spell arguments of a call. -/
theorem spells_sources : ∀ {es : List Expr}, Expr.AllLegible callable es →
    Spells (", ".intercalate (Expr.sources es)).toList (RendersAll callable es)
  | [], _ => by
      refine spells_nil.mono ?_
      rintro ts rfl
      exact ⟨fun _ => rfl, fun h => absurd rfl h, rfl, rfl⟩
  | [e], ⟨h, _⟩ => by
      rw [Expr.sources, Expr.sources, String.intercalate_singleton]
      refine (spells_source h).mono fun ts hts => ?_
      have hnumbers : Expr.allNumbers [e] = e.numbers := by simp [Expr.allNumbers]
      refine ⟨by simp, fun _ hplain => .last (isSum_of_isAtom (hts.tree (hnumbers ▸ hplain))), ?_, ?_⟩
      · rw [hnumbers, hts.numbers]
      · rw [hnumbers, hts.operators]
        simp [Expr.allOperatorCount]
  | e :: f :: es, ⟨h, hs⟩ => by
      have htext : (", ".intercalate (Expr.sources (e :: f :: es))).toList =
          e.source.toList ++ ',' :: ' ' :: (", ".intercalate (Expr.sources (f :: es))).toList := by
        simp [Expr.sources]
      rw [htext]
      refine ((spells_source h).append (Spells.char isMark_comma (Spells.blank (by decide)
        (spells_sources hs))) (by decide)).mono ?_
      rintro ts ⟨us, _, rfl, hus, p, vs, rfl, hvs⟩
      refine ⟨by simp, fun _ hplain => .more (isSum_of_isAtom (hus.tree fun v hv => ?_))
        (hvs.trees (by simp) fun v hv => ?_), ?_, ?_⟩
      · exact hplain v (List.mem_append_left _ hv)
      · exact hplain v (List.mem_append_right _ hv)
      · simp [isNumber, hus.numbers, hvs.numbers, Expr.allNumbers]
      · simp [isOperation, hus.operators, hvs.operators, Expr.allNumbers, Expr.allOperatorCount]
        omega

end
end Rendered
end Grammar
end GraphCalc
