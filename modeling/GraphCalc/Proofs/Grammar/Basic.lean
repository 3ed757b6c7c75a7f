import GraphCalc.Expr.Parse

/-! # The grammar of expressions

The grammar that the parser is measured against, as a relation between token lists and trees. It
says nothing of cursors, of room or of the order in which tokens are looked at. Main notions:

* `IsSum`, `IsProduct`, `IsSigned`, `IsPower`, `IsAtom`, `AreArguments`: the tokens of each level
  with the tree they stand for; operators on the left are folded as the lists grow to the right;
* `MayFollow`: two lists may stand side by side, which fails only where a callable name would be cut
  off from the bracket behind it;
* `Juxtaposed`: the second list is an operand that multiplies the first.

Positions and the texts of brackets, commas and numbers play no part.
-/

namespace GraphCalc.Grammar
set_option autoImplicit false

/-! ## The tokens at a seam -/

/-- Whether the last token is a number. -/
def endsInNumber (tokens : List Token) : Bool :=
  match tokens.getLast? with
  | some ⟨.number _, _, _⟩ => true
  | _ => false

/-- Whether the last token is a callable name. -/
def endsInHead (callable : String → Bool) (tokens : List Token) : Bool :=
  match tokens.getLast? with
  | some ⟨.name, name, _⟩ => callable name
  | _ => false

/-- Whether the first token is a number. -/
def startsWithNumber (tokens : List Token) : Bool :=
  match tokens.head? with
  | some ⟨.number _, _, _⟩ => true
  | _ => false

/-- Whether the first token is an opening bracket. -/
def startsWithOpening (tokens : List Token) : Bool :=
  match tokens.head? with
  | some ⟨.opening, _, _⟩ => true
  | _ => false

/-- Whether the first token is a number, a name or an opening bracket. -/
def startsOperand (tokens : List Token) : Bool :=
  match tokens.head? with
  | some ⟨.number _, _, _⟩ => true
  | some ⟨.name, _, _⟩ => true
  | some ⟨.opening, _, _⟩ => true
  | _ => false

/-- Whether the first token is an operator, a number, a name or an opening bracket. -/
def startsTerm (tokens : List Token) : Bool :=
  match tokens.head? with
  | some ⟨.operator, _, _⟩ => true
  | _ => startsOperand tokens

/-- A callable name right before an opening bracket is the head of a call, so no two operands meet
there. -/
def MayFollow (callable : String → Bool) (left right : List Token) : Prop :=
  ¬ (endsInHead callable left = true ∧ startsWithOpening right = true)

/-- An operand that stands right behind another one and multiplies it. Two numbers side by side are
no product. -/
structure Juxtaposed (callable : String → Bool) (left right : List Token) : Prop where
  operand : startsOperand right = true
  numbers : ¬ (endsInNumber left = true ∧ startsWithNumber right = true)
  seam : MayFollow callable left right

/-! ## The levels -/

section Levels
variable (callable : String → Bool)

mutual

/-- Products joined by `+` and `-`. -/
inductive IsSum : List Token → Expr → Prop where
  | product {ts e} (h : IsProduct ts e) : IsSum ts e
  | join {ts us a b operator p} (left : IsSum ts a) (known : operator ∈ [.add, .subtract])
      (right : IsProduct us b) :
      IsSum (ts ++ ⟨.operator, operator.symbol, p⟩ :: us) (.binary operator a b)

/-- Operands joined by `*`, `/`, `%` or by standing side by side. -/
inductive IsProduct : List Token → Expr → Prop where
  | signed {ts e} (h : IsSigned ts e) : IsProduct ts e
  | join {ts us a b operator p} (left : IsProduct ts a)
      (known : operator ∈ [.multiply, .divide, .modulo]) (right : IsSigned us b) :
      IsProduct (ts ++ ⟨.operator, operator.symbol, p⟩ :: us) (.binary operator a b)
  | juxtapose {ts us a b} (left : IsProduct ts a) (right : IsPower us b)
      (h : Juxtaposed callable ts us) : IsProduct (ts ++ us) (.binary .multiply a b)

/-- Signs before a power. -/
inductive IsSigned : List Token → Expr → Prop where
  | sign {us e sign p} (known : sign ∈ [.plus, .minus]) (operand : IsSigned us e) :
      IsSigned (⟨.operator, sign.symbol, p⟩ :: us) (.signed sign e)
  | power {ts e} (h : IsPower ts e) : IsSigned ts e

/-- An atom with an optional exponent. -/
inductive IsPower : List Token → Expr → Prop where
  | atom {ts e} (h : IsAtom ts e) : IsPower ts e
  | power {ts us a b p} (base : IsAtom ts a) (exponent : IsSigned us b) :
      IsPower (ts ++ ⟨.operator, Operator.power.symbol, p⟩ :: us) (.binary .power a b)

/-- A number, a variable, a bracketed sum or a call. -/
inductive IsAtom : List Token → Expr → Prop where
  | number {value text p} : IsAtom [⟨.number value, text, p⟩] (.number value)
  | var {name p} : IsAtom [⟨.name, name, p⟩] (.var name)
  | group {ts e opening closing p q} (inside : IsSum ts e) :
      IsAtom (⟨.opening, opening, p⟩ :: (ts ++ [⟨.closing, closing, q⟩])) e
  | callEmpty {name opening closing p q r} (head : callable name = true) :
      IsAtom [⟨.name, name, p⟩, ⟨.opening, opening, q⟩, ⟨.closing, closing, r⟩] (.call name [])
  | call {name ts es opening closing p q r} (head : callable name = true)
      (inside : AreArguments ts es) :
      IsAtom (⟨.name, name, p⟩ :: ⟨.opening, opening, q⟩ :: (ts ++ [⟨.closing, closing, r⟩]))
        (.call name es)

/-- One or more sums, separated by commas. -/
inductive AreArguments : List Token → List Expr → Prop where
  | last {ts e} (h : IsSum ts e) : AreArguments ts [e]
  | more {ts us e es comma p} (first : IsSum ts e) (others : AreArguments us es) :
      AreArguments (ts ++ ⟨.comma, comma, p⟩ :: us) (e :: es)

end

end Levels

/-! ## Ends of lists -/

@[simp] theorem endsInNumber_append_cons (ts us : List Token) (t : Token) :
    endsInNumber (ts ++ t :: us) = endsInNumber (t :: us) := by
  simp [endsInNumber, List.getLast?_append, List.getLast?_cons]

@[simp] theorem endsInHead_append_cons (callable : String → Bool) (ts us : List Token) (t : Token) :
    endsInHead callable (ts ++ t :: us) = endsInHead callable (t :: us) := by
  simp [endsInHead, List.getLast?_append, List.getLast?_cons]

theorem endsInNumber_append {ts us : List Token} (h : us ≠ []) :
    endsInNumber (ts ++ us) = endsInNumber us := by
  obtain ⟨t, us, rfl⟩ := List.exists_cons_of_ne_nil h
  exact endsInNumber_append_cons ts us t

theorem endsInHead_append {callable : String → Bool} {ts us : List Token} (h : us ≠ []) :
    endsInHead callable (ts ++ us) = endsInHead callable us := by
  obtain ⟨t, us, rfl⟩ := List.exists_cons_of_ne_nil h
  exact endsInHead_append_cons callable ts us t

theorem startsWithNumber_append {ts : List Token} (us : List Token) (h : ts ≠ []) :
    startsWithNumber (ts ++ us) = startsWithNumber ts := by
  obtain ⟨t, ts, rfl⟩ := List.exists_cons_of_ne_nil h
  rfl

theorem startsWithOpening_append {ts : List Token} (us : List Token) (h : ts ≠ []) :
    startsWithOpening (ts ++ us) = startsWithOpening ts := by
  obtain ⟨t, ts, rfl⟩ := List.exists_cons_of_ne_nil h
  rfl

theorem eq_cons_of_startsWithOpening {ts : List Token} (h : startsWithOpening ts = true) :
    ∃ text p us, ts = ⟨.opening, text, p⟩ :: us := by
  unfold startsWithOpening at h
  split at h
  · next text p hhead =>
    obtain ⟨us, rfl⟩ := List.head?_eq_some_iff.mp hhead
    exact ⟨text, p, us, rfl⟩
  · cases h

/-! ## First tokens -/

section First
variable {callable : String → Bool}

theorem ne_nil_of_startsTerm {ts : List Token} (h : startsTerm ts = true) : ts ≠ [] := by
  rintro rfl
  simp [startsTerm, startsOperand] at h

theorem startsTerm_of_startsOperand {ts : List Token} (h : startsOperand ts = true) :
    startsTerm ts = true := by
  unfold startsTerm
  split <;> simp [h]

theorem startsOperand_append {ts : List Token} (us : List Token) (h : startsOperand ts = true) :
    startsOperand (ts ++ us) = true := by
  obtain ⟨t, ts, rfl⟩ := List.exists_cons_of_ne_nil
    (ne_nil_of_startsTerm (startsTerm_of_startsOperand h))
  exact h

theorem startsTerm_append {ts : List Token} (us : List Token) (h : startsTerm ts = true) :
    startsTerm (ts ++ us) = true := by
  obtain ⟨t, ts, rfl⟩ := List.exists_cons_of_ne_nil (ne_nil_of_startsTerm h)
  exact h

theorem IsAtom.starts {ts : List Token} {e : Expr} (h : IsAtom callable ts e) :
    startsOperand ts = true := by
  cases h <;> rfl

theorem IsPower.starts {ts : List Token} {e : Expr} (h : IsPower callable ts e) :
    startsOperand ts = true := by
  cases h with
  | atom h => exact h.starts
  | power base _ => exact startsOperand_append _ base.starts

theorem IsSigned.starts {ts : List Token} {e : Expr} (h : IsSigned callable ts e) :
    startsTerm ts = true := by
  cases h with
  | sign _ _ => rfl
  | power h => exact startsTerm_of_startsOperand h.starts

theorem IsProduct.starts {ts : List Token} {e : Expr} :
    IsProduct callable ts e → startsTerm ts = true
  | .signed h => h.starts
  | .join left _ _ => startsTerm_append _ left.starts
  | .juxtapose left _ _ => startsTerm_append _ left.starts

theorem IsSum.starts {ts : List Token} {e : Expr} :
    IsSum callable ts e → startsTerm ts = true
  | .product h => h.starts
  | .join left _ _ => startsTerm_append _ left.starts

theorem AreArguments.starts {ts : List Token} {es : List Expr} :
    AreArguments callable ts es → startsTerm ts = true
  | .last h => h.starts
  | .more first _ => startsTerm_append _ first.starts

theorem IsAtom.ne_nil {ts : List Token} {e : Expr} (h : IsAtom callable ts e) : ts ≠ [] :=
  ne_nil_of_startsTerm (startsTerm_of_startsOperand h.starts)

theorem IsPower.ne_nil {ts : List Token} {e : Expr} (h : IsPower callable ts e) : ts ≠ [] :=
  ne_nil_of_startsTerm (startsTerm_of_startsOperand h.starts)

theorem IsSigned.ne_nil {ts : List Token} {e : Expr} (h : IsSigned callable ts e) : ts ≠ [] :=
  ne_nil_of_startsTerm h.starts

theorem IsProduct.ne_nil {ts : List Token} {e : Expr} (h : IsProduct callable ts e) : ts ≠ [] :=
  ne_nil_of_startsTerm h.starts

theorem IsSum.ne_nil {ts : List Token} {e : Expr} (h : IsSum callable ts e) : ts ≠ [] :=
  ne_nil_of_startsTerm h.starts

end First
end GraphCalc.Grammar
