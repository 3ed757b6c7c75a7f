import GraphCalc.Eval.Builtin
import GraphCalc.Proofs.Grammar.Complete

/-! # Products without a sign

Two operands side by side are multiplied. Writing the `*` between them changes nothing in the tree: the
derivation stays as it is, except that an operand that was merely put beside another one now stands
behind an operator, which takes a unit of room more. The units add up along a nesting, so the same text
with every `*` written can be too deep where the text itself is not. Main notions:

* `meets`: two tokens between which the parser sees a product;
* `spelledOut`: the tokens with a `*` wherever two of them meet;
* `SumTakes.spelledOut` and its companions: a derivation of the tokens spelled out, in at most twice the
  room;
* `juxtaposition_means_product`: the parser reads the same tree;
* `nestedProducts`: a text that is read, and is nested too deeply when it is spelled out.
-/

namespace GraphCalc.Grammar
open GraphCalc.Parse
set_option autoImplicit false

/-! ## Tokens that meet -/

/-- Whether the last token is a number, a name or a closing bracket. -/
def endsOperand (tokens : List Token) : Bool :=
  match tokens.getLast? with
  | some ⟨.number _, _, _⟩ => true
  | some ⟨.name, _, _⟩ => true
  | some ⟨.closing, _, _⟩ => true
  | _ => false

section SpelledOut
variable (callable : String → Bool) (place : Token → Token → Nat)

/-- Whether an operand ends with the token `t` and another one starts with the token `u` behind it. A
callable name before an opening bracket is the head of a call and no operand. -/
def meets (t u : Token) : Bool :=
  endsOperand [t] && startsOperand [u] && !(endsInHead callable [t] && startsWithOpening [u])

/-- The `*` between two tokens that meet, at the position that `place` gives it. -/
def between (t u : Token) : List Token :=
  if meets callable t u then [⟨.operator, Operator.multiply.symbol, place t u⟩] else []

/-- The tokens with a `*` wherever two of them meet. -/
def spelledOut : List Token → List Token
  | [] => []
  | [t] => [t]
  | t :: u :: rest => t :: (between callable place t u ++ spelledOut (u :: rest))

end SpelledOut

section Tokens
variable {callable : String → Bool} {place : Token → Token → Nat}

@[simp] theorem spelledOut_nil : spelledOut callable place [] = [] := rfl

@[simp] theorem spelledOut_singleton (t : Token) : spelledOut callable place [t] = [t] := rfl

theorem spelledOut_append_cons (ts us : List Token) (t u : Token) :
    spelledOut callable place (ts ++ t :: u :: us) =
      spelledOut callable place (ts ++ [t]) ++
        (between callable place t u ++ spelledOut callable place (u :: us)) := by
  induction ts with
  | nil => rfl
  | cons s ts ih =>
    cases ts with
    | nil => simp [spelledOut]
    | cons s' ts =>
      simp only [List.cons_append] at ih ⊢
      rw [spelledOut, spelledOut, ih, List.cons_append, List.append_assoc]

/-- No `*` comes in before a token that starts no operand. -/
theorem spelledOut_append_of_not_starts {m : Token} (h : startsOperand [m] = false)
    (ts us : List Token) :
    spelledOut callable place (ts ++ m :: us) =
      spelledOut callable place ts ++ spelledOut callable place (m :: us) := by
  rcases List.eq_nil_or_concat ts with rfl | ⟨ts, t, rfl⟩
  · rfl
  · rw [List.concat_eq_append, List.append_assoc, List.singleton_append, spelledOut_append_cons]
    simp [between, meets, h]

/-- No `*` comes in behind a token that ends no operand. -/
theorem spelledOut_cons_of_not_ends {m : Token} (h : endsOperand [m] = false) (us : List Token) :
    spelledOut callable place (m :: us) = m :: spelledOut callable place us := by
  cases us with
  | nil => rfl
  | cons u us => simp [spelledOut, between, meets, h]

/-- An operator or a comma stays where it is. -/
theorem spelledOut_around {m : Token} (hstarts : startsOperand [m] = false)
    (hends : endsOperand [m] = false) (ts us : List Token) :
    spelledOut callable place (ts ++ m :: us) =
      spelledOut callable place ts ++ m :: spelledOut callable place us := by
  rw [spelledOut_append_of_not_starts hstarts, spelledOut_cons_of_not_ends hends]

/-- Brackets stay around what they enclose. -/
theorem spelledOut_bracketed {opening closing : String} {p q : Nat} (ts : List Token) :
    spelledOut callable place (⟨.opening, opening, p⟩ :: (ts ++ [⟨.closing, closing, q⟩])) =
      ⟨.opening, opening, p⟩ :: (spelledOut callable place ts ++ [⟨.closing, closing, q⟩]) := by
  rw [spelledOut_cons_of_not_ends rfl, spelledOut_append_of_not_starts rfl, spelledOut_singleton]

theorem spelledOut_head {name opening : String} {p q : Nat} (head : callable name = true)
    (us : List Token) :
    spelledOut callable place (⟨.name, name, p⟩ :: ⟨.opening, opening, q⟩ :: us) =
      ⟨.name, name, p⟩ :: spelledOut callable place (⟨.opening, opening, q⟩ :: us) := by
  simp [spelledOut, between, meets, endsInHead, startsWithOpening, head]

/-- A `*` comes in between an operand and the operand that stands beside it. -/
theorem spelledOut_juxtaposed (place : Token → Token → Nat) {ts us : List Token}
    (hends : endsOperand ts = true) (h : Juxtaposed callable ts us) : ∃ p,
    spelledOut callable place (ts ++ us) = spelledOut callable place ts ++
      ⟨.operator, Operator.multiply.symbol, p⟩ :: spelledOut callable place us := by
  obtain ⟨u, us, rfl⟩ := List.exists_cons_of_ne_nil
    (ne_nil_of_startsTerm (startsTerm_of_startsOperand h.operand))
  rcases List.eq_nil_or_concat ts with rfl | ⟨ts, t, rfl⟩
  · cases hends
  · rw [List.concat_eq_append] at *
    have hmeets : meets callable t u = true := by
      have hleft : endsOperand [t] = true := by simpa [endsOperand] using hends
      have hright : startsOperand [u] = true := h.operand
      have hseam : (endsInHead callable [t] && startsWithOpening [u]) = false := by
        rw [Bool.eq_false_iff, ne_eq, Bool.and_eq_true, ← endsInHead_append_cons callable ts [] t]
        exact h.seam
      rw [meets, hleft, hright, hseam]
      rfl
    refine ⟨place t u, ?_⟩
    rw [List.append_assoc, List.singleton_append, spelledOut_append_cons, between, if_pos hmeets]
    rfl

/-! ## Levels end with an operand -/

theorem endsOperand_append (ts : List Token) {us : List Token} (h : endsOperand us = true) :
    endsOperand (ts ++ us) = true := by
  rcases List.eq_nil_or_concat us with rfl | ⟨us, u, rfl⟩
  · cases h
  · rw [List.concat_eq_append] at *
    rw [← List.append_assoc]
    simpa [endsOperand] using h

theorem IsAtom.ends {ts : List Token} {e : Expr} (h : IsAtom callable ts e) :
    endsOperand ts = true := by
  cases h <;> simp [endsOperand, List.getLast?_cons]

mutual

theorem IsPower.ends {ts : List Token} {e : Expr} :
    IsPower callable ts e → endsOperand ts = true
  | .atom h => h.ends
  | .power _ exponent => endsOperand_append _ (endsOperand_append [_] exponent.ends)

theorem IsSigned.ends {ts : List Token} {e : Expr} :
    IsSigned callable ts e → endsOperand ts = true
  | .sign _ operand => endsOperand_append [_] operand.ends
  | .power h => h.ends

end

theorem IsProduct.ends {ts : List Token} {e : Expr} (h : IsProduct callable ts e) :
    endsOperand ts = true := by
  cases h with
  | signed h => exact h.ends
  | join _ _ right => exact endsOperand_append _ (endsOperand_append [_] right.ends)
  | juxtapose _ right _ => exact endsOperand_append _ right.ends

end Tokens

/-! ## Derivations spelled out -/

section Derivations
variable {callable : String → Bool} (place : Token → Token → Nat)

mutual

/-- What is derivable is derivable with the same tree when every `*` is written, in at most twice the
room: a unit goes to an operand that was put beside another one, which had at least one of its own. -/
theorem SumTakes.spelledOut {n : Nat} {ts : List Token} {e : Expr} : SumTakes callable n ts e →
    ∃ m ≤ 2 * n, SumTakes callable m (spelledOut callable place ts) e
  | .product h => by
      obtain ⟨m, hm, h⟩ := h.spelledOut
      exact ⟨m + 1, by omega, .product h⟩
  | .join left known right => by
      obtain ⟨m, hm, left⟩ := left.spelledOut
      obtain ⟨m', hm', right⟩ := right.spelledOut
      rw [spelledOut_around rfl rfl]
      exact ⟨max m (m' + 1), by omega, .join left known right⟩

theorem ProductTakes.spelledOut {n : Nat} {ts : List Token} {e : Expr} : ProductTakes callable n ts e →
    ∃ m ≤ 2 * n, ProductTakes callable m (spelledOut callable place ts) e
  | .signed h => by
      obtain ⟨m, hm, h⟩ := h.spelledOut
      exact ⟨m + 1, by omega, .signed h⟩
  | .join left known right => by
      obtain ⟨m, hm, left⟩ := left.spelledOut
      obtain ⟨m', hm', right⟩ := right.spelledOut
      rw [spelledOut_around rfl rfl]
      exact ⟨max m (m' + 1), by omega, .join left known right⟩
  | .juxtapose left right h => by
      obtain ⟨p, hp⟩ := spelledOut_juxtaposed place left.isProduct.ends h
      obtain ⟨m, hm, left⟩ := left.spelledOut
      obtain ⟨m', hm', right⟩ := right.spelledOut
      rw [hp]
      exact ⟨max m (m' + 1 + 1), by omega, .join left (by decide) (.power right)⟩

theorem SignedTakes.spelledOut {n : Nat} {ts : List Token} {e : Expr} : SignedTakes callable n ts e →
    ∃ m ≤ 2 * n, SignedTakes callable m (spelledOut callable place ts) e
  | .sign known operand => by
      obtain ⟨m, hm, operand⟩ := operand.spelledOut
      rw [spelledOut_cons_of_not_ends rfl]
      exact ⟨m + 1, by omega, .sign known operand⟩
  | .power h => by
      obtain ⟨m, hm, h⟩ := h.spelledOut
      exact ⟨m + 1, by omega, .power h⟩

theorem PowerTakes.spelledOut {n : Nat} {ts : List Token} {e : Expr} : PowerTakes callable n ts e →
    ∃ m ≤ 2 * n, PowerTakes callable m (spelledOut callable place ts) e
  | .atom h => by
      obtain ⟨m, hm, h⟩ := h.spelledOut
      exact ⟨m + 1, by omega, .atom h⟩
  | .power base exponent => by
      obtain ⟨m, hm, base⟩ := base.spelledOut
      obtain ⟨m', hm', exponent⟩ := exponent.spelledOut
      rw [spelledOut_around rfl rfl]
      exact ⟨max m m' + 1, by omega, .power base exponent⟩

theorem AtomTakes.spelledOut {n : Nat} {ts : List Token} {e : Expr} : AtomTakes callable n ts e →
    ∃ m ≤ 2 * n, AtomTakes callable m (spelledOut callable place ts) e
  | .number => ⟨1, by omega, .number⟩
  | .var => ⟨1, by omega, .var⟩
  | .group inside => by
      obtain ⟨m, hm, inside⟩ := inside.spelledOut
      rw [spelledOut_bracketed]
      exact ⟨m + 1, by omega, .group inside⟩
  | .callEmpty head => by
      rw [spelledOut_head head]
      exact ⟨2, by omega, .callEmpty head⟩
  | .call head inside => by
      obtain ⟨m, hm, inside⟩ := inside.spelledOut
      rw [spelledOut_head head, spelledOut_bracketed]
      exact ⟨m + 2, by omega, .call head inside⟩

theorem ArgumentsTake.spelledOut {n : Nat} {ts : List Token} {es : List Expr} :
    ArgumentsTake callable n ts es →
      ∃ m ≤ 2 * n, ArgumentsTake callable m (spelledOut callable place ts) es
  | .last h => by
      obtain ⟨m, hm, h⟩ := h.spelledOut
      exact ⟨m, hm, .last h⟩
  | .more first others => by
      obtain ⟨m, hm, first⟩ := first.spelledOut
      obtain ⟨m', hm', others⟩ := others.spelledOut
      rw [spelledOut_around rfl rfl]
      exact ⟨max m m', by omega, .more first others⟩

end
end Derivations

/-! ## The parser on tokens spelled out -/

/-- Juxtaposition means `*`: if the parser reads tokens, it reads the tokens with every `*` written as the
same tree, unless they are nested too deeply for its room; in twice the room they never are. Where the
signs and the end of the text are said to stand plays no part. -/
theorem juxtaposition_means_product (callable : String → Bool) (place : Token → Token → Nat)
    (stream : Token.Stream) (finish room : Nat) (e : Expr)
    (h : Expr.parseWithin room callable stream = .ok e) :
    (∀ room', Within
      (Expr.parseWithin room' callable ⟨spelledOut callable place stream.tokens, finish⟩) (.ok e)) ∧
    ∀ room', 2 * room ≤ room' →
      Expr.parseWithin room' callable ⟨spelledOut callable place stream.tokens, finish⟩ = .ok e := by
  obtain ⟨need, hneed, htakes⟩ := parseWithin_eq_ok_iff_takes.mp h
  obtain ⟨need', hneed', hspelled⟩ := htakes.spelledOut place
  refine ⟨fun room' => parseWithin_of_isSum hspelled.isSum room', fun room' hroom => ?_⟩
  exact parseWithin_eq_ok_iff_takes.mpr ⟨need', by omega, hspelled⟩

/-- In the tokens of `2sin(x)y^3(z)` two signs are missing before names and one before a bracket. -/
theorem sine_product_spelled_out :
    let stream : Token.Stream := ⟨[⟨.number 2.0, "2", 0⟩, ⟨.name, "sin", 1⟩, ⟨.opening, "(", 4⟩,
      ⟨.name, "x", 5⟩, ⟨.closing, ")", 6⟩, ⟨.name, "y", 7⟩, ⟨.operator, "^", 8⟩,
      ⟨.number 3.0, "3", 9⟩, ⟨.opening, "(", 10⟩, ⟨.name, "z", 11⟩, ⟨.closing, ")", 12⟩], 13⟩
    let e : Expr := .binary .multiply (.binary .multiply (.binary .multiply (.number 2.0)
      (.call "sin" [.var "x"])) (.binary .power (.var "y") (.number 3.0))) (.var "z")
    Expr.parseWithin 20 isReserved stream = .ok e ∧
      Expr.parseWithin 40 isReserved
        ⟨spelledOut isReserved (fun _ u => u.position) stream.tokens, 13⟩ = .ok e :=
  ⟨rfl, (juxtaposition_means_product isReserved (fun _ u => u.position) _ 13 20 _ rfl).2 40
    (Nat.le_refl 40)⟩

/-! ## Nested products -/

/-- The tokens of `x(x(… x …))` with `n` brackets, the first at the position `p`. -/
def nestedProducts : Nat → Nat → List Token
  | 0, p => [⟨.name, "x", p⟩]
  | n + 1, p => ⟨.name, "x", p⟩ :: ⟨.opening, "(", p + 1⟩ ::
      (nestedProducts n (p + 2) ++ [⟨.closing, ")", p + 3 * (n + 1)⟩])

def nestedProduct : Nat → Expr
  | 0 => .var "x"
  | n + 1 => .binary .multiply (.var "x") (nestedProduct n)

section Nested
variable {callable : String → Bool} (place : Token → Token → Nat)

theorem variable_takes (callable : String → Bool) (p : Nat) :
    ProductTakes callable 4 [⟨.name, "x", p⟩] (.var "x") :=
  .signed (.power (.atom .var))

/-- A nested product takes four units of room for each bracket. -/
theorem nestedProducts_take (hx : callable "x" = false) (n p : Nat) :
    SumTakes callable (4 * n + 5) (nestedProducts n p) (nestedProduct n) := by
  induction n generalizing p with
  | zero => exact .product (variable_takes callable p)
  | succ n ih =>
    have hseam : Juxtaposed callable [⟨.name, "x", p⟩]
        (⟨.opening, "(", p + 1⟩ ::
          (nestedProducts n (p + 2) ++ [⟨.closing, ")", p + 3 * (n + 1)⟩])) :=
      ⟨rfl, by simp [endsInNumber], by simp [MayFollow, endsInHead, hx]⟩
    have hroom : 4 * (n + 1) + 5 = max 4 (4 * n + 5 + 1 + 1 + 1) + 1 := by omega
    rw [hroom]
    exact .product (.juxtapose (variable_takes callable p) (.atom (.group (ih (p + 2)))) hseam)

theorem nestedProducts_spelledOut_take (hx : callable "x" = false) (n p : Nat) :
    SumTakes callable (5 * n + 5) (spelledOut callable place (nestedProducts n p))
      (nestedProduct n) := by
  induction n generalizing p with
  | zero => exact .product (variable_takes callable p)
  | succ n ih =>
    have hspelled : spelledOut callable place (nestedProducts (n + 1) p) =
        [⟨.name, "x", p⟩] ++
          ⟨.operator, Operator.multiply.symbol, place ⟨.name, "x", p⟩ ⟨.opening, "(", p + 1⟩⟩ ::
          ⟨.opening, "(", p + 1⟩ :: (spelledOut callable place (nestedProducts n (p + 2)) ++
            [⟨.closing, ")", p + 3 * (n + 1)⟩]) := by
      rw [← spelledOut_bracketed, nestedProducts, spelledOut, between,
        if_pos (by simp [meets, endsOperand, startsOperand, endsInHead, hx])]
      rfl
    have hroom : 5 * (n + 1) + 5 = max 4 (5 * n + 5 + 1 + 1 + 1 + 1) + 1 := by omega
    rw [hspelled, hroom]
    exact .product (.join (variable_takes callable p) (by decide)
      (.power (.atom (.group (ih (p + 2))))))

end Nested

/-- With 220 brackets the nested product is read in the parser's room, and is nested too deeply with every
`*` written. -/
theorem nested_product_too_deep_spelled_out :
    Expr.parse isReserved ⟨nestedProducts 220 0, 661⟩ = .ok (nestedProduct 220) ∧
      TooDeep (Expr.parse isReserved
        ⟨spelledOut isReserved (fun _ u => u.position) (nestedProducts 220 0), 661⟩) := by
  have hx : isReserved "x" = false := by decide
  constructor
  · exact parseWithin_eq_ok_iff_takes.mpr
      ⟨_, by decide, nestedProducts_take hx 220 0⟩
  · have hreads : InRoom (5 * 220 + 5) Parse.room (Expr.parse isReserved ⟨_, 661⟩) _ :=
      parseWithin_of_takes (nestedProducts_spelledOut_take (fun _ u => u.position) hx 220 0) Parse.room
    rwa [InRoom, if_neg (by decide)] at hreads

end GraphCalc.Grammar
