import GraphCalc.Proofs.Grammar.Basic

/-! # Room that a derivation takes

Each routine of the parser is given room for nested routines and uses up one unit of it. How much a text
takes is a matter of its derivation: a level takes one unit more than the level below it, an operand to
the right of an operator as much as if it stood alone, and an operand that is merely put beside another
one a unit less than behind an operator. Main notions:

* `SumTakes`, `ProductTakes`, `SignedTakes`, `PowerTakes`, `AtomTakes`, `ArgumentsTake`: the levels of the
  grammar with the room that the parser takes for the tokens;
* `SumTakes.isSum`, `IsSum.exists_takes` and their companions: a derivation takes some room;
* `TooDeep`: the room was too small for the nesting;
* `InRoom`: what a routine answers that takes a given room.
-/

namespace GraphCalc.Grammar
open GraphCalc.Parse
set_option autoImplicit false

/-! ## The levels with their room -/

section Levels
variable (callable : String → Bool)

mutual

inductive SumTakes : Nat → List Token → Expr → Prop where
  | product {n ts e} (h : ProductTakes n ts e) : SumTakes (n + 1) ts e
  | join {m n ts us a b operator p} (left : SumTakes m ts a) (known : operator ∈ [.add, .subtract])
      (right : ProductTakes n us b) :
      SumTakes (max m (n + 1)) (ts ++ ⟨.operator, operator.symbol, p⟩ :: us) (.binary operator a b)

inductive ProductTakes : Nat → List Token → Expr → Prop where
  | signed {n ts e} (h : SignedTakes n ts e) : ProductTakes (n + 1) ts e
  | join {m n ts us a b operator p} (left : ProductTakes m ts a)
      (known : operator ∈ [.multiply, .divide, .modulo]) (right : SignedTakes n us b) :
      ProductTakes (max m (n + 1)) (ts ++ ⟨.operator, operator.symbol, p⟩ :: us)
        (.binary operator a b)
  | juxtapose {m n ts us a b} (left : ProductTakes m ts a) (right : PowerTakes n us b)
      (h : Juxtaposed callable ts us) :
      ProductTakes (max m (n + 1)) (ts ++ us) (.binary .multiply a b)

inductive SignedTakes : Nat → List Token → Expr → Prop where
  | sign {n us e sign p} (known : sign ∈ [.plus, .minus]) (operand : SignedTakes n us e) :
      SignedTakes (n + 1) (⟨.operator, sign.symbol, p⟩ :: us) (.signed sign e)
  | power {n ts e} (h : PowerTakes n ts e) : SignedTakes (n + 1) ts e

inductive PowerTakes : Nat → List Token → Expr → Prop where
  | atom {n ts e} (h : AtomTakes n ts e) : PowerTakes (n + 1) ts e
  | power {m n ts us a b p} (base : AtomTakes m ts a) (exponent : SignedTakes n us b) :
      PowerTakes (max m n + 1) (ts ++ ⟨.operator, Operator.power.symbol, p⟩ :: us)
        (.binary .power a b)

inductive AtomTakes : Nat → List Token → Expr → Prop where
  | number {value text p} : AtomTakes 1 [⟨.number value, text, p⟩] (.number value)
  | var {name p} : AtomTakes 1 [⟨.name, name, p⟩] (.var name)
  | group {n ts e opening closing p q} (inside : SumTakes n ts e) :
      AtomTakes (n + 1) (⟨.opening, opening, p⟩ :: (ts ++ [⟨.closing, closing, q⟩])) e
  | callEmpty {name opening closing p q r} (head : callable name = true) :
      AtomTakes 2 [⟨.name, name, p⟩, ⟨.opening, opening, q⟩, ⟨.closing, closing, r⟩] (.call name [])
  | call {n name ts es opening closing p q r} (head : callable name = true)
      (inside : ArgumentsTake n ts es) :
      AtomTakes (n + 2)
        (⟨.name, name, p⟩ :: ⟨.opening, opening, q⟩ :: (ts ++ [⟨.closing, closing, r⟩]))
        (.call name es)

inductive ArgumentsTake : Nat → List Token → List Expr → Prop where
  | last {n ts e} (h : SumTakes n ts e) : ArgumentsTake n ts [e]
  | more {m n ts us e es comma p} (first : SumTakes m ts e) (others : ArgumentsTake n us es) :
      ArgumentsTake (max m n) (ts ++ ⟨.comma, comma, p⟩ :: us) (e :: es)

end

end Levels

section Derivations
variable {callable : String → Bool}

/-! ## Room and derivations -/

mutual

theorem SumTakes.isSum {n : Nat} {ts : List Token} {e : Expr} :
    SumTakes callable n ts e → IsSum callable ts e
  | .product h => .product h.isProduct
  | .join left known right => .join left.isSum known right.isProduct

theorem ProductTakes.isProduct {n : Nat} {ts : List Token} {e : Expr} :
    ProductTakes callable n ts e → IsProduct callable ts e
  | .signed h => .signed h.isSigned
  | .join left known right => .join left.isProduct known right.isSigned
  | .juxtapose left right h => .juxtapose left.isProduct right.isPower h

theorem SignedTakes.isSigned {n : Nat} {ts : List Token} {e : Expr} :
    SignedTakes callable n ts e → IsSigned callable ts e
  | .sign known operand => .sign known operand.isSigned
  | .power h => .power h.isPower

theorem PowerTakes.isPower {n : Nat} {ts : List Token} {e : Expr} :
    PowerTakes callable n ts e → IsPower callable ts e
  | .atom h => .atom h.isAtom
  | .power base exponent => .power base.isAtom exponent.isSigned

theorem AtomTakes.isAtom {n : Nat} {ts : List Token} {e : Expr} :
    AtomTakes callable n ts e → IsAtom callable ts e
  | .number => .number
  | .var => .var
  | .group inside => .group inside.isSum
  | .callEmpty head => .callEmpty head
  | .call head inside => .call head inside.areArguments

theorem ArgumentsTake.areArguments {n : Nat} {ts : List Token} {es : List Expr} :
    ArgumentsTake callable n ts es → AreArguments callable ts es
  | .last h => .last h.isSum
  | .more first others => .more first.isSum others.areArguments

end

mutual

theorem IsSum.exists_takes {ts : List Token} {e : Expr} :
    IsSum callable ts e → ∃ n, SumTakes callable n ts e
  | .product h => have ⟨_, h⟩ := h.exists_takes; ⟨_, .product h⟩
  | .join left known right =>
    have ⟨_, left⟩ := left.exists_takes
    have ⟨_, right⟩ := right.exists_takes
    ⟨_, .join left known right⟩

theorem IsProduct.exists_takes {ts : List Token} {e : Expr} :
    IsProduct callable ts e → ∃ n, ProductTakes callable n ts e
  | .signed h => have ⟨_, h⟩ := h.exists_takes; ⟨_, .signed h⟩
  | .join left known right =>
    have ⟨_, left⟩ := left.exists_takes
    have ⟨_, right⟩ := right.exists_takes
    ⟨_, .join left known right⟩
  | .juxtapose left right h =>
    have ⟨_, left⟩ := left.exists_takes
    have ⟨_, right⟩ := right.exists_takes
    ⟨_, .juxtapose left right h⟩

theorem IsSigned.exists_takes {ts : List Token} {e : Expr} :
    IsSigned callable ts e → ∃ n, SignedTakes callable n ts e
  | .sign known operand => have ⟨_, operand⟩ := operand.exists_takes; ⟨_, .sign known operand⟩
  | .power h => have ⟨_, h⟩ := h.exists_takes; ⟨_, .power h⟩

theorem IsPower.exists_takes {ts : List Token} {e : Expr} :
    IsPower callable ts e → ∃ n, PowerTakes callable n ts e
  | .atom h => have ⟨_, h⟩ := h.exists_takes; ⟨_, .atom h⟩
  | .power base exponent =>
    have ⟨_, base⟩ := base.exists_takes
    have ⟨_, exponent⟩ := exponent.exists_takes
    ⟨_, .power base exponent⟩

theorem IsAtom.exists_takes {ts : List Token} {e : Expr} :
    IsAtom callable ts e → ∃ n, AtomTakes callable n ts e
  | .number => ⟨_, .number⟩
  | .var => ⟨_, .var⟩
  | .group inside => have ⟨_, inside⟩ := inside.exists_takes; ⟨_, .group inside⟩
  | .callEmpty head => ⟨_, .callEmpty head⟩
  | .call head inside => have ⟨_, inside⟩ := inside.exists_takes; ⟨_, .call head inside⟩

theorem AreArguments.exists_takes {ts : List Token} {es : List Expr} :
    AreArguments callable ts es → ∃ n, ArgumentsTake callable n ts es
  | .last h => have ⟨_, h⟩ := h.exists_takes; ⟨_, .last h⟩
  | .more first others =>
    have ⟨_, first⟩ := first.exists_takes
    have ⟨_, others⟩ := others.exists_takes
    ⟨_, .more first others⟩

end

/-- A sum takes room for itself. -/
theorem SumTakes.pos {n : Nat} {ts : List Token} {e : Expr} : SumTakes callable n ts e → 0 < n
  | .product _ => Nat.succ_pos _
  | .join _ _ _ => Nat.lt_of_lt_of_le (Nat.succ_pos _) (Nat.le_max_right _ _)

theorem ProductTakes.pos {n : Nat} {ts : List Token} {e : Expr} : ProductTakes callable n ts e → 0 < n
  | .signed _ => Nat.succ_pos _
  | .join _ _ _ => Nat.lt_of_lt_of_le (Nat.succ_pos _) (Nat.le_max_right _ _)
  | .juxtapose _ _ _ => Nat.lt_of_lt_of_le (Nat.succ_pos _) (Nat.le_max_right _ _)

end Derivations

/-! ## Answers in a room -/

/-- The room was too small for the nesting. -/
def TooDeep {α : Type} (r : Except ParseError α) : Prop := ∃ p, r = .error (.tooDeep p)

/-- The answer `r` is `s` if there is the room `n`, and finds the nesting too deep in less. -/
def InRoom {α : Type} (n room : Nat) (r s : Except ParseError α) : Prop :=
  if n ≤ room then r = s else TooDeep r

section Answers
variable {α β : Type} {m n room : Nat} {a : α} {r s t : Except ParseError α}
  {f : α → Except ParseError β}

theorem tooDeep_error_iff {e : ParseError} :
    TooDeep (.error e : Except ParseError α) ↔ e.isNesting = true := by
  constructor
  · rintro ⟨p, hp⟩
    rw [Except.error.inj hp]
    rfl
  · intro h
    cases e with
    | tooDeep p => exact ⟨p, rfl⟩
    | _ => cases h

theorem not_tooDeep_ok : ¬ TooDeep (.ok a : Except ParseError α) := nofun

theorem TooDeep.bind (h : TooDeep r) (f : α → Except ParseError β) : TooDeep (r >>= f) := by
  obtain ⟨p, rfl⟩ := h
  exact ⟨p, rfl⟩

theorem InRoom.ok_iff (h : InRoom n room r (.ok a)) {a' : α} : r = .ok a' ↔ n ≤ room ∧ a = a' := by
  unfold InRoom at h
  split at h
  · next hn => rw [h, Except.ok.injEq, and_iff_right hn]
  · next hn =>
    refine iff_of_false ?_ fun h' => hn h'.1
    rintro rfl
    exact not_tooDeep_ok h

theorem InRoom.zero (hn : 0 < n) (h : TooDeep r) : InRoom n 0 r s := by
  rwa [InRoom, if_neg (Nat.not_le_of_gt hn)]

theorem InRoom.succ (h : InRoom n room r s) : InRoom (n + 1) (room + 1) r s := by
  simpa only [InRoom, Nat.add_le_add_iff_right] using h

/-- What comes after an answer takes its own room. -/
theorem InRoom.trans (h : InRoom m room r s) (h' : InRoom n room s t) :
    InRoom (max m n) room r t := by
  unfold InRoom at *
  by_cases hm : m ≤ room
  · rw [if_pos hm] at h
    subst h
    simpa only [Nat.max_le, hm, true_and] using h'
  · rw [if_neg hm] at h
    rwa [if_neg fun hmax => hm (Nat.max_le.mp hmax).1]

/-- What comes after an answer and takes no room. -/
theorem InRoom.bind {s : Except ParseError β} (h : InRoom n room r (.ok a)) (hf : f a = s) :
    InRoom n room (r >>= f) s := by
  unfold InRoom at *
  split at h
  · next hn =>
    rw [if_pos hn, h]
    exact hf
  · next hn =>
    rw [if_neg hn]
    exact h.bind f

end Answers
end GraphCalc.Grammar
