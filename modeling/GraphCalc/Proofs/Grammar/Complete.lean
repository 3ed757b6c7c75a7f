import GraphCalc.Proofs.Grammar.Room
import GraphCalc.Proofs.Grammar.Sound

/-! # What is derivable is read

The parser never looks back: at each place it goes on as long as it can. Here that is shown to cost
nothing: what the grammar derives is read whole, with the tree of the derivation, whatever follows,
as long as the token behind cannot go on with the same level. It is read in any room that is not less
than what the derivation takes, and in no other. Main notions:

* `behind ts rest`: the cursor behind the tokens `ts`, with `rest` ahead;
* `SumTakes.loops`, `AtomTakes.reads` and their companions: reading along a derivation. A level that is
  folded to the left ends in the loop of the parser at the cursor behind, so that a longer
  derivation goes on there;
* `parseWithin_of_takes`: the answer of the parser in any room;
* `Within r a`: the routine's answer `r` is `a`, unless the room was too small;
* `parse_accepts_exactly_the_grammar`: the parser accepts exactly the grammar.
-/

namespace GraphCalc.Grammar
open GraphCalc.Parse
set_option autoImplicit false

/-! ## The cursor behind -/

/-- The cursor behind the tokens `ts`, with `rest` ahead. -/
def behind (ts rest : List Token) : Cursor := ⟨endsInNumber ts, rest⟩

theorem behind_append {ts us rest : List Token} (h : us ≠ []) :
    behind (ts ++ us) rest = behind us rest := by
  rw [behind, endsInNumber_append h, behind]

theorem behind_closed (t : Token) (ts rest : List Token) (text : String) (p : Nat) :
    behind (t :: (ts ++ [⟨.closing, text, p⟩])) rest = ⟨false, rest⟩ := by
  simp [behind, endsInNumber, List.getLast?_cons]

/-- The token ahead does not go on with a power. -/
def EndsPower (callable : String → Bool) (ts rest : List Token) : Prop :=
  MayFollow callable ts rest ∧ (behind ts rest).operator? [.power] = none

/-- The token ahead does not go on with a product. -/
def EndsProduct (callable : String → Bool) (ts rest : List Token) : Prop :=
  EndsPower callable ts rest ∧
    (behind ts rest).operator? [.multiply, .divide, .modulo] = none ∧
    (behind ts rest).juxtaposed = false

/-- The token ahead does not go on with a sum. -/
def EndsSum (callable : String → Bool) (ts rest : List Token) : Prop :=
  EndsProduct callable ts rest ∧ (behind ts rest).operator? [.add, .subtract] = none

section Ends
variable {callable : String → Bool} {ts us rest : List Token}

theorem endsPower_append (h : us ≠ []) :
    EndsPower callable (ts ++ us) rest ↔ EndsPower callable us rest := by
  rw [EndsPower, EndsPower, behind_append h, MayFollow, MayFollow, endsInHead_append h]

theorem endsProduct_append (h : us ≠ []) :
    EndsProduct callable (ts ++ us) rest ↔ EndsProduct callable us rest := by
  rw [EndsProduct, EndsProduct, endsPower_append h, behind_append h]

theorem endsSum_nil : EndsSum callable ts [] := by
  simp [EndsSum, EndsProduct, EndsPower, MayFollow, behind, Cursor.operator?, Cursor.juxtaposed,
    startsWithOpening]

theorem endsSum_closing {text : String} {p : Nat} :
    EndsSum callable ts (⟨.closing, text, p⟩ :: rest) := by
  simp [EndsSum, EndsProduct, EndsPower, MayFollow, behind, Cursor.operator?, Cursor.juxtaposed,
    startsWithOpening]

theorem endsSum_comma {text : String} {p : Nat} :
    EndsSum callable ts (⟨.comma, text, p⟩ :: rest) := by
  simp [EndsSum, EndsProduct, EndsPower, MayFollow, behind, Cursor.operator?, Cursor.juxtaposed,
    startsWithOpening]

/-! ## Operators ahead -/

theorem symbol_injective :
    ∀ a ∈ Operator.known, ∀ b ∈ Operator.known, a.symbol = b.symbol → a = b := by
  decide

theorem operator?_of_mem {among : List Operator} {operator : Operator} (h : operator ∈ among)
    (hknown : among ⊆ Operator.known) (afterNumber : Bool) (p : Nat) :
    Cursor.operator? among ⟨afterNumber, ⟨.operator, operator.symbol, p⟩ :: rest⟩ =
      some (operator, ⟨false, rest⟩) := by
  have hfind : among.find? (·.symbol == operator.symbol) = some operator := by
    cases hfound : among.find? (·.symbol == operator.symbol) with
    | none => simpa using List.find?_eq_none.mp hfound operator h
    | some found =>
      have hsymbol := List.find?_some hfound
      simp only [beq_iff_eq] at hsymbol
      rw [symbol_injective found (hknown (List.mem_of_find?_eq_some hfound)) operator (hknown h) hsymbol]
  simp [Cursor.operator?, hfind]

theorem operator?_of_not_mem {among : List Operator} {operator : Operator} (h : operator ∉ among)
    (hknown : operator :: among ⊆ Operator.known) (afterNumber : Bool) (p : Nat) :
    Cursor.operator? among ⟨afterNumber, ⟨.operator, operator.symbol, p⟩ :: rest⟩ = none := by
  have hfind : among.find? (·.symbol == operator.symbol) = none := by
    rw [List.find?_eq_none]
    intro found hfound hsymbol
    simp only [beq_iff_eq] at hsymbol
    have heq := symbol_injective found (hknown (List.mem_cons_of_mem _ hfound)) operator
      (hknown List.mem_cons_self) hsymbol
    exact h (heq ▸ hfound)
  simp [Cursor.operator?, hfind]

theorem sign?_of_mem {sign : Sign} (h : sign ∈ [Sign.plus, Sign.minus]) (afterNumber : Bool) (p : Nat) :
    Cursor.sign? ⟨afterNumber, ⟨.operator, sign.symbol, p⟩ :: rest⟩ = some (sign, ⟨false, rest⟩) := by
  simp only [List.mem_cons, List.not_mem_nil, or_false] at h
  rcases h with rfl | rfl <;> rfl

theorem sign?_of_startsOperand {afterNumber : Bool} (h : startsOperand ts = true) :
    Cursor.sign? ⟨afterNumber, ts ++ rest⟩ = none := by
  obtain ⟨⟨kind, text, p⟩, ts, rfl⟩ := List.exists_cons_of_ne_nil
    (ne_nil_of_startsTerm (startsTerm_of_startsOperand h))
  cases kind <;> simp_all [startsOperand, Cursor.sign?]

theorem mayFollow_operator (callable : String → Bool) (ts rest : List Token) (text : String) (p : Nat) :
    MayFollow callable ts (⟨.operator, text, p⟩ :: rest) := by
  simp [MayFollow, startsWithOpening]

theorem endsProduct_operator {operator : Operator} {p : Nat} (h : operator ∈ [.add, .subtract]) :
    EndsProduct callable ts (⟨.operator, operator.symbol, p⟩ :: rest) := by
  simp only [List.mem_cons, List.not_mem_nil, or_false] at h
  refine ⟨⟨?_, ?_⟩, ?_, ?_⟩
  · simp [MayFollow, startsWithOpening]
  · exact operator?_of_not_mem (by rcases h with rfl | rfl <;> decide)
      (by rcases h with rfl | rfl <;> decide) _ _
  · exact operator?_of_not_mem (by rcases h with rfl | rfl <;> decide)
      (by rcases h with rfl | rfl <;> decide) _ _
  · rfl

theorem endsPower_operator {operator : Operator} {p : Nat}
    (h : operator ∈ [.multiply, .divide, .modulo]) :
    EndsPower callable ts (⟨.operator, operator.symbol, p⟩ :: rest) := by
  simp only [List.mem_cons, List.not_mem_nil, or_false] at h
  refine ⟨?_, ?_⟩
  · simp [MayFollow, startsWithOpening]
  · exact operator?_of_not_mem (by rcases h with rfl | rfl | rfl <;> decide)
      (by rcases h with rfl | rfl | rfl <;> decide) _ _

theorem endsPower_juxtaposed (h : Juxtaposed callable ts us) (rest : List Token) :
    EndsPower callable ts (us ++ rest) ∧
      (behind ts (us ++ rest)).operator? [.multiply, .divide, .modulo] = none ∧
      (behind ts (us ++ rest)).juxtaposed = true := by
  obtain ⟨hoperand, hnumbers, hseam⟩ := h
  have hne : us ≠ [] := ne_nil_of_startsTerm (startsTerm_of_startsOperand hoperand)
  obtain ⟨t, us, rfl⟩ := List.exists_cons_of_ne_nil hne
  rw [MayFollow, ← startsWithOpening_append rest hne] at hseam
  refine ⟨⟨hseam, ?_⟩, ?_, ?_⟩
  all_goals
    obtain ⟨kind, text, p⟩ := t
    cases kind <;>
      simp_all [startsOperand, startsWithNumber, behind, Cursor.operator?, Cursor.juxtaposed]

end Ends

/-! ## The loops -/

section Loops
variable (callable : String → Bool) (finish room : Nat)

/-- How a sum goes on. -/
def sumStep (c : Cursor) : Option (Except ParseError (Reading (Operator × Expr))) :=
  (c.operator? [.add, .subtract]).map fun (operator, c) => do
    let (right, c) ← Parse.product callable finish room c
    return ((operator, right), c)

/-- How a product goes on. -/
def productStep (c : Cursor) : Option (Except ParseError (Reading (Operator × Expr))) :=
  match c.operator? [.multiply, .divide, .modulo] with
  | some (operator, c) => some do
    let (right, c) ← Parse.signed callable finish room c
    return ((operator, right), c)
  | none =>
    if c.juxtaposed then some do
      let (right, c) ← Parse.power callable finish room c
      return ((.multiply, right), c)
    else none

theorem sum_succ (c : Cursor) : Parse.sum callable finish (room + 1) c =
    Parse.product callable finish room c >>= fun x =>
      extend (sumStep callable finish room) x.2.ahead.length x.1 x.2 := rfl

theorem product_succ (c : Cursor) : Parse.product callable finish (room + 1) c =
    Parse.signed callable finish room c >>= fun x =>
      extend (productStep callable finish room) x.2.ahead.length x.1 x.2 := rfl

variable {callable finish room}
  {more : Cursor → Option (Except ParseError (Reading (Operator × Expr)))}
  {c d : Cursor} {left right : Expr} {operator : Operator}

theorem extend_of_none (h : more c = none) (steps : Nat) (left : Expr) :
    extend more steps left c = .ok (left, c) := by
  cases steps with
  | zero => rfl
  | succ steps => simp [extend, h]

/-- One more turn over the tokens `us`, which leaves steps enough for what is ahead of them. -/
theorem extend_turn {r : Except ParseError (Reading Expr)} {x : Except ParseError (Reading Expr)}
    {ts us rest : List Token} {steps m n : Nat}
    (h : InRoom m (room + 1) r (extend more steps left (behind ts (us ++ rest))))
    (hsteps : (us ++ rest).length ≤ steps) (hne : us ≠ [])
    (hmore : more (behind ts (us ++ rest)) = some (x >>= fun x => pure ((operator, x.1), x.2)))
    (hx : InRoom n room x (.ok (right, behind us rest))) :
    ∃ steps, rest.length ≤ steps ∧ InRoom (max m (n + 1)) (room + 1) r
      (extend more steps (.binary operator left right) (behind (ts ++ us) rest)) := by
  have hpos := List.length_pos_iff.mpr hne
  rw [List.length_append] at hsteps
  obtain ⟨steps, rfl⟩ : ∃ n, steps = n + 1 := ⟨steps - 1, by omega⟩
  refine ⟨steps, by omega, h.trans ?_⟩
  have hread : InRoom n room (x >>= fun x => pure ((operator, x.1), x.2))
      (.ok ((operator, right), behind us rest)) := hx.bind rfl
  rw [extend, hmore, behind_append hne]
  exact hread.succ.bind rfl

/-- The parser arrives at `e` behind the tokens in the loop of a product, with steps enough for
all that is ahead, if it has the room that they take. -/
def ProductLoops (callable : String → Bool) (finish need : Nat) (ts : List Token) (e : Expr) : Prop :=
  ∀ room afterNumber rest, EndsPower callable ts rest →
    ∃ steps, rest.length ≤ steps ∧
      InRoom need (room + 1) (Parse.product callable finish (room + 1) ⟨afterNumber, ts ++ rest⟩)
        (extend (productStep callable finish room) steps e (behind ts rest))

/-- The parser arrives at `e` behind the tokens in the loop of a sum, with steps enough for all that
is ahead, if it has the room that they take. -/
def SumLoops (callable : String → Bool) (finish need : Nat) (ts : List Token) (e : Expr) : Prop :=
  ∀ room afterNumber rest, EndsProduct callable ts rest →
    ∃ steps, rest.length ≤ steps ∧
      InRoom need (room + 1) (Parse.sum callable finish (room + 1) ⟨afterNumber, ts ++ rest⟩)
        (extend (sumStep callable finish room) steps e (behind ts rest))

variable {need : Nat} {ts : List Token} {e : Expr}

theorem ProductLoops.reads (h : ProductLoops callable finish need ts e) (hneed : 0 < need)
    (room : Nat) (afterNumber : Bool) {rest : List Token} (hrest : EndsProduct callable ts rest) :
    InRoom need room (Parse.product callable finish room ⟨afterNumber, ts ++ rest⟩)
      (.ok (e, behind ts rest)) := by
  cases room with
  | zero => exact .zero hneed ⟨_, rfl⟩
  | succ room =>
    obtain ⟨hpower, hoperator, hjuxtaposed⟩ := hrest
    obtain ⟨steps, -, hsteps⟩ := h room afterNumber rest hpower
    have hnone : productStep callable finish room (behind ts rest) = none := by
      simp [productStep, hoperator, hjuxtaposed]
    rwa [extend_of_none hnone] at hsteps

theorem SumLoops.reads (h : SumLoops callable finish need ts e) (hneed : 0 < need)
    (room : Nat) (afterNumber : Bool) {rest : List Token} (hrest : EndsSum callable ts rest) :
    InRoom need room (Parse.sum callable finish room ⟨afterNumber, ts ++ rest⟩)
      (.ok (e, behind ts rest)) := by
  cases room with
  | zero => exact .zero hneed ⟨_, rfl⟩
  | succ room =>
    obtain ⟨hproduct, hoperator⟩ := hrest
    obtain ⟨steps, -, hsteps⟩ := h room afterNumber rest hproduct
    have hnone : sumStep callable finish room (behind ts rest) = none := by
      simp [sumStep, hoperator]
    rwa [extend_of_none hnone] at hsteps

end Loops

/-! ## Reading along a derivation -/

section Reads
variable {callable : String → Bool} {finish : Nat}

theorem bracketed_succ {ts : List Token} (h : startsTerm ts = true) (room : Nat) (afterNumber : Bool) :
    bracketed callable finish (room + 1) ⟨afterNumber, ts⟩ =
      arguments finish (Parse.sum callable finish room) (ts.length + 1) ⟨afterNumber, ts⟩ := by
  obtain ⟨⟨kind, text, p⟩, ts, rfl⟩ := List.exists_cons_of_ne_nil (ne_nil_of_startsTerm h)
  cases kind <;> first | rfl | cases h

theorem arguments_succ {ts : List Token} (h : startsTerm ts = true) (steps : Nat) (afterNumber : Bool)
    (argument : Cursor → Except ParseError (Reading Expr)) :
    arguments finish argument (steps + 1) ⟨afterNumber, ts⟩ =
      argument ⟨afterNumber, ts⟩ >>= fun x =>
        match x.2.ahead with
        | ⟨.comma, _, _⟩ :: rest =>
          arguments finish argument steps ⟨false, rest⟩ >>= fun y => pure (x.1 :: y.1, y.2)
        | _ => x.2.close finish .commaOrClosing >>= fun d => pure ([x.1], d) := by
  obtain ⟨⟨kind, text, p⟩, ts, rfl⟩ := List.exists_cons_of_ne_nil (ne_nil_of_startsTerm h)
  cases kind <;> first | rfl | cases h

mutual

theorem SumTakes.loops {n : Nat} {ts : List Token} {e : Expr} :
    SumTakes callable n ts e → SumLoops callable finish n ts e
  | .product h => by
      intro room afterNumber rest hrest
      refine ⟨rest.length, Nat.le_refl _, ?_⟩
      rw [sum_succ]
      exact ((h.loops.reads h.pos room afterNumber hrest).bind rfl).succ
  | @SumTakes.join _ _ n ts us _ b operator p left known right => by
      intro room afterNumber rest hrest
      have hne := right.isProduct.ne_nil
      rw [List.append_cons, endsProduct_append hne] at hrest
      obtain ⟨steps, hlength, hleft⟩ := left.loops room afterNumber
        (⟨.operator, operator.symbol, p⟩ :: us ++ rest) (endsProduct_operator known)
      have hmore : sumStep callable finish room
          (behind ts (⟨.operator, operator.symbol, p⟩ :: us ++ rest)) =
            some (Parse.product callable finish room ⟨false, us ++ rest⟩ >>= fun x =>
              pure ((operator, x.1), x.2)) := by
        rw [sumStep, behind, List.cons_append,
          operator?_of_mem known (by decide) _ p]
        rfl
      have hright := right.loops.reads right.pos room false hrest
      rw [← behind_append hne, List.singleton_append] at hright
      rw [List.append_assoc]
      exact extend_turn hleft hlength (List.cons_ne_nil _ _) hmore hright

theorem ProductTakes.loops {n : Nat} {ts : List Token} {e : Expr} :
    ProductTakes callable n ts e → ProductLoops callable finish n ts e
  | .signed h => by
      intro room afterNumber rest hrest
      refine ⟨rest.length, Nat.le_refl _, ?_⟩
      rw [product_succ]
      exact ((h.reads room afterNumber hrest).bind rfl).succ
  | @ProductTakes.join _ _ n ts us _ b operator p left known right => by
      intro room afterNumber rest hrest
      have hne := right.isSigned.ne_nil
      rw [List.append_cons, endsPower_append hne] at hrest
      obtain ⟨steps, hlength, hleft⟩ := left.loops room afterNumber
        (⟨.operator, operator.symbol, p⟩ :: us ++ rest) (endsPower_operator known)
      have hmore : productStep callable finish room
          (behind ts (⟨.operator, operator.symbol, p⟩ :: us ++ rest)) =
            some (Parse.signed callable finish room ⟨false, us ++ rest⟩ >>= fun x =>
              pure ((operator, x.1), x.2)) := by
        rw [productStep, behind, List.cons_append, operator?_of_mem known (by decide) _ p]
      have hright := right.reads room false hrest
      rw [← behind_append hne, List.singleton_append] at hright
      rw [List.append_assoc]
      exact extend_turn hleft hlength (List.cons_ne_nil _ _) hmore hright
  | @ProductTakes.juxtapose _ _ n ts us _ _ left right h => by
      intro room afterNumber rest hrest
      have hne := ne_nil_of_startsTerm (startsTerm_of_startsOperand h.operand)
      rw [endsPower_append hne] at hrest
      obtain ⟨hpower, hoperator, hjuxtaposed⟩ := endsPower_juxtaposed h rest
      obtain ⟨steps, hlength, hleft⟩ := left.loops room afterNumber (us ++ rest) hpower
      have hmore : productStep callable finish room (behind ts (us ++ rest)) =
            some (Parse.power callable finish room (behind ts (us ++ rest)) >>= fun x =>
              pure ((.multiply, x.1), x.2)) := by
        rw [productStep, hoperator, if_pos hjuxtaposed]
      rw [List.append_assoc]
      exact extend_turn hleft hlength hne hmore (right.reads room (endsInNumber ts) hrest)

theorem SignedTakes.reads {n : Nat} {ts : List Token} {e : Expr} : SignedTakes callable n ts e →
    ∀ room afterNumber {rest}, EndsPower callable ts rest →
      InRoom n room (Parse.signed callable finish room ⟨afterNumber, ts ++ rest⟩)
        (.ok (e, behind ts rest))
  | .sign _ _, 0, _, _, _ => .zero (Nat.succ_pos _) ⟨_, rfl⟩
  | .power _, 0, _, _, _ => .zero (Nat.succ_pos _) ⟨_, rfl⟩
  | @SignedTakes.sign _ n us _ sign p known operand, room + 1, afterNumber, rest, hrest => by
      have hne := operand.isSigned.ne_nil
      rw [← List.singleton_append, endsPower_append hne] at hrest
      rw [← List.singleton_append, behind_append hne, Parse.signed, List.append_assoc,
        List.singleton_append, sign?_of_mem known]
      exact ((operand.reads room false hrest).bind rfl).succ
  | .power h, room + 1, afterNumber, rest, hrest => by
      have hnone : Cursor.sign? ⟨afterNumber, ts ++ rest⟩ = none :=
        sign?_of_startsOperand h.isPower.starts
      rw [Parse.signed, hnone]
      exact (h.reads room afterNumber hrest).succ

theorem PowerTakes.reads {n : Nat} {ts : List Token} {e : Expr} : PowerTakes callable n ts e →
    ∀ room afterNumber {rest}, EndsPower callable ts rest →
      InRoom n room (Parse.power callable finish room ⟨afterNumber, ts ++ rest⟩)
        (.ok (e, behind ts rest))
  | .atom _, 0, _, _, _ => .zero (Nat.succ_pos _) ⟨_, rfl⟩
  | .power _ _, 0, _, _, _ => .zero (Nat.succ_pos _) ⟨_, rfl⟩
  | .atom h, room + 1, afterNumber, rest, hrest => by
      rw [Parse.power]
      refine ((h.reads room afterNumber hrest.1).bind ?_).succ
      simp only [hrest.2]
      rfl
  | @PowerTakes.power _ m n ts us _ _ p base exponent, room + 1, afterNumber, rest, hrest => by
      have hne := exponent.isSigned.ne_nil
      rw [List.append_cons, endsPower_append hne] at hrest
      rw [Parse.power, List.append_cons, behind_append hne, ← List.append_cons, List.append_assoc]
      refine (((base.reads room afterNumber (mayFollow_operator _ _ _ _ _)).bind rfl).trans ?_).succ
      simp only [behind]
      rw [operator?_of_mem (show Operator.power ∈ [.power] by decide) (by decide) _ p]
      exact (exponent.reads room false hrest).bind rfl

theorem AtomTakes.reads {n : Nat} {ts : List Token} {e : Expr} : AtomTakes callable n ts e →
    ∀ room afterNumber {rest}, MayFollow callable ts rest →
      InRoom n room (Parse.atom callable finish room ⟨afterNumber, ts ++ rest⟩)
        (.ok (e, behind ts rest))
  | .number, 0, _, _, _ => .zero (Nat.succ_pos _) ⟨_, rfl⟩
  | .var, 0, _, _, _ => .zero (Nat.succ_pos _) ⟨_, rfl⟩
  | .group _, 0, _, _, _ => .zero (Nat.succ_pos _) ⟨_, rfl⟩
  | .callEmpty _, 0, _, _, _ => .zero (Nat.succ_pos _) ⟨_, rfl⟩
  | .call _ _, 0, _, _, _ => .zero (Nat.succ_pos _) ⟨_, rfl⟩
  | .number, room + 1, afterNumber, rest, hrest => by
      exact .succ (by rw [Parse.atom]; rfl)
  | @AtomTakes.var _ name p, room + 1, afterNumber, rest, hrest => by
      refine .succ ?_
      rw [Parse.atom, List.singleton_append]
      dsimp only
      split
      · next text q inside =>
        have hname : ¬ callable name = true := fun h => hrest ⟨h, rfl⟩
        rw [if_neg hname]
        rfl
      · rfl
  | @AtomTakes.group _ n ts _ _ closing _ q inside, room + 1, afterNumber, rest, _ => by
      have hinside : InRoom n room
          (Parse.sum callable finish room ⟨false, ts ++ ⟨.closing, closing, q⟩ :: rest⟩)
          (.ok (e, behind ts _)) :=
        inside.loops.reads inside.pos room false endsSum_closing
      rw [behind_closed, Parse.atom]
      simp only [List.cons_append, List.append_assoc, List.nil_append]
      exact (hinside.bind rfl).succ
  | .callEmpty head, room + 1, afterNumber, rest, _ => by
      refine .succ ?_
      rw [Parse.atom]
      simp only [List.cons_append, List.nil_append, head, if_true]
      cases room with
      | zero => exact .zero (Nat.succ_pos _) ⟨_, rfl⟩
      | succ room => exact .succ rfl
  | @AtomTakes.call _ n _ ts _ _ closing _ _ r head inside, room + 1, afterNumber, rest, _ => by
      refine .succ ?_
      rw [← List.cons_append, behind_closed, Parse.atom]
      simp only [called_opening, List.cons_append, List.append_assoc, List.nil_append, head, if_true]
      cases room with
      | zero => exact .zero (Nat.succ_pos _) ⟨_, rfl⟩
      | succ room =>
        rw [bracketed_succ (startsTerm_append _ inside.areArguments.starts)]
        exact ((inside.reads room _ false (by simp; omega)).bind rfl).succ

theorem ArgumentsTake.reads {n : Nat} {ts : List Token} {es : List Expr} :
    ArgumentsTake callable n ts es →
    ∀ room steps afterNumber {rest text p}, ts.length ≤ steps →
      InRoom n room (arguments finish (Parse.sum callable finish room) steps
        ⟨afterNumber, ts ++ ⟨.closing, text, p⟩ :: rest⟩) (.ok (es, ⟨false, rest⟩))
  | .last h, room, steps, afterNumber, rest, text, p, hsteps => by
      have hpos := List.length_pos_iff.mpr h.isSum.ne_nil
      obtain ⟨steps, rfl⟩ : ∃ n, steps = n + 1 := ⟨steps - 1, by omega⟩
      rw [arguments_succ (startsTerm_append _ h.isSum.starts)]
      exact (h.loops.reads h.pos room afterNumber endsSum_closing).bind rfl
  | @ArgumentsTake.more _ m n ts us _ _ comma _ first others, room, steps, afterNumber, rest, text, p,
      hsteps => by
      have hpos := List.length_pos_iff.mpr first.isSum.ne_nil
      rw [List.length_append, List.length_cons] at hsteps
      obtain ⟨steps, rfl⟩ : ∃ n, steps = n + 1 := ⟨steps - 1, by omega⟩
      rw [List.append_assoc, List.cons_append, arguments_succ (startsTerm_append _ first.isSum.starts)]
      refine ((first.loops.reads first.pos room afterNumber endsSum_comma).bind rfl).trans ?_
      exact (others.reads room steps false (by omega)).bind rfl

end
end Reads

/-! ## The parser and the grammar -/

section Parser
variable (callable : String → Bool) (stream : Token.Stream)

/-- Room in which no nesting of so many tokens is too deep. -/
def enoughRoom (stream : Token.Stream) : Nat := 5 * stream.tokens.length + 5

variable {callable stream}

theorem isSum_of_parseWithin {room : Nat} {e : Expr}
    (h : Expr.parseWithin room callable stream = .ok e) : IsSum callable stream.tokens e := by
  have houtcome : Outcome callable (IsSum callable) _ ⟨false, stream.tokens⟩
      (Parse.sum callable stream.finish room ⟨false, stream.tokens⟩) := sum_outcome _
  unfold Expr.parseWithin at h
  split at h
  · cases h
  · cases hsum : Parse.sum callable stream.finish room ⟨false, stream.tokens⟩ with
    | error error => simp [hsum, bind, Except.bind] at h
    | ok x =>
      obtain ⟨e', c⟩ := x
      rw [hsum] at houtcome h
      obtain ⟨ts, hts, hahead, -, -⟩ := houtcome
      simp only [bind, Except.bind] at h
      split at h
      · next hc =>
        cases h
        rw [hc, List.append_nil] at hahead
        obtain rfl : stream.tokens = ts := hahead
        exact hts
      · cases h

theorem not_tooDeep_of_enoughRoom {room : Nat} (h : enoughRoom stream ≤ room) :
    ¬ TooDeep (Expr.parseWithin room callable stream) := by
  have houtcome : Outcome callable (IsSum callable) _ ⟨false, stream.tokens⟩
      (Parse.sum callable stream.finish room ⟨false, stream.tokens⟩) := sum_outcome _
  unfold Expr.parseWithin
  split
  · simp [tooDeep_error_iff, ParseError.isNesting]
  · cases hsum : Parse.sum callable stream.finish room ⟨false, stream.tokens⟩ with
    | error error =>
      rw [hsum] at houtcome
      intro herror
      have hshort := houtcome (tooDeep_error_iff.mp herror)
      unfold Short enoughRoom at *
      dsimp only at hshort
      omega
    | ok x =>
      simp only [bind, Except.bind]
      split
      · exact not_tooDeep_ok
      · simp [tooDeep_error_iff, ParseError.isNesting]

/-- The parser reads tokens that have a derivation in the room that it takes, and in no less. -/
theorem parseWithin_of_takes {need : Nat} {e : Expr} (h : SumTakes callable need stream.tokens e)
    (room : Nat) : InRoom need room (Expr.parseWithin room callable stream) (.ok e) := by
  have hne : stream.tokens.isEmpty = false := by
    simpa using h.isSum.ne_nil
  have hreads : InRoom need room
      (Parse.sum callable stream.finish room ⟨false, stream.tokens ++ []⟩)
      (.ok (e, behind stream.tokens [])) :=
    h.loops.reads h.pos room false endsSum_nil
  rw [List.append_nil] at hreads
  unfold Expr.parseWithin
  rw [if_neg (by simp [hne])]
  exact hreads.bind rfl

theorem parseWithin_eq_ok_iff_takes {room : Nat} {e : Expr} :
    Expr.parseWithin room callable stream = .ok e ↔
      ∃ need, need ≤ room ∧ SumTakes callable need stream.tokens e := by
  constructor
  · intro h
    obtain ⟨need, hneed⟩ := (isSum_of_parseWithin h).exists_takes
    exact ⟨need, ((parseWithin_of_takes hneed room).ok_iff.mp h).1, hneed⟩
  · rintro ⟨need, hle, hneed⟩
    exact (parseWithin_of_takes hneed room).ok_iff.mpr ⟨hle, rfl⟩

/-- The answer is the given one, or the room was too small for any answer. -/
def Within {α : Type} (r : Except ParseError α) (s : Except ParseError α) : Prop :=
  TooDeep r ∨ r = s

theorem parseWithin_of_isSum {e : Expr} (h : IsSum callable stream.tokens e) (room : Nat) :
    Within (Expr.parseWithin room callable stream) (.ok e) := by
  obtain ⟨need, hneed⟩ := h.exists_takes
  have hreads := parseWithin_of_takes hneed room
  unfold InRoom at hreads
  split at hreads
  · exact .inr hreads
  · exact .inl hreads

theorem parseWithin_eq_ok_iff {room : Nat}
    (h : ¬ TooDeep (Expr.parseWithin room callable stream)) (e : Expr) :
    Expr.parseWithin room callable stream = .ok e ↔ IsSum callable stream.tokens e := by
  refine ⟨isSum_of_parseWithin, fun hsum => ?_⟩
  rcases parseWithin_of_isSum hsum room with hdeep | hok
  · exact absurd hdeep h
  · exact hok

theorem IsSum.unique {ts : List Token} {e e' : Expr} (h : IsSum callable ts e)
    (h' : IsSum callable ts e') : e = e' := by
  have hdeep : ¬ TooDeep (Expr.parseWithin (enoughRoom ⟨ts, 0⟩) callable ⟨ts, 0⟩) :=
    not_tooDeep_of_enoughRoom (Nat.le_refl _)
  have hok := (parseWithin_eq_ok_iff hdeep e).mpr h
  have hok' := (parseWithin_eq_ok_iff hdeep e').mpr h'
  exact Except.ok.inj (hok.symm.trans hok')

end Parser

/-- The parser accepts exactly the grammar. With room enough for the nesting it returns a tree if
and only if the tokens derive it, and refuses tokens that derive none for a reason other than
nesting; in any room it does the same or finds the nesting too deep. No tokens have two trees. -/
theorem parse_accepts_exactly_the_grammar (callable : String → Bool) (stream : Token.Stream) :
    (∀ extra,
      (∀ e, Expr.parseWithin (enoughRoom stream + extra) callable stream = .ok e ↔
        IsSum callable stream.tokens e) ∧
      ((∀ e, ¬ IsSum callable stream.tokens e) → ∃ error, error.isNesting = false ∧
        Expr.parseWithin (enoughRoom stream + extra) callable stream = .error error)) ∧
    (∀ room, TooDeep (Expr.parseWithin room callable stream) ∨
      ∀ e, Expr.parseWithin room callable stream = .ok e ↔ IsSum callable stream.tokens e) ∧
    ∀ e e', IsSum callable stream.tokens e → IsSum callable stream.tokens e' → e = e' := by
  refine ⟨fun extra => ?_, fun room => ?_, fun e e' => IsSum.unique⟩
  · have hdeep : ¬ TooDeep (Expr.parseWithin (enoughRoom stream + extra) callable stream) :=
      not_tooDeep_of_enoughRoom (Nat.le_add_right _ extra)
    refine ⟨parseWithin_eq_ok_iff hdeep, fun hnone => ?_⟩
    cases hparse : Expr.parseWithin (enoughRoom stream + extra) callable stream with
    | error error =>
      rw [hparse, tooDeep_error_iff] at hdeep
      exact ⟨error, by simpa using hdeep, rfl⟩
    | ok e => exact absurd (isSum_of_parseWithin hparse) (hnone e)
  · by_cases hdeep : TooDeep (Expr.parseWithin room callable stream)
    · exact .inl hdeep
    · exact .inr (parseWithin_eq_ok_iff hdeep)

end GraphCalc.Grammar
