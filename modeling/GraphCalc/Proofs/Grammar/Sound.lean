import GraphCalc.Proofs.Grammar.Basic

/-! # What the parser reads is derivable

Each routine of the parser, started at any cursor, either reads tokens that the grammar derives, or
refuses. Main notions:

* `Read`: a routine went from one cursor to another over tokens that stand for its result, and did
  not stop between a callable name and the bracket behind it;
* `Outcome`: a routine read, or refused for another reason than nesting, or had too little room;
* `sum_outcome` and its companions for the other levels: the outcome of each routine. A routine at
  `n` tokens before the end never runs out of room if it has five units for each of them and one for
  each level below it.
-/

namespace GraphCalc.Grammar
open GraphCalc.Parse
set_option autoImplicit false

/-! ## Readings and outcomes -/

/-- Going from the cursor `c` to the cursor `d` passes over tokens that stand for `a`. -/
def Read {α : Type} (callable : String → Bool) (level : List Token → α → Prop) (c : Cursor) (a : α)
    (d : Cursor) : Prop :=
  ∃ ts, level ts a ∧ c.ahead = ts ++ d.ahead ∧ d.afterNumber = endsInNumber ts ∧
    MayFollow callable ts d.ahead

/-- A routine read from `c`, or it refused; it refused because of nesting only if it was `short` of
room. -/
def Outcome {α : Type} (callable : String → Bool) (level : List Token → α → Prop) (short : Prop)
    (c : Cursor) : Except ParseError (Reading α) → Prop
  | .ok (a, d) => Read callable level c a d
  | .error e => e.isNesting = true → short

section Outcomes
variable {callable : String → Bool} {α β : Type} {level : List Token → α → Prop}
  {level' : List Token → β → Prop} {short short' : Prop} {c c' d : Cursor}

theorem Outcome.bind {r : Except ParseError (Reading α)}
    {f : Reading α → Except ParseError (Reading β)} (h : Outcome callable level short c r)
    (hshort : short → short')
    (hf : ∀ a d, Read callable level c a d → Outcome callable level' short' c' (f (a, d))) :
    Outcome callable level' short' c' (r >>= f) := by
  cases r with
  | error e => exact fun he => hshort (h he)
  | ok x => exact hf x.1 x.2 h

/-- Reading on behind the tokens `pre`. -/
theorem Read.append {a : α} {b : β} (h : Read callable level d a c') (pre : List Token)
    (hc : c.ahead = pre ++ d.ahead) (hne : ∀ ts, level ts a → ts ≠ [])
    (hlevel : ∀ ts, level ts a → d.ahead = ts ++ c'.ahead → level' (pre ++ ts) b) :
    Read callable level' c b c' := by
  obtain ⟨ts, hts, hahead, hnumber, hseam⟩ := h
  refine ⟨pre ++ ts, hlevel ts hts hahead, ?_, ?_, ?_⟩
  · rw [hc, hahead, List.append_assoc]
  · rw [hnumber, endsInNumber_append (hne ts hts)]
  · rwa [MayFollow, endsInHead_append (hne ts hts)]

theorem Read.join {a : α} {b : β} {ts : List Token} {operator : Operator} {p : Nat} {d' : Cursor}
    (h : Read callable level d' a c') (hc : c.ahead = ts ++ d.ahead)
    (hd : d.ahead = ⟨.operator, operator.symbol, p⟩ :: d'.ahead)
    (hstarts : ∀ us, level us a → startsTerm us = true)
    (hlevel : ∀ us, level us a → level' (ts ++ ⟨.operator, operator.symbol, p⟩ :: us) b) :
    Read callable level' c b c' := by
  refine h.append (ts ++ [⟨.operator, operator.symbol, p⟩]) (by simp [hc, hd]) ?_ ?_
  · exact fun us hus => ne_nil_of_startsTerm (hstarts us hus)
  · intro us hus _
    rw [List.append_assoc]
    exact hlevel us hus

theorem Read.mono {a : α} {b : β} (h : Read callable level c a d)
    (hlevel : ∀ ts, level ts a → level' ts b) : Read callable level' c b d := by
  obtain ⟨ts, hts, hahead, hnumber, hseam⟩ := h
  exact ⟨ts, hlevel ts hts, hahead, hnumber, hseam⟩

theorem Outcome.mono {level' : List Token → α → Prop} {r : Except ParseError (Reading α)}
    (h : Outcome callable level short c r) (hshort : short → short')
    (hlevel : ∀ ts a, level ts a → level' ts a) : Outcome callable level' short' c r := by
  cases r with
  | error e => exact fun he => hshort (h he)
  | ok x => exact Read.mono h fun ts => hlevel ts x.1

end Outcomes

/-! ## Tests at a cursor -/

theorem operator?_eq_some {among : List Operator} {c d : Cursor} {operator : Operator}
    (h : c.operator? among = some (operator, d)) :
    operator ∈ among ∧ d.afterNumber = false ∧
      ∃ p, c.ahead = ⟨.operator, operator.symbol, p⟩ :: d.ahead := by
  unfold Cursor.operator? at h
  split at h
  · next text p rest hahead =>
    obtain ⟨found, hfound, heq⟩ := Option.map_eq_some_iff.mp h
    cases heq
    have hsymbol := List.find?_some hfound
    simp only [beq_iff_eq] at hsymbol
    exact ⟨List.mem_of_find?_eq_some hfound, rfl, p, by rw [hahead, hsymbol]⟩
  · cases h

theorem sign?_eq_some {c d : Cursor} {sign : Sign} (h : c.sign? = some (sign, d)) :
    sign ∈ [Sign.plus, Sign.minus] ∧ ∃ p, c.ahead = ⟨.operator, sign.symbol, p⟩ :: d.ahead := by
  unfold Cursor.sign? at h
  split at h
  · next text p rest hahead =>
    obtain ⟨found, hfound, heq⟩ := Option.map_eq_some_iff.mp h
    cases heq
    have hsymbol := List.find?_some hfound
    simp only [beq_iff_eq] at hsymbol
    exact ⟨List.mem_of_find?_eq_some hfound, p, by rw [hahead, hsymbol]⟩
  · cases h

theorem juxtaposed_numbers {c : Cursor} (h : c.juxtaposed = true) :
    ¬ (c.afterNumber = true ∧ startsWithNumber c.ahead = true) := by
  unfold Cursor.juxtaposed at h
  split at h <;> simp_all [startsWithNumber]

theorem juxtaposed_of_cursor {callable : String → Bool} {c : Cursor} {ts us rest : List Token}
    (h : c.juxtaposed = true) (hnumber : c.afterNumber = endsInNumber ts)
    (hc : c.ahead = us ++ rest) (hus : startsOperand us = true)
    (hseam : MayFollow callable ts (us ++ rest)) : Juxtaposed callable ts us := by
  have hne : us ≠ [] := ne_nil_of_startsTerm (startsTerm_of_startsOperand hus)
  refine ⟨hus, ?_, ?_⟩
  · rw [← hnumber, ← startsWithNumber_append rest hne, ← hc]
    exact juxtaposed_numbers h
  · rwa [MayFollow, startsWithOpening_append rest hne] at hseam

@[simp] theorem called_opening (finish : Nat)
    (inside : Cursor → Except ParseError (Reading (List Expr))) (afterNumber : Bool) (text : String)
    (p : Nat) (rest : List Token) :
    called finish inside ⟨afterNumber, ⟨.opening, text, p⟩ :: rest⟩ = inside ⟨false, rest⟩ := rfl

/-- A closing bracket is read, or its lack is no matter of nesting. -/
theorem close_cases (finish : Nat) (what : Wanted) (c : Cursor) :
    (∃ text p d, c.ahead = ⟨.closing, text, p⟩ :: d ∧ c.close finish what = .ok ⟨false, d⟩) ∨
      ∃ found position, c.close finish what = .error (.expected what found position) := by
  unfold Cursor.close
  split
  · next text p rest hahead => exact .inl ⟨text, p, rest, hahead, rfl⟩
  · exact .inr ⟨_, _, rfl⟩

/-! ## Repetition -/

section Repetition
variable {callable : String → Bool} {finish : Nat} {short : Prop} {c₀ : Cursor}

/-- What a step of a repetition reads behind `left`, put together with it. -/
def extended (left : Expr) (r : Except ParseError (Reading (Operator × Expr))) :
    Except ParseError (Reading Expr) :=
  r >>= fun x => .ok (.binary x.1.1 left x.1.2, x.2)

theorem extended_bind (left : Expr) (operator : Operator) (r : Except ParseError (Reading Expr)) :
    extended left (r >>= fun x => pure ((operator, x.1), x.2)) =
      r >>= fun x => pure (.binary operator left x.1, x.2) := by
  cases r <;> rfl

theorem extend_outcome {level : List Token → Expr → Prop}
    {more : Cursor → Option (Except ParseError (Reading (Operator × Expr)))}
    (hmore : ∀ left c r, Read callable level c₀ left c → more c = some r →
      Outcome callable level short c₀ (extended left r)) :
    ∀ steps left c, Read callable level c₀ left c →
      Outcome callable level short c₀ (extend more steps left c)
  | 0, _, _, hread => hread
  | steps + 1, left, c, hread => by
      unfold extend
      cases hr : more c with
      | none => exact hread
      | some r =>
        have hstep := hmore left c r hread hr
        cases r with
        | error e => exact hstep
        | ok x => exact extend_outcome hmore steps _ _ hstep

/-- Arguments with the closing bracket behind them. -/
def AreClosedArguments (callable : String → Bool) (ts : List Token) (es : List Expr) : Prop :=
  ∃ inside text p, ts = inside ++ [⟨.closing, text, p⟩] ∧ AreArguments callable inside es

theorem arguments_outcome {n : Nat} {argument : Cursor → Except ParseError (Reading Expr)}
    (hargument : ∀ c, c.ahead.length ≤ n → Outcome callable (IsSum callable) short c (argument c)) :
    ∀ steps c, c.ahead.length ≤ n →
      Outcome callable (AreClosedArguments callable) short c (arguments finish argument steps c)
  | 0, _, _ => by simp [arguments, Outcome, ParseError.isNesting]
  | steps + 1, c, hn => by
      unfold arguments
      split
      · simp [Outcome, ParseError.isNesting]
      · simp [Outcome, ParseError.isNesting]
      · refine (hargument c hn).bind id ?_
        rintro e d ⟨ts, hts, hahead, -, -⟩
        dsimp only
        split
        · next text p rest hd =>
          have hrest : (⟨false, rest⟩ : Cursor).ahead.length ≤ n := by
            rw [hahead, hd] at hn
            simp at hn ⊢
            omega
          refine (arguments_outcome hargument steps _ hrest).bind id ?_
          intro es d' hread
          refine hread.append (ts ++ [⟨.comma, text, p⟩]) ?_ ?_ ?_
          · simp [hahead, hd]
          · rintro us ⟨inside, _, _, rfl, -⟩
            simp
          · rintro us ⟨inside, text', p', rfl, hinside⟩ -
            exact ⟨ts ++ ⟨.comma, text, p⟩ :: inside, text', p', by simp, .more hts hinside⟩
        · rcases close_cases finish .commaOrClosing d with ⟨text, p, rest, hd, hclose⟩ | ⟨_, _, hclose⟩
          · rw [hclose]
            refine ⟨ts ++ [⟨.closing, text, p⟩], ⟨ts, text, p, rfl, .last hts⟩, ?_, ?_, ?_⟩
            · simp [hahead, hd]
            · simp [endsInNumber]
            · simp [MayFollow, endsInHead]
          · rw [hclose]
            simp [Outcome, bind, Except.bind, ParseError.isNesting]

end Repetition

/-! ## The levels -/

/-- The room is short for a routine `levels` above the smallest one that is started at `c`. -/
def Short (levels room : Nat) (c : Cursor) : Prop := room < 5 * c.ahead.length + levels

/-- The outcomes of all routines in a given room. -/
structure Sound (callable : String → Bool) (finish room : Nat) : Prop where
  sum c : Outcome callable (IsSum callable) (Short 5 room c) c (Parse.sum callable finish room c)
  product c :
    Outcome callable (IsProduct callable) (Short 4 room c) c (Parse.product callable finish room c)
  signed c :
    Outcome callable (IsSigned callable) (Short 3 room c) c (Parse.signed callable finish room c)
  power c :
    Outcome callable (IsPower callable) (Short 2 room c) c (Parse.power callable finish room c)
  atom c :
    Outcome callable (IsAtom callable) (Short 1 room c) c (Parse.atom callable finish room c)
  bracketed c :
    Outcome callable (fun ts es => AreClosedArguments callable ts es ∨
        es = [] ∧ ∃ text p, ts = [⟨.closing, text, p⟩])
      (Short 6 room c) c (Parse.bracketed callable finish room c)

section Levels
variable {callable : String → Bool} {finish room : Nat}

theorem Sound.zero : Sound callable finish 0 := by
  constructor <;> intro c <;>
    simp [Parse.sum, Parse.product, Parse.signed, Parse.power, Parse.atom, Parse.bracketed, Outcome,
      Short]

/-- A routine one level down started at the same cursor, or any routine started at a later one. -/
theorem Short.up {levels levels' : Nat} {c d : Cursor}
    (h : 5 * d.ahead.length + levels' < 5 * c.ahead.length + levels) (hshort : Short levels' room d) :
    Short levels (room + 1) c := by
  unfold Short at *
  omega

theorem Sound.signed_succ (h : Sound callable finish room) (c : Cursor) :
    Outcome callable (IsSigned callable) (Short 3 (room + 1) c) c
      (Parse.signed callable finish (room + 1) c) := by
  unfold Parse.signed
  split
  · next sign d hsign =>
    obtain ⟨known, p, hahead⟩ := sign?_eq_some hsign
    refine (h.signed d).bind (Short.up (by rw [hahead, List.length_cons]; omega)) ?_
    intro e c' hread
    refine hread.append ([⟨.operator, sign.symbol, p⟩]) (by simp [hahead]) ?_ ?_
    · exact fun ts hts => hts.ne_nil
    · exact fun ts hts _ => .sign known hts
  · refine Outcome.mono (h.power c) (Short.up (by omega)) ?_
    exact fun ts e hts => .power hts

theorem Sound.sum_succ (h : Sound callable finish room) (c : Cursor) :
    Outcome callable (IsSum callable) (Short 5 (room + 1) c) c
      (Parse.sum callable finish (room + 1) c) := by
  unfold Parse.sum
  refine (h.product c).bind (Short.up (by omega)) ?_
  intro first d hfirst
  refine extend_outcome ?_ _ _ _ (hfirst.mono fun ts hts => .product hts)
  rintro left d r ⟨ts, hts, hahead, hnumber, hseam⟩ hr
  obtain ⟨⟨operator, d'⟩, hoperator, rfl⟩ := Option.map_eq_some_iff.mp hr
  obtain ⟨known, -, p, hd⟩ := operator?_eq_some hoperator
  have hlength : c.ahead.length = ts.length + (d'.ahead.length + 1) := by
    rw [hahead, hd, List.length_append, List.length_cons]
  refine (extended_bind left operator _).symm ▸ (h.product d').bind (Short.up (by omega)) ?_
  intro right c' hread
  exact hread.join hahead hd (fun us hus => hus.starts) fun us hus => .join hts known hus

theorem Sound.product_succ (h : Sound callable finish room) (c : Cursor) :
    Outcome callable (IsProduct callable) (Short 4 (room + 1) c) c
      (Parse.product callable finish (room + 1) c) := by
  unfold Parse.product
  refine (h.signed c).bind (Short.up (by omega)) ?_
  intro first d hfirst
  refine extend_outcome ?_ _ _ _ (hfirst.mono fun ts hts => .signed hts)
  rintro left d r ⟨ts, hts, hahead, hnumber, hseam⟩ hr
  have hlength : c.ahead.length = ts.length + d.ahead.length := by
    rw [hahead, List.length_append]
  have hpos : 0 < ts.length := List.length_pos_iff.mpr hts.ne_nil
  dsimp only at hr
  split at hr
  · next operator d' hoperator =>
    cases hr
    obtain ⟨known, -, p, hd⟩ := operator?_eq_some hoperator
    rw [hd, List.length_cons] at hlength
    refine (extended_bind left operator _).symm ▸ (h.signed d').bind (Short.up (by omega)) ?_
    intro right c' hread
    exact hread.join hahead hd (fun us hus => hus.starts) fun us hus => .join hts known hus
  · split at hr
    · next hjuxtaposed =>
      cases hr
      refine (extended_bind left .multiply _).symm ▸ (h.power d).bind (Short.up (by omega)) ?_
      intro right c' hread
      refine hread.append _ hahead ?_ ?_
      · exact fun us hus => hus.ne_nil
      · intro us hus hd
        rw [hd] at hseam
        exact .juxtapose hts hus (juxtaposed_of_cursor hjuxtaposed hnumber hd hus.starts hseam)
    · cases hr

theorem Sound.power_succ (h : Sound callable finish room) (c : Cursor) :
    Outcome callable (IsPower callable) (Short 2 (room + 1) c) c
      (Parse.power callable finish (room + 1) c) := by
  unfold Parse.power
  refine (h.atom c).bind (Short.up (by omega)) ?_
  rintro base d hread
  dsimp only
  split
  · next operator d' hoperator =>
    obtain ⟨ts, hts, hahead, -, -⟩ := hread
    obtain ⟨known, -, p, hd⟩ := operator?_eq_some hoperator
    obtain rfl : operator = .power := by simpa using known
    have hlength : c.ahead.length = ts.length + (d'.ahead.length + 1) := by
      rw [hahead, hd, List.length_append, List.length_cons]
    refine (h.signed d').bind (Short.up (by omega)) ?_
    intro exponent c' hexponent
    exact hexponent.join hahead hd (fun us hus => hus.starts) fun us hus => .power hts hus
  · exact hread.mono fun ts hts => .atom hts

theorem Sound.bracketed_succ (h : Sound callable finish room) (c : Cursor) :
    Outcome callable (fun ts es => AreClosedArguments callable ts es ∨
        es = [] ∧ ∃ text p, ts = [⟨.closing, text, p⟩])
      (Short 6 (room + 1) c) c (Parse.bracketed callable finish (room + 1) c) := by
  unfold Parse.bracketed
  split
  · next text p rest hahead =>
    exact ⟨[⟨.closing, text, p⟩], .inr ⟨rfl, text, p, rfl⟩, by simp [hahead], rfl,
      by simp [MayFollow, endsInHead]⟩
  · refine (arguments_outcome (n := c.ahead.length) ?_ _ c (Nat.le_refl _)).mono id ?_
    · intro d hd
      refine (h.sum d).mono (Short.up (by omega)) fun ts e hts => hts
    · exact fun ts es hts => .inl hts

theorem Sound.atom_succ (h : Sound callable finish room) (c : Cursor) :
    Outcome callable (IsAtom callable) (Short 1 (room + 1) c) c
      (Parse.atom callable finish (room + 1) c) := by
  unfold Parse.atom
  split
  · next value text p rest hahead =>
    exact ⟨[⟨.number value, text, p⟩], .number, by simp [hahead], rfl,
      by simp [MayFollow, endsInHead]⟩
  · next name p rest hahead =>
    split
    · next text q inside =>
      split
      · next head =>
        refine (h.bracketed ⟨false, inside⟩).bind (Short.up (by simp [hahead]; omega)) ?_
        intro es d hread
        refine hread.append ([⟨.name, name, p⟩, ⟨.opening, text, q⟩]) (by simp [hahead]) ?_ ?_
        · rintro ts (⟨inside, _, _, rfl, -⟩ | ⟨rfl, _, _, rfl⟩) <;> simp
        · rintro ts (⟨inside, text', p', rfl, hinside⟩ | ⟨rfl, text', p', rfl⟩) -
          · exact .call head hinside
          · exact .callEmpty head
      · next head =>
        exact ⟨[⟨.name, name, p⟩], .var, by simp [hahead], rfl, by simp [MayFollow, endsInHead, head]⟩
    · next hopening =>
      refine ⟨[⟨.name, name, p⟩], .var, by simp [hahead], rfl, ?_⟩
      rintro ⟨-, hstarts⟩
      obtain ⟨text, q, inside, rfl⟩ := eq_cons_of_startsWithOpening hstarts
      exact hopening text q inside rfl
  · next text p rest hahead =>
    refine (h.sum ⟨false, rest⟩).bind (Short.up (by simp [hahead]; omega)) ?_
    rintro e d ⟨ts, hts, hrest, -, -⟩
    dsimp only
    rcases close_cases finish .closing d with ⟨text', p', rest', hd, hclose⟩ | ⟨_, _, hclose⟩
    · rw [hclose]
      refine ⟨⟨.opening, text, p⟩ :: (ts ++ [⟨.closing, text', p'⟩]), .group hts, ?_, ?_, ?_⟩
      · simpa [hahead, hd] using hrest
      · simp [endsInNumber, List.getLast?_cons]
      · simp [MayFollow, endsInHead, List.getLast?_cons]
    · rw [hclose]
      simp [Outcome, bind, Except.bind, ParseError.isNesting]
  · simp [Outcome, ParseError.isNesting]

theorem Sound.of_room : ∀ room, Sound callable finish room
  | 0 => .zero
  | room + 1 =>
    have h := Sound.of_room room
    ⟨h.sum_succ, h.product_succ, h.signed_succ, h.power_succ, h.atom_succ, h.bracketed_succ⟩

theorem sum_outcome (c : Cursor) : Outcome callable (IsSum callable) (Short 5 room c) c
    (Parse.sum callable finish room c) :=
  (Sound.of_room room).sum c

end Levels
end GraphCalc.Grammar
