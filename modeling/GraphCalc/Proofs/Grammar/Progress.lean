import GraphCalc.Proofs.Grammar.Fault

/-! # Progress of the parser

Started at any index of a token list, each routine of the parser gets past at least one token and never
past the end, or it stops at a token that it has not passed or at the end: it refuses there, or there the
room ends.
The bounds on the loops of the model are no part of this: the loops end without them. Main notions:

* `cursorAt tokens k`: the cursor at an index;
* `Later tokens k c`: the cursor `c` is at a later index, so that there is a token behind it;
* `Progress`: what becomes of a routine that is started at an index;
* `Ends body holds n s r`: a loop ends with `r` after `n` more turns, without a bound on them;
* `Progresses`: the progress of all routines and of their loops;
* `routines_make_progress`: the parser makes progress at every index.
-/

namespace GraphCalc.Grammar
open GraphCalc.Parse
set_option autoImplicit false

/-! ## Indices -/

/-- The cursor at an index, with the tokens from there on ahead. -/
def cursorAt (tokens : List Token) (k : ℕ) : Cursor := ⟨endsInNumber (tokens.take k), tokens.drop k⟩

theorem cursorAt_zero (tokens : List Token) : cursorAt tokens 0 = ⟨false, tokens⟩ := rfl

/-- The cursor `c` is at a later index than `k` and not past the end. So there is a token behind it, and
`c` knows of that token whether it is a number. -/
def Later (tokens : List Token) (k : ℕ) (c : Cursor) : Prop :=
  ∃ m t, k < m ∧ m ≤ tokens.length ∧ tokens[m - 1]? = some t ∧ c = ⟨endsInNumber [t], tokens.drop m⟩

/-- A routine that is started at the index `k` gets to a later one, or it stops at the place of a token that
is not before `k` or at the end. There it refuses, or the room ends; the latter, which is a refusal only of
the whole text, only if it is `short` of room. -/
def Progress {α : Type} (tokens : List Token) (finish k : ℕ) (short : Prop) :
    Except ParseError (Reading α) → Prop
  | .ok (_, d) => Later tokens k d
  | .error e => (∃ j, k ≤ j ∧ j ≤ tokens.length ∧ e.position = place finish (tokens.drop j)) ∧
      (e.isNesting = true → short)

section Indices
variable {tokens : List Token} {finish k : ℕ} {c d : Cursor}

theorem Passes.later (h : Passes c d) (hc : c.ahead = tokens.drop k) : Later tokens k d := by
  obtain ⟨ts, hts, hahead, hnumber⟩ := h
  obtain ⟨us, t, rfl⟩ := (List.eq_nil_or_concat' ts).resolve_left hts
  have hdrop : tokens.drop k = us ++ t :: d.ahead := by rw [← hc, hahead, List.append_assoc]; rfl
  have hlength := congrArg List.length hdrop
  rw [List.length_drop, List.length_append, List.length_cons] at hlength
  refine ⟨k + us.length + 1, t, by omega, by omega, ?_, ?_⟩
  · rw [Nat.add_sub_cancel, ← List.getElem?_drop, hdrop]
    simp
  · obtain ⟨b, ahead⟩ := d
    obtain rfl : b = endsInNumber [t] := by simpa using hnumber
    rw [Nat.add_assoc, ← List.drop_drop, hdrop]
    simp

theorem Later.mono {j : ℕ} (h : Later tokens j c) (hk : k ≤ j) : Later tokens k c := by
  obtain ⟨m, t, hjm, hlength, ht, hc⟩ := h
  exact ⟨m, t, by omega, hlength, ht, hc⟩

theorem Later.passes (h : Later tokens k c) (hd : Passes c d) : Later tokens k d := by
  obtain ⟨m, t, hkm, -, -, rfl⟩ := h
  exact (hd.later rfl).mono (Nat.le_of_lt hkm)

theorem Progress.mono {α : Type} {j : ℕ} {short short' : Prop} {r : Except ParseError (Reading α)}
    (h : Progress tokens finish j short r) (hk : k ≤ j) (hshort : short → short') :
    Progress tokens finish k short' r := by
  cases r with
  | ok x => exact Later.mono h hk
  | error e =>
    obtain ⟨⟨i, hji, hlength, hplace⟩, hdeep⟩ := h
    exact ⟨⟨i, by omega, hlength, hplace⟩, fun h => hshort (hdeep h)⟩

/-- What a routine reads takes it to a later index, and where it stops is a token that is not before it. -/
theorem Progress.of_local {α : Type} {callable : String → Bool} {level : List Token → α → Prop}
    {short : Prop} {r : Except ParseError (Reading α)} {f : String → String} {g : α → α}
    {r' : Cursor → Except ParseError (Reading α)} (houtcome : Outcome callable level short c r)
    (hlocal : Local f g finish c r r') (hne : ∀ ts a, level ts a → ts ≠ [])
    (hc : c.ahead = tokens.drop k) (hk : k ≤ tokens.length) : Progress tokens finish k short r := by
  cases r with
  | ok x => exact (houtcome.passes hne rfl).later hc
  | error e =>
    obtain ⟨us, rest, hahead, hplace, -⟩ := hlocal
    have hdrop : tokens.drop k = us ++ rest := by rw [← hc, hahead]
    have hlength := congrArg List.length hdrop
    rw [List.length_drop, List.length_append] at hlength
    refine ⟨⟨k + us.length, by omega, by omega, ?_⟩, houtcome⟩
    rw [← List.drop_drop, hdrop, List.drop_left, hplace]

/-- The routines under the names as they are. -/
theorem allLocal_id (callable : String → Bool) (finish room : ℕ) :
    AllLocal callable id finish finish room :=
  .of_room (fun _ => rfl) (fun _ _ => rfl) room

end Indices

/-! ## Loops -/

/-- The loop that repeats `body` ends with the result `r` after `n` more turns. The state `holds` whenever
the loop looks at it. -/
inductive Ends {σ ρ : Type} (body : σ → σ ⊕ ρ) (holds : σ → Prop) : ℕ → σ → ρ → Prop where
  | stop {s r} (hs : holds s) (h : body s = .inr r) : Ends body holds 0 s r
  | turn {n s s' r} (hs : holds s) (h : body s = .inl s') (rest : Ends body holds n s' r) :
      Ends body holds (n + 1) s r

section Turns
variable {σ ρ : Type} {body : σ → σ ⊕ ρ} (holds : σ → Prop) (size : σ → ℕ) (result : σ → ρ)

/-- If each turn keeps the result and makes the state smaller, the loop ends with that result. -/
theorem Ends.of_turn (hstop : ∀ s r, body s = .inr r → result s = r)
    (hturn : ∀ s s', holds s → body s = .inl s' → holds s' ∧ size s' < size s ∧ result s = result s')
    (s : σ) (hs : holds s) : ∃ turns ≤ size s, Ends body holds turns s (result s) := by
  induction hsize : size s using Nat.strong_induction_on generalizing s with
  | _ n ih =>
    subst hsize
    cases hbody : body s with
    | inr r =>
      rw [hstop s r hbody]
      exact ⟨0, Nat.zero_le _, .stop hs hbody⟩
    | inl s' =>
      obtain ⟨hs', hsmaller, hresult⟩ := hturn s s' hs hbody
      obtain ⟨turns, hturns, hends⟩ := ih _ hsmaller s' hs' rfl
      rw [hresult]
      exact ⟨turns + 1, by omega, .turn hs hbody hends⟩

end Turns

/-! ### The loops of a sum and a product -/

/-- One look at what follows an expression: it is extended, or the loop is left. -/
def extendTurn (more : Cursor → Option (Except ParseError (Reading (Operator × Expr))))
    (x : Reading Expr) : Reading Expr ⊕ Except ParseError (Reading Expr) :=
  match more x.2 with
  | none => .inr (.ok x)
  | some (.error e) => .inr (.error e)
  | some (.ok ((operator, right), d)) => .inl (.binary operator x.1 right, d)

section Extending
variable {more : Cursor → Option (Except ParseError (Reading (Operator × Expr)))}
  {holds : Cursor → Prop}

/-- An expression that is extended as long as it can be is what the loop ends with. -/
theorem Advances.ends (h : Advances more)
    (hholds : ∀ c x, holds c → more c = some (.ok x) → holds x.2) (x : Reading Expr) (hx : holds x.2) :
    ∃ turns ≤ x.2.ahead.length, Ends (extendTurn more) (fun y => holds y.2) turns x
      (extend more x.2.ahead.length x.1 x.2) := by
  refine Ends.of_turn (fun y => holds y.2) (fun y => y.2.ahead.length)
    (fun y => extend more y.2.ahead.length y.1 y.2) ?_ ?_ x hx
  · intro y r hr
    rw [h.extend_eq _ _ (Nat.le_refl _)]
    unfold extendTurn at hr
    split at hr <;> cases hr
    · next hmore => rw [hmore]
    · next hmore => rw [hmore]; rfl
  · intro y y' hy hr
    rw [h.extend_eq _ _ (Nat.le_refl _)]
    unfold extendTurn at hr
    split at hr <;> cases hr
    next operator right d hmore =>
      rw [hmore]
      exact ⟨hholds _ _ hy hmore, h.shorter _ _ hmore, rfl⟩

end Extending

/-! ### The loop of the arguments -/

/-- One argument behind those before it: a comma is passed over, or the loop is left. -/
def argumentTurn (finish : ℕ) (argument : Cursor → Except ParseError (Reading Expr))
    (x : Reading (List Expr)) : Reading (List Expr) ⊕ Except ParseError (Reading (List Expr)) :=
  if endsArguments x.2.ahead then .inr (.error (.emptyArgument (x.2.position finish)))
  else match argument x.2 with
    | .error e => .inr (.error e)
    | .ok (a, d) =>
      match d.ahead with
      | ⟨.comma, _, _⟩ :: rest => .inl (x.1 ++ [a], ⟨false, rest⟩)
      | _ => .inr (d.close finish .commaOrClosing >>= fun d => pure (x.1 ++ [a], d))

section Arguments
variable {finish : ℕ} {argument : Cursor → Except ParseError (Reading Expr)} {holds : Cursor → Prop}

/-- The arguments behind those before them. -/
def behindOthers (finish : ℕ) (argument : Cursor → Except ParseError (Reading Expr))
    (x : Reading (List Expr)) : Except ParseError (Reading (List Expr)) :=
  arguments finish argument (x.2.ahead.length + 1) x.2 >>= fun y => pure (x.1 ++ y.1, y.2)

theorem behindOthers_of_stop {x : Reading (List Expr)} {r : Except ParseError (Reading (List Expr))}
    (h : argumentTurn finish argument x = .inr r) : behindOthers finish argument x = r := by
  rw [behindOthers, arguments_eq]
  unfold argumentTurn at h
  split at h
  · next hends =>
    cases h
    rw [if_pos hends]
    rfl
  · next hends =>
    rw [if_neg hends]
    split at h
    · next e hfirst =>
      cases h
      rw [hfirst]
      rfl
    · next a d hfirst =>
      split at h
      · cases h
      · next hcomma =>
        cases h
        rw [hfirst]
        change behindArgument finish _ (a, d) >>= _ = _
        rw [behindArgument_close hcomma]
        cases d.close finish .commaOrClosing <;> rfl

theorem behindOthers_of_turn (hargument : ∀ c x, argument c = .ok x → Passes c x.2)
    {x x' : Reading (List Expr)} (h : argumentTurn finish argument x = .inl x') :
    Passes x.2 x'.2 ∧ behindOthers finish argument x = behindOthers finish argument x' := by
  unfold argumentTurn at h
  split at h
  · cases h
  · next hends =>
    split at h
    · cases h
    · next a d hfirst =>
      split at h
      · next text p rest hcomma =>
        cases h
        have hpasses : Passes x.2 ⟨false, rest⟩ :=
          (hargument _ _ hfirst).trans ⟨[⟨.comma, text, p⟩], by simp, hcomma, rfl⟩
        refine ⟨hpasses, ?_⟩
        rw [behindOthers, arguments_eq, if_neg hends, hfirst]
        change behindArgument finish _ (a, d) >>= _ = _
        rw [behindArgument_comma hcomma, behindOthers,
          arguments_steps (fun c x hx => (hargument c x hx).shorter) _ (rest.length + 1) ⟨false, rest⟩
            hpasses.shorter (Nat.lt_succ_self _)]
        cases arguments finish argument (rest.length + 1) ⟨false, rest⟩ with
        | error e => rfl
        | ok y => simp
      · cases h

/-- The arguments of a call are what the loop ends with. -/
theorem arguments_ends (hargument : ∀ c x, argument c = .ok x → Passes c x.2)
    (hholds : ∀ c d, holds c → Passes c d → holds d) (x : Reading (List Expr)) (hx : holds x.2) :
    ∃ turns ≤ x.2.ahead.length, Ends (argumentTurn finish argument) (fun y => holds y.2) turns x
      (behindOthers finish argument x) := by
  refine Ends.of_turn (fun y => holds y.2) (fun y => y.2.ahead.length) _
    (fun y r hr => behindOthers_of_stop hr) (fun y y' hy hr => ?_) x hx
  obtain ⟨hpasses, hresult⟩ := behindOthers_of_turn hargument hr
  exact ⟨hholds _ _ hy hpasses, hpasses.shorter, hresult⟩

end Arguments

/-! ## The routines -/

/-- The progress of all routines that are started at the index `k` in a given room, and of the loops of
those that have one unit more. A routine is not short of room if it has five units for each token ahead
and one for each level below it. -/
structure Progresses (callable : String → Bool) (tokens : List Token) (finish room k : ℕ) : Prop where
  sum : Progress tokens finish k (Short 5 room (cursorAt tokens k))
    (Parse.sum callable finish room (cursorAt tokens k))
  product : Progress tokens finish k (Short 4 room (cursorAt tokens k))
    (Parse.product callable finish room (cursorAt tokens k))
  signed : Progress tokens finish k (Short 3 room (cursorAt tokens k))
    (Parse.signed callable finish room (cursorAt tokens k))
  power : Progress tokens finish k (Short 2 room (cursorAt tokens k))
    (Parse.power callable finish room (cursorAt tokens k))
  atom : Progress tokens finish k (Short 1 room (cursorAt tokens k))
    (Parse.atom callable finish room (cursorAt tokens k))
  called : Progress tokens finish k (Short 1 room (cursorAt tokens k))
    (Parse.called finish (Parse.bracketed callable finish room) (cursorAt tokens k))
  sumLoop x : Parse.product callable finish room (cursorAt tokens k) = .ok x →
    ∃ turns ≤ x.2.ahead.length,
      Ends (extendTurn (sumStep callable finish room)) (fun y => Later tokens k y.2) turns x
        (Parse.sum callable finish (room + 1) (cursorAt tokens k))
  productLoop x : Parse.signed callable finish room (cursorAt tokens k) = .ok x →
    ∃ turns ≤ x.2.ahead.length,
      Ends (extendTurn (productStep callable finish room)) (fun y => Later tokens k y.2) turns x
        (Parse.product callable finish (room + 1) (cursorAt tokens k))
  argumentLoop text p inside : tokens.drop k = ⟨.opening, text, p⟩ :: inside →
    (∀ text p rest, inside ≠ ⟨.closing, text, p⟩ :: rest) →
    ∃ turns ≤ inside.length,
      Ends (argumentTurn finish (Parse.sum callable finish room)) (fun y => Later tokens k y.2) turns
        ([], ⟨false, inside⟩)
        (Parse.called finish (Parse.bracketed callable finish (room + 1)) (cursorAt tokens k))

section Routines
variable {callable : String → Bool} {tokens : List Token} {finish room k : ℕ}

/-- Behind the opening bracket the arguments make progress, and the bracket makes up for the levels that
their routine is short of. -/
theorem called_progress (hk : k ≤ tokens.length) :
    Progress tokens finish k (Short 1 room (cursorAt tokens k))
      (Parse.called finish (Parse.bracketed callable finish room) (cursorAt tokens k)) := by
  unfold Parse.called
  split
  · next text p inside hahead =>
    have hdrop : tokens.drop k = ⟨.opening, text, p⟩ :: inside := hahead
    have hlength := congrArg List.length hdrop
    rw [List.length_drop, List.length_cons] at hlength
    have hinside : inside = tokens.drop (k + 1) := by rw [← List.drop_drop, hdrop]; rfl
    refine (Progress.of_local ((Sound.of_room room).bracketed ⟨false, inside⟩)
      ((allLocal_id callable finish room).bracketed ⟨false, inside⟩) (fun _ _ => AreBracketed.ne_nil) hinside
      (by omega)).mono (Nat.le_succ k) ?_
    intro hshort
    simp only [Short, cursorAt, hdrop, List.length_cons] at hshort ⊢
    omega
  · exact ⟨⟨k, Nat.le_refl k, hk, rfl⟩, nofun⟩

theorem called_eq_behindOthers {text : String} {p : ℕ} {inside : List Token}
    (hdrop : tokens.drop k = ⟨.opening, text, p⟩ :: inside)
    (hinside : ∀ text p rest, inside ≠ ⟨.closing, text, p⟩ :: rest) :
    Parse.called finish (Parse.bracketed callable finish (room + 1)) (cursorAt tokens k) =
      behindOthers finish (Parse.sum callable finish room) ([], ⟨false, inside⟩) := by
  rw [cursorAt, hdrop, called_opening, Parse.bracketed, behindOthers]
  split
  · next text p rest hahead => exact absurd hahead (hinside text p rest)
  · cases arguments finish (Parse.sum callable finish room) (inside.length + 1) ⟨false, inside⟩ <;> rfl

/-- The parser makes progress at every index of a token list and at its end. -/
theorem routines_make_progress (callable : String → Bool) (tokens : List Token) (finish room k : ℕ)
    (hk : k ≤ tokens.length) : Progresses callable tokens finish room k where
  sum := .of_local (sum_outcome _) ((allLocal_id callable finish room).sum _)
    (fun _ _ hts => hts.ne_nil) rfl hk
  product := .of_local ((Sound.of_room room).product _) ((allLocal_id callable finish room).product _)
    (fun _ _ hts => hts.ne_nil) rfl hk
  signed := .of_local ((Sound.of_room room).signed _) ((allLocal_id callable finish room).signed _)
    (fun _ _ hts => hts.ne_nil) rfl hk
  power := .of_local ((Sound.of_room room).power _) ((allLocal_id callable finish room).power _)
    (fun _ _ hts => hts.ne_nil) rfl hk
  atom := .of_local ((Sound.of_room room).atom _) ((allLocal_id callable finish room).atom _)
    (fun _ _ hts => hts.ne_nil) rfl hk
  called := called_progress hk
  sumLoop x hx := by
    rw [Grammar.sum_succ, hx]
    exact advances_sumStep.ends (fun c y hc hy => hc.passes (sumStep_passes hy)) x
      ((product_passes hx).later rfl)
  productLoop x hx := by
    rw [Grammar.product_succ, hx]
    exact advances_productStep.ends (fun c y hc hy => hc.passes (productStep_passes hy)) x
      ((signed_passes hx).later rfl)
  argumentLoop text p inside hdrop hinside := by
    rw [called_eq_behindOthers hdrop hinside]
    have hbracket : Passes (cursorAt tokens k) ⟨false, inside⟩ :=
      ⟨[⟨.opening, text, p⟩], by simp, hdrop, rfl⟩
    exact arguments_ends (fun c y hy => sum_passes hy)
      (fun c d (hc : Later tokens k c) hd => hc.passes hd) ([], ⟨false, inside⟩)
      (hbracket.later rfl)

/-- A sign, a number and a bracket. The product that is started at the number goes on with the bracket. -/
theorem product_progresses_behind_sign :
    1 ≤ 5 ∧
    Progresses (fun _ => false) [⟨.operator, "-", 0⟩, ⟨.number 2, "2", 1⟩, ⟨.opening, "(", 2⟩,
      ⟨.name, "x", 3⟩, ⟨.closing, ")", 4⟩] 5 30 1 ∧
    Parse.product (fun _ => false) 5 30 (cursorAt [⟨.operator, "-", 0⟩, ⟨.number 2, "2", 1⟩,
      ⟨.opening, "(", 2⟩, ⟨.name, "x", 3⟩, ⟨.closing, ")", 4⟩] 1) =
      .ok (.binary .multiply (.number 2) (.var "x"), ⟨false, []⟩) :=
  ⟨by decide, routines_make_progress _ _ _ _ _ (by decide), by rfl⟩

end Routines

/-! ### Too little room -/

/-- The tokens of `((… x …))` with `n` brackets, the first at the position `p`. -/
def nestedBrackets : ℕ → ℕ → List Token
  | 0, p => [⟨.name, "x", p⟩]
  | n + 1, p => ⟨.opening, "(", p⟩ :: (nestedBrackets n (p + 1) ++ [⟨.closing, ")", p + 2 * (n + 1)⟩])

section Nested
variable {callable : String → Bool} {finish room n : ℕ}

/-- Nested brackets take all levels of room for each bracket. -/
theorem nestedBrackets_take : ∀ n p, SumTakes callable (5 * n + 5) (nestedBrackets n p) (.var "x")
  | 0, _ => .product (.signed (.power (.atom .var)))
  | n + 1, p => .product (.signed (.power (.atom (.group (nestedBrackets_take n (p + 1))))))

/-- Nested brackets that are short of room are not read, and for no other reason. -/
theorem nestedBrackets_stuck (hroom : room < 5 * n + 5) :
    TooDeep (Parse.sum callable finish room (cursorAt (nestedBrackets n 0) 0)) ∧
      ¬ Progress (nestedBrackets n 0) finish 0 False
        (Parse.sum callable finish room (cursorAt (nestedBrackets n 0) 0)) := by
  have htakes : SumTakes callable (5 * n + 5) _ _ := nestedBrackets_take n 0
  have hreads : InRoom (5 * n + 5) room
      (Parse.sum callable finish room ⟨false, nestedBrackets n 0 ++ []⟩) _ :=
    htakes.loops.reads htakes.pos room false endsSum_nil
  rw [List.append_nil, ← cursorAt_zero, InRoom, if_neg (Nat.not_le_of_gt hroom)] at hreads
  refine ⟨hreads, ?_⟩
  obtain ⟨p, hp⟩ := hreads
  rw [hp]
  rintro ⟨-, hshort⟩
  exact hshort rfl

/-- In the parser's room 600 brackets in one another are too many: a sum that is started there gets to no
later index, and it stops at a token where nothing is wrong but that the room ends. -/
theorem nested_brackets_exhaust_the_room :
    TooDeep (Parse.sum (fun _ => false) 1201 Parse.room (cursorAt (nestedBrackets 600 0) 0)) ∧
      ¬ Progress (nestedBrackets 600 0) 1201 0 False
        (Parse.sum (fun _ => false) 1201 Parse.room (cursorAt (nestedBrackets 600 0) 0)) :=
  nestedBrackets_stuck (by decide)

end Nested
end GraphCalc.Grammar
