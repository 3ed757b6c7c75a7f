import GraphCalc.Proofs.Grammar.Complete
import GraphCalc.Proofs.Source.Scanning

/-! # Answers that look at one more token

A routine of the parser that looks at the tokens it passes and at the one behind them, never further,
answers alike on token lists that are alike so far. Main notions and statements:

* `Expr.mapVars f`: a tree with other names for its variables;
* `SameHead f ts us`: two lists whose first tokens are alike;
* `Local f g finish c x r'`: on what is alike, `r'` answers as `x` is answered at `c`;
* `Local.bind`, `Local.skip`, `Local.loop`, `Local.arguments`: local answers put together.
-/

namespace GraphCalc
set_option autoImplicit false

/-! ## Trees with other names -/

namespace Expr

mutual
/-- A tree with other names for its variables. -/
def mapVars (f : String → String) : Expr → Expr
  | number v => number v
  | var name => var (f name)
  | signed sign operand => signed sign (operand.mapVars f)
  | binary operator left right => binary operator (left.mapVars f) (right.mapVars f)
  | call name arguments => call name (mapVarsAll f arguments)

def mapVarsAll (f : String → String) : List Expr → List Expr
  | [] => []
  | e :: es => e.mapVars f :: mapVarsAll f es
end

mutual

theorem mapVars_id : ∀ e : Expr, e.mapVars id = e
  | number _ | var _ => rfl
  | signed _ operand => by rw [mapVars, mapVars_id operand]
  | binary _ left right => by rw [mapVars, mapVars_id left, mapVars_id right]
  | call _ arguments => by rw [mapVars, mapVarsAll_id arguments]

theorem mapVarsAll_id : ∀ es : List Expr, mapVarsAll id es = es
  | [] => rfl
  | e :: es => by rw [mapVarsAll, mapVars_id e, mapVarsAll_id es]

end

end Expr

namespace Grammar
open GraphCalc.Parse GraphCalc.Token

/-! ## Alike lists -/

/-- Two lists whose first tokens are alike, or which are both empty. -/
def SameHead (f : String → String) (ts us : List Token) : Prop :=
  Option.Rel (Alike f) ts.head? us.head?

section Heads
variable {f : String → String} {ts us rest rest' : List Token} {t : Token}

theorem SameHead.append (h : List.Forall₂ (Alike f) ts us) (hrest : SameHead f rest rest') :
    SameHead f (ts ++ rest) (us ++ rest') := by
  cases h with
  | nil => exact hrest
  | cons h _ => exact .some h

theorem SameHead.eq_nil (h : SameHead f [] us) : us = [] := by
  cases us with
  | nil => rfl
  | cons t us => cases h

theorem SameHead.eq_cons {kind : Kind} {text : String} {p : ℕ} (h : SameHead f (⟨kind, text, p⟩ :: ts) us) :
    ∃ text' p' rest, us = ⟨kind, text', p'⟩ :: rest ∧
      text' = if kind = .name then f text else text := by
  cases us with
  | nil => cases h
  | cons u rest =>
    obtain ⟨kind', text', p'⟩ := u
    obtain ⟨h⟩ := h
    obtain rfl : kind' = kind := h.kind
    exact ⟨text', p', rest, rfl, h.text⟩

theorem exists_of_forall₂_append (h : List.Forall₂ (Alike f) (ts ++ rest) us) :
    ∃ ts' rest', us = ts' ++ rest' ∧ List.Forall₂ (Alike f) ts ts' ∧
      List.Forall₂ (Alike f) rest rest' := by
  induction ts generalizing us with
  | nil => exact ⟨[], us, rfl, .nil, h⟩
  | cons t ts ih =>
    obtain ⟨u, us, hu, hus, rfl⟩ := List.forall₂_cons_left_iff.mp h
    obtain ⟨ts', rest', rfl, hts, hrest⟩ := ih hus
    exact ⟨u :: ts', rest', rfl, .cons hu hts, hrest⟩

end Heads

/-! ## Local answers -/

/-- The position of the next token. -/
def place (finish : ℕ) (rest : List Token) : ℕ := (rest.head?.map Token.position).getD finish

/-- The answer `x` at the cursor `c` depends on the tokens up to a place and the one behind it: on
any list that is alike so far, `r'` reads the same over as many tokens, or refuses for the same kind
of reason. A refusal is reported at that place. -/
def Local {α : Type} (f : String → String) (g : α → α) (finish : ℕ) (c : Cursor)
    (x : Except ParseError (Reading α)) (r' : Cursor → Except ParseError (Reading α)) : Prop :=
  match x with
  | .ok (a, d) => ∃ us, c.ahead = us ++ d.ahead ∧ ∀ us' rest', List.Forall₂ (Alike f) us us' →
      SameHead f d.ahead rest' → r' ⟨c.afterNumber, us' ++ rest'⟩ = .ok (g a, ⟨d.afterNumber, rest'⟩)
  | .error e => ∃ us rest, c.ahead = us ++ rest ∧
      e.position = place finish rest ∧
      ∀ us' rest', List.Forall₂ (Alike f) us us' → SameHead f rest rest' →
        ∃ e', r' ⟨c.afterNumber, us' ++ rest'⟩ = .error e' ∧ e'.isNesting = e.isNesting

section Answers
variable {α β : Type} {f : String → String} {g : α → α} {k : β → β} {finish finish' : ℕ} {c : Cursor}

/-- What comes after a reading is local if it is so behind what was read. -/
theorem Local.bind {x : Except ParseError (Reading α)} {r' : Cursor → Except ParseError (Reading α)}
    {y w : Reading α → Except ParseError (Reading β)} (h : Local f g finish c x r')
    (hy : ∀ a d, x = .ok (a, d) → Local f k finish d (y (a, d)) fun c' => w (g a, c')) :
    Local f k finish c (x >>= y) fun c' => r' c' >>= w := by
  cases x with
  | error e =>
    obtain ⟨us, rest, hc, hplace, hlike⟩ := h
    refine ⟨us, rest, hc, hplace, fun us' rest' hus hrest => ?_⟩
    obtain ⟨e', he', hdeep⟩ := hlike us' rest' hus hrest
    exact ⟨e', by dsimp only; rw [he']; rfl, hdeep⟩
  | ok x =>
    obtain ⟨a, d⟩ := x
    obtain ⟨us, hc, hlike⟩ := h
    have hnext := hy a d rfl
    -- Lists alike up to a place behind `d` are alike up to `d` and from there on.
    have hsplit {vs rest ws' rest' : List Token} (hd : d.ahead = vs ++ rest)
        (hws : List.Forall₂ (Alike f) (us ++ vs) ws') (hrest : SameHead f rest rest') :
        ∃ vs', List.Forall₂ (Alike f) vs vs' ∧
          r' ⟨c.afterNumber, ws' ++ rest'⟩ = .ok (g a, ⟨d.afterNumber, vs' ++ rest'⟩) := by
      obtain ⟨us', vs', rfl, hus, hvs⟩ := exists_of_forall₂_append hws
      refine ⟨vs', hvs, ?_⟩
      rw [List.append_assoc]
      exact hlike us' _ hus (hd ▸ hrest.append hvs)
    cases hz : y (a, d) with
    | error e =>
      rw [hz] at hnext
      obtain ⟨vs, rest, hd, hplace, hlike'⟩ := hnext
      change Local f k finish c (y (a, d)) _
      rw [hz]
      refine ⟨us ++ vs, rest, by rw [hc, hd, List.append_assoc], hplace, ?_⟩
      intro ws' rest' hws hrest
      obtain ⟨vs', hvs, hread⟩ := hsplit hd hws hrest
      dsimp only
      rw [hread]
      exact hlike' vs' rest' hvs hrest
    | ok z =>
      rw [hz] at hnext
      obtain ⟨vs, hd, hlike'⟩ := hnext
      change Local f k finish c (y (a, d)) _
      rw [hz]
      refine ⟨us ++ vs, by rw [hc, hd, List.append_assoc], ?_⟩
      intro ws' rest' hws hrest
      obtain ⟨vs', hvs, hread⟩ := hsplit hd hws hrest
      dsimp only
      rw [hread]
      exact hlike' vs' rest' hvs hrest

theorem Local.done (a : α) : Local f g finish c (.ok (a, c)) fun c' => .ok (g a, c') :=
  ⟨[], rfl, fun us' rest' hus _ => by cases hus; rfl⟩

theorem Local.map {x : Except ParseError (Reading α)} {r' : Cursor → Except ParseError (Reading α)}
    (h : Local f g finish c x r') {u v : α → β} (huv : ∀ a, v (g a) = k (u a)) :
    Local f k finish c (x >>= fun z => pure (u z.1, z.2)) fun c' =>
      r' c' >>= fun z => pure (v z.1, z.2) :=
  h.bind fun a d _ => by
    dsimp only
    rw [huv a]
    exact Local.done (u a)

/-- Only the answers on lists with the same head matter. -/
theorem Local.congr {x : Except ParseError (Reading α)}
    {r r' : Cursor → Except ParseError (Reading α)} (h : Local f g finish c x r)
    (hr : ∀ ts, SameHead f c.ahead ts → r' ⟨c.afterNumber, ts⟩ = r ⟨c.afterNumber, ts⟩) :
    Local f g finish c x r' := by
  cases x with
  | ok x =>
    obtain ⟨us, hc, hlike⟩ := h
    refine ⟨us, hc, fun us' rest' hus hrest => ?_⟩
    rw [hr _ (hc ▸ hrest.append hus)]
    exact hlike us' rest' hus hrest
  | error e =>
    obtain ⟨us, rest, hc, hplace, hlike⟩ := h
    refine ⟨us, rest, hc, hplace, fun us' rest' hus hrest => ?_⟩
    rw [hr _ (hc ▸ hrest.append hus)]
    exact hlike us' rest' hus hrest

/-- What is answered behind a token is answered in front of it. -/
theorem Local.skip {x : Except ParseError (Reading α)} {r' : Cursor → Except ParseError (Reading α)}
    {b b' : Bool} {t : Token} {rest : List Token} (h : Local f g finish ⟨b, rest⟩ x r') :
    Local f g finish ⟨b', t :: rest⟩ x fun c' => r' ⟨b, c'.ahead.tail⟩ := by
  cases x with
  | ok x =>
    obtain ⟨us, hc, hlike⟩ := h
    obtain rfl : rest = us ++ x.2.ahead := hc
    refine ⟨t :: us, rfl, fun us' rest' hus hrest => ?_⟩
    obtain ⟨u, us', -, htail, rfl⟩ := List.forall₂_cons_left_iff.mp hus
    exact hlike us' rest' htail hrest
  | error e =>
    obtain ⟨us, behind, hc, hplace, hlike⟩ := h
    obtain rfl : rest = us ++ behind := hc
    refine ⟨t :: us, behind, rfl, hplace, fun us' rest' hus hrest => ?_⟩
    obtain ⟨u, us', -, htail, rfl⟩ := List.forall₂_cons_left_iff.mp hus
    exact hlike us' rest' htail hrest

theorem Local.refuse {e : ParseError} {r' : Cursor → Except ParseError (Reading α)}
    (he : e.position = place finish c.ahead)
    (h : ∀ ts, SameHead f c.ahead ts →
      ∃ e', r' ⟨c.afterNumber, ts⟩ = .error e' ∧ e'.isNesting = e.isNesting) :
    Local f g finish c (.error e) r' := by
  refine ⟨[], c.ahead, rfl, he, fun us' rest' hus hrest => ?_⟩
  cases hus
  exact h rest' hrest

/-! ### Tests of the next token -/

theorem operator?_sameHead {ts : List Token} (h : SameHead f c.ahead ts) (among : List Operator)
    (b : Bool) : Cursor.operator? among ⟨b, ts⟩ =
      (c.operator? among).map fun x => (x.1, ⟨false, ts.tail⟩) := by
  obtain ⟨b', ahead⟩ := c
  cases ahead with
  | nil => rw [h.eq_nil]; rfl
  | cons t ahead =>
    obtain ⟨kind, text, p⟩ := t
    obtain ⟨text', p', us, rfl, htext⟩ := h.eq_cons
    cases kind <;> simp_all [Cursor.operator?, Function.comp_def]

theorem sign?_sameHead {ts : List Token} (h : SameHead f c.ahead ts) (b : Bool) :
    Cursor.sign? ⟨b, ts⟩ = c.sign?.map fun x => (x.1, ⟨false, ts.tail⟩) := by
  obtain ⟨b', ahead⟩ := c
  cases ahead with
  | nil => rw [h.eq_nil]; rfl
  | cons t ahead =>
    obtain ⟨kind, text, p⟩ := t
    obtain ⟨text', p', us, rfl, htext⟩ := h.eq_cons
    cases kind <;> simp_all [Cursor.sign?, Function.comp_def]

theorem juxtaposed_sameHead {ts : List Token} (h : SameHead f c.ahead ts) :
    Cursor.juxtaposed ⟨c.afterNumber, ts⟩ = c.juxtaposed := by
  obtain ⟨b', ahead⟩ := c
  cases ahead with
  | nil => rw [h.eq_nil]
  | cons t ahead =>
    obtain ⟨kind, text, p⟩ := t
    obtain ⟨text', p', us, rfl, htext⟩ := h.eq_cons
    cases kind <;> rfl

theorem operator?_tail {among : List Operator} {x : Operator × Cursor}
    (h : c.operator? among = some x) : ∃ t, c.ahead = t :: x.2.ahead ∧ x.2.afterNumber = false := by
  obtain ⟨-, hnumber, p, hahead⟩ := operator?_eq_some h
  exact ⟨_, hahead, hnumber⟩

theorem sign?_tail {x : Sign × Cursor} (h : c.sign? = some x) :
    ∃ t, c.ahead = t :: x.2.ahead ∧ x.2.afterNumber = false := by
  obtain ⟨-, p, hahead⟩ := sign?_eq_some h
  refine ⟨_, hahead, ?_⟩
  unfold Cursor.sign? at h
  split at h
  · obtain ⟨sign, -, rfl⟩ := Option.map_eq_some_iff.mp h
    rfl
  · cases h

/-- What is answered at the cursor behind a token is answered in front of it. -/
theorem Local.behind {x : Except ParseError (Reading α)} {r' : Cursor → Except ParseError (Reading α)}
    {t : Token} {d : Cursor} (h : Local f g finish d x r') (hc : c.ahead = t :: d.ahead)
    (hnumber : d.afterNumber = false) : Local f g finish c x fun c' => r' ⟨false, c'.ahead.tail⟩ := by
  obtain ⟨b, ahead⟩ := c
  obtain ⟨b', rest⟩ := d
  obtain rfl : ahead = t :: rest := hc
  obtain rfl : b' = false := hnumber
  exact h.skip

theorem Local.close (what : Wanted) (a : α) :
    Local f g finish c (c.close finish what >>= fun d => pure (a, d)) fun c' =>
      c'.close finish' what >>= fun d => pure (g a, d) := by
  obtain ⟨b, ahead⟩ := c
  cases ahead with
  | nil =>
    refine .refuse rfl fun ts hts => ?_
    rw [hts.eq_nil]
    exact ⟨_, rfl, rfl⟩
  | cons t rest =>
    obtain ⟨kind, text, p⟩ := t
    cases kind with
    | closing =>
      refine Local.congr (Local.skip (Local.done (c := ⟨false, rest⟩) a)) fun ts hts => ?_
      obtain ⟨text', p', us, rfl, -⟩ := hts.eq_cons
      rfl
    | _ =>
      refine .refuse rfl fun ts hts => ?_
      obtain ⟨text', p', us, rfl, -⟩ := hts.eq_cons
      exact ⟨_, rfl, rfl⟩

end Answers

/-! ## Repetition -/

section Repetition
variable {f : String → String} {finish finish' : ℕ}

/-- A step of a repetition takes tokens away. -/
structure Advances (more : Cursor → Option (Except ParseError (Reading (Operator × Expr)))) : Prop where
  nil : ∀ b, more ⟨b, []⟩ = none
  shorter : ∀ c x, more c = some (.ok x) → x.2.ahead.length < c.ahead.length

variable {more more' : Cursor → Option (Except ParseError (Reading (Operator × Expr)))}

/-- With a step for each token ahead, a repetition goes on as long as it can. -/
theorem Advances.extend_eq (h : Advances more) {steps : ℕ} (left : Expr) (c : Cursor)
    (hsteps : c.ahead.length ≤ steps) :
    extend more steps left c =
      match more c with
      | none => .ok (left, c)
      | some r => r >>= fun x => extend more x.2.ahead.length (.binary x.1.1 left x.1.2) x.2 := by
  induction steps using Nat.strong_induction_on generalizing left c with
  | _ steps ih =>
    cases steps with
    | zero =>
      obtain ⟨b, ahead⟩ := c
      obtain rfl : ahead = [] := List.length_eq_zero_iff.mp (Nat.le_zero.mp hsteps)
      rw [h.nil]
      rfl
    | succ steps =>
      rw [extend]
      cases hr : more c with
      | none => rfl
      | some r =>
        cases r with
        | error e => rfl
        | ok x =>
          have hlength := h.shorter c x hr
          obtain ⟨⟨operator, right⟩, d⟩ := x
          dsimp only at hlength
          have hfirst := ih steps (by omega) (.binary operator left right) d (by omega)
          have hagain := ih d.ahead.length (by omega) (.binary operator left right) d (Nat.le_refl _)
          exact hfirst.trans hagain.symm

/-- Two repetitions go on alike at a cursor: both stop, or both take a step. -/
inductive StepsAlike (f : String → String) (finish : ℕ)
    (more more' : Cursor → Option (Except ParseError (Reading (Operator × Expr)))) (c : Cursor) :
    Prop where
  | stop (h : more c = none)
      (h' : ∀ ts, SameHead f c.ahead ts → more' ⟨c.afterNumber, ts⟩ = none)
  | step {r r'} (h : more c = some r)
      (h' : ∀ ts, SameHead f c.ahead ts →
        more' ⟨c.afterNumber, ts⟩ = some (r' ⟨c.afterNumber, ts⟩))
      (hlocal : Local f (Prod.map id (Expr.mapVars f)) finish c r r')

theorem Local.loop (hadvances : Advances more) (hadvances' : Advances more')
    (hsteps : ∀ c, StepsAlike f finish more more' c) (left : Expr) (c : Cursor) :
    Local f (Expr.mapVars f) finish c (extend more c.ahead.length left c)
      fun c' => extend more' c'.ahead.length (left.mapVars f) c' := by
  induction hlength : c.ahead.length using Nat.strong_induction_on generalizing left c with
  | _ length ih =>
    subst hlength
    rw [hadvances.extend_eq left c (Nat.le_refl _)]
    cases hsteps c with
    | stop h h' =>
      rw [h]
      refine (Local.done left).congr fun ts hts => ?_
      rw [hadvances'.extend_eq _ _ (Nat.le_refl _), h' ts hts]
    | @step r r' h h' hlocal =>
      rw [h]
      have hbind := hlocal.bind (k := Expr.mapVars f)
        (y := fun x => extend more x.2.ahead.length (.binary x.1.1 left x.1.2) x.2)
        (w := fun x => extend more' x.2.ahead.length (.binary x.1.1 (left.mapVars f) x.1.2) x.2)
        fun a d hr => ih _ (hadvances.shorter c (a, d) (by rw [h, hr])) (.binary a.1 left a.2) d rfl
      refine hbind.congr fun ts hts => ?_
      rw [hadvances'.extend_eq _ _ (Nat.le_refl _), h' ts hts]

/-! ### Arguments -/

/-- What comes behind an argument: a comma and the others, or the end of the list. -/
def behindArgument (finish : ℕ) (others : Cursor → Except ParseError (Reading (List Expr)))
    (x : Reading Expr) : Except ParseError (Reading (List Expr)) :=
  match x.2.ahead with
  | ⟨.comma, _, _⟩ :: rest => others ⟨false, rest⟩ >>= fun y => pure (x.1 :: y.1, y.2)
  | _ => x.2.close finish .commaOrClosing >>= fun d => pure ([x.1], d)

section Behind
variable {others : Cursor → Except ParseError (Reading (List Expr))} {a : Expr} {d : Cursor}

theorem behindArgument_comma {text : String} {p : ℕ} {rest : List Token}
    (h : d.ahead = ⟨.comma, text, p⟩ :: rest) : behindArgument finish others (a, d) =
      others ⟨false, rest⟩ >>= fun y => pure (a :: y.1, y.2) := by
  simp only [behindArgument, h]

theorem behindArgument_close (h : ∀ text p rest, d.ahead = ⟨.comma, text, p⟩ :: rest → False) :
    behindArgument finish others (a, d) =
      d.close finish .commaOrClosing >>= fun d' => pure ([a], d') := by
  unfold behindArgument
  split
  · next text p rest hd => exact (h text p rest hd).elim
  · rfl

end Behind

/-- Whether a list of arguments is at an end where one is wanted. -/
def endsArguments (ts : List Token) : Bool :=
  match ts with
  | ⟨.comma, _, _⟩ :: _ => true
  | ⟨.closing, _, _⟩ :: _ => true
  | _ => false

section Arguments
variable {argument argument' : Cursor → Except ParseError (Reading Expr)}

theorem arguments_eq (steps : ℕ) (c : Cursor) : arguments finish argument (steps + 1) c =
    if endsArguments c.ahead then .error (.emptyArgument (c.position finish))
    else argument c >>= behindArgument finish (arguments finish argument steps) := by
  rw [arguments.eq_def]
  obtain ⟨b, ahead⟩ := c
  cases ahead with
  | nil => rfl
  | cons t rest =>
    obtain ⟨kind, text, p⟩ := t
    cases kind <;> rfl

theorem endsArguments_sameHead {ts us : List Token} (h : SameHead f ts us) :
    endsArguments us = endsArguments ts := by
  cases ts with
  | nil => rw [h.eq_nil]
  | cons t ts =>
    obtain ⟨kind, text, p⟩ := t
    obtain ⟨text', p', us, rfl, htext⟩ := h.eq_cons
    cases kind <;> rfl

/-- With more steps than tokens ahead, the number of steps plays no part. -/
theorem arguments_steps
    (hargument : ∀ c x, argument c = .ok x → x.2.ahead.length < c.ahead.length) :
    ∀ n m c, c.ahead.length < n → c.ahead.length < m →
      arguments finish argument n c = arguments finish argument m c
  | 0, _, _, hn, _ => absurd hn (Nat.not_lt_zero _)
  | _, 0, _, _, hm => absurd hm (Nat.not_lt_zero _)
  | n + 1, m + 1, c, hn, hm => by
    rw [arguments_eq, arguments_eq]
    cases hfirst : argument c with
    | error e => rfl
    | ok x =>
      have hlength := hargument c x hfirst
      have hbehind : behindArgument finish (arguments finish argument n) x =
          behindArgument finish (arguments finish argument m) x := by
        unfold behindArgument
        split
        · next text p rest hd =>
          rw [hd, List.length_cons] at hlength
          rw [arguments_steps hargument n m ⟨false, rest⟩ (by dsimp only; omega) (by dsimp only; omega)]
        · rfl
      exact congrArg _ hbehind

theorem Local.behindArgument {others others' : Cursor → Except ParseError (Reading (List Expr))}
    {a : Expr} {d : Cursor}
    (hothers : ∀ text p rest, d.ahead = ⟨.comma, text, p⟩ :: rest →
      Local f (Expr.mapVarsAll f) finish ⟨false, rest⟩ (others ⟨false, rest⟩) others') :
    Local f (Expr.mapVarsAll f) finish d (Grammar.behindArgument finish others (a, d)) fun c' =>
      Grammar.behindArgument finish' others' (a.mapVars f, c') := by
  obtain ⟨b, ahead⟩ := d
  have hclose : Local f (Expr.mapVarsAll f) finish ⟨b, ahead⟩
      (Cursor.close finish .commaOrClosing ⟨b, ahead⟩ >>= fun d => pure ([a], d))
      fun c' => c'.close finish' .commaOrClosing >>= fun d => pure ([a.mapVars f], d) :=
    Local.close .commaOrClosing [a]
  cases ahead with
  | nil => exact hclose.congr fun ts hts => by rw [hts.eq_nil]; rfl
  | cons t rest =>
    obtain ⟨kind, text, p⟩ := t
    cases kind with
    | comma =>
      have hmore := (hothers text p rest rfl).map (k := Expr.mapVarsAll f) (u := (a :: ·))
        (v := (a.mapVars f :: ·)) fun _ => rfl
      refine hmore.skip.congr fun ts hts => ?_
      obtain ⟨text', p', us, rfl, -⟩ := hts.eq_cons
      rfl
    | _ =>
      refine hclose.congr fun ts hts => ?_
      obtain ⟨text', p', us, rfl, -⟩ := hts.eq_cons
      rfl

theorem Local.arguments
    (hargument : ∀ c x, argument c = .ok x → x.2.ahead.length < c.ahead.length)
    (hargument' : ∀ c x, argument' c = .ok x → x.2.ahead.length < c.ahead.length)
    (hlocal : ∀ c, Local f (Expr.mapVars f) finish c (argument c) argument') (c : Cursor) :
    Local f (Expr.mapVarsAll f) finish c (Parse.arguments finish argument (c.ahead.length + 1) c)
      fun c' => Parse.arguments finish' argument' (c'.ahead.length + 1) c' := by
  induction hlength : c.ahead.length using Nat.strong_induction_on generalizing c with
  | _ length ih =>
    subst hlength
    rw [arguments_eq]
    split
    · next hends =>
      refine .refuse rfl fun ts hts => ?_
      rw [arguments_eq, if_pos (by rw [endsArguments_sameHead hts, hends])]
      exact ⟨_, rfl, rfl⟩
    · next hends =>
      have hbind := (hlocal c).bind (k := Expr.mapVarsAll f)
        (y := Grammar.behindArgument finish (Parse.arguments finish argument c.ahead.length))
        (w := Grammar.behindArgument finish' fun c' =>
          Parse.arguments finish' argument' (c'.ahead.length + 1) c')
        fun a d hr => .behindArgument fun text p rest hd => by
          have hshorter := hargument c (a, d) hr
          dsimp only at hshorter
          rw [hd, List.length_cons] at hshorter
          rw [arguments_steps hargument c.ahead.length (rest.length + 1) ⟨false, rest⟩
            (by dsimp only; omega) (by dsimp only; omega)]
          exact ih rest.length (by omega) ⟨false, rest⟩ rfl
      refine hbind.congr fun ts hts => ?_
      rw [arguments_eq, if_neg (by rwa [endsArguments_sameHead hts])]
      cases hfirst : argument' ⟨c.afterNumber, ts⟩ with
      | error e => rfl
      | ok x =>
        have hshorter := hargument' _ x hfirst
        have hbehind : Grammar.behindArgument finish' (Parse.arguments finish' argument' ts.length) x =
            Grammar.behindArgument finish'
              (fun c' => Parse.arguments finish' argument' (c'.ahead.length + 1) c') x := by
          unfold Grammar.behindArgument
          split
          · next text p rest hd =>
            rw [hd, List.length_cons] at hshorter
            rw [arguments_steps hargument' ts.length (rest.length + 1) ⟨false, rest⟩
              (by dsimp only at *; omega) (by dsimp only; omega)]
          · rfl
        exact hbehind

end Arguments
end Repetition

end Grammar
end GraphCalc
