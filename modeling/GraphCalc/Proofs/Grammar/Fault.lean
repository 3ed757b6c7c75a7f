import GraphCalc.Proofs.Grammar.LookAhead

/-! # The place of a fault

A text is refused at the first token that cannot stand where it stands. What stands before the token
can be completed, by closing what is open, and nothing behind the token can make up for it. Main
notions and statements:

* `Blames`: a refusal reports a place up to which the tokens can be completed;
* `Answers`: a routine read what the grammar derives, or blamed a token;
* `Judged.of_room`: every routine answers so;
* `Accepted`: a token list that is read in some room;
* `fault_at_first_impossible_token`: where a fault is reported, and what that says of the tokens.
-/

namespace GraphCalc.Grammar
open GraphCalc.Parse GraphCalc.Token
set_option autoImplicit false

/-! ## Blame -/

section Blame
variable {α β : Type} {finish : ℕ} {level : List Token → α → Prop} {level' : List Token → β → Prop}
  {c d : Cursor} {e : ParseError}

/-- The refusal is a matter of nesting, or it is reported at a place up to which the tokens are the
start of what the level derives. -/
def Blames {α : Type} (finish : ℕ) (level : List Token → α → Prop) (c : Cursor) (e : ParseError) :
    Prop :=
  e.isNesting = true ∨ ∃ us rest more a, c.ahead = us ++ rest ∧
    e.position = place finish rest ∧ level (us ++ more) a

theorem Blames.append (h : Blames finish level d e) (before : List Token)
    (hc : c.ahead = before ++ d.ahead)
    (hlevel : ∀ us rest more a, d.ahead = us ++ rest → level (us ++ more) a →
      ∃ more' b, level' (before ++ us ++ more') b) : Blames finish level' c e := by
  rcases h with hdeep | ⟨us, rest, more, a, hd, hplace, hlevel'⟩
  · exact .inl hdeep
  · obtain ⟨more', b, hb⟩ := hlevel us rest more a hd hlevel'
    exact .inr ⟨before ++ us, rest, more', b, by rw [hc, hd, List.append_assoc], hplace, hb⟩

theorem Blames.mono (h : Blames finish level c e) (hlevel : ∀ ts a, level ts a → ∃ b, level' ts b) :
    Blames finish level' c e :=
  h.append [] rfl fun _ _ more a _ hus => ⟨more, hlevel _ a hus⟩

/-- A routine read what the level derives, or it blamed a token. -/
def Answers {α : Type} (callable : String → Bool) (finish : ℕ) (level : List Token → α → Prop)
    (c : Cursor) : Except ParseError (Reading α) → Prop
  | .ok (a, d) => Read callable level c a d
  | .error e => Blames finish level c e

variable {callable : String → Bool}

theorem Answers.bind {r : Except ParseError (Reading α)}
    {f : Reading α → Except ParseError (Reading β)} (h : Answers callable finish level d r)
    (herror : ∀ e, Blames finish level d e → Blames finish level' c e)
    (hf : ∀ a d', Read callable level d a d' → Answers callable finish level' c (f (a, d'))) :
    Answers callable finish level' c (r >>= f) := by
  cases r with
  | error e => exact herror e h
  | ok x => exact hf x.1 x.2 h

theorem Answers.mono {level' : List Token → α → Prop} {r : Except ParseError (Reading α)}
    (h : Answers callable finish level c r) (hlevel : ∀ ts a, level ts a → level' ts a) :
    Answers callable finish level' c r := by
  cases r with
  | error e => exact Blames.mono h fun ts a hts => ⟨a, hlevel ts a hts⟩
  | ok x => exact Read.mono h fun ts => hlevel ts x.1

/-- A routine that is called behind some tokens: what it reads and what it blames, put behind them. -/
theorem Answers.append {r : Except ParseError (Reading α)} {u : α → β}
    (h : Answers callable finish level d r) (before : List Token) (hc : c.ahead = before ++ d.ahead)
    (hne : ∀ ts a, level ts a → ts ≠ [])
    (hread : ∀ ts a rest, d.ahead = ts ++ rest → level ts a → level' (before ++ ts) (u a))
    (hblame : ∀ us rest more a, d.ahead = us ++ rest → level (us ++ more) a →
      ∃ more' b, level' (before ++ us ++ more') b) :
    Answers callable finish level' c (r >>= fun x => pure (u x.1, x.2)) :=
  h.bind (fun _ he => he.append before hc hblame) fun a _ ha =>
    ha.append before hc (fun ts => hne ts a) fun ts hts hahead => hread ts a _ hahead hts

end Blame

/-! ### Repetition -/

section Repetition
variable {callable : String → Bool} {finish : ℕ} {level : List Token → Expr → Prop} {c₀ : Cursor}

theorem extend_answers {more : Cursor → Option (Except ParseError (Reading (Operator × Expr)))}
    (hmore : ∀ left c r, Read callable level c₀ left c → more c = some r →
      Answers callable finish level c₀ (extended left r)) :
    ∀ steps left c, Read callable level c₀ left c →
      Answers callable finish level c₀ (extend more steps left c)
  | 0, _, _, hread => hread
  | steps + 1, left, c, hread => by
      unfold extend
      cases hr : more c with
      | none => exact hread
      | some r =>
        have hstep := hmore left c r hread hr
        cases r with
        | error e => exact hstep
        | ok x => exact extend_answers hmore steps _ _ hstep

end Repetition

/-! ## Completions -/

/-- A token that closes what is open. -/
def closing : Token := ⟨.closing, ")", 0⟩

/-- A token that is an operand. -/
def one : Token := ⟨.number 1, "1", 0⟩

section Completions
variable {callable : String → Bool} {finish : ℕ}

theorem isAtom_one : IsAtom callable [one] (.number 1) := .number

theorem isSum_one : IsSum callable [one] (.number 1) := .product (.signed (.power (.atom isAtom_one)))

theorem areClosedArguments_one : AreClosedArguments callable [one, closing] [.number 1] :=
  ⟨[one], ")", 0, rfl, .last isSum_one⟩

theorem AreClosedArguments.ne_nil {ts : List Token} {es : List Expr}
    (h : AreClosedArguments callable ts es) : ts ≠ [] := by
  obtain ⟨inside, text, p, rfl, -⟩ := h
  simp

/-- A missing closing bracket, behind what it should close. -/
theorem answers_close {α : Type} {level : List Token → α → Prop} {before : List Token} {a : α}
    {c d : Cursor} (what : Wanted) (hc : c.ahead = before ++ d.ahead)
    (hclose : ∀ text p, level (before ++ [⟨.closing, text, p⟩]) a) :
    Answers callable finish level c (d.close finish what >>= fun d' => pure (a, d')) := by
  rcases close_cases finish what d with ⟨text, p, rest, hd, hok⟩ | ⟨found, position, herror⟩
  · rw [hok]
    refine ⟨before ++ [⟨.closing, text, p⟩], hclose text p, by simp [hc, hd], ?_, ?_⟩
    · simp [endsInNumber]
    · simp [MayFollow, endsInHead]
  · have hposition : (ParseError.expected what found position).position =
        place finish d.ahead := by
      unfold Cursor.close at herror
      split at herror
      · cases herror
      · cases herror
        rfl
    rw [herror]
    exact .inr ⟨before, d.ahead, [closing], a, hc, hposition, hclose ")" 0⟩

theorem arguments_answers {argument : Cursor → Except ParseError (Reading Expr)}
    (hargument : ∀ c, Answers callable finish (IsSum callable) c (argument c)) :
    ∀ steps c, Answers callable finish (AreClosedArguments callable) c
      (Parse.arguments finish argument steps c)
  | 0, c => .inr ⟨[], c.ahead, _, _, rfl, rfl, areClosedArguments_one⟩
  | steps + 1, c => by
    rw [arguments_eq]
    split
    · exact .inr ⟨[], c.ahead, _, _, rfl, rfl, areClosedArguments_one⟩
    refine (hargument c).bind (fun e he => he.append [] rfl fun us rest more a _ hus => ?_) ?_
    · exact ⟨more ++ [closing], [a], us ++ more, ")", 0, by simp [closing], .last hus⟩
    rintro e d ⟨ts, hts, hahead, -, -⟩
    unfold behindArgument
    dsimp only
    split
    · next text p rest hd =>
      refine (arguments_answers hargument steps ⟨false, rest⟩).append (ts ++ [⟨.comma, text, p⟩])
        (u := (e :: ·)) (by simp [hahead, hd]) (fun _ _ h => h.ne_nil) ?_ ?_
      · rintro us es - - ⟨inside, text', p', rfl, hinside⟩
        exact ⟨ts ++ ⟨.comma, text, p⟩ :: inside, text', p', by simp, .more hts hinside⟩
      · rintro us - more es - ⟨inside, text', p', hclosed, hinside⟩
        exact ⟨more, e :: es, ts ++ ⟨.comma, text, p⟩ :: inside, text', p', by simp [hclosed],
          .more hts hinside⟩
    · exact answers_close .commaOrClosing hahead fun text p => ⟨ts, text, p, rfl, .last hts⟩

end Completions

/-! ## The levels -/

/-- What the arguments of a call are behind its opening bracket. -/
def AreBracketed (callable : String → Bool) (ts : List Token) (es : List Expr) : Prop :=
  AreClosedArguments callable ts es ∨ es = [] ∧ ∃ text p, ts = [⟨.closing, text, p⟩]

theorem AreBracketed.ne_nil {callable : String → Bool} {ts : List Token} {es : List Expr}
    (h : AreBracketed callable ts es) : ts ≠ [] := by
  rcases h with hts | ⟨-, text, p, rfl⟩
  · exact hts.ne_nil
  · simp

/-- Every routine reads or blames, in a given room. -/
structure Judged (callable : String → Bool) (finish room : ℕ) : Prop where
  sum c : Answers callable finish (IsSum callable) c (Parse.sum callable finish room c)
  product c : Answers callable finish (IsProduct callable) c (Parse.product callable finish room c)
  signed c : Answers callable finish (IsSigned callable) c (Parse.signed callable finish room c)
  power c : Answers callable finish (IsPower callable) c (Parse.power callable finish room c)
  atom c : Answers callable finish (IsAtom callable) c (Parse.atom callable finish room c)
  bracketed c :
    Answers callable finish (AreBracketed callable) c (Parse.bracketed callable finish room c)

section Levels
variable {callable : String → Bool} {finish room : ℕ}

theorem Judged.signed_succ (h : Judged callable finish room) (c : Cursor) :
    Answers callable finish (IsSigned callable) c (Parse.signed callable finish (room + 1) c) := by
  rw [Parse.signed]
  cases hsign : c.sign? with
  | none => exact (h.power c).mono fun ts e hts => .power hts
  | some x =>
    obtain ⟨known, p, hahead⟩ := sign?_eq_some hsign
    refine (h.signed x.2).append [⟨.operator, x.1.symbol, p⟩] (u := Expr.signed x.1) (by simp [hahead])
      (fun _ _ hts => hts.ne_nil) ?_ ?_
    · exact fun ts e _ _ hts => .sign known hts
    · exact fun us _ more e _ hus => ⟨more, .signed x.1 e, .sign known hus⟩

/-- An operator and what stands behind it, behind what stands before it. -/
theorem Answers.join {level level' : List Token → Expr → Prop}
    {operator : Operator} {p : ℕ} {ts : List Token} {left : Expr} {c d d' : Cursor}
    {r : Except ParseError (Reading Expr)} (h : Answers callable finish level d' r)
    (hc : c.ahead = ts ++ d.ahead) (hd : d.ahead = ⟨.operator, operator.symbol, p⟩ :: d'.ahead)
    (hstarts : ∀ us a, level us a → startsTerm us = true)
    (hlevel : ∀ us a, level us a →
      level' (ts ++ ⟨.operator, operator.symbol, p⟩ :: us) (.binary operator left a)) :
    Answers callable finish level' c (r >>= fun x => pure (.binary operator left x.1, x.2)) := by
  refine h.append (ts ++ [⟨.operator, operator.symbol, p⟩]) (u := Expr.binary operator left)
    (by simp [hc, hd]) (fun us a hus => ne_nil_of_startsTerm (hstarts us a hus)) ?_ ?_
  · intro us a _ _ hus
    rw [List.append_assoc]
    exact hlevel us a hus
  · intro us _ more a _ hus
    refine ⟨more, .binary operator left a, ?_⟩
    simpa using hlevel _ a hus

theorem Judged.sum_succ (h : Judged callable finish room) (c : Cursor) :
    Answers callable finish (IsSum callable) c (Parse.sum callable finish (room + 1) c) := by
  rw [Grammar.sum_succ]
  have hfirst := (h.product c).mono fun ts e hts => IsSum.product hts
  refine hfirst.bind (fun e he => he) fun first d hread => extend_answers ?_ _ _ _ hread
  rintro left d r ⟨ts, hts, hahead, -, -⟩ hr
  obtain ⟨⟨operator, d'⟩, hoperator, rfl⟩ := Option.map_eq_some_iff.mp hr
  obtain ⟨known, -, p, hd⟩ := operator?_eq_some hoperator
  refine (extended_bind left operator _).symm ▸ ?_
  exact (h.product d').join hahead hd (fun us e hus => hus.starts) fun us e hus => .join hts known hus

theorem Judged.product_succ (h : Judged callable finish room) (c : Cursor) :
    Answers callable finish (IsProduct callable) c (Parse.product callable finish (room + 1) c) := by
  rw [Grammar.product_succ]
  have hfirst := (h.signed c).mono fun ts e hts => IsProduct.signed hts
  refine hfirst.bind (fun e he => he) fun first d hread => extend_answers ?_ _ _ _ hread
  rintro left d r ⟨ts, hts, hahead, hnumber, hseam⟩ hr
  unfold productStep at hr
  split at hr
  · next operator d' hoperator =>
    cases hr
    obtain ⟨known, -, p, hd⟩ := operator?_eq_some hoperator
    refine (extended_bind left operator _).symm ▸ ?_
    exact (h.signed d').join hahead hd (fun us e hus => hus.starts) fun us e hus => .join hts known hus
  · split at hr
    · next hjuxtaposed =>
      cases hr
      refine (extended_bind left .multiply _).symm ▸ ?_
      refine (h.power d).append ts (u := Expr.binary .multiply left) hahead (fun us e hus => hus.ne_nil)
        ?_ ?_
      · intro us e rest hd hus
        exact .juxtapose hts hus
          (juxtaposed_of_cursor hjuxtaposed hnumber hd hus.starts (hd ▸ hseam))
      · -- If no token of the operand has been read, what stands before it is complete.
        intro us rest more e hd hus
        cases us with
        | nil => exact ⟨[], left, by simpa using hts⟩
        | cons t us =>
          refine ⟨more, .binary .multiply left e, ?_⟩
          rw [List.append_assoc]
          have hstarts := hus.starts
          have hhead : startsOperand d.ahead = true := by rw [hd]; exact hstarts
          refine .juxtapose hts hus ⟨hstarts, ?_, ?_⟩
          · have hnumbers := juxtaposed_numbers hjuxtaposed
            rwa [hnumber, hd] at hnumbers
          · rwa [hd] at hseam
    · cases hr

theorem Judged.power_succ (h : Judged callable finish room) (c : Cursor) :
    Answers callable finish (IsPower callable) c (Parse.power callable finish (room + 1) c) := by
  rw [Parse.power]
  refine (h.atom c).bind (fun e he => he.mono fun ts a hts => ⟨a, .atom hts⟩) fun base d hread => ?_
  dsimp only
  split
  · next operator d' hoperator =>
    obtain ⟨ts, hts, hahead, -, -⟩ := hread
    obtain ⟨known, -, p, hd⟩ := operator?_eq_some hoperator
    obtain rfl : operator = .power := by simpa using known
    exact (h.signed d').join hahead hd (fun us e hus => hus.starts) fun us e hus => .power hts hus
  · exact hread.mono fun ts hts => .atom hts

theorem Judged.bracketed_succ (h : Judged callable finish room) (c : Cursor) :
    Answers callable finish (AreBracketed callable) c
      (Parse.bracketed callable finish (room + 1) c) := by
  rw [Parse.bracketed]
  split
  · next text p rest hahead =>
    exact ⟨[⟨.closing, text, p⟩], .inr ⟨rfl, text, p, rfl⟩, by simp [hahead], rfl,
      by simp [MayFollow, endsInHead]⟩
  · exact (arguments_answers h.sum _ c).mono fun ts es hts => .inl hts

theorem Judged.atom_succ (h : Judged callable finish room) (c : Cursor) :
    Answers callable finish (IsAtom callable) c (Parse.atom callable finish (room + 1) c) := by
  rw [Parse.atom]
  split
  · next value text p rest hahead =>
    exact ⟨[⟨.number value, text, p⟩], .number, by simp [hahead], rfl,
      by simp [MayFollow, endsInHead]⟩
  · next name p rest hahead =>
    split
    · next text q inside =>
      split
      · next head =>
        refine (h.bracketed ⟨false, inside⟩).append [⟨.name, name, p⟩, ⟨.opening, text, q⟩]
          (u := Expr.call name) (by simp [hahead]) (fun _ _ hts => hts.ne_nil) ?_ ?_
        · rintro ts es - - (⟨inside, text', p', rfl, hinside⟩ | ⟨rfl, text', p', rfl⟩)
          · exact .call head hinside
          · exact .callEmpty head
        · rintro us - more es - (⟨inside, text', p', hclosed, hinside⟩ | ⟨rfl, text', p', hclosed⟩)
          · refine ⟨more, .call name es, ?_⟩
            simpa [hclosed] using IsAtom.call head hinside
          · refine ⟨more, .call name [], ?_⟩
            simpa [hclosed] using IsAtom.callEmpty head
      · next head =>
        exact ⟨[⟨.name, name, p⟩], .var, by simp [hahead], rfl, by simp [MayFollow, endsInHead, head]⟩
    · next hopening =>
      refine ⟨[⟨.name, name, p⟩], .var, by simp [hahead], rfl, ?_⟩
      rintro ⟨-, hstarts⟩
      obtain ⟨text, q, inside, rfl⟩ := eq_cons_of_startsWithOpening hstarts
      exact hopening text q inside rfl
  · next text p rest hahead =>
    refine (h.sum ⟨false, rest⟩).bind (fun e he => he.append [⟨.opening, text, p⟩] (by simp [hahead]) ?_) ?_
    · intro us _ more e _ hus
      refine ⟨more ++ [closing], e, ?_⟩
      simpa [closing] using IsAtom.group hus
    · rintro e d ⟨ts, hts, hrest, -, -⟩
      have hc : c.ahead = ⟨.opening, text, p⟩ :: ts ++ d.ahead := by
        rw [hahead]
        exact congrArg _ hrest
      exact answers_close .closing hc fun text' p' => .group hts
  · exact .inr ⟨[], c.ahead, _, _, rfl, rfl, isAtom_one⟩

theorem Judged.of_room : ∀ room, Judged callable finish room
  | 0 => ⟨fun _ => .inl rfl, fun _ => .inl rfl, fun _ => .inl rfl, fun _ => .inl rfl,
      fun _ => .inl rfl, fun _ => .inl rfl⟩
  | room + 1 =>
    have h := Judged.of_room room
    ⟨h.sum_succ, h.product_succ, h.signed_succ, h.power_succ, h.atom_succ, h.bracketed_succ⟩

end Levels
/-! ## Whole token lists -/

section Whole
variable {callable : String → Bool} {room : ℕ} {stream : Token.Stream} {e : ParseError}

theorem answers_readWhole (callable : String → Bool) (finish room : ℕ) (c : Cursor) :
    Answers callable finish (IsSum callable) c (readWhole callable finish room c) := by
  unfold readWhole
  split
  · next hempty =>
    have hnil : c.ahead = [] := List.isEmpty_iff.mp hempty
    exact .inr ⟨[], [], _, _, hnil, rfl, isSum_one⟩
  · refine ((Judged.of_room room).sum c).bind (fun e he => he) fun e d hread => ?_
    unfold atEnd
    split
    · exact hread
    · next t rest hd =>
      obtain ⟨ts, hts, hahead, -, -⟩ := hread
      exact .inr ⟨ts, t :: rest, [], e, by rw [hahead, hd], rfl, by rwa [List.append_nil]⟩

/-- What stands before a fault is the start of an expression. -/
theorem exists_completion (h : Expr.parseWithin room callable stream = .error e) (hdeep : e.isNesting = false) :
    ∃ us rest more a, stream.tokens = us ++ rest ∧ e.position = place stream.finish rest ∧
      IsSum callable (us ++ more) a := by
  have hanswers := answers_readWhole callable stream.finish room ⟨false, stream.tokens⟩
  rw [parseWithin_eq] at h
  cases hread : readWhole callable stream.finish room ⟨false, stream.tokens⟩ with
  | ok x => rw [hread] at h; cases h
  | error e' =>
    rw [hread] at h hanswers
    cases h
    exact hanswers.resolve_left (by simp [hdeep])

/-- A token list that is read in some room. -/
def Accepted (callable : String → Bool) (tokens : List Token) : Prop :=
  ∃ room finish e, Expr.parseWithin room callable ⟨tokens, finish⟩ = .ok e

theorem accepted_of_isSum {tokens : List Token} {a : Expr} (h : IsSum callable tokens a) :
    Accepted callable tokens :=
  ⟨_, 0, a, (parseWithin_eq_ok_iff (not_tooDeep_of_enoughRoom (Nat.le_refl _)) a).mpr h⟩

theorem not_accepted_of_error {tokens : List Token} {finish : ℕ}
    (h : Expr.parseWithin room callable ⟨tokens, finish⟩ = .error e) (hdeep : e.isNesting = false) :
    ¬ Accepted callable tokens := by
  rintro ⟨room', finish', a, hok⟩
  have hsum := isSum_of_parseWithin hok
  have hnot : ¬ TooDeep (Expr.parseWithin room callable ⟨tokens, finish⟩) := by
    rw [h, tooDeep_error_iff, hdeep]
    exact Bool.false_ne_true
  have hok' := (parseWithin_eq_ok_iff hnot a).mpr hsum
  rw [h] at hok'
  cases hok'

/-- The places of the tokens of a text and of its end are all different. -/
theorem place_lt_place {text : List Char} (hscan : scan text = .ok stream) {j k : ℕ} (hjk : j < k)
    (hk : k ≤ stream.tokens.length) :
    place stream.finish (stream.tokens.drop j) < place stream.finish (stream.tokens.drop k) := by
  obtain ⟨hrun, hfinish⟩ := scans_of_scan hscan
  have hlexed := hrun.lexed
  have hj : j < stream.tokens.length := by omega
  have hplace : place stream.finish (stream.tokens.drop j) = stream.tokens[j].position := by
    rw [place, List.head?_drop, List.getElem?_eq_getElem hj]
    rfl
  rw [hplace, place, List.head?_drop]
  rcases Nat.lt_or_ge k stream.tokens.length with hlt | hge
  · rw [List.getElem?_eq_getElem hlt]
    exact List.pairwise_iff_getElem.mp hlexed.increasing j k hj hlt hjk
  · rw [List.getElem?_eq_none hge]
    have hends := hrun.ends_le _ (List.getElem_mem hj)
    have hpos : 0 < stream.tokens[j].text.length := Nat.pos_of_ne_zero fun hzero =>
      hlexed.nonempty _ (List.getElem_mem hj) (String.length_eq_zero_iff.mp hzero)
    simp only [Option.map_none, Option.getD_none]
    omega

/-- A refusal that is no matter of nesting is reported at the place of a token or of the end. If it
is that of the token behind the first `k`, these can be completed, and no list that goes on with that
token is accepted; at the end, the list itself is not. -/
theorem fault_at_first_impossible_token {text : List Char} (hscan : scan text = .ok stream)
    (h : Expr.parseWithin room callable stream = .error e) (hdeep : e.isNesting = false) :
    (∃ k ≤ stream.tokens.length,
      e.position = place stream.finish (stream.tokens.drop k)) ∧
    ∀ k ≤ stream.tokens.length,
      e.position = place stream.finish (stream.tokens.drop k) →
        (∃ more, Accepted callable (stream.tokens.take k ++ more)) ∧
        (k < stream.tokens.length →
          ∀ more, ¬ Accepted callable (stream.tokens.take (k + 1) ++ more)) ∧
        (k = stream.tokens.length → ¬ Accepted callable stream.tokens) := by
  have hunique {j k : ℕ} (hj : j ≤ stream.tokens.length) (hk : k ≤ stream.tokens.length)
      (hplace : place stream.finish (stream.tokens.drop j) =
        place stream.finish (stream.tokens.drop k)) : j = k := by
    rcases Nat.lt_trichotomy j k with hlt | heq | hlt
    · exact absurd hplace (place_lt_place hscan hlt hk).ne
    · exact heq
    · exact absurd hplace (place_lt_place hscan hlt hj).ne'
  -- A cut of the tokens at the reported place is the cut behind the first `k`.
  have hcut {us rest : List Token} (htokens : stream.tokens = us ++ rest)
      (hplace : e.position = place stream.finish rest) {k : ℕ} (hk : k ≤ stream.tokens.length)
      (hplace' : e.position = place stream.finish (stream.tokens.drop k)) :
      us = stream.tokens.take k ∧ rest = stream.tokens.drop k := by
    have hlength : us.length ≤ stream.tokens.length := by rw [htokens]; simp
    have hrest : rest = stream.tokens.drop us.length := by rw [htokens, List.drop_left]
    have hk' : us.length = k := hunique hlength hk
      (hrest ▸ hplace.symm.trans hplace')
    exact ⟨by rw [← hk', htokens, List.take_left], by rw [hrest, hk']⟩
  obtain ⟨us, rest, htokens, hplace, hrefused⟩ :=
    refused_of_alike (f := id) (fun _ => rfl) (fun _ _ => rfl) h
  obtain ⟨us', rest', more, a, htokens', hplace', hsum⟩ := exists_completion h hdeep
  refine ⟨⟨us.length, by rw [htokens]; simp, ?_⟩, fun k hk hfault => ⟨?_, ?_, ?_⟩⟩
  · rwa [htokens, List.drop_left]
  · obtain ⟨rfl, -⟩ := hcut htokens' hplace' hk hfault
    exact ⟨more, accepted_of_isSum hsum⟩
  · intro hlt more
    obtain ⟨rfl, rfl⟩ := hcut htokens hplace hk hfault
    have hsame (t : Token) : Alike id t t := ⟨rfl, by split <;> rfl⟩
    obtain ⟨e', he', hdeep'⟩ := hrefused (stream.tokens.take k) (stream.tokens[k] :: more)
      (List.forall₂_same.mpr fun t _ => hsame t) (by
        rw [SameHead, List.head?_drop, List.getElem?_eq_getElem hlt]
        exact .some (hsame _))
    rw [List.take_succ_eq_append_getElem hlt, List.append_assoc]
    exact not_accepted_of_error he' (hdeep'.trans hdeep)
  · rintro -
    have hself : Expr.parseWithin room callable ⟨stream.tokens, stream.finish⟩ = .error e := h
    exact not_accepted_of_error hself hdeep

/-- A bracket that closes nothing is at fault. -/
theorem stray_bracket_is_blamed :
    ∃ stream e, scan "a*)".toList = .ok stream ∧
      Expr.parseWithin Parse.room (fun _ => false) stream = .error e ∧ e.position = 2 ∧
      (∃ more, Accepted (fun _ => false) (stream.tokens.take 2 ++ more)) ∧
      ∀ more, ¬ Accepted (fun _ => false) (stream.tokens.take 3 ++ more) := by
  have hscan : scan "a*)".toList =
      .ok ⟨[⟨.name, "a", 0⟩, ⟨.operator, "*", 1⟩, ⟨.closing, ")", 2⟩], 3⟩ := by cbv
  have hparse : Expr.parseWithin Parse.room (fun _ => false)
      ⟨[⟨.name, "a", 0⟩, ⟨.operator, "*", 1⟩, ⟨.closing, ")", 2⟩], 3⟩ =
        .error (.unexpected (some ")") 2) := by cbv
  obtain ⟨hbefore, hbehind, -⟩ :=
    (fault_at_first_impossible_token hscan hparse rfl).2 2 (by decide) rfl
  exact ⟨_, _, hscan, hparse, rfl, hbefore, hbehind (by decide)⟩

end Whole
end GraphCalc.Grammar
