import GraphCalc.Proofs.Area.Outermost
import GraphCalc.Proofs.Area.Polygons
import GraphCalc.Proofs.Eval.IntegralBounds
import GraphCalc.Proofs.Grammar.WholeCall
import GraphCalc.Proofs.Source.Seams

/-! # Integrals and their pieces

An integral is found by its brackets and commas, and evaluated as a call. The text of the call is
read if and only if its three pieces are: the brackets and commas are tokens that no other token runs
into, each argument ends at the comma where its piece ends, and the call goes on to the last bracket.
Main statements:

* `exists_call_tokens`, `undivided_call`: the tokens of `int(…)`, which no operand divides;
* `arguments_are_pieces`: three arguments are the pieces between the outer commas;
* `readWithin_expression_iff`: an integral is read in six units of room more than its pieces;
* `run_value_of_bounds`: an integral without finite bounds has no value.
-/

namespace GraphCalc.IntegralCall
open GraphCalc.Text GraphCalc.Token GraphCalc.Grammar GraphCalc.Expr
set_option autoImplicit false

section Tokens
variable {callable : String → Bool} {p : ℕ} {ts : List Token} {inside before rest : List Char}

/-! ## The call -/

theorem opening_append (text : List Char) :
    opening ++ text = integralName.toList ++ '(' :: text := rfl

theorem munch_integralName (text : List Char) : Munch .name integralName.toList ('(' :: text) := by
  have hstop : StopsAt isNamePart ('(' :: text) := by
    rintro c ⟨⟩
    decide
  have hparts : ∀ c ∈ ['n', 't'], isNamePart c = true := by
    intro c hc
    simp only [List.mem_cons, List.not_mem_nil, or_false] at hc
    rcases hc with rfl | rfl <;> decide
  exact munch_word (c := 'i') (by decide) hparts hstop

theorem exists_call_tokens (h : Written p ts (opening ++ (inside ++ ')' :: [])) rest) :
    ∃ us q r, ts = ⟨.name, integralName, p⟩ :: ⟨.opening, "(", q⟩ :: (us ++ [⟨.closing, ")", r⟩]) ∧
      Written (q + 1) us inside (')' :: rest) := by
  rw [opening_append] at h
  obtain ⟨names, kind, behind, rfl, hmark, hname, hbehind⟩ := h.cut_at_mark (by decide)
  obtain ⟨us, kind', last, rfl, hmark', hinside, hlast⟩ := hbehind.cut_at_mark (by decide)
  obtain rfl : kind = .opening := hmark.kind_unique .opening
  obtain rfl : kind' = .closing := hmark'.kind_unique .closing
  rw [hname.eq_singleton (munch_integralName _), hlast.eq_nil (by simp)]
  exact ⟨us, _, _, rfl, hinside⟩

/-- A text that begins with `int(` and stays inside that bracket has it open at its end. -/
theorem level_pos_of_prefix (h : Balanced inside) (hfront : before <+: opening ++ inside)
    (hmem : '(' ∈ before) : 0 < level before := by
  have hopening : opening <+: before := by
    rcases List.prefix_or_prefix_of_prefix hfront (List.prefix_append opening inside) with
      hshort | hlong
    · -- Without its last character `int(` has no bracket.
      have hlast : before = integralName.toList ++ ['('] ∨ before <+: integralName.toList :=
        List.prefix_concat_iff.mp hshort
      rcases hlast with rfl | hname
      · exact List.prefix_rfl
      · exact absurd (hname.subset hmem) (by decide)
    · exact hlong
  obtain ⟨tail, rfl⟩ := hopening
  have htail := h.2 tail ((List.prefix_append_right_inj opening).mp hfront)
  have hlevel : level opening = 1 := by decide
  rw [level_append, hlevel]
  omega

theorem undivided_call (h : Written p ts (opening ++ (inside ++ ')' :: [])) rest)
    (hbalanced : Balanced inside) : Undivided callable ts := by
  intro ls vs e hcut hne hsum
  by_contra hlong
  obtain ⟨us, q, r, htokens, -⟩ := exists_call_tokens h
  rw [hcut] at h
  obtain ⟨before, after, htext, hbefore, hafter⟩ := h.split
  have hafterNe : after ≠ [] := by
    rintro rfl
    exact hne (hafter.eq_nil (by simp))
  have hfront : before <+: opening ++ inside := by
    have hwhole : before <+: opening ++ inside ++ [')'] := ⟨after, by rw [← htext]; simp⟩
    rcases List.prefix_concat_iff.mp hwhole with rfl | hinside
    · rw [← List.append_assoc, List.self_eq_append_right] at htext
      exact absurd htext hafterNe
    · exact hinside
  -- The bracket is the second token, so it is in the front part.
  have hmem : '(' ∈ before := by
    rw [hcut] at htokens
    obtain ⟨x, y, more, rfl⟩ : ∃ x y more, ls = x :: y :: more := by
      rcases ls with _ | ⟨x, _ | ⟨y, more⟩⟩
      · simp at hlong
      · simp at hlong
      · exact ⟨x, y, more, rfl⟩
    simp only [List.cons_append, List.cons.injEq] at htokens
    obtain ⟨rfl, rfl, -⟩ := htokens
    have hname : Written p ([⟨.name, integralName, p⟩] ++ ⟨.opening, "(", q⟩ :: more) before
        (after ++ rest) := hbefore
    obtain ⟨gap, tail, rfl, -⟩ := hname.cut
    have hbracket : '(' ∈ "(".toList := by decide
    exact List.mem_append_right _ (List.mem_append_left _ hbracket)
  have hlevel := level_pos_of_prefix hbalanced hfront hmem
  rw [(hsum.isPiece hbefore).balanced.1] at hlevel
  exact absurd hlevel (lt_irrefl 0)

end Tokens

/-! ## The pieces -/

section Pieces
variable {callable : String → Bool} {a b c a' b' c' : List Char}

/-- Two outer commas cut a text in one way only. -/
theorem pieces_unique (ha : IsPiece a) (hb : IsPiece b) (hc : IsPiece c) (ha' : IsPiece a')
    (hb' : IsPiece b') (hc' : IsPiece c')
    (h : a ++ ',' :: (b ++ ',' :: c) = a' ++ ',' :: (b' ++ ',' :: c')) :
    a = a' ∧ b = b' ∧ c = c' := by
  have hpieces := congrArg (piecesFrom 0) h
  rw [piecesFrom_pieces ha hb hc, piecesFrom_pieces ha' hb' hc'] at hpieces
  simpa using hpieces

/-- The arguments between the brackets of an integral are its pieces, each read on its own. -/
theorem arguments_are_pieces {room n p : ℕ} {ts : List Token} {es : List Expr} {rest : List Char}
    (ha : IsPiece a) (hb : IsPiece b) (hc : IsPiece c)
    (hw : Written p ts (a ++ ',' :: (b ++ ',' :: c)) rest) (h : ArgumentsTake callable n ts es)
    (hn : n ≤ room) : ∃ f l u, es = [f, l, u] ∧
      readWithin room callable (String.ofList a) = .ok f ∧
      readWithin room callable (String.ofList b) = .ok l ∧
      readWithin room callable (String.ofList c) = .ok u := by
  have hlength := (h.areArguments.pieces hw).2
  rw [ha.outerCommas_cut, hb.outerCommas_cut, hc.uncut] at hlength
  obtain ⟨f, l, u, rfl⟩ := List.length_eq_three.mp hlength.symm
  cases h with
  | more first others =>
  cases others with
  | more second others =>
  cases others with
  | more _ others => cases others
  | last third =>
  obtain ⟨a', behind, htext, hfirst, -, hcomma, hbehind⟩ := hw.cut
  obtain ⟨b', c', rfl, hsecond, -, hcomma', hthird⟩ := hbehind.cut
  rw [eq_comma hcomma.lexeme, eq_comma hcomma'.lexeme] at htext
  obtain ⟨rfl, rfl, rfl⟩ := pieces_unique ha hb hc (first.isSum.isPiece hfirst)
    (second.isSum.isPiece hsecond) (third.isSum.isPiece hthird) htext
  rw [Nat.max_le, Nat.max_le] at hn
  exact ⟨f, l, u, rfl, readWithin_of_written hfirst first hn.1,
    readWithin_of_written hsecond second hn.2.1, readWithin_of_written hthird third hn.2.2⟩

/-- Where its pieces are read, an integral is read as the call of them. -/
theorem readWithin_of_pieces {room : ℕ} {f l u : Expr} (hcallable : callable integralName = true)
    (hf : readWithin room callable (String.ofList a) = .ok f)
    (hl : readWithin room callable (String.ofList b) = .ok l)
    (hu : readWithin room callable (String.ofList c) = .ok u) :
    readWithin (room + 6) callable
      (String.ofList (opening ++ ((a ++ ',' :: (b ++ ',' :: c)) ++ ')' :: []))) =
        .ok (.call integralName [f, l, u]) := by
  obtain ⟨ts₁, n₁, hw₁, htakes₁, hn₁⟩ := exists_takes_before_mark hf (c := ',') (by decide)
    (0 + integralName.toList.length + 1) ((b ++ ',' :: c) ++ ')' :: [])
  obtain ⟨ts₂, n₂, hw₂, htakes₂, hn₂⟩ := exists_takes_before_mark hl (c := ',') (by decide)
    (0 + integralName.toList.length + 1 + a.length + 1) (c ++ ')' :: [])
  obtain ⟨ts₃, n₃, hw₃, htakes₃, hn₃⟩ := exists_takes_before_mark hu (c := ')') (by decide)
    (0 + integralName.toList.length + 1 + a.length + 1 + b.length + 1) []
  have hbounds := hw₂.join_at_mark .comma (by decide) hw₃
  have hinside := hw₁.join_at_mark .comma (by decide) hbounds
  have hclosed : Written _ _ (_ ++ ')' :: []) [] :=
    hinside.join_at_mark .closing (by decide) .nil
  have hname : Written 0 [⟨.name, String.ofList integralName.toList, 0⟩] (integralName.toList ++ [])
      ('(' :: (((a ++ ',' :: (b ++ ',' :: c)) ++ ')' :: []) ++ [])) :=
    .token (munch_integralName _) .nil
  rw [List.append_nil] at hname
  have hcall := hname.join_at_mark .opening (by decide) hclosed
  rw [← opening_append] at hcall
  refine readWithin_of_written hcall (sumTakes_call hcallable
    (.more htakes₁ (.more htakes₂ (.last htakes₃)))) ?_
  omega

theorem readWithin_expression_iff (ha : IsPiece a) (hb : IsPiece b) (hc : IsPiece c)
    (hcallable : callable integralName = true) (room : ℕ) (e : Expr) :
    readWithin (room + 6) callable (ofPieces a b c).expression = .ok e ↔ ∃ f l u,
      readWithin room callable (ofPieces a b c).integrand = .ok f ∧
      readWithin room callable (ofPieces a b c).lower = .ok l ∧
      readWithin room callable (ofPieces a b c).upper = .ok u ∧
      e = .call integralName [f, l, u] := by
  rw [← String.ofList_toList (s := (ofPieces a b c).expression), expression_ofPieces]
  constructor
  · intro h
    obtain ⟨ts, n, hw, htakes, hn⟩ := exists_takes_of_readWithin h
    obtain ⟨us, q, r, rfl, hinside⟩ := exists_call_tokens hw
    have hundivided : Undivided callable _ :=
      undivided_call hw (balanced_pieces ha.trim hb.trim hc.trim)
    have hne : us ≠ [] := by
      rintro rfl
      exact absurd (hinside.isBlank ',' (by simp)) (by decide)
    obtain ⟨m, es, rfl, harguments, rfl⟩ :=
      htakes.exists_arguments hundivided hcallable hne rfl
    obtain ⟨f, l, u, rfl, hf, hl, hu⟩ := arguments_are_pieces ha.trim hb.trim hc.trim hinside
      harguments (Nat.le_of_add_le_add_right hn)
    exact ⟨f, l, u, hf, hl, hu, rfl⟩
  · rintro ⟨f, l, u, hf, hl, hu, rfl⟩
    exact readWithin_of_pieces hcallable hf hl hu

/-- Limits of room apart, an integral is read where its pieces are. -/
theorem read_expression_iff (ha : IsPiece a) (hb : IsPiece b) (hc : IsPiece c)
    (hcallable : callable integralName = true) (e : Expr) :
    (∃ room, readWithin room callable (ofPieces a b c).expression = .ok e) ↔ ∃ f l u,
      (∃ room, readWithin room callable (ofPieces a b c).integrand = .ok f) ∧
      (∃ room, readWithin room callable (ofPieces a b c).lower = .ok l) ∧
      (∃ room, readWithin room callable (ofPieces a b c).upper = .ok u) ∧
      e = .call integralName [f, l, u] := by
  have hreads := readWithin_expression_iff ha hb hc hcallable
  constructor
  · rintro ⟨room, h⟩
    obtain ⟨f, l, u, hf, hl, hu, rfl⟩ :=
      (hreads room e).mp (readWithin_mono (Nat.le_add_right room 6) h)
    exact ⟨f, l, u, ⟨room, hf⟩, ⟨room, hl⟩, ⟨room, hu⟩, rfl⟩
  · rintro ⟨f, l, u, ⟨m, hf⟩, ⟨n, hl⟩, ⟨k, hu⟩, rfl⟩
    have hlarge : m ≤ m + n + k ∧ n ≤ m + n + k ∧ k ≤ m + n + k := by omega
    refine ⟨m + n + k + 6, (hreads (m + n + k) _).mpr ⟨f, l, u, ?_, ?_, ?_, rfl⟩⟩
    · exact readWithin_mono hlarge.1 hf
    · exact readWithin_mono hlarge.2.1 hl
    · exact readWithin_mono hlarge.2.2 hu

end Pieces

theorem exists_pieces_of_mem_all {text : String} {call : IntegralCall} (h : call ∈ all text) :
    ∃ a b c, IsPiece a ∧ IsPiece b ∧ IsPiece c ∧ call = ofPieces a b c := by
  obtain ⟨spans, hextracts⟩ := exists_extracts [] text.toList
  have hfound := hextracts.found
  obtain ⟨i, hi, rfl⟩ := List.getElem_of_mem h
  obtain ⟨-, a, b, c, -, -, ha, hb, hc, hcall⟩ := hfound.get (hfound.length_eq ▸ hi) hi
  exact ⟨a, b, c, ha, hb, hc, hcall⟩

theorem callable_integralName (functions : FunctionTable) :
    functions.callable integralName = true := by
  have hreserved : isReserved integralName = true := by decide
  rw [FunctionTable.callable, hreserved, Bool.true_or]

/-! ## Values -/

section Values
variable {settings : Settings} {functions : FunctionTable} {a b c : List Char}

/-- An integral without finite bounds has the undefined value. The bounds are read with less room inside
the call than by themselves, which makes no difference where they are read. -/
theorem answered_value_of_bounds (ha : IsPiece a) (hb : IsPiece b) (hc : IsPiece c)
    (h : (ofPieces a b c).bounds.answered (Question.outcome settings functions) = none) :
    (ofPieces a b c).value.answered (Question.outcome settings functions) = Binary64.nan := by
  by_contra hne
  have hsix : Parse.room = 964 + 6 := rfl
  rw [answered_bounds, Inquiry.answered_valueAt, Inquiry.answered_valueAt, Question.outcome, Question.outcome] at h
  rw [value, Inquiry.answered_valueAt, Question.outcome] at hne
  cases hread : functions.read (ofPieces a b c).expression with
  | error e =>
    rw [hread] at hne
    exact hne rfl
  | ok e =>
    obtain ⟨f, l, u, -, hl, hu, rfl⟩ := (readWithin_expression_iff ha hb hc
      (callable_integralName functions) 964 e).mp hread
    have hlower : functions.read (ofPieces a b c).lower = .ok l :=
      readWithin_mono (Nat.le_add_right 964 6) hl
    have hupper : functions.read (ofPieces a b c).upper = .ok u :=
      readWithin_mono (Nat.le_add_right 964 6) hu
    rw [hread] at hne
    rw [hlower, hupper] at h
    dsimp only at hne h
    cases hvalue : Engine.outcome settings functions Room.ofBodies [(integrationVariable, 0.0)]
        (.call integralName [f, l, u]) with
    | error e =>
      rw [hvalue] at hne
      exact hne rfl
    | ok v =>
      rw [hvalue] at hne
      obtain ⟨x, y, hx, hy, hfinite⟩ := finite_bounds_of_outcome hvalue hne
      rw [Engine.outcome, hx, Engine.outcome, hy, Inquiry.orUndefined, Inquiry.orUndefined,
        finitePair_of_finite hfinite.1 hfinite.2] at h
      cases h

/-- An integral has no value if its bounds are not finite, and not because nesting cuts one of them
off. -/
theorem run_value_of_bounds {engine engine' : Engine} (hengine : engine.Coherent settings functions)
    (hengine' : engine'.Coherent settings functions) (ha : IsPiece a) (hb : IsPiece b) (hc : IsPiece c)
    (hcompletes : engine.completes (ofPieces a b c).bounds = true)
    (h : (engine.run (ofPieces a b c).bounds).1 = none) :
    (engine'.run (ofPieces a b c).value).1.isNaN = true := by
  rw [(hengine.run _).2.2 hcompletes] at h
  have hnan := answered_value_of_bounds ha hb hc h
  rw [value, Inquiry.answered_valueAt] at hnan
  rw [value, Engine.run_valueAt]
  have hundefined : Binary64.nan.isNaN = true := by decide
  cases hreply : (engine'.reply (.text (ofPieces a b c).expression [(integrationVariable, 0.0)])).1 with
  | error e => exact hundefined
  | ok v =>
    rw [← hreply, (hengine'.reply _).2.2 (Engine.cutsOff_of_reply_ok hreply), hnan]
    exact hundefined

end Values

/-- An integral found in a text is read in a room if and only if its three pieces are read in six
units less, and then as the call of their trees. So limits of room apart it is read where its pieces
are. On engines with the same settings and functions it has no value unless both its bounds are finite
numbers, or nesting cuts a bound off. -/
theorem reads_as_call_of_pieces (callable : String → Bool)
    (hcallable : callable integralName = true) (text : String) (call : IntegralCall)
    (hcall : call ∈ all text) :
    (∀ room e, readWithin (room + 6) callable call.expression = .ok e ↔ ∃ f l u,
      readWithin room callable call.integrand = .ok f ∧
      readWithin room callable call.lower = .ok l ∧
      readWithin room callable call.upper = .ok u ∧ e = .call integralName [f, l, u]) ∧
    (∀ e, (∃ room, readWithin room callable call.expression = .ok e) ↔ ∃ f l u,
      (∃ room, readWithin room callable call.integrand = .ok f) ∧
      (∃ room, readWithin room callable call.lower = .ok l) ∧
      (∃ room, readWithin room callable call.upper = .ok u) ∧ e = .call integralName [f, l, u]) ∧
    ∀ (settings : Settings) (functions : FunctionTable) (engine engine' : Engine),
      Engine.Reachable settings functions engine → Engine.Reachable settings functions engine' →
      engine.completes call.bounds = true → (engine.run call.bounds).1 = none →
      (engine'.run call.value).1.isNaN = true := by
  obtain ⟨a, b, c, ha, hb, hc, rfl⟩ := exists_pieces_of_mem_all hcall
  refine ⟨readWithin_expression_iff ha hb hc hcallable,
    read_expression_iff ha hb hc hcallable, ?_⟩
  intro settings functions engine engine' hengine hengine' hcompletes hbounds
  exact run_value_of_bounds hengine.coherent hengine'.coherent ha hb hc hcompletes hbounds

/-- An integral whose lower bound is infinite. -/
def fromInfinity : IntegralCall := ⟨"x", "-1e999", "1"⟩

/-- It has no value. -/
theorem integral_from_infinity : isReserved integralName = true ∧
    fromInfinity ∈ all "2 + int(x, -1e999, 1)" ∧
    plainEngine.completes fromInfinity.bounds = true ∧ found fromInfinity.bounds = none ∧
    (found fromInfinity.value).isNaN = true := by
  have hreserved : isReserved integralName = true := by decide
  have hfound : fromInfinity ∈ all "2 + int(x, -1e999, 1)" := by decide +kernel
  have hcompletes : plainEngine.completes fromInfinity.bounds = true := by decide +kernel
  have hbounds : found fromInfinity.bounds = none := by decide +kernel
  obtain ⟨-, -, hvalue⟩ := reads_as_call_of_pieces isReserved hreserved _ _ hfound
  exact ⟨hreserved, hfound, hcompletes, hbounds, hvalue _ _ _ _ reachable_plainEngine
    reachable_plainEngine hcompletes hbounds⟩

end GraphCalc.IntegralCall
