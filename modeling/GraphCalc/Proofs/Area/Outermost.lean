import GraphCalc.Proofs.Area.Extraction
import GraphCalc.Proofs.Area.Recognizable
import GraphCalc.Proofs.Source.Written

/-! # Integrals of a text and of its tree

The search for integrals looks at characters, the parser at tokens. On a text that is an expression they
agree: what is found are the integrals of the tree, each with pieces that read as its arguments. This
takes that, outside the integrals that are found, the letters `int` before the bracket of a call with three
arguments are the whole name and stand right before the bracket. Where a blank comes between, the integral
is missed; where another callable name ends in these letters, a call with three arguments is taken for
one. Main notions:

* `Expr.integrals`: the integrals of a tree from left to right, less those inside another one;
* `Reads`: the pieces of an integral read as an integrand and two bounds;
* `Finds`: what the search finds in a stretch of a text;
* `all_are_outermost_integrals`: the search agrees with the parser.
-/

namespace GraphCalc
set_option autoImplicit false

/-! ## Integrals of a tree -/

namespace Expr

/-- The integrand and the bounds, if the call is an integral. -/
def integral? (name : String) : List Expr → Option (Expr × Expr × Expr)
  | [integrand, lower, upper] => if name = integralName then some (integrand, lower, upper) else none
  | _ => none

mutual
/-- The integrals of a tree from left to right, less those inside another one. -/
def integrals : Expr → List (Expr × Expr × Expr)
  | number _ => []
  | var _ => []
  | signed _ operand => operand.integrals
  | binary _ left right => left.integrals ++ right.integrals
  | call name arguments =>
    match integral? name arguments with
    | some found => [found]
    | none => allIntegrals arguments

def allIntegrals : List Expr → List (Expr × Expr × Expr)
  | [] => []
  | e :: es => e.integrals ++ allIntegrals es
end

theorem integral?_eq_some_iff {name : String} {arguments : List Expr} {integrand lower upper : Expr} :
    integral? name arguments = some (integrand, lower, upper) ↔
      name = integralName ∧ arguments = [integrand, lower, upper] := by
  unfold integral?
  split
  · simp
  · next h =>
    refine iff_of_false nofun ?_
    rintro ⟨-, rfl⟩
    exact h _ _ _ rfl

end Expr

namespace IntegralCall
open GraphCalc.Text GraphCalc.Token GraphCalc.Grammar

/-- The pieces of an integral read as the given integrand and bounds. -/
structure Reads (callable : String → Bool) (call : IntegralCall) (found : Expr × Expr × Expr) : Prop where
  integrand : Expr.read callable call.integrand = .ok found.1
  lower : Expr.read callable call.lower = .ok found.2.1
  upper : Expr.read callable call.upper = .ok found.2.2

/-! ## Brackets and commas of a derivation -/

section Pieces
variable {callable : String → Bool} {kind : Kind} {word : List Char}

theorem isPiece_blank {gap : List Char} (h : ∀ c ∈ gap, isBlank c = true) : IsPiece gap := by
  refine isPiece_of_not_mem fun c hc hmem => ?_
  simp only [List.mem_cons, List.not_mem_nil, or_false] at hc
  have hblank := h c hmem
  rcases hc with rfl | rfl | rfl <;> exact absurd hblank (by decide)

theorem eq_opening (h : IsLexeme .opening word) : word = ['('] := by
  cases h
  rfl

theorem eq_closing (h : IsLexeme .closing word) : word = [')'] := by
  cases h
  rfl

theorem eq_comma (h : IsLexeme .comma word) : word = [','] := by
  cases h
  rfl

theorem isPiece_word (h : IsLexeme kind word) (hopening : kind ≠ .opening) (hclosing : kind ≠ .closing)
    (hcomma : kind ≠ .comma) : IsPiece word := by
  refine isPiece_of_not_mem fun c hc hmem => ?_
  obtain rfl := h.eq_singleton_of_mark hmem hc
  simp only [List.mem_cons, List.not_mem_nil, or_false] at hc
  rcases hc with rfl | rfl | rfl
  · exact hopening (h.kind_unique .opening)
  · exact hclosing (h.kind_unique .closing)
  · exact hcomma (h.kind_unique .comma)

/-- A piece goes on over a word that is no bracket and no comma. -/
theorem isPiece_across {before after : List Char} (hbefore : IsPiece before) (h : IsLexeme kind word)
    (hopening : kind ≠ .opening) (hclosing : kind ≠ .closing) (hcomma : kind ≠ .comma)
    (hafter : IsPiece after) : IsPiece (before ++ (word ++ after)) :=
  hbefore.append ((isPiece_word h hopening hclosing hcomma).append hafter)

theorem isPiece_bracketed {gap text tail : List Char} (hgap : ∀ c ∈ gap, isBlank c = true)
    (h : Balanced text) (htail : ∀ c ∈ tail, isBlank c = true) :
    IsPiece (gap ++ '(' :: (text ++ ')' :: tail)) := by
  simpa using (isPiece_blank hgap).append (h.isPiece_bracketed.append (isPiece_blank htail))

theorem bracketed_append (gap text tail rest : List Char) :
    gap ++ '(' :: (text ++ ')' :: tail) ++ rest = gap ++ '(' :: (text ++ ')' :: (tail ++ rest)) := by
  simp

theorem exists_bracketed {p q r : ℕ} {opening closing : String} {ts : List Token}
    {text rest : List Char}
    (h : Written p (⟨.opening, opening, q⟩ :: (ts ++ [⟨.closing, closing, r⟩])) text rest) :
    ∃ gap inside tail, (∀ c ∈ gap, isBlank c = true) ∧ (∀ c ∈ tail, isBlank c = true) ∧
      text = gap ++ '(' :: (inside ++ ')' :: tail) ∧ q = p + gap.length ∧
      Written (q + opening.length) ts inside (')' :: (tail ++ rest)) := by
  obtain ⟨gap, after, hgap, rfl, hq, hopening, hafter⟩ := h.first
  obtain ⟨inside, tail, rfl, hinside, -, hclosing, htail⟩ := hafter.cut
  rw [eq_closing hclosing.lexeme] at hinside ⊢
  rw [eq_opening hopening.lexeme]
  exact ⟨gap, inside, tail, hgap, htail.isBlank, rfl, hq, hinside⟩

end Pieces

end IntegralCall

namespace Grammar
open GraphCalc.Text GraphCalc.Token GraphCalc.IntegralCall

section Pieces
variable {callable : String → Bool}

mutual

theorem IsSum.isPiece {ts : List Token} {e : Expr} : IsSum callable ts e →
    ∀ {p text rest}, Written p ts text rest → IsPiece text
  | .product h, _, _, _, hw => h.isPiece hw
  | .join left _ right, _, _, _, hw => by
      obtain ⟨before, after, rfl, hleft, -, hword, hright⟩ := hw.cut
      exact isPiece_across (left.isPiece hleft) hword.lexeme nofun nofun nofun (right.isPiece hright)

theorem IsProduct.isPiece {ts : List Token} {e : Expr} : IsProduct callable ts e →
    ∀ {p text rest}, Written p ts text rest → IsPiece text
  | .signed h, _, _, _, hw => h.isPiece hw
  | .join left _ right, _, _, _, hw => by
      obtain ⟨before, after, rfl, hleft, -, hword, hright⟩ := hw.cut
      exact isPiece_across (left.isPiece hleft) hword.lexeme nofun nofun nofun (right.isPiece hright)
  | .juxtapose left right _, _, _, _, hw => by
      obtain ⟨before, after, rfl, hleft, hright⟩ := hw.split
      exact (left.isPiece hleft).append (right.isPiece hright)

theorem IsSigned.isPiece {ts : List Token} {e : Expr} : IsSigned callable ts e →
    ∀ {p text rest}, Written p ts text rest → IsPiece text
  | .sign _ operand, _, _, _, hw => by
      obtain ⟨gap, after, hgap, rfl, -, hword, hoperand⟩ := hw.first
      exact isPiece_across (isPiece_blank hgap) hword.lexeme nofun nofun nofun
        (operand.isPiece hoperand)
  | .power h, _, _, _, hw => h.isPiece hw

theorem IsPower.isPiece {ts : List Token} {e : Expr} : IsPower callable ts e →
    ∀ {p text rest}, Written p ts text rest → IsPiece text
  | .atom h, _, _, _, hw => h.isPiece hw
  | .power base exponent, _, _, _, hw => by
      obtain ⟨before, after, rfl, hbase, -, hword, hexponent⟩ := hw.cut
      exact isPiece_across (base.isPiece hbase) hword.lexeme nofun nofun nofun
        (exponent.isPiece hexponent)

theorem IsAtom.isPiece {ts : List Token} {e : Expr} : IsAtom callable ts e →
    ∀ {p text rest}, Written p ts text rest → IsPiece text
  | .number, _, _, _, hw => by
      obtain ⟨gap, after, hgap, rfl, -, hword, hafter⟩ := hw.first
      exact isPiece_across (isPiece_blank hgap) hword.lexeme nofun nofun nofun
        (isPiece_blank hafter.isBlank)
  | .var, _, _, _, hw => by
      obtain ⟨gap, after, hgap, rfl, -, hword, hafter⟩ := hw.first
      exact isPiece_across (isPiece_blank hgap) hword.lexeme nofun nofun nofun
        (isPiece_blank hafter.isBlank)
  | .group inside, _, _, _, hw => by
      obtain ⟨gap, text, tail, hgap, htail, rfl, -, hinside⟩ := exists_bracketed hw
      exact isPiece_bracketed hgap (inside.isPiece hinside).balanced htail
  | .callEmpty _, _, _, _, hw => by
      obtain ⟨gap, after, hgap, rfl, -, hword, hafter⟩ := hw.first
      have hbrackets : Written _ (_ :: ([] ++ [_])) _ _ := hafter
      obtain ⟨gap', text, tail, hinner, htail, rfl, -, hinside⟩ := exists_bracketed hbrackets
      exact isPiece_across (isPiece_blank hgap) hword.lexeme nofun nofun nofun
        (isPiece_bracketed hinner (isPiece_blank hinside.isBlank).balanced htail)
  | .call _ inside, _, _, _, hw => by
      obtain ⟨gap, after, hgap, rfl, -, hword, hafter⟩ := hw.first
      obtain ⟨gap', text, tail, hinner, htail, rfl, -, hinside⟩ := exists_bracketed hafter
      exact isPiece_across (isPiece_blank hgap) hword.lexeme nofun nofun nofun
        (isPiece_bracketed hinner (inside.pieces hinside).1 htail)

/-- The arguments are balanced, and each comma outside all brackets is one between two of them. -/
theorem AreArguments.pieces {ts : List Token} {es : List Expr} : AreArguments callable ts es →
    ∀ {p text rest}, Written p ts text rest →
      Balanced text ∧ (outerCommas text).length + 1 = es.length
  | .last h, _, _, _, hw => by
      have hpiece := h.isPiece hw
      exact ⟨hpiece.balanced, by rw [hpiece.uncut]; rfl⟩
  | .more first others, _, _, _, hw => by
      obtain ⟨before, after, rfl, hfirst, -, hword, hothers⟩ := hw.cut
      have hpiece := first.isPiece hfirst
      obtain ⟨hbalanced, hcommas⟩ := others.pieces hothers
      rw [eq_comma hword.lexeme]
      refine ⟨hpiece.balanced.append ((balanced_cons_iff (by decide) (by decide)).mpr hbalanced), ?_⟩
      rw [List.singleton_append, hpiece.outerCommas_cut]
      simp [hcommas]

end

end Pieces
end Grammar

namespace IntegralCall
open GraphCalc.Text GraphCalc.Token GraphCalc.Grammar

section Search
variable {callable : String → Bool} {p : ℕ} {kind : Kind} {word gap text before after rest : List Char}

/-! ## Arguments as pieces -/

/-- Three arguments are the pieces of an integral, and read as these. -/
theorem exists_pieces {n : ℕ} {ts : List Token} {integrand lower upper : Expr}
    (h : ArgumentsTake callable n ts [integrand, lower, upper]) (hn : n ≤ Parse.room)
    (hw : Written p ts text rest) :
    ∃ a b c, IsPiece a ∧ IsPiece b ∧ IsPiece c ∧ text = a ++ ',' :: (b ++ ',' :: c) ∧
      Reads callable (ofPieces a b c) (integrand, lower, upper) := by
  cases h with
  | more first others =>
  cases others with
  | more second others =>
  cases others with
  | more _ others => cases others
  | last third =>
  obtain ⟨a, behind, rfl, ha, -, hcomma, hbehind⟩ := hw.cut
  obtain ⟨b, c, rfl, hb, -, hcomma', hc⟩ := hbehind.cut
  rw [eq_comma hcomma.lexeme, eq_comma hcomma'.lexeme]
  have hneed : ∀ {k m : ℕ}, max k m ≤ Parse.room → k ≤ Parse.room ∧ m ≤ Parse.room := Nat.max_le.mp
  obtain ⟨hfirst, hn⟩ := hneed hn
  obtain ⟨hsecond, hthird⟩ := hneed hn
  exact ⟨a, b, c, first.isSum.isPiece ha, second.isSum.isPiece hb, third.isSum.isPiece hc, rfl,
    ha.read_trim first hfirst, hb.read_trim second hsecond, hc.read_trim third hthird⟩

/-! ## Passing over -/

/-- If the text starts with a bracket, then no integral would start with `int` in front of it. -/
def Quiet (rest : List Char) : Prop :=
  ∀ after, rest = '(' :: after → atStart? (opening ++ after) = none

theorem quiet_of_head (h : ∀ c ∈ rest.head?, c ≠ '(') : Quiet rest := by
  rintro after rfl
  exact absurd rfl (h '(' rfl)

theorem quiet_blank_append (hgap : ∀ c ∈ gap, isBlank c = true) (h : Quiet rest) :
    Quiet (gap ++ rest) := by
  cases gap with
  | nil => exact h
  | cons c gap =>
    refine quiet_of_head ?_
    rintro d ⟨⟩ rfl
    exact absurd (hgap '(' List.mem_cons_self) (by decide)

theorem quiet_word (h : IsLexeme kind word) (hkind : kind ≠ .opening) (rest : List Char) :
    Quiet (word ++ rest) := by
  obtain ⟨c, more, rfl⟩ := h.exists_cons
  refine quiet_of_head ?_
  rintro d ⟨⟩ rfl
  have hword := h.eq_singleton_of_mark List.mem_cons_self (by simp)
  rw [hword] at h
  exact hkind (h.kind_unique .opening)

theorem quiet_bracketed (hgap : ∀ c ∈ gap, isBlank c = true) (hbalanced : Balanced text)
    (hcommas : (outerCommas text).length ≠ 2) (rest : List Char) :
    Quiet (gap ++ '(' :: (text ++ ')' :: rest)) := by
  refine quiet_blank_append hgap ?_
  rintro after hafter
  rw [← (List.cons.inj hafter).2]
  exact atStart?_eq_none_of_commas hbalanced hcommas rest

theorem atStart?_eq_none_of_ne {c : Char} (h : c ≠ 'i') (rest : List Char) :
    atStart? (c :: rest) = none := by
  rw [Option.eq_none_iff_forall_ne_some]
  rintro ⟨call, length⟩ hstart
  obtain ⟨inside, after, -, hcut, -⟩ := atStart?_eq_some_iff.mp hstart
  exact h (List.cons.inj hcut).1

theorem allFrom_append_of_not_mem (h : 'i' ∉ text) (rest : List Char) :
    allFrom 0 (text ++ rest) = allFrom 0 rest := by
  induction text with
  | nil => rfl
  | cons c text ih =>
    rw [List.mem_cons, not_or] at h
    rw [List.cons_append, allFrom_cons_of_none (atStart?_eq_none_of_ne (Ne.symm h.1) _), ih h.2]

theorem not_mem_of_blank (hgap : ∀ c ∈ gap, isBlank c = true) : 'i' ∉ gap := fun hmem =>
  absurd (hgap 'i' hmem) (by decide)

/-- Where the start of an integral reaches over the end of a name, it is the bracket behind it. -/
theorem eq_integralName_of_cut {ending behind : List Char} (hcut : ending ++ rest = opening ++ behind)
    (hne : ending ≠ []) (hbracket : '(' ∉ ending) (hstop : StopsAt isNamePart rest) :
    ending = integralName.toList ∧ rest = '(' :: behind := by
  have hopening : opening ++ behind = 'i' :: 'n' :: 't' :: '(' :: behind := rfl
  rw [hopening] at hcut
  rcases ending with _ | ⟨c, _ | ⟨d, _ | ⟨e, _ | ⟨f, ending⟩⟩⟩⟩
  · exact absurd rfl hne
  · simp only [List.cons_append, List.nil_append, List.cons.injEq] at hcut
    rw [hcut.2] at hstop
    exact absurd (hstop 'n' rfl) (by decide)
  · simp only [List.cons_append, List.nil_append, List.cons.injEq] at hcut
    rw [hcut.2.2] at hstop
    exact absurd (hstop 't' rfl) (by decide)
  · simp only [List.cons_append, List.nil_append, List.cons.injEq] at hcut
    obtain ⟨rfl, rfl, rfl, hrest⟩ := hcut
    exact ⟨rfl, hrest⟩
  · simp only [List.cons_append, List.cons.injEq] at hcut
    exact absurd (by simp [hcut.2.2.2.1]) hbracket

/-- No integral starts inside a name, unless the name ends in `int` and its bracket is behind it. The
induction is on the end of the name that is still ahead. -/
theorem allFrom_word (h : Munch .name word rest) (hquiet : integralName.toList <:+ word → Quiet rest) :
    allFrom 0 (word ++ rest) = allFrom 0 rest := by
  have hbracket : '(' ∉ word := fun hmem => by
    have hword := h.lexeme
    rw [h.lexeme.eq_singleton_of_mark hmem (by simp)] at hword
    exact absurd (hword.kind_unique .opening) nofun
  obtain ⟨c, more, rfl⟩ := h.lexeme.exists_cons
  cases h.lexeme with
  | constant hc =>
    refine allFrom_append_of_not_mem (fun hmem => ?_) rest
    rw [← List.mem_singleton.mp hmem] at hc
    exact absurd hc (by decide)
  | word first _ =>
    have hstop := h.stopsAt first
    have hends : ∀ ending, ending <:+ c :: more → allFrom 0 (ending ++ rest) = allFrom 0 rest := by
      intro ending hending
      induction ending with
      | nil => rfl
      | cons d ending ih =>
        have hnone : atStart? (d :: ending ++ rest) = none := by
          rw [Option.eq_none_iff_forall_ne_some]
          rintro ⟨call, length⟩ hstart
          obtain ⟨inside, after, -, hcut, -⟩ := atStart?_eq_some_iff.mp hstart
          obtain ⟨hint, hrest⟩ := eq_integralName_of_cut hcut (List.cons_ne_nil d ending)
            (fun hmem => hbracket (hending.subset hmem)) hstop
          rw [hint] at hending
          rw [hcut, hquiet hending _ hrest] at hstart
          cases hstart
        exact (allFrom_cons_of_none hnone).trans (ih ((List.suffix_cons d ending).trans hending))
    exact hends _ (List.suffix_refl _)

/-! ## What the search finds -/

/-- In front of `rest` the search finds integrals in the text that read as the given ones, and goes on
behind the text. -/
def Finds (callable : String → Bool) (text rest : List Char) (found : List (Expr × Expr × Expr)) : Prop :=
  ∃ calls, allFrom 0 (text ++ rest) = calls ++ allFrom 0 rest ∧
    List.Forall₂ (Reads callable) calls found

theorem finds_nothing (h : allFrom 0 (text ++ rest) = allFrom 0 rest) : Finds callable text rest [] :=
  ⟨[], h, .nil⟩

theorem finds_of_not_mem (h : 'i' ∉ text) (rest : List Char) : Finds callable text rest [] :=
  finds_nothing (allFrom_append_of_not_mem h rest)

theorem Finds.append {found found' : List (Expr × Expr × Expr)}
    (h : Finds callable before (after ++ rest) found) (h' : Finds callable after rest found') :
    Finds callable (before ++ after) rest (found ++ found') := by
  obtain ⟨calls, hcalls, hread⟩ := h
  obtain ⟨calls', hcalls', hread'⟩ := h'
  refine ⟨calls ++ calls', ?_, List.rel_append hread hread'⟩
  rw [List.append_assoc, hcalls, hcalls', List.append_assoc]

theorem finds_blank (hgap : ∀ c ∈ gap, isBlank c = true) (rest : List Char) :
    Finds callable gap rest [] :=
  finds_of_not_mem (not_mem_of_blank hgap) rest

theorem finds_word (h : IsLexeme kind word) (hkind : kind ≠ .name) (rest : List Char) :
    Finds callable word rest [] :=
  finds_of_not_mem (fun hmem => hkind (h.eq_name_of_mem hmem)) rest

/-- On both sides of a word that is no name the search finds what it finds in each. -/
theorem Finds.across {found found' : List (Expr × Expr × Expr)}
    (h : Finds callable before (word ++ (after ++ rest)) found) (hword : IsLexeme kind word)
    (hkind : kind ≠ .name) (h' : Finds callable after rest found') :
    Finds callable (before ++ (word ++ after)) rest (found ++ found') := by
  rw [← List.append_assoc word] at h
  exact h.append ((finds_word hword hkind _).append h')

theorem Finds.bracketed {found : List (Expr × Expr × Expr)}
    (h : Finds callable text (')' :: (after ++ rest)) found) (hgap : ∀ c ∈ gap, isBlank c = true)
    (hafter : ∀ c ∈ after, isBlank c = true) :
    Finds callable (gap ++ '(' :: (text ++ ')' :: after)) rest found := by
  have htail : Finds callable (')' :: after) rest [] :=
    Finds.append (finds_of_not_mem (show 'i' ∉ [')'] by decide) _) (finds_blank hafter rest)
  have hinside := h.append htail
  rw [List.append_nil] at hinside
  exact (finds_blank hgap _).append
    (Finds.append (finds_of_not_mem (show 'i' ∉ ['('] by decide) _) hinside)

/-- Behind an operand that stands beside another one, no integral would start with `int` in front. -/
theorem quiet_atom {ts : List Token} {e : Expr} (h : IsAtom callable ts e)
    (hw : Written p ts text rest) : Quiet (text ++ rest) := by
  have hname : ∀ {t us}, ts = t :: us → t.kind ≠ .opening → Quiet (text ++ rest) := by
    rintro t us rfl hkind
    obtain ⟨gap, after, hgap, rfl, -, hword, -⟩ := hw.first
    rw [List.append_assoc, List.append_assoc]
    exact quiet_blank_append hgap (quiet_word hword.lexeme hkind _)
  cases h with
  | number => exact hname rfl nofun
  | var => exact hname rfl nofun
  | callEmpty => exact hname rfl nofun
  | call => exact hname rfl nofun
  | group inside =>
    obtain ⟨gap, text, tail, hgap, -, rfl, -, hinside⟩ := exists_bracketed hw
    have hpiece := inside.isPiece hinside
    rw [bracketed_append]
    exact quiet_bracketed hgap hpiece.balanced (by simp [hpiece.uncut]) _

theorem quiet_power {ts : List Token} {e : Expr} (h : IsPower callable ts e)
    (hw : Written p ts text rest) : Quiet (text ++ rest) := by
  cases h with
  | atom h => exact quiet_atom h hw
  | power base _ =>
    obtain ⟨before, after, rfl, hbase, -⟩ := hw.cut
    rw [List.append_assoc, List.append_assoc]
    exact quiet_atom base hbase

theorem finds_integral {a b c : List Char} {found : Expr × Expr × Expr} (ha : IsPiece a)
    (hb : IsPiece b) (hc : IsPiece c) (hread : Reads callable (ofPieces a b c) found)
    (hafter : ∀ c ∈ after, isBlank c = true) :
    Finds callable (opening ++ ((a ++ ',' :: (b ++ ',' :: c)) ++ ')' :: after)) rest [found] := by
  refine ⟨[ofPieces a b c], ?_, .cons hread .nil⟩
  rw [List.append_assoc, List.append_assoc, List.cons_append, allFrom_pieces ha hb hc,
    allFrom_append_of_not_mem (not_mem_of_blank hafter)]
  rfl

theorem finds_arguments {found : List (Expr × Expr × Expr)}
    (hword : Munch .name word (gap ++ '(' :: (text ++ ')' :: (after ++ rest))))
    (hquiet : integralName.toList <:+ word → Quiet (gap ++ '(' :: (text ++ ')' :: (after ++ rest))))
    (h : Finds callable text (')' :: (after ++ rest)) found) (hgap : ∀ c ∈ gap, isBlank c = true)
    (hafter : ∀ c ∈ after, isBlank c = true) :
    Finds callable (word ++ (gap ++ '(' :: (text ++ ')' :: after))) rest found := by
  rw [← bracketed_append] at hword hquiet
  exact (finds_nothing (allFrom_word hword hquiet)).append (h.bracketed hgap hafter)

/-- A call is found if it is an integral, and what is in its arguments otherwise. -/
theorem finds_call {n : ℕ} {name mark mark' : String} {ts : List Token} {es : List Expr} {q q' r : ℕ}
    (inside : ArgumentsTake callable n ts es) (hn : n ≤ Parse.room)
    (hrec : Recognizable callable
      (⟨.name, name, q⟩ :: ⟨.opening, mark, q'⟩ :: (ts ++ [⟨.closing, mark', r⟩])))
    (hw : Written p (⟨.name, name, q⟩ :: ⟨.opening, mark, q'⟩ :: (ts ++ [⟨.closing, mark', r⟩])) text rest)
    (hargs : Recognizable callable ts → ∀ {p text rest}, Written p ts text rest → Quiet rest →
      Finds callable text rest (Expr.allIntegrals es)) :
    Finds callable text rest (Expr.integrals (.call name es)) := by
  obtain ⟨gap, after, hgap, rfl, hq, hword, hafter⟩ := hw.first
  obtain ⟨gap', text, tail, hinner, htail, rfl, hq', hinside⟩ := exists_bracketed hafter
  obtain ⟨hbalanced, hcommas⟩ := inside.areArguments.pieces hinside
  dsimp only at hword hq' ⊢
  rw [bracketed_append] at hword
  refine (finds_blank hgap _).append ?_
  cases hintegral : Expr.integral? name es with
  | some found =>
    obtain ⟨integrand, lower, upper⟩ := found
    obtain ⟨rfl, rfl⟩ := Expr.integral?_eq_some_iff.mp hintegral
    obtain ⟨a, b, c, ha, hb, hc, rfl, hread⟩ := exists_pieces inside hn hinside
    have hadjacent : q' = q + integralName.length := by
      rcases hrec.call inside.areArguments with ⟨-, hadjacent, -⟩ | ⟨hlooks, -⟩
      · exact hadjacent
      · exact (hlooks rfl (List.suffix_refl _)).mpr rfl
    obtain rfl : gap' = [] := List.eq_nil_of_length_eq_zero (by omega)
    exact finds_integral ha hb hc hread htail
  | none =>
    obtain ⟨hlooks, hrecognizable⟩ : (es.length = 3 → integralName.toList <:+ name.toList →
        (q' = q + name.length ↔ name = integralName)) ∧ Recognizable callable ts := by
      refine (hrec.call inside.areArguments).resolve_left ?_
      rintro ⟨rfl, -, es', harguments, hthree⟩
      -- The commas tell that the call itself has three arguments.
      have hcommas' := (harguments.pieces hinside).2
      obtain ⟨integrand, lower, upper, rfl⟩ := List.length_eq_three.mp (show es.length = 3 by omega)
      cases hintegral
    have hquiet : integralName.toList <:+ name.toList →
        Quiet (gap' ++ '(' :: (text ++ ')' :: (tail ++ rest))) := by
      intro hname
      by_cases hthree : es.length = 3
      · -- The bracket is not right behind the name, or else this were an integral.
        obtain ⟨integrand, lower, upper, rfl⟩ := List.length_eq_three.mp hthree
        have hspaced : gap' ≠ [] := by
          rintro rfl
          have hint := (hlooks hthree hname).mp hq'
          rw [Expr.integral?_eq_some_iff.mpr ⟨hint, rfl⟩] at hintegral
          cases hintegral
        obtain ⟨d, more, rfl⟩ := List.exists_cons_of_ne_nil hspaced
        refine quiet_of_head ?_
        rintro e ⟨⟩ rfl
        exact absurd (hinner '(' List.mem_cons_self) (by decide)
      · exact quiet_bracketed hinner hbalanced (by omega) _
    have hfound := hargs hrecognizable hinside (quiet_of_head (by rintro c ⟨⟩; decide))
    exact finds_arguments hword hquiet hfound hinner htail

end Search

/-! ## The search along a derivation -/

section Derivations
variable {callable : String → Bool}

mutual

theorem finds_sum {n : ℕ} {ts : List Token} {e : Expr} : SumTakes callable n ts e →
    n ≤ Parse.room → Recognizable callable ts → ∀ {p text rest}, Written p ts text rest →
      Quiet rest → Finds callable text rest e.integrals
  | .product h, hn, hrec, _, _, _, hw, hrest => finds_product h (by omega) hrec hw hrest
  | .join left _ right, hn, hrec, _, _, rest, hw, hrest => by
      obtain ⟨before, after, rfl, hleft, -, hword, hright⟩ := hw.cut
      obtain ⟨hrecLeft, hrecRight⟩ := hrec.sides left.isSum.balanced nofun nofun
      exact (finds_sum left (by omega) hrecLeft hleft (quiet_word hword.lexeme nofun _)).across
        hword.lexeme nofun (finds_product right (by omega) hrecRight hright hrest)

theorem finds_product {n : ℕ} {ts : List Token} {e : Expr} : ProductTakes callable n ts e →
    n ≤ Parse.room → Recognizable callable ts → ∀ {p text rest}, Written p ts text rest →
      Quiet rest → Finds callable text rest e.integrals
  | .signed h, hn, hrec, _, _, _, hw, hrest => finds_signed h (by omega) hrec hw hrest
  | .join left _ right, hn, hrec, _, _, rest, hw, hrest => by
      obtain ⟨before, after, rfl, hleft, -, hword, hright⟩ := hw.cut
      obtain ⟨hrecLeft, hrecRight⟩ := hrec.sides left.isProduct.balanced nofun nofun
      exact (finds_product left (by omega) hrecLeft hleft (quiet_word hword.lexeme nofun _)).across
        hword.lexeme nofun (finds_signed right (by omega) hrecRight hright hrest)
  | .juxtapose left right h, hn, hrec, _, _, rest, hw, hrest => by
      obtain ⟨before, after, rfl, hleft, hright⟩ := hw.split
      have hcloses := closesItsOwn_of_balanced left.isProduct.balanced
      exact (finds_product left (by omega) (hrec.left hcloses) hleft
        (quiet_power right.isPower hright)).append
          (finds_power right (by omega) (hrec.right hcloses h.seam) hright hrest)

theorem finds_signed {n : ℕ} {ts : List Token} {e : Expr} : SignedTakes callable n ts e →
    n ≤ Parse.room → Recognizable callable ts → ∀ {p text rest}, Written p ts text rest →
      Quiet rest → Finds callable text rest e.integrals
  | .sign _ operand, hn, hrec, _, _, rest, hw, hrest => by
      obtain ⟨gap, after, hgap, rfl, -, hword, hoperand⟩ := hw.first
      exact (finds_blank hgap _).across hword.lexeme nofun
        (finds_signed operand (by omega) (hrec.tail nofun) hoperand hrest)
  | .power h, hn, hrec, _, _, _, hw, hrest => finds_power h (by omega) hrec hw hrest

theorem finds_power {n : ℕ} {ts : List Token} {e : Expr} : PowerTakes callable n ts e →
    n ≤ Parse.room → Recognizable callable ts → ∀ {p text rest}, Written p ts text rest →
      Quiet rest → Finds callable text rest e.integrals
  | .atom h, hn, hrec, _, _, _, hw, hrest => finds_atom h (by omega) hrec hw hrest
  | .power base exponent, hn, hrec, _, _, rest, hw, hrest => by
      obtain ⟨before, after, rfl, hbase, -, hword, hexponent⟩ := hw.cut
      obtain ⟨hrecBase, hrecExponent⟩ := hrec.sides base.isAtom.balanced nofun nofun
      exact (finds_atom base (by omega) hrecBase hbase (quiet_word hword.lexeme nofun _)).across
        hword.lexeme nofun (finds_signed exponent (by omega) hrecExponent hexponent hrest)

theorem finds_atom {n : ℕ} {ts : List Token} {e : Expr} : AtomTakes callable n ts e →
    n ≤ Parse.room → Recognizable callable ts → ∀ {p text rest}, Written p ts text rest →
      Quiet rest → Finds callable text rest e.integrals
  | .number, _, _, _, _, _, hw, _ => by
      obtain ⟨gap, after, hgap, rfl, -, hword, hafter⟩ := hw.first
      exact (finds_blank hgap _).across hword.lexeme nofun (finds_blank hafter.isBlank _)
  | .var, _, _, _, _, rest, hw, hrest => by
      obtain ⟨gap, after, hgap, rfl, -, hword, hafter⟩ := hw.first
      exact (finds_blank hgap _).append ((finds_nothing (allFrom_word hword fun _ =>
        quiet_blank_append hafter.isBlank hrest)).append (finds_blank hafter.isBlank _))
  | .group inside, hn, hrec, _, _, _, hw, _ => by
      obtain ⟨gap, text, tail, hgap, htail, rfl, -, hinside⟩ := exists_bracketed hw
      have hfound := finds_sum inside (by omega) (hrec.bracketed inside.isSum.balanced) hinside
        (quiet_of_head (by rintro c ⟨⟩; decide))
      exact hfound.bracketed hgap htail
  | .callEmpty _, _, _, _, _, rest, hw, _ => by
      obtain ⟨gap, after, hgap, rfl, -, hword, hafter⟩ := hw.first
      have hbrackets : Written _ (_ :: ([] ++ [_])) _ _ := hafter
      obtain ⟨gap', text, tail, hinner, htail, rfl, -, hinside⟩ := exists_bracketed hbrackets
      have hpiece := isPiece_blank hinside.isBlank
      rw [bracketed_append] at hword
      have hquiet := quiet_bracketed hinner hpiece.balanced (by simp [hpiece.uncut]) (tail ++ rest)
      exact (finds_blank hgap _).append (finds_arguments hword (fun _ => hquiet)
        (finds_blank hinside.isBlank _) hinner htail)
  | .call _ inside, hn, hrec, _, _, _, hw, _ =>
      finds_call inside (by omega) hrec hw fun hrec' _ _ _ hw' hrest' =>
        finds_all inside (by omega) hrec' hw' hrest'

theorem finds_all {n : ℕ} {ts : List Token} {es : List Expr} : ArgumentsTake callable n ts es →
    n ≤ Parse.room → Recognizable callable ts → ∀ {p text rest}, Written p ts text rest →
      Quiet rest → Finds callable text rest (Expr.allIntegrals es)
  | .last h, hn, hrec, _, _, _, hw, hrest => by
      rw [Expr.allIntegrals, Expr.allIntegrals, List.append_nil]
      exact finds_sum h hn hrec hw hrest
  | .more first others, hn, hrec, _, _, rest, hw, hrest => by
      obtain ⟨before, after, rfl, hfirst, -, hword, hothers⟩ := hw.cut
      obtain ⟨hrecFirst, hrecOthers⟩ := hrec.sides first.isSum.balanced nofun nofun
      exact (finds_sum first (by omega) hrecFirst hfirst (quiet_word hword.lexeme nofun _)).across
        hword.lexeme nofun (finds_all others (by omega) hrecOthers hothers hrest)

end

end Derivations

/-- The search in a text that is an expression finds the integrals of its tree, one for one and in order,
each with pieces that read as the arguments, provided that the calls with three arguments that look
like integrals are the integrals, those inside an integral that is found apart. -/
theorem all_are_outermost_integrals (callable : String → Bool) (text : String) (e : Expr)
    (hread : Expr.read callable text = .ok e)
    (hrec : ∀ stream, Token.scan text.toList = .ok stream → Recognizable callable stream.tokens) :
    List.Forall₂ (Reads callable) (all text) e.integrals := by
  unfold Expr.read Expr.readWithin at hread
  split at hread
  · next stream hscan =>
    obtain ⟨need, hneed, htakes⟩ := parseWithin_eq_ok_iff_takes.mp hread
    have hwritten := (scans_of_scan hscan).1.written
    obtain ⟨calls, hcalls, hreads⟩ :=
      finds_sum htakes hneed (hrec stream hscan) hwritten (quiet_of_head (by rintro c ⟨⟩))
    rw [List.append_nil, allFrom, List.append_nil] at hcalls
    rwa [all, hcalls]
  · cases hread

theorem integral_beside_and_inside_call :
    Expr.read isReserved "int(x, 0, b) + sin(int(y,x,x))" =
        .ok (.binary .add (.call "int" [.var "x", .number 0.0, .var "b"])
          (.call "sin" [.call "int" [.var "y", .var "x", .var "x"]])) ∧
      List.Forall₂ (Reads isReserved) [⟨"x", "0", "b"⟩, ⟨"y", "x", "x"⟩]
        [(.var "x", .number 0.0, .var "b"), (.var "y", .var "x", .var "x")] := by
  have hscan : Token.scan "int(x, 0, b) + sin(int(y,x,x))".toList = .ok ⟨[⟨.name, "int", 0⟩,
      ⟨.opening, "(", 3⟩, ⟨.name, "x", 4⟩, ⟨.comma, ",", 5⟩, ⟨.number 0.0, "0", 7⟩, ⟨.comma, ",", 8⟩,
      ⟨.name, "b", 10⟩, ⟨.closing, ")", 11⟩, ⟨.operator, "+", 13⟩, ⟨.name, "sin", 15⟩,
      ⟨.opening, "(", 18⟩, ⟨.name, "int", 19⟩, ⟨.opening, "(", 22⟩, ⟨.name, "y", 23⟩, ⟨.comma, ",", 24⟩,
      ⟨.name, "x", 25⟩, ⟨.comma, ",", 26⟩, ⟨.name, "x", 27⟩, ⟨.closing, ")", 28⟩,
      ⟨.closing, ")", 29⟩], 30⟩ := by
    decide +kernel
  have hread : Expr.read isReserved "int(x, 0, b) + sin(int(y,x,x))" =
      .ok (.binary .add (.call "int" [.var "x", .number 0.0, .var "b"])
        (.call "sin" [.call "int" [.var "y", .var "x", .var "x"]])) := by
    rw [Expr.read, Expr.readWithin, hscan]
    rfl
  have hall : all "int(x, 0, b) + sin(int(y,x,x))" = [⟨"x", "0", "b"⟩, ⟨"y", "x", "x"⟩] := by
    decide +kernel
  refine ⟨hread, ?_⟩
  rw [← hall]
  refine all_are_outermost_integrals isReserved _ _ hread fun stream hstream => ?_
  rw [hscan] at hstream
  cases hstream
  exact recognizable_of_isChain (by decide +kernel)

/-- With a blank behind `int` the integral of the tree is missed, and a call with three arguments of
another name that ends in `int` is taken for an integral. -/
theorem integral_missed_and_call_mistaken :
    let table := FunctionTable.ofList [⟨"print", "t", "t"⟩]
    (∃ e, Expr.read table.callable "int (x, 0, 1)" = .ok e ∧ e.integrals.length = 1 ∧
      all "int (x, 0, 1)" = []) ∧
    ∃ e, Expr.read table.callable "print(x, 0, 1)" = .ok e ∧ e.integrals = [] ∧
      all "print(x, 0, 1)" = [⟨"x", "0", "1"⟩] := by
  intro table
  have hspaced : Token.scan "int (x, 0, 1)".toList = .ok ⟨[⟨.name, "int", 0⟩, ⟨.opening, "(", 4⟩,
      ⟨.name, "x", 5⟩, ⟨.comma, ",", 6⟩, ⟨.number 0.0, "0", 8⟩, ⟨.comma, ",", 9⟩,
      ⟨.number 1.0, "1", 11⟩, ⟨.closing, ")", 12⟩], 13⟩ := by
    decide +kernel
  have hprint : Token.scan "print(x, 0, 1)".toList = .ok ⟨[⟨.name, "print", 0⟩, ⟨.opening, "(", 5⟩,
      ⟨.name, "x", 6⟩, ⟨.comma, ",", 7⟩, ⟨.number 0.0, "0", 9⟩, ⟨.comma, ",", 10⟩,
      ⟨.number 1.0, "1", 12⟩, ⟨.closing, ")", 13⟩], 14⟩ := by
    decide +kernel
  refine ⟨⟨.call "int" [.var "x", .number 0.0, .number 1.0], ?_, rfl, by decide +kernel⟩,
    ⟨.call "print" [.var "x", .number 0.0, .number 1.0], ?_, rfl, by decide +kernel⟩⟩
  · rw [Expr.read, Expr.readWithin, hspaced]
    rfl
  · rw [Expr.read, Expr.readWithin, hprint]
    rfl

end IntegralCall
end GraphCalc
