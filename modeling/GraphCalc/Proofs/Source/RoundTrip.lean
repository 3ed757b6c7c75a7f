import GraphCalc.Proofs.Grammar.MoreRoom
import GraphCalc.Proofs.Source.Rendered

/-! # Reading back what is written

When the text of a tree reads back as the tree. Main notions and statements:

* `Carries`: what a tree that tokens derive takes from the tokens;
* `read_source_iff`: the text of a legible tree reads back as the tree exactly if its numbers are
  plain;
* `read_source_of_read_iff`: the text of a tree that was read reads back exactly if its numbers are
  finite.
-/

namespace GraphCalc
open GraphCalc.Binary64 GraphCalc.Text
set_option autoImplicit false

namespace Token

/-- The value of a number token. -/
def value? (t : Token) : Option Float :=
  match t.kind with
  | .number v => some v
  | _ => none

theorem isSome_value? (t : Token) : t.value?.isSome = t.isNumber := by
  obtain ⟨kind, text, p⟩ := t
  cases kind <;> rfl

end Token

namespace Grammar
open Token

/-! ## What a derived tree takes from the tokens -/

section Carried
variable (callable : String → Bool)

/-- The numbers of the tree are those of the tokens, every operator token has its place in the tree,
and the tree is legible if the name tokens are names. -/
structure Carries (ts : List Token) (e : Expr) : Prop where
  numbers : e.numbers = ts.filterMap value?
  operators : ts.countP isOperation ≤ e.operatorCount
  legible : (∀ t ∈ ts, Scanned t) → e.Legible callable

/-- The same for several trees. -/
structure CarriesAll (ts : List Token) (es : List Expr) : Prop where
  numbers : Expr.allNumbers es = ts.filterMap value?
  operators : ts.countP isOperation ≤ Expr.allOperatorCount es
  legible : (∀ t ∈ ts, Scanned t) → Expr.AllLegible callable es

variable {callable}

theorem Carries.join {ts us : List Token} {a b : Expr} {operator : Operator} {p : ℕ}
    (ha : Carries callable ts a) (hb : Carries callable us b) (hknown : operator ∈ Operator.known) :
    Carries callable (ts ++ ⟨.operator, operator.symbol, p⟩ :: us) (.binary operator a b) := by
  refine ⟨by simp [Expr.numbers, ha.numbers, hb.numbers, value?, List.filterMap_cons], ?_,
    fun hscanned => ?_⟩
  · have hleft := ha.operators
    have hright := hb.operators
    simp [Expr.operatorCount, isOperation]
    omega
  · exact ⟨hknown, ha.legible fun t ht => hscanned t (by simp [ht]),
      hb.legible fun t ht => hscanned t (by simp [ht])⟩

theorem Carries.juxtapose {ts us : List Token} {a b : Expr} (ha : Carries callable ts a)
    (hb : Carries callable us b) : Carries callable (ts ++ us) (.binary .multiply a b) := by
  refine ⟨by simp [Expr.numbers, ha.numbers, hb.numbers], ?_, fun hscanned => ?_⟩
  · have hleft := ha.operators
    have hright := hb.operators
    simp [Expr.operatorCount]
    omega
  · exact ⟨by decide, ha.legible fun t ht => hscanned t (by simp [ht]),
      hb.legible fun t ht => hscanned t (by simp [ht])⟩

theorem mem_known_of_additive {operator : Operator} (h : operator ∈ [Operator.add, .subtract]) :
    operator ∈ Operator.known := by
  have hsubset : [Operator.add, .subtract] ⊆ Operator.known := by simp [Operator.known]
  exact hsubset h

theorem mem_known_of_multiplicative {operator : Operator}
    (h : operator ∈ [Operator.multiply, .divide, .modulo]) : operator ∈ Operator.known := by
  have hsubset : [Operator.multiply, .divide, .modulo] ⊆ Operator.known := by simp [Operator.known]
  exact hsubset h

mutual

theorem IsSum.carries {ts : List Token} {e : Expr} : IsSum callable ts e → Carries callable ts e
  | .product h => h.carries
  | .join left known right => left.carries.join right.carries (mem_known_of_additive known)

theorem IsProduct.carries {ts : List Token} {e : Expr} :
    IsProduct callable ts e → Carries callable ts e
  | .signed h => h.carries
  | .join left known right => left.carries.join right.carries (mem_known_of_multiplicative known)
  | .juxtapose left right _ => left.carries.juxtapose right.carries

theorem IsSigned.carries {ts : List Token} {e : Expr} :
    IsSigned callable ts e → Carries callable ts e
  | .sign known operand => by
      have h := operand.carries
      refine ⟨by simp [Expr.numbers, h.numbers, value?, List.filterMap_cons], ?_,
        fun hscanned => ?_⟩
      · have hoperators := h.operators
        simpa [Expr.operatorCount, isOperation] using hoperators
      · exact ⟨known, h.legible fun t ht => hscanned t (by simp [ht])⟩
  | .power h => h.carries

theorem IsPower.carries {ts : List Token} {e : Expr} :
    IsPower callable ts e → Carries callable ts e
  | .atom h => h.carries
  | .power base exponent => base.carries.join exponent.carries (by decide)

theorem IsAtom.carries {ts : List Token} {e : Expr} : IsAtom callable ts e → Carries callable ts e
  | .number => ⟨rfl, by simp [isOperation], fun _ => trivial⟩
  | .var =>
      ⟨rfl, by simp [isOperation], fun hscanned => hscanned _ (List.mem_singleton_self _)⟩
  | .group inside => by
      have h := inside.carries
      refine ⟨by simp [h.numbers, value?, List.filterMap_cons], ?_, fun hscanned => ?_⟩
      · have hoperators := h.operators
        simpa [isOperation] using hoperators
      · exact h.legible fun t ht => hscanned t (by simp [ht])
  | .callEmpty head =>
      ⟨rfl, by simp [isOperation], fun hscanned =>
        ⟨hscanned _ (List.mem_cons_self ..), head, trivial⟩⟩
  | .call head inside => by
      have h := inside.carries
      refine ⟨by simp [Expr.numbers, h.numbers, value?, List.filterMap_cons], ?_,
        fun hscanned => ?_⟩
      · have hoperators := h.operators
        simpa [Expr.operatorCount, isOperation] using hoperators
      · exact ⟨hscanned _ (List.mem_cons_self ..), head,
          h.legible fun t ht => hscanned t (by simp [ht])⟩

theorem AreArguments.carries {ts : List Token} {es : List Expr} :
    AreArguments callable ts es → CarriesAll callable ts es
  | .last h => by
      have h := h.carries
      exact ⟨by simp [Expr.allNumbers, h.numbers],
        by simpa [Expr.allOperatorCount] using h.operators,
        fun hscanned => ⟨h.legible hscanned, trivial⟩⟩
  | .more first others => by
      have h := first.carries
      have hs := others.carries
      refine ⟨by simp [Expr.allNumbers, h.numbers, hs.numbers, value?, List.filterMap_cons], ?_,
        fun hscanned => ?_⟩
      · have hleft := h.operators
        have hright := hs.operators
        simp [Expr.allOperatorCount, isOperation]
        omega
      · exact ⟨h.legible fun t ht => hscanned t (by simp [ht]),
          hs.legible fun t ht => hscanned t (by simp [ht])⟩

end
end Carried
end Grammar

/-! ## Trees that are the same -/

namespace Expr

mutual

theorem same_counts : ∀ {a b : Expr}, a.same b = true →
    a.numbers.length = b.numbers.length ∧ a.operatorCount = b.operatorCount
  | .number _, b, h => by
      cases b <;> simp [same] at h
      exact ⟨rfl, rfl⟩
  | .var _, b, h => by
      cases b <;> simp [same] at h
      exact ⟨rfl, rfl⟩
  | .signed _ _, b, h => by
      cases b <;> simp [same] at h
      have hoperand := same_counts h.2
      simpa [numbers, operatorCount] using hoperand
  | .binary _ _ _, b, h => by
      cases b <;> simp [same] at h
      have hleft := same_counts h.1.2
      have hright := same_counts h.2
      simp [numbers, operatorCount]
      omega
  | .call _ _, b, h => by
      cases b <;> simp [same] at h
      exact sameAll_counts h.2

theorem sameAll_counts : ∀ {as bs : List Expr}, sameAll as bs = true →
    (allNumbers as).length = (allNumbers bs).length ∧ allOperatorCount as = allOperatorCount bs
  | [], bs, h => by
      cases bs <;> simp [sameAll] at h
      exact ⟨rfl, rfl⟩
  | a :: as, bs, h => by
      cases bs <;> simp [sameAll] at h
      have hfirst := same_counts h.1
      have hothers := sameAll_counts h.2
      simp [allNumbers, allOperatorCount]
      omega

end

mutual

theorem same_self : ∀ {e : Expr}, (∀ v ∈ e.numbers, v.isNaN = false) → e.same e = true
  | .number v, h => by simpa [same] using beq_self (h v (List.mem_singleton_self v))
  | .var _, _ => by simp [same]
  | .signed _ operand, h => by simpa [same] using same_self (e := operand) h
  | .binary _ _ _, h => by
      have hleft := same_self fun v hv => h v (List.mem_append_left _ hv)
      have hright := same_self fun v hv => h v (List.mem_append_right _ hv)
      simp [same, hleft, hright]
  | .call _ _, h => by simpa [same] using sameAll_self h

theorem sameAll_self : ∀ {es : List Expr}, (∀ v ∈ allNumbers es, v.isNaN = false) →
    sameAll es es = true
  | [], _ => rfl
  | _ :: _, h => by
      have hfirst := same_self fun v hv => h v (List.mem_append_left _ hv)
      have hothers := sameAll_self fun v hv => h v (List.mem_append_right _ hv)
      simp [sameAll, hfirst, hothers]

end

end Expr

/-! ## Round trips -/

section Reading
open GraphCalc.Expr GraphCalc.Grammar
variable {callable : String → Bool} {room : ℕ} {text : String} {e t : Expr}

theorem readWithin_ok (h : readWithin room callable text = .ok e) :
    ∃ stream, Token.scan text.toList = .ok stream ∧ IsSum callable stream.tokens e := by
  unfold readWithin at h
  split at h
  · next stream hscan => exact ⟨stream, hscan, isSum_of_parseWithin h⟩
  · cases h

theorem readWithin_ok_iff {stream : Token.Stream} (hscan : Token.scan text.toList = .ok stream)
    (h : ¬ TooDeep (readWithin room callable text)) :
    readWithin room callable text = .ok e ↔ IsSum callable stream.tokens e := by
  unfold readWithin at h ⊢
  rw [hscan] at h ⊢
  exact parseWithin_eq_ok_iff h e

/-- What the text of a legible tree reads as: the tree itself, if its numbers are plain. -/
theorem readWithin_source (ht : t.Legible callable) (hplain : ∀ v ∈ t.numbers, Plain v)
    (hroom : ¬ TooDeep (readWithin room callable t.source)) :
    readWithin room callable t.source = .ok t := by
  obtain ⟨stream, hscan, hrenders⟩ := (spells_source ht).scan
  exact (readWithin_ok_iff hscan hroom).mpr (isSum_of_isAtom (hrenders.tree hplain))

/-- A tree that the text of `t` reads as, and that is the same as `t`, has as many numbers as the
text has numerals and at least as many operators as the text has; so all numbers are plain. -/
theorem plain_of_readWithin_source (ht : t.Legible callable)
    (hread : readWithin room callable t.source = .ok e) (hsame : e.same t = true) :
    ∀ v ∈ t.numbers, Plain v := by
  obtain ⟨stream, hscan, hrenders⟩ := (spells_source ht).scan
  obtain ⟨stream', hscan', hsum⟩ := readWithin_ok hread
  obtain rfl : stream = stream' := Except.ok.inj (hscan.symm.trans hscan')
  have hcarries := hsum.carries
  obtain ⟨hnumbers, hoperators⟩ := same_counts hsame
  have hfinite : t.numbers.countP Float.isFinite = t.numbers.length := by
    rw [← hrenders.numbers, ← hnumbers, hcarries.numbers, List.length_filterMap_eq_countP]
    exact List.countP_congr fun t _ => by rw [Token.isSome_value?]
  have hmarked : t.numbers.countP isMarked = 0 := by
    have h1 := hrenders.operators
    have h2 := hcarries.operators
    omega
  intro v hv
  refine plain_iff.mpr ⟨List.countP_eq_length.mp hfinite v hv, ?_⟩
  rw [Bool.eq_false_iff]
  exact List.countP_eq_zero.mp hmarked v hv

/-- The text of a legible tree reads back as the tree exactly if all its numbers are finite and have
no sign. The only other obstacle is nesting beyond the room. -/
theorem read_source_iff (ht : t.Legible callable) (room : ℕ) :
    (TooDeep (readWithin room callable t.source) → room < roomFor t.source) ∧
    (¬ TooDeep (readWithin room callable t.source) →
      ((∃ e, readWithin room callable t.source = .ok e ∧ e.same t = true) ↔
        ∀ v ∈ t.numbers, v.isFinite = true ∧ isNegative v = false)) := by
  refine ⟨lt_roomFor_of_tooDeep, fun hroom => ⟨?_, fun hplain => ?_⟩⟩
  · rintro ⟨e, hread, hsame⟩
    exact plain_of_readWithin_source ht hread hsame
  · refine ⟨t, readWithin_source ht hplain hroom, same_self fun v hv => ?_⟩
    exact isNaN_of_isFinite (hplain v hv).1

/-- A tree with one number, a name and a call. -/
def negatedProduct (v : Float) : Expr :=
  .signed .minus (.binary .multiply (.number v) (.call "f" [.var "x"]))

theorem legible_negatedProduct (v : Float) : (negatedProduct v).Legible (· == "f") :=
  ⟨by decide, by decide, trivial, ⟨'f', [], rfl, .inl ⟨rfl, by simp⟩⟩, by decide,
    ⟨'x', [], rfl, .inl ⟨rfl, by simp⟩⟩, trivial⟩

/-- With a half the tree reads back; with minus a half its text has one sign more than the tree. -/
theorem read_source_negatedProduct :
    (∃ e, readWithin (roomFor (negatedProduct 0.5).source) (· == "f") (negatedProduct 0.5).source =
      .ok e ∧ e.same (negatedProduct 0.5) = true) ∧
    ¬ ∃ e, readWithin (roomFor (negatedProduct (-0.5)).source) (· == "f")
      (negatedProduct (-0.5)).source = .ok e ∧ e.same (negatedProduct (-0.5)) = true := by
  have hhalf := read_source_iff (legible_negatedProduct 0.5) (roomFor (negatedProduct 0.5).source)
  have hminus := read_source_iff (legible_negatedProduct (-0.5))
    (roomFor (negatedProduct (-0.5)).source)
  constructor
  · refine (hhalf.2 fun hdeep => Nat.lt_irrefl _ (hhalf.1 hdeep)).mpr ?_
    intro v hv
    obtain rfl : v = 0.5 := by simpa [negatedProduct, numbers, allNumbers] using hv
    decide
  · intro hread
    have hplain := (hminus.2 fun hdeep => Nat.lt_irrefl _ (hminus.1 hdeep)).mp hread (-0.5)
      (by simp [negatedProduct, numbers])
    exact absurd hplain.2 (by decide)

/-- A tree that was read is legible, and its numbers have no sign. -/
theorem legible_of_readWithin (h : readWithin room callable text = .ok e) :
    e.Legible callable ∧ ∀ v ∈ e.numbers, isNegative v = false := by
  obtain ⟨stream, hscan, hsum⟩ := readWithin_ok h
  have hscanned := (Token.scan_tokens hscan).1
  refine ⟨hsum.carries.legible hscanned, fun v hv => ?_⟩
  rw [hsum.carries.numbers] at hv
  obtain ⟨⟨kind, text, p⟩, htoken, hvalue⟩ := List.mem_filterMap.mp hv
  cases kind with
  | number w =>
    obtain rfl : w = v := Option.some.inj hvalue
    obtain ⟨n, hn⟩ := hscanned _ htoken
    rw [← hn]
    exact Decimal.isNegative_toFloat _
  | _ => cases hvalue

/-- The text of a tree that was read reads back as the tree exactly if no numeral of the tree is
beyond the range of doubles. -/
theorem read_source_of_read_iff (h : readWithin room callable text = .ok e) (room' : ℕ) :
    (TooDeep (readWithin room' callable e.source) → room' < roomFor e.source) ∧
    (¬ TooDeep (readWithin room' callable e.source) →
      ((∃ e', readWithin room' callable e.source = .ok e' ∧ e'.same e = true) ↔
        ∀ v ∈ e.numbers, v.isFinite = true)) := by
  obtain ⟨hlegible, hsign⟩ := legible_of_readWithin h
  refine ⟨lt_roomFor_of_tooDeep, fun hroom => ⟨?_, fun hfinite => ?_⟩⟩
  · rintro ⟨e', hread, hsame⟩ v hv
    exact (plain_of_readWithin_source hlegible hread hsame v hv).1
  · refine ⟨e, readWithin_source hlegible (fun v hv => ⟨hfinite v hv, hsign v hv⟩) hroom, ?_⟩
    exact same_self fun v hv => isNaN_of_isFinite (hfinite v hv)

/-- A tree with a half is read again from the text it was read from; infinity is not. -/
theorem read_source_of_read_negatedProduct :
    (∃ e, readWithin (roomFor (negatedProduct 0.5).source) (· == "f") (negatedProduct 0.5).source =
      .ok e ∧ e.same (negatedProduct 0.5) = true) ∧
    Expr.read (fun _ => false) "1e999" = .ok (.number infinity) ∧
    ¬ ∃ e, readWithin (roomFor (Expr.number infinity).source) (fun _ => false)
      (Expr.number infinity).source = .ok e ∧ e.same (.number infinity) = true := by
  have hplain : ∀ v ∈ (negatedProduct 0.5).numbers, Plain v := by
    intro v hv
    obtain rfl : v = 0.5 := by simpa [negatedProduct, numbers, allNumbers] using hv
    exact ⟨by decide, by decide⟩
  have hhalf : readWithin (roomFor (negatedProduct 0.5).source) (· == "f")
      (negatedProduct 0.5).source = .ok (negatedProduct 0.5) :=
    readWithin_source (legible_negatedProduct 0.5) hplain
      fun hdeep => Nat.lt_irrefl _ (lt_roomFor_of_tooDeep hdeep)
  have hinfinity : Expr.read (fun _ => false) "1e999" = .ok (.number infinity) := by cbv
  have hiff := read_source_of_read_iff hhalf (roomFor (negatedProduct 0.5).source)
  have hiff' := read_source_of_read_iff hinfinity (roomFor (Expr.number infinity).source)
  refine ⟨?_, hinfinity, fun hread => ?_⟩
  · exact (hiff.2 fun hdeep => Nat.lt_irrefl _ (hiff.1 hdeep)).mpr fun v hv => (hplain v hv).1
  · have hfinite := (hiff'.2 fun hdeep => Nat.lt_irrefl _ (hiff'.1 hdeep)).mp hread infinity
      (List.mem_singleton_self _)
    exact absurd hfinite (by decide)

/-- A numeral beyond the range of doubles is written as a name, which reads as a variable. -/
theorem overflowing_numeral_reads_as_variable :
    Expr.read (fun _ => false) "1e999" = .ok (.number infinity) ∧
    (Expr.number infinity).source = "inf" ∧
    Expr.read (fun _ => false) "inf" = .ok (.var "inf") ∧
    (Expr.var "inf").same (.number infinity) = false :=
  ⟨by cbv, rfl, by cbv, rfl⟩

end Reading
end GraphCalc
