import GraphCalc.Proofs.Line.Tightest

/-! # What limits let in

A value is let in by limits if no bound on its axis excludes it. Applying a bound shuts values out, and
lets none in but one: an inclusive bound takes the place of an exclusive one of the same value, and with
it that value is let in. Main notions and statements:

* `Bound.Reopens`: whether an inclusive bound takes the place of an exclusive one at a value;
* `Limits.allows_of_allows_apply`: what is let in after a bound was applied;
* `Side.Tightest.admits_iff`, `Side.Amounts.admits_iff`: what is let in by what bounds amount to;
* `Limits.allows_read?_iff`: what is let in by all clauses of a text.
-/

namespace GraphCalc
open Binary64
set_option autoImplicit false

/-! ## One application -/

section Application
variable {side : Side} {b c : Bound} {v : Float}

/-- Whether an inclusive bound `b` takes the place of an exclusive bound `c` at the value `v` of both. -/
def Bound.Reopens (b c : Bound) (v : Float) : Prop :=
  b.inclusive = true ∧ c.inclusive = false ∧ (b.value == c.value) = true ∧ (v == c.value) = true

/-- What a bound that is at least as tight as another excludes less is the value of both at most. -/
theorem Bound.reopens_of_excludes (hb : b.value.isNaN = false)
    (hle : side.depth c.value ≤ side.depth b.value) (hc : c.Excludes side v)
    (hnot : ¬ b.Excludes side v) : b.Reopens c v := by
  obtain ⟨hv, hcnan, hdepth⟩ := excludes_iff.mp hc
  rw [excludes_iff, and_iff_right hv, and_iff_right hb, not_or, not_and, Bool.not_eq_false] at hnot
  have hequal : side.depth b.value = side.depth c.value ∧ side.depth v = side.depth c.value := by omega
  have hexclusive : c.inclusive = false := by
    rcases hdepth with hlt | ⟨-, hexclusive⟩
    · omega
    · exact hexclusive
  exact ⟨hnot.2 (hequal.2.trans hequal.1.symm), hexclusive,
    (beq_iff_rank hb hcnan).mpr (Side.depth_eq_iff.mp hequal.1),
    (beq_iff_rank hv hcnan).mpr (Side.depth_eq_iff.mp hequal.2)⟩

theorem Bound.Replaces.reopens (h : b.Replaces side c) (hc : c.Excludes side v)
    (hb : ¬ b.Excludes side v) : b.Reopens c v := by
  obtain ⟨hbnan, -, hdepth⟩ := h
  refine Bound.reopens_of_excludes hbnan ?_ hc hb
  rcases hdepth with hlt | ⟨heq, -⟩
  · exact hlt.le
  · exact heq.le

/-- What a range allows after a bound was applied it allowed before, unless the bound reopens it. -/
theorem Range.allows_of_allows_tighten {r : Range} (h : (r.tighten side b).allows v = true) :
    r.allows v = true ∨ ∃ c, r.bound side = some c ∧ b.Reopens c v := by
  rw [Range.allows_iff_bounds] at h ⊢
  by_contra hnot
  push Not at hnot
  obtain ⟨⟨other, c, hc, hexcludes⟩, hreopens⟩ := hnot
  by_cases hside : other = side
  · subst hside
    have hafter := bound_tighten_of_some (b := b) hc
    split at hafter
    · next hreplaces => exact hreopens c hc (hreplaces.reopens hexcludes (h other b hafter))
    · exact h other c hafter hexcludes
  · exact h other c ((bound_tighten_of_ne hside).trans hc) hexcludes

theorem Limits.allows_of_allows_apply (l : Limits) (b : AxisBound) {axis : Axis}
    (h : ((l.apply b).range axis).allows v = true) : (l.range axis).allows v = true ∨
    b.axis = axis ∧ ∃ c, l.bound axis b.side = some c ∧ b.bound.Reopens c v := by
  rw [range_apply] at h
  split at h
  · next haxis => exact (Range.allows_of_allows_tighten h).imp_right fun hc => ⟨haxis, hc⟩
  · exact .inl h

end Application

/-! ## All clauses of a text -/

/-- Whether the first of the bounds on a side is undefined, so that none of them has an effect. -/
def UndefinedFirst (given : List Bound) : Prop := ∃ b ∈ given.head?, b.value.isNaN = true

/-- The tightest of bounds excludes a value if and only if one of them does that no equal inclusive one
reopens. -/
theorem Side.Tightest.admits_iff {side : Side} {given : List Bound} {b : Bound} {v : Float}
    (hb : side.Tightest given b) :
    ¬ b.Excludes side v ↔ ∀ c ∈ given, c.Excludes side v → ∃ d ∈ given, d.Reopens c v := by
  constructor
  · intro hadmits c hc hexcludes
    have hcnan := (Bound.excludes_iff.mp hexcludes).2.1
    have hle := (atLeastAsTight_iff.mp (hb.isTightest c hc hcnan)).2.2
    obtain ⟨htrue, hexclusive, hsame, hvalue⟩ :=
      Bound.reopens_of_excludes hb.isNumber hle hexcludes hadmits
    -- the tightest bound is inclusive because one of those equal to it is
    obtain ⟨d, hd, hequal, hinclusive⟩ := hb.inclusive_iff.mp htrue
    obtain ⟨hdnan, -, hrank⟩ := beq_iff.mp hequal
    exact ⟨d, hd, hinclusive, hexclusive,
      (beq_iff_rank hdnan hcnan).mpr (hrank.trans (beq_iff.mp hsame).2.2), hvalue⟩
  · intro hall hexcludes
    obtain ⟨hv, hbnan, hdepth⟩ := Bound.excludes_iff.mp hexcludes
    obtain ⟨c, hc, hvalue⟩ := hb.isGiven
    have hc' : c.Excludes side v := by
      rw [Bound.excludes_iff, hvalue]
      refine ⟨hv, hbnan, hdepth.imp_right fun ⟨heq, hexclusive⟩ => ⟨heq, ?_⟩⟩
      by_contra hnot
      have hsame : (c.value == b.value) = true := by
        rw [hvalue]
        exact beq_self hbnan
      have htrue := hb.inclusive_iff.mpr ⟨c, hc, hsame, Bool.eq_true_of_not_eq_false hnot⟩
      exact Bool.false_ne_true (hexclusive.symm.trans htrue)
    obtain ⟨d, hd, htrue, -, hsame, hequal⟩ := hall c hc hc'
    rw [hvalue] at hsame hequal
    rcases hdepth with hlt | ⟨-, hexclusive⟩
    · have heq : side.depth v = side.depth b.value := depth_eq_iff.mpr (beq_iff.mp hequal).2.2
      omega
    · have htrue' := hb.inclusive_iff.mpr ⟨d, hd, hsame, htrue⟩
      exact Bool.false_ne_true (hexclusive.symm.trans htrue')

/-- What bounds amount to excludes a value as the tightest of them does, but for an undefined first one,
which excludes nothing. -/
theorem Side.Amounts.admits_iff {side : Side} {given : List Bound} {b : Option Bound} {v : Float}
    (h : side.Amounts given b) : (∀ c, b = some c → ¬ c.Excludes side v) ↔
    ∀ c ∈ given, c.Excludes side v → UndefinedFirst given ∨ ∃ d ∈ given, d.Reopens c v := by
  cases h with
  | nothing => simp
  | @undefined first rest hfirst =>
    refine iff_of_true ?_ fun _ _ _ => .inl ⟨first, rfl, hfirst⟩
    rintro _ ⟨⟩ hexcludes
    exact Bool.false_ne_true ((Bound.excludes_iff.mp hexcludes).2.1.symm.trans hfirst)
  | @tightest first rest b hfirst hb =>
    have hdefined : ¬ UndefinedFirst (first :: rest) := by
      rintro ⟨_, ⟨⟩, hundefined⟩
      exact Bool.false_ne_true (hfirst.symm.trans hundefined)
    simp only [Option.some.injEq, forall_eq', hdefined, false_or]
    exact hb.admits_iff

namespace Limits

/-- What the limits of a text allow: a value that no bound of its clauses excludes, as far as a bound is
neither without effect behind an undefined one nor reopened. -/
theorem allows_read?_iff (text : List Char) (axis : Axis) (v : Float) :
    (∀ l, read? text = some l → (l.range axis).allows v = true) ↔
    ∀ side, ∀ c ∈ boundsOn axis side (given text), c.Excludes side v →
      UndefinedFirst (boundsOn axis side (given text)) ∨
      ∃ d ∈ boundsOn axis side (given text), d.Reopens c v := by
  have hbounds : (∀ l, read? text = some l → (l.range axis).allows v = true) ↔
      ∀ side b, bound? axis side (read? text) = some b → ¬ b.Excludes side v := by
    cases read? text with
    | none => simp [bound?]
    | some l => simp [bound?, bound, Range.allows_iff_bounds]
  rw [hbounds]
  exact forall_congr' fun side => (amounts_read? text axis side).admits_iff

end Limits

/-- Applying a bound lets no value in that was not let in before, but the value of an inclusive bound
that takes the place of an exclusive one. So the limits of a text let no value in that a bound of its
clauses excludes, unless the first bound on that side is undefined or an inclusive bound of that value
takes its place. -/
theorem Limits.apply_tightens :
    (∀ (l : Limits) (b : AxisBound) (axis : Axis) (v : Float),
      ((l.apply b).range axis).allows v = true → (l.range axis).allows v = true ∨
        b.axis = axis ∧ ∃ c, l.bound axis b.side = some c ∧ b.bound.Reopens c v) ∧
    ∀ (text : List Char) (axis : Axis) (v : Float),
      (∀ l, read? text = some l → (l.range axis).allows v = true) ↔
      ∀ side, ∀ c ∈ boundsOn axis side (given text), c.Excludes side v →
        UndefinedFirst (boundsOn axis side (given text)) ∨
        ∃ d ∈ boundsOn axis side (given text), d.Reopens c v :=
  ⟨fun l b _ _ h => l.allows_of_allows_apply b h, allows_read?_iff⟩

/-- The range `x > 1` lets `1` in once `x >= 1` is applied, and so does the text of both clauses. Behind
a clause of an undefined value `x > 1` has no effect. -/
theorem Limits.equal_inclusive_bound_lets_in :
    let before := Limits.none.apply ⟨.x, .lower, ⟨1.0, false⟩⟩
    let after := before.apply ⟨.x, .lower, ⟨1.0, true⟩⟩
    (before.range .x).allows 1.0 = false ∧ (after.range .x).allows 1.0 = true ∧
    (⟨.x, .lower, ⟨1.0, false⟩⟩ : AxisBound) ∈ given "x > 1 && x >= 1".toList ∧
    (⟨1.0, false⟩ : Bound).Excludes .lower 1.0 ∧
    (read? "x > 1 && x >= 1".toList).map (fun l => (l.range .x).allows 1.0) = some true ∧
    (⟨.x, .lower, ⟨1.0, false⟩⟩ : AxisBound) ∈ given "x > nan && x > 1".toList ∧
    (⟨1.0, false⟩ : Bound).Excludes .lower 0.0 ∧
    (read? "x > nan && x > 1".toList).map (fun l => (l.range .x).allows 0.0) = some true := by
  refine ⟨by decide, by decide, by decide, .inr ⟨by decide, rfl⟩, rfl, by decide, .inl ?_, rfl⟩
  show (0.0 : Float) < 1.0
  decide

/-- A tighter bound that is applied to a range lets `3` in, and `3` was let in before. -/
theorem Limits.tighter_bound_lets_in_less :
    let before := Limits.none.apply ⟨.x, .lower, ⟨1.0, true⟩⟩
    let after := before.apply ⟨.x, .lower, ⟨2.0, false⟩⟩
    (after.range .x).allows 3.0 = true ∧ (after.range .x).allows 2.0 = false ∧
    (before.range .x).allows 3.0 = true ∧
    ∀ l, read? "x >= 1 && x > 2".toList = some l → (l.range .x).allows 3.0 = true := by
  intro before after
  have hafter : (after.range .x).allows 3.0 = true := by decide
  obtain ⟨hstep, hclauses⟩ := apply_tightens
  refine ⟨hafter, by decide, ?_, ?_⟩
  · rcases hstep before ⟨.x, .lower, ⟨2.0, false⟩⟩ .x 3.0 hafter with h | ⟨-, c, -, htrue, -⟩
    · exact h
    · cases htrue
  · refine (hclauses _ .x 3.0).mpr ?_
    have hlower : boundsOn .x .lower (given "x >= 1 && x > 2".toList) = [⟨1.0, true⟩, ⟨2.0, false⟩] := rfl
    have hupper : boundsOn .x .upper (given "x >= 1 && x > 2".toList) = [] := rfl
    rintro (_ | _) c hc hexcludes
    · have hnot : ∀ b ∈ [(⟨1.0, true⟩ : Bound), ⟨2.0, false⟩], ¬ b.Excludes .lower 3.0 := by
        unfold Bound.Excludes
        decide
      exact absurd hexcludes (hnot c (hlower ▸ hc))
    · rw [hupper] at hc
      cases hc

end GraphCalc
