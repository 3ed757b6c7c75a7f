import GraphCalc.Line.Clause
import GraphCalc.Proofs.Line.Sides
import Mathlib

/-! # What clauses amount to

The clauses of a text give bounds to the two sides of each axis, and the bounds are applied one after
the other. Whatever their order, a side is left with the tightest bound it was given. Only an undefined
value makes the order count: where it comes first it stays, and where it comes later it is passed over.
Main notions and statements:

* `AxisBound`, `Limits.given`: a bound with its axis and side, and the bounds that a text gives;
* `Side.Amounts`: what the bounds given to a side amount to;
* `Side.Amounts.tighten`, `Limits.amounts_applyAll`: one application, and all of them in order;
* `Limits.read?_amounts`: the limits of a text are what its clauses amount to.
-/

namespace GraphCalc
open Binary64
set_option autoImplicit false

/-! ## One bound -/

/-- Whether a bound takes the place of another on a side: it is tighter, or equal and inclusive. -/
def Bound.Replaces (side : Side) (b c : Bound) : Prop :=
  b.value.isNaN = false ∧ c.value.isNaN = false ∧ (side.depth c.value < side.depth b.value ∨
    side.depth c.value = side.depth b.value ∧ b.inclusive = true)

namespace Range

/-- Applies a bound on a side. -/
def tighten (side : Side) (b : Bound) (r : Range) : Range :=
  match side with
  | .lower => r.atLeast b
  | .upper => r.atMost b

theorem isFull_iff {r : Range} : r.isFull = true ↔ ∀ side, r.bound side = none := by
  rw [isFull, Bool.and_eq_true, Option.isNone_iff_eq_none, Option.isNone_iff_eq_none]
  constructor
  · rintro ⟨hlower, hupper⟩ (_ | _)
    · exact hlower
    · exact hupper
  · exact fun h => ⟨h .lower, h .upper⟩

section Tighten
variable {side other : Side} {b c : Bound} {r : Range}

theorem bound_tighten_of_ne (h : other ≠ side) : (r.tighten side b).bound other = r.bound other := by
  cases side with
  | lower =>
    obtain rfl : other = .upper := by cases other <;> trivial
    show (r.atLeast b).upper = r.upper
    unfold atLeast
    split
    · rfl
    · split <;> rfl
  | upper =>
    obtain rfl : other = .lower := by cases other <;> trivial
    show (r.atMost b).lower = r.lower
    unfold atMost
    split
    · rfl
    · split <;> rfl

theorem bound_tighten_of_none (h : r.bound side = none) : (r.tighten side b).bound side = some b := by
  cases side with
  | lower =>
    have hlower : r.lower = none := h
    simp only [tighten, atLeast, hlower, bound]
  | upper =>
    have hupper : r.upper = none := h
    simp only [tighten, atMost, hupper, bound]

open Classical in
theorem bound_tighten_of_some (h : r.bound side = some c) :
    (r.tighten side b).bound side = some (if b.Replaces side c then b else c) := by
  cases side with
  | lower =>
    have hlower : r.lower = some c := h
    have hiff : (decide (c.value < b.value) || (b.value == c.value && b.inclusive)) = true ↔
        b.Replaces .lower c := by
      rw [Bool.or_eq_true, Bool.and_eq_true, decide_eq_true_iff, lt_iff, beq_iff, Bound.Replaces,
        Side.depth, Side.depth]
      grind
    simp only [tighten, atLeast, hlower, hiff]
    split
    · rfl
    · exact hlower
  | upper =>
    have hupper : r.upper = some c := h
    have hiff : (decide (b.value < c.value) || (b.value == c.value && b.inclusive)) = true ↔
        b.Replaces .upper c := by
      rw [Bool.or_eq_true, Bool.and_eq_true, decide_eq_true_iff, lt_iff, beq_iff, Bound.Replaces,
        Side.depth, Side.depth]
      grind
    simp only [tighten, atMost, hupper, hiff]
    split
    · rfl
    · exact hupper

end Tighten
end Range

/-! ## Bounds of both axes -/

/-- A bound with the axis and the side that it is given to. -/
structure AxisBound where
  axis : Axis
  side : Side
  bound : Bound
  deriving DecidableEq, Repr

/-- The bounds in a list that are given to a side of an axis, in their order. -/
def boundsOn (axis : Axis) (side : Side) (bounds : List AxisBound) : List Bound :=
  (bounds.filter fun b => b.axis = axis ∧ b.side = side).map AxisBound.bound

theorem mem_boundsOn {axis : Axis} {side : Side} {bounds : List AxisBound} {b : Bound} :
    b ∈ boundsOn axis side bounds ↔ ⟨axis, side, b⟩ ∈ bounds := by
  simp only [boundsOn, List.mem_map, List.mem_filter, decide_eq_true_eq]
  constructor
  · rintro ⟨⟨_, _, _⟩, ⟨hb, rfl, rfl⟩, rfl⟩
    exact hb
  · exact fun hb => ⟨_, ⟨hb, rfl, rfl⟩, rfl⟩

namespace Limits

/-- The bound of limits on a side of an axis. -/
def bound (axis : Axis) (side : Side) (l : Limits) : Option Bound := (l.range axis).bound side

/-- Applies a bound to the side that it is given to. -/
def apply (l : Limits) (b : AxisBound) : Limits := l.modify b.axis (Range.tighten b.side b.bound)

/-- Applies bounds one after the other. -/
def applyAll (l : Limits) (bounds : List AxisBound) : Limits := bounds.foldl apply l

theorem applyAll_append_singleton (l : Limits) (bounds : List AxisBound) (b : AxisBound) :
    l.applyAll (bounds ++ [b]) = (l.applyAll bounds).apply b := by
  rw [applyAll, List.foldl_append]
  rfl

theorem range_apply (l : Limits) (b : AxisBound) (axis : Axis) : (l.apply b).range axis =
    if b.axis = axis then (l.range axis).tighten b.side b.bound else l.range axis := by
  rw [apply]
  cases b.axis <;> cases axis <;> rfl

theorem isEmpty_iff {l : Limits} : l.isEmpty = true ↔ ∀ axis side, l.bound axis side = .none := by
  rw [isEmpty, Bool.and_eq_true, Range.isFull_iff, Range.isFull_iff]
  constructor
  · rintro ⟨hx, hy⟩ (_ | _)
    · exact hx
    · exact hy
  · exact fun h => ⟨h .x, h .y⟩

end Limits

/-! ## What bounds amount to -/

/-- The tightest of bounds on a side: none of their numbers is tighter, and it is inclusive if and only
if one of those equal to it is. -/
structure Side.Tightest (side : Side) (given : List Bound) (b : Bound) : Prop where
  isNumber : b.value.isNaN = false
  isGiven : ∃ c ∈ given, c.value = b.value
  isTightest : ∀ c ∈ given, c.value.isNaN = false → side.AtLeastAsTight b.value c.value
  inclusive_iff : b.inclusive = true ↔ ∃ c ∈ given, (c.value == b.value) = true ∧ c.inclusive = true

/-- What the bounds given to a side amount to, in the order in which they are given: to no bound if
there are none, to the first one if it is undefined, else to the tightest. -/
inductive Side.Amounts (side : Side) : List Bound → Option Bound → Prop where
  | nothing : side.Amounts [] none
  | undefined {first : Bound} (rest : List Bound) (h : first.value.isNaN = true) :
      side.Amounts (first :: rest) (some first)
  | tightest {first : Bound} {rest : List Bound} {b : Bound} (h : first.value.isNaN = false)
      (hb : side.Tightest (first :: rest) b) : side.Amounts (first :: rest) (some b)

section Amounts
variable {side : Side} {given : List Bound} {b c : Bound}

/-- A bound that takes the place of the tightest one is the tightest with it. -/
theorem Side.Tightest.replace (h : side.Tightest given c) (hb : b.Replaces side c) :
    side.Tightest (given ++ [b]) b := by
  obtain ⟨hnumber, hc, hdepth⟩ := hb
  refine ⟨hnumber, ⟨b, List.mem_append_right _ List.mem_cons_self, rfl⟩, ?_, ?_⟩
  · intro d hd hdnan
    rw [Side.atLeastAsTight_iff, and_iff_right hnumber, and_iff_right hdnan]
    rcases List.mem_append.mp hd with hd | hd
    · have hle := (Side.atLeastAsTight_iff.mp (h.isTightest d hd hdnan)).2.2
      omega
    · rw [List.mem_singleton.mp hd]
  · constructor
    · intro hinclusive
      exact ⟨b, List.mem_append_right _ List.mem_cons_self, beq_self hnumber, hinclusive⟩
    · rintro ⟨d, hd, heq, hinclusive⟩
      rcases List.mem_append.mp hd with hd | hd
      -- an equal bound that was there before is no tighter than `c`, so `b` came in as an equal one
      · obtain ⟨hdnan, -, hrank⟩ := beq_iff.mp heq
        have hle := (Side.atLeastAsTight_iff.mp (h.isTightest d hd hdnan)).2.2
        have hsame : side.depth d.value = side.depth b.value := Side.depth_eq_iff.mpr hrank
        rcases hdepth with hlt | ⟨-, hb⟩
        · omega
        · exact hb
      · rwa [← List.mem_singleton.mp hd]

/-- A bound that does not take the place of the tightest one leaves it the tightest. -/
theorem Side.Tightest.keep (h : side.Tightest given c) (hb : ¬ b.Replaces side c) :
    side.Tightest (given ++ [b]) c := by
  have hdepth : b.value.isNaN = false → side.depth b.value ≤ side.depth c.value ∧
      (side.depth c.value = side.depth b.value → b.inclusive = false) := by
    intro hnumber
    rw [Bound.Replaces, and_iff_right hnumber, and_iff_right h.isNumber, not_or, not_and,
      Bool.not_eq_true, Int.not_lt] at hb
    exact hb
  obtain ⟨d, hd, hvalue⟩ := h.isGiven
  refine ⟨h.isNumber, ⟨d, List.mem_append_left _ hd, hvalue⟩, ?_, h.inclusive_iff.trans ?_⟩
  · intro e he henan
    rcases List.mem_append.mp he with he | he
    · exact h.isTightest e he henan
    · rw [List.mem_singleton.mp he] at henan ⊢
      exact Side.atLeastAsTight_iff.mpr ⟨h.isNumber, henan, (hdepth henan).1⟩
  · constructor
    · rintro ⟨e, he, hequal⟩
      exact ⟨e, List.mem_append_left _ he, hequal⟩
    · rintro ⟨e, he, heq, hinclusive⟩
      rcases List.mem_append.mp he with he | he
      · exact ⟨e, he, heq, hinclusive⟩
      · obtain rfl := List.mem_singleton.mp he
        obtain ⟨henan, -, hrank⟩ := beq_iff.mp heq
        rw [(hdepth henan).2 (Side.depth_eq_iff.mpr hrank.symm)] at hinclusive
        cases hinclusive

/-- One application adds a bound to those that a range amounts to. -/
theorem Side.Amounts.tighten {r : Range} (h : side.Amounts given (r.bound side)) :
    side.Amounts (given ++ [b]) ((r.tighten side b).bound side) := by
  generalize hbound : r.bound side = bound at h
  cases h with
  -- the first bound of a side always comes in, undefined or not
  | nothing =>
    rw [Range.bound_tighten_of_none hbound]
    cases hb : b.value.isNaN with
    | true => exact .undefined [] hb
    | false =>
      have hself : side.AtLeastAsTight b.value b.value := Side.atLeastAsTight_iff.mpr ⟨hb, hb, le_rfl⟩
      refine .tightest hb ⟨hb, ⟨b, List.mem_cons_self, rfl⟩, ?_, ?_⟩
      · intro c hc _
        rwa [List.mem_singleton.mp hc]
      · simp [beq_self hb]
  | @undefined first rest hfirst =>
    have hnot : ¬ b.Replaces side first := fun hb => Bool.false_ne_true (hb.2.1.symm.trans hfirst)
    rw [Range.bound_tighten_of_some hbound, if_neg hnot]
    exact .undefined (rest ++ [b]) hfirst
  | @tightest first rest c hfirst hc =>
    rw [Range.bound_tighten_of_some hbound]
    split
    · next hb => exact .tightest hfirst (hc.replace hb)
    · next hb => exact .tightest hfirst (hc.keep hb)

end Amounts

/-- All applications together: each side is left with what it was given amounts to. -/
theorem Limits.amounts_applyAll (bounds : List AxisBound) (axis : Axis) (side : Side) :
    side.Amounts (boundsOn axis side bounds) ((Limits.none.applyAll bounds).bound axis side) := by
  induction bounds using List.reverseRecOn with
  | nil => cases axis <;> cases side <;> exact .nothing
  | append_singleton bounds b ih =>
    rw [bound, applyAll_append_singleton, range_apply, boundsOn, List.filter_append, List.map_append]
    by_cases haxis : b.axis = axis
    · rw [if_pos haxis]
      by_cases hside : b.side = side
      · rw [List.filter_cons_of_pos (by simp [haxis, hside]), hside]
        exact ih.tighten
      · rw [List.filter_cons_of_neg (by simp [hside]), Range.bound_tighten_of_ne (Ne.symm hside),
          List.filter_nil, List.map_nil, List.append_nil]
        exact ih
    · rw [if_neg haxis, List.filter_cons_of_neg (by simp [haxis]), List.filter_nil, List.map_nil,
        List.append_nil]
      exact ih

/-! ## Clauses -/

/-- The side on which a number left of an axis is a bound. -/
def Comparison.leftSide (c : Comparison) : Side := if c.leftSmaller then .lower else .upper

/-- The side on which a number right of an axis is a bound. -/
def Comparison.rightSide (c : Comparison) : Side := if c.leftSmaller then .upper else .lower

namespace Clause

/-- The bounds that a clause gives, the one on the left of its axis first. -/
def bounds (clause : List Char) : List AxisBound :=
  match sides? clause with
  | none => []
  | some (axis, left, right) =>
    (left? left).toList.map (fun (c, v) => ⟨axis, c.leftSide, ⟨v, c.inclusive⟩⟩) ++
      (right? right).toList.map (fun (c, v) => ⟨axis, c.rightSide, ⟨v, c.inclusive⟩⟩)

theorem applyLeft_some (c : Comparison) (v : Float) (r : Range) :
    applyLeft (some (c, v)) r = r.tighten c.leftSide ⟨v, c.inclusive⟩ := by
  rw [applyLeft, Comparison.leftSide]
  split <;> rfl

theorem applyRight_some (c : Comparison) (v : Float) (r : Range) :
    applyRight (some (c, v)) r = r.tighten c.rightSide ⟨v, c.inclusive⟩ := by
  rw [applyRight, Comparison.rightSide]
  split <;> rfl

/-- A clause applies the bounds that it gives. -/
theorem apply_eq (l : Limits) (clause : List Char) : apply l clause = l.applyAll (bounds clause) := by
  rw [apply, bounds]
  cases sides? clause with
  | none => rfl
  | some sides =>
    obtain ⟨axis, left, right⟩ := sides
    dsimp only
    cases left? left with
    | none =>
      cases right? right with
      | none => cases axis <;> rfl
      | some right =>
        obtain ⟨c, v⟩ := right
        simp only [applyRight_some]
        rfl
    | some left =>
      obtain ⟨c, v⟩ := left
      simp only [applyLeft_some]
      cases right? right with
      | none => rfl
      | some right =>
        obtain ⟨d, w⟩ := right
        simp only [applyRight_some]
        cases axis <;> rfl

end Clause

namespace Limits

/-- The bounds that the clauses of a text give, in their order. -/
def given (text : List Char) : List AxisBound := (clauses text).flatMap Clause.bounds

/-- The bound of optional limits on a side of an axis. -/
def bound? (axis : Axis) (side : Side) (limits : Option Limits) : Option Bound :=
  limits.bind (bound axis side)

section Reading
variable (text : List Char)

theorem foldl_clauses : (clauses text).foldl Clause.apply Limits.none = Limits.none.applyAll (given text) := by
  have hstep : Clause.apply = fun l clause => (Clause.bounds clause).foldl apply l := by
    funext l clause
    exact Clause.apply_eq l clause
  rw [applyAll, given, List.foldl_flatMap, hstep]

theorem read?_eq : read? text =
    if (Limits.none.applyAll (given text)).isEmpty then .none
    else some (Limits.none.applyAll (given text)) := by
  rw [read?, foldl_clauses]

theorem bound?_read? (axis : Axis) (side : Side) :
    bound? axis side (read? text) = (Limits.none.applyAll (given text)).bound axis side := by
  rw [read?_eq]
  split
  · next h => exact (isEmpty_iff.mp h axis side).symm
  · rfl

end Reading
end Limits

/-! ## Order and repetition -/

/-- Whether two bounds are the same up to the sign of a zero. -/
def Bound.Same (b c : Bound) : Prop := (b.value == c.value) = true ∧ b.inclusive = c.inclusive

/-- Whether two limits have the same bounds up to the signs of zeros. -/
def Limits.Same (l m : Limits) : Prop :=
  ∀ axis side, Option.Rel Bound.Same (l.bound axis side) (m.bound axis side)

section Same
variable {side : Side} {given given' : List Bound}

/-- The tightest of bounds does not depend on their order and number. -/
theorem Side.Tightest.same {b b' : Bound} (h : side.Tightest given b) (h' : side.Tightest given' b')
    (hmem : ∀ c, c ∈ given ↔ c ∈ given') : b.Same b' := by
  obtain ⟨c, hc, hvalue⟩ := h.isGiven
  obtain ⟨c', hc', hvalue'⟩ := h'.isGiven
  have hle := h'.isTightest c ((hmem c).mp hc) (hvalue ▸ h.isNumber)
  have hle' := h.isTightest c' ((hmem c').mpr hc') (hvalue' ▸ h'.isNumber)
  rw [hvalue, atLeastAsTight_iff] at hle
  rw [hvalue', atLeastAsTight_iff] at hle'
  have hrank : rank b.value = rank b'.value := depth_eq_iff.mp (le_antisymm hle.2.2 hle'.2.2)
  refine ⟨(beq_iff_rank h.isNumber h'.isNumber).mpr hrank, ?_⟩
  rw [Bool.eq_iff_iff, h.inclusive_iff, h'.inclusive_iff]
  refine exists_congr fun d => and_congr (hmem d) (and_congr_left fun _ => ?_)
  rw [beq_iff, beq_iff, hrank, h.isNumber, h'.isNumber]

theorem Side.Amounts.same {b b' : Option Bound} (h : side.Amounts given b)
    (h' : side.Amounts given' b') (hmem : ∀ c, c ∈ given ↔ c ∈ given')
    (hnumbers : ∀ c ∈ given, c.value.isNaN = false) : Option.Rel Bound.Same b b' := by
  cases h with
  | nothing =>
    cases h' with
    | nothing => exact .none
    | undefined rest _ => exact absurd ((hmem _).mpr List.mem_cons_self) List.not_mem_nil
    | tightest _ _ => exact absurd ((hmem _).mpr List.mem_cons_self) List.not_mem_nil
  | undefined rest hfirst =>
    exact absurd ((hnumbers _ List.mem_cons_self).symm.trans hfirst) Bool.false_ne_true
  | tightest _ hb =>
    cases h' with
    | nothing => exact absurd ((hmem _).mp List.mem_cons_self) List.not_mem_nil
    | undefined rest hfirst =>
      have hnumber := hnumbers _ ((hmem _).mpr List.mem_cons_self)
      exact absurd (hnumber.symm.trans hfirst) Bool.false_ne_true
    | tightest _ hb' => exact .some (hb.same hb' hmem)

end Same

/-! ## One axis -/

/-- Whether a clause is about an axis. -/
def Clause.isAbout (axis : Axis) (clause : List Char) : Bool :=
  (Clause.sides? clause).any fun sides => sides.1 = axis

theorem Clause.isAbout_of_mem_bounds {axis : Axis} {clause : List Char} {b : AxisBound}
    (h : b ∈ bounds clause) : b.axis = axis ↔ isAbout axis clause = true := by
  unfold bounds at h
  unfold isAbout
  split at h
  · cases h
  · next axis' left right hsides =>
    have haxis : b.axis = axis' := by
      rcases List.mem_append.mp h with h | h
      · obtain ⟨side, -, rfl⟩ := List.mem_map.mp h
        rfl
      · obtain ⟨side, -, rfl⟩ := List.mem_map.mp h
        rfl
    rw [hsides, haxis]
    simp

theorem Clause.filter_bounds (axis : Axis) (clause : List Char) :
    (bounds clause).filter (·.axis = axis) = if isAbout axis clause then bounds clause else [] := by
  split
  · next h =>
    exact List.filter_eq_self.mpr fun b hb => decide_eq_true ((isAbout_of_mem_bounds hb).mpr h)
  · next h =>
    refine List.filter_eq_nil_iff.mpr fun b hb haxis => h ?_
    exact (isAbout_of_mem_bounds hb).mp (of_decide_eq_true haxis)

namespace Limits

theorem range_applyAll_filter (l : Limits) (axis : Axis) (bounds : List AxisBound) :
    (l.applyAll (bounds.filter (·.axis = axis))).range axis = (l.applyAll bounds).range axis := by
  induction bounds using List.reverseRecOn with
  | nil => rfl
  | append_singleton bounds b ih =>
    rw [applyAll_append_singleton, range_apply, List.filter_append]
    by_cases h : b.axis = axis
    · rw [if_pos h, List.filter_cons_of_pos (by simpa using h), List.filter_nil,
        applyAll_append_singleton, range_apply, if_pos h, ih]
    · rw [if_neg h, List.filter_cons_of_neg (by simpa using h), List.filter_nil, List.append_nil, ih]

theorem filter_given (axis : Axis) (text : List Char) : (given text).filter (·.axis = axis) =
    ((clauses text).filter (Clause.isAbout axis)).flatMap Clause.bounds := by
  rw [given]
  induction clauses text with
  | nil => rfl
  | cons clause clauses ih =>
    rw [List.flatMap_cons, List.filter_append, Clause.filter_bounds, ih]
    by_cases h : Clause.isAbout axis clause
    · rw [if_pos h, List.filter_cons_of_pos h, List.flatMap_cons]
    · rw [if_neg h, List.filter_cons_of_neg h, List.nil_append]

end Limits

/-! ## The limits of a text -/

namespace Limits
variable {text other : List Char}

theorem amounts_read? (text : List Char) (axis : Axis) (side : Side) :
    side.Amounts (boundsOn axis side (given text)) (bound? axis side (read? text)) := by
  rw [bound?_read?]
  exact amounts_applyAll (given text) axis side

theorem read?_eq_none_iff : read? text = .none ↔ given text = [] := by
  constructor
  · intro h
    rw [List.eq_nil_iff_forall_not_mem]
    intro b hb
    have hamounts := amounts_read? text b.axis b.side
    have hmem := mem_boundsOn.mpr hb
    rw [h] at hamounts
    generalize boundsOn b.axis b.side (given text) = bounds at hamounts hmem
    cases hamounts
    cases hmem
  · intro h
    rw [read?_eq, h]
    rfl

theorem mem_given_congr (h : ∀ clause, clause ∈ clauses other ↔ clause ∈ clauses text)
    (b : AxisBound) : b ∈ given text ↔ b ∈ given other := by
  rw [given, given, List.mem_flatMap, List.mem_flatMap]
  exact exists_congr fun clause => and_congr_left fun _ => (h clause).symm

theorem rel_same {l m : Option Limits} (hnone : l = .none ↔ m = .none)
    (hsame : ∀ axis side, Option.Rel Bound.Same (bound? axis side l) (bound? axis side m)) :
    Option.Rel Same l m := by
  cases l with
  | none =>
    rw [hnone.mp rfl]
    exact .none
  | some l =>
    cases m with
    | none => exact absurd (hnone.mpr rfl) (Option.some_ne_none l)
    | some m => exact .some hsame

theorem same_read? (h : ∀ clause, clause ∈ clauses other ↔ clause ∈ clauses text)
    (hnumbers : ∀ b ∈ given text, b.bound.value.isNaN = false) :
    Option.Rel Same (read? text) (read? other) := by
  have hsame (axis : Axis) (side : Side) :
      Option.Rel Bound.Same (bound? axis side (read? text)) (bound? axis side (read? other)) := by
    refine (amounts_read? text axis side).same (amounts_read? other axis side) ?_ ?_
    · intro c
      rw [mem_boundsOn, mem_boundsOn]
      exact mem_given_congr h _
    · exact fun c hc => hnumbers ⟨axis, side, c⟩ (mem_boundsOn.mp hc)
  have hnone : read? text = .none ↔ read? other = .none := by
    rw [read?_eq_none_iff, read?_eq_none_iff, List.eq_nil_iff_forall_not_mem,
      List.eq_nil_iff_forall_not_mem]
    exact forall_congr' fun b => not_congr (mem_given_congr h b)
  exact rel_same hnone hsame

theorem bound?_read?_congr {axis : Axis} (h : (clauses other).filter (Clause.isAbout axis) =
    (clauses text).filter (Clause.isAbout axis)) (side : Side) :
    bound? axis side (read? other) = bound? axis side (read? text) := by
  rw [bound?_read?, bound?_read?, bound, bound, ← range_applyAll_filter, filter_given, h,
    ← filter_given, range_applyAll_filter]

end Limits

/-- The limits of a text are what its clauses amount to, side by side, and there are none if and only
if the clauses give no bound. So if all values are numbers, the limits are the same up to the signs of
zeros for other texts of the same clauses in another order and number; and the clauses about one axis
alone decide on its bounds. -/
theorem Limits.read?_amounts (text : List Char) :
    (∀ (axis : Axis) (side : Side),
      side.Amounts (boundsOn axis side (given text)) (bound? axis side (read? text))) ∧
    (read? text = .none ↔ given text = []) ∧
    (∀ other, (∀ clause, clause ∈ clauses other ↔ clause ∈ clauses text) →
      (∀ b ∈ given text, b.bound.value.isNaN = false) →
      Option.Rel Limits.Same (read? text) (read? other)) ∧
    (∀ other axis,
      (clauses other).filter (Clause.isAbout axis) = (clauses text).filter (Clause.isAbout axis) →
      ∀ side, bound? axis side (read? other) = bound? axis side (read? text)) :=
  ⟨amounts_read? text, read?_eq_none_iff, fun _ h hnumbers => same_read? h hnumbers,
    fun _ _ h side => bound?_read?_congr h side⟩

/-- A bound that is given twice and in another order, beside one of the other axis. -/
theorem Limits.inclusive_bound_is_kept_in_either_order :
    (∀ clause, clause ∈ clauses "x<=2&&x<2&&x<=2".toList ↔ clause ∈ clauses "x<2&&x<=2".toList) ∧
    (∀ b ∈ given "x<2&&x<=2".toList, b.bound.value.isNaN = false) ∧
    Option.Rel Limits.Same (read? "x<2&&x<=2".toList) (read? "x<=2&&x<2&&x<=2".toList) ∧
    (clauses "x<2&&x<=2&&y>1".toList).filter (Clause.isAbout .x) =
      (clauses "x<2&&x<=2".toList).filter (Clause.isAbout .x) ∧
    bound? .x .upper (read? "x<2&&x<=2&&y>1".toList) = some ⟨2.0, true⟩ := by
  have hclauses : clauses "x<2&&x<=2".toList = ["x<2".toList, "x<=2".toList] := rfl
  have hother : clauses "x<=2&&x<2&&x<=2".toList =
      ["x<=2".toList, "x<2".toList, "x<=2".toList] := rfl
  have hmem : ∀ clause, clause ∈ clauses "x<=2&&x<2&&x<=2".toList ↔
      clause ∈ clauses "x<2&&x<=2".toList := by
    intro clause
    rw [hclauses, hother]
    simp only [List.mem_cons, List.not_mem_nil, or_false]
    tauto
  have hgiven : given "x<2&&x<=2".toList =
      [⟨.x, .upper, ⟨2.0, false⟩⟩, ⟨.x, .upper, ⟨2.0, true⟩⟩] := rfl
  have hnumbers : ∀ b ∈ given "x<2&&x<=2".toList, b.bound.value.isNaN = false := by
    rw [hgiven]
    decide
  have hfilter : (clauses "x<2&&x<=2&&y>1".toList).filter (Clause.isAbout .x) =
      (clauses "x<2&&x<=2".toList).filter (Clause.isAbout .x) := by decide
  obtain ⟨-, -, hsame, haxis⟩ := read?_amounts "x<2&&x<=2".toList
  have hbound : bound? .x .upper (read? "x<2&&x<=2".toList) = some ⟨2.0, true⟩ := rfl
  exact ⟨hmem, hnumbers, hsame _ hmem hnumbers, hfilter, (haxis _ .x hfilter .upper).trans hbound⟩

end GraphCalc
