import GraphCalc.Line.Limits
import GraphCalc.Proofs.Number.Order

/-! # The sides of a range

What is said of a lower bound and of an upper one is the same with all comparisons turned round. So it
is said once, of the bound on a side, with values in the order from outside to inside. Main notions and
statements:

* `Side`, `Side.depth`: the sides, and the place of a value in the order;
* `Range.bound`, `Range.isBeyond`: the bound of a range on a side, and the values outside of it;
* `Bound.Excludes`: whether a value is outside a bound;
* `Range.allows_iff_bounds`: a range allows what neither bound excludes;
* `Range.allows_between`: a range is convex.
-/

namespace GraphCalc
open Binary64
set_option autoImplicit false

/-! ## Sides -/

/-- The two sides on which a range has a bound. -/
inductive Side where
  | lower
  | upper
  deriving DecidableEq, Repr

namespace Side

/-- The place of a value in the order from outside to inside. -/
def depth (side : Side) (v : Float) : ℤ :=
  match side with
  | lower => rank v
  | upper => -rank v

/-- Whether `v` is a bound that leaves no more than `w` does: it is not smaller as a lower bound, or
not larger as an upper one. -/
def AtLeastAsTight (side : Side) (v w : Float) : Prop :=
  match side with
  | lower => w ≤ v
  | upper => v ≤ w

theorem atLeastAsTight_iff {side : Side} {v w : Float} : side.AtLeastAsTight v w ↔
    v.isNaN = false ∧ w.isNaN = false ∧ side.depth w ≤ side.depth v := by
  cases side with
  | lower =>
    rw [AtLeastAsTight, le_iff]
    exact and_left_comm
  | upper =>
    rw [AtLeastAsTight, le_iff, depth, depth, Int.neg_le_neg_iff]

theorem depth_eq_iff {side : Side} {v w : Float} : side.depth v = side.depth w ↔ rank v = rank w := by
  cases side with
  | lower => exact Iff.rfl
  | upper => exact neg_inj

end Side

/-! ## Values outside a bound -/

/-- Whether a value is outside a bound on a side, which an exclusive bound itself is. -/
def Bound.Excludes (side : Side) (b : Bound) (v : Float) : Prop :=
  (match side with
    | .lower => v < b.value
    | .upper => b.value < v) ∨
  (v == b.value) = true ∧ b.inclusive = false

section Excludes
variable {side : Side} {b : Bound} {u v w : Float}

theorem Bound.excludes_iff : b.Excludes side v ↔ v.isNaN = false ∧ b.value.isNaN = false ∧
    (side.depth v < side.depth b.value ∨ side.depth v = side.depth b.value ∧ b.inclusive = false) := by
  cases side with
  | lower =>
    rw [Excludes, lt_iff, beq_iff, Side.depth, Side.depth]
    grind
  | upper =>
    rw [Excludes, lt_iff, beq_iff, Side.depth, Side.depth]
    grind

/-- What is farther outside than an excluded value is excluded too. -/
theorem Bound.Excludes.of_le (h : b.Excludes side v) (hu : u.isNaN = false)
    (hle : side.depth u ≤ side.depth v) : b.Excludes side u := by
  rw [Bound.excludes_iff] at h ⊢
  obtain ⟨-, hb, hdepth⟩ := h
  refine ⟨hu, hb, ?_⟩
  rcases hdepth with hlt | ⟨heq, hexclusive⟩
  · exact .inl (hle.trans_lt hlt)
  · exact (hle.trans heq.le).lt_or_eq.imp_right fun h => ⟨h, hexclusive⟩

end Excludes

namespace Range
variable {side : Side} {r : Range} {u v w : Float}

/-- The bound of a range on a side. -/
def bound (side : Side) (r : Range) : Option Bound :=
  match side with
  | .lower => r.lower
  | .upper => r.upper

/-- Whether a value is out of the range on a side. -/
def isBeyond (side : Side) (r : Range) (v : Float) : Bool :=
  match side with
  | .lower => r.isBelow v
  | .upper => r.isAbove v

theorem isBeyond_iff : r.isBeyond side v = true ↔ ∃ b, r.bound side = some b ∧ b.Excludes side v := by
  cases side with
  | lower =>
    unfold isBeyond isBelow bound Bound.Excludes
    cases r.lower <;> simp
  | upper =>
    unfold isBeyond isAbove bound Bound.Excludes
    cases r.upper <;> simp

theorem allows_iff : r.allows v = true ↔ ∀ side, r.isBeyond side v = false := by
  rw [allows, Bool.and_eq_true, Bool.not_eq_true', Bool.not_eq_true']
  constructor
  · rintro ⟨hlower, hupper⟩ (_ | _)
    · exact hlower
    · exact hupper
  · exact fun h => ⟨h .lower, h .upper⟩

/-- A range allows what neither of its bounds excludes. -/
theorem allows_iff_bounds :
    r.allows v = true ↔ ∀ side b, r.bound side = some b → ¬ b.Excludes side v := by
  simp only [allows_iff, ← Bool.not_eq_true, isBeyond_iff, not_exists, not_and]

/-- Between two values that a range allows it allows every value. -/
theorem allows_between (hu : u.isNaN = false) (hw : w.isNaN = false) (hle : rank u ≤ rank v)
    (hle' : rank v ≤ rank w) (h : r.allows u = true) (h' : r.allows w = true) : r.allows v = true := by
  rw [allows_iff_bounds] at h h' ⊢
  intro side b hb hexcludes
  cases side with
  | lower => exact h _ b hb (hexcludes.of_le hu hle)
  | upper => exact h' _ b hb (hexcludes.of_le hw (neg_le_neg hle'))

end Range
end GraphCalc
