import GraphCalc.Proofs.Eval.Nesting
import GraphCalc.Proofs.Plot.Cells

/-! # Crossings in either order

The crossings of two curves are the roots of their difference. Exchanging the curves changes the sign of
the difference and nothing else: at each place it is finite in both orders or in none, and the search for
roots asks only for products of two values and for their magnitudes. So it takes the same branches in
both runs. Main notions and statements:

* `Binary64.Opposite`: two doubles that are finite together and are then each other's negative;
* `opposite_sub`: the two differences of two doubles, even where one of them is a negative zero;
* `Root.Bracket.Opposes.half`, `Root.Bracket.Opposes.rounds`: on opposite functions the brackets of the
  two runs have the same ends and opposite values;
* `Root.run_bisect_opposite`, `Root.run_signChanges_opposite`: so the roots are the same;
* `Root.answered_signChanges`: what a search on an engine finds if no answer is cut off;
* `Graph.crossings_symmetric`: two lines cross at the same places in either order, on any two engines
  with the same functions, unless nesting cuts an answer off.
-/

namespace GraphCalc
set_option autoImplicit false

/-! ## Opposite doubles -/

namespace Binary64
open Float.Model Float.Model.UnpackedFloat
variable {u v w v' w' : Float}

/-- Two doubles that are finite together, and are then each other's negative as numbers. The sign of a
zero plays no part. -/
structure Opposite (v w : Float) : Prop where
  isFinite : w.isFinite = v.isFinite
  value : v.isFinite = true → value w = -value v

theorem value_of_rank_neg (hv : v.isFinite = true) (hw : w.isFinite = true) (h : rank w = -rank v) :
    value w = -value v := by
  rcases unpack_forms v with ⟨h0, -⟩ | ⟨m, e, hpos, hc, h0, hu⟩ | ⟨h0, -⟩ | ⟨h0, -⟩
  · have hzero : rank w = 0 := by rw [h, rank_eq_zero_iff.mpr h0, neg_zero]
    rw [value_of_magnitude_zero h0, value_of_magnitude_zero (rank_eq_zero_iff.mp hzero), neg_zero]
  · have hvalue : value v = unit (signOf v.toBits.toNat) * (m * 2 ^ e) := by rw [value, hu, formValue]
    have hnear : IsNearest w (unit (-signOf v.toBits.toNat) * (m * 2 ^ e)) := by
      refine ⟨isNaN_of_isFinite hw, ?_⟩
      rw [h, unit_neg, neg_mul, nearestRank_neg, ← hvalue, nearestRank_value hv]
    rw [value_eq_of_isNearest hc hnear, hvalue, unit_neg, neg_mul]
  all_goals
    rw [isFinite_iff] at hv
    omega

/-- A difference whose operands are exchanged. -/
theorem opposite_sub (u v : Float) : Opposite (u - v) (v - u) := by
  have hrank (hu : u.isFinite = true) (hv : v.isFinite = true) : rank (v - u) = -rank (u - v) := by
    rw [(isNearest_sub hv hu).rank, (isNearest_sub hu hv).rank, ← neg_sub, nearestRank_neg]
  have hfinite {a b : Float} (hr : rank a = -rank b) : a.isFinite = b.isFinite := by
    rw [Bool.eq_iff_iff, isFinite_iff_rank, isFinite_iff_rank, hr, Int.natAbs_neg]
  have hsame : (v - u).isFinite = (u - v).isFinite := by
    by_cases hoperands : u.isFinite = true ∧ v.isFinite = true
    · exact hfinite (hrank hoperands.1 hoperands.2)
    · rw [Bool.eq_false_iff.mpr fun h => hoperands (isFinite_of_isFinite_sub h),
        Bool.eq_false_iff.mpr fun h => hoperands (isFinite_of_isFinite_sub h).symm]
  refine ⟨hsame, fun h => ?_⟩
  obtain ⟨hu, hv⟩ := isFinite_of_isFinite_sub h
  exact value_of_rank_neg h (hsame.trans h) (hrank hu hv)

theorem Opposite.rank (h : Opposite v w) (hv : v.isFinite = true) : rank w = -Binary64.rank v := by
  rw [← nearestRank_value (h.isFinite.trans hv), h.value hv, nearestRank_neg, nearestRank_value hv]

/-- Changing both signs leaves a product as it is. -/
theorem Opposite.rank_mul (h : Opposite v w) (h' : Opposite v' w') (hv : v.isFinite = true)
    (hv' : v'.isFinite = true) :
    (v * v').isNaN = false ∧ (w * w').isNaN = false ∧ Binary64.rank (w * w') = Binary64.rank (v * v') := by
  have hmul := isNearest_mul hv hv'
  have hmul' := isNearest_mul (h.isFinite.trans hv) (h'.isFinite.trans hv')
  refine ⟨hmul.isNaN, hmul'.isNaN, ?_⟩
  rw [hmul'.rank, hmul.rank, h.value hv, h'.value hv', neg_mul_neg]

theorem Opposite.abs_eq (h : Opposite v w) (hv : v.isFinite = true) : w.abs = v.abs := by
  have hnan := isNaN_of_isFinite hv
  have hnan' := isNaN_of_isFinite (h.isFinite.trans hv)
  apply toBits_injective
  rw [← UInt64.toNat_inj, toBits_abs hnan', toBits_abs hnan, ← natAbs_rank, ← natAbs_rank, h.rank hv,
    Int.natAbs_neg]

end Binary64

/-! ## Two searches -/

namespace Root
open Binary64
variable {f g : Float → Float}

theorem equal_zero_opposite {v w : Float} (h : Opposite v w) (hv : v.isFinite = true) :
    Scalar.equal w (Scalar.ofInt 0) = Scalar.equal v (Scalar.ofInt 0) := by
  have hzero : rank (Float.ofInt 0) = 0 := by decide
  have hiff {a : Float} (ha : a.isFinite = true) :
      Scalar.equal a (Scalar.ofInt 0) = true ↔ rank a = 0 := by
    show (a == Float.ofInt 0) = true ↔ _
    rw [beq_iff, hzero, and_iff_right (isNaN_of_isFinite ha), and_iff_right (by decide)]
  rw [Bool.eq_iff_iff, hiff hv, hiff (h.isFinite.trans hv), h.rank hv, neg_eq_zero]

theorem less_zero_congr {p q : Float} (hp : p.isNaN = false) (hq : q.isNaN = false)
    (h : rank q = rank p) :
    Scalar.less q (Scalar.ofInt 0) = Scalar.less p (Scalar.ofInt 0) := by
  show decide (q < Float.ofInt 0) = decide (p < Float.ofInt 0)
  rw [decide_eq_decide, lt_iff, lt_iff, hp, hq, h]

theorem notPositive_congr {p q : Float} (hp : p.isNaN = false) (hq : q.isNaN = false)
    (h : rank q = rank p) : notPositive q = notPositive p := by
  have hequal : Scalar.equal q (Scalar.ofInt 0) = Scalar.equal p (Scalar.ofInt 0) := by
    show (q == Float.ofInt 0) = (p == Float.ofInt 0)
    rw [Bool.eq_iff_iff, beq_iff, beq_iff, hp, hq, h]
  rw [notPositive, notPositive, less_zero_congr hp hq h, hequal]

theorem callsForRoot_opposite {v w v' w' : Float} (h : Opposite v w) (h' : Opposite v' w') :
    callsForRoot w w' = callsForRoot v v' := by
  unfold callsForRoot
  show (w.isFinite && w'.isFinite && _) = (v.isFinite && v'.isFinite && _)
  rw [h.isFinite, h'.isFinite]
  cases hv : v.isFinite with
  | false => simp only [Bool.false_and]
  | true =>
    cases hv' : v'.isFinite with
    | false => simp only [Bool.and_false, Bool.false_and]
    | true =>
      obtain ⟨hnan, hnan', hrank⟩ := h.rank_mul h' hv hv'
      rw [equal_zero_opposite h hv, less_zero_congr hnan hnan' hrank]

/-! ### Rounds -/

/-- Brackets of two runs: the same ends, and opposite values at the left one. -/
structure Bracket.Opposes (b b' : Bracket Float) : Prop where
  left : b'.left = b.left
  right : b'.right = b.right
  value : Opposite b.value b'.value
  isFinite : b.value.isFinite = true

theorem Bracket.Opposes.middle {b b' : Bracket Float} (h : b.Opposes b') : b'.middle = b.middle := by
  rw [Bracket.middle, Bracket.middle, h.left, h.right]

/-- One round moves the same end in both runs, or stops both. -/
theorem Bracket.Opposes.half {b b' : Bracket Float} (h : b.Opposes b') {v v' : Float}
    (hv : Opposite v v') : Option.Rel Bracket.Opposes (b.half v) (b'.half v') := by
  unfold Bracket.half
  show Option.Rel _ (if !v.isFinite then _ else _) (if !v'.isFinite then _ else _)
  rw [hv.isFinite]
  cases hfinite : v.isFinite with
  | false => exact .none
  | true =>
    obtain ⟨hnan, hnan', hrank⟩ := h.value.rank_mul hv h.isFinite hfinite
    simp only [Bool.not_true, Bool.false_eq_true, if_false, notPositive_congr hnan hnan' hrank]
    split
    · exact .some ⟨h.left, h.middle, h.value, h.isFinite⟩
    · exact .some ⟨h.middle, h.right, hv, hfinite⟩

theorem Bracket.Opposes.rounds {b b' : Bracket Float} (h : b.Opposes b')
    (hfg : ∀ x, Opposite (f x) (g x)) (n : ℕ) :
    Option.Rel Bracket.Opposes (Id.run (Bracket.rounds f n b)) (Id.run (Bracket.rounds g n b')) := by
  induction n generalizing b b' with
  | zero => exact .some h
  | succ n ih =>
    rw [run_rounds_succ, run_rounds_succ, h.middle]
    have hstep := h.half (hfg b.middle)
    generalize b.half (f b.middle) = next at hstep ⊢
    generalize b'.half (g b.middle) = next' at hstep ⊢
    cases hstep with
    | none => exact .none
    | some hnext => exact ih hnext

/-! ### Roots -/

theorem largerMagnitude_opposite {v w v' w' : Float} (h : Opposite v w) (h' : Opposite v' w')
    (hv : v.isFinite = true) (hv' : v'.isFinite = true) :
    largerMagnitude w w' = largerMagnitude v v' := by
  show (if Scalar.less w.abs w'.abs then w'.abs else w.abs) =
    if Scalar.less v.abs v'.abs then v'.abs else v.abs
  rw [h.abs_eq hv, h'.abs_eq hv']

/-- Whether a search gives up at a place where it has a value. -/
theorem gives_up_opposite {v w : Float} (h : Opposite v w) (limit : Float) :
    (!Scalar.isFinite w || Scalar.less limit (Scalar.abs w)) =
      (!Scalar.isFinite v || Scalar.less limit (Scalar.abs v)) := by
  show (!w.isFinite || Scalar.less limit w.abs) = (!v.isFinite || Scalar.less limit v.abs)
  rw [h.isFinite]
  cases hv : v.isFinite with
  | false => simp only [Bool.not_false, Bool.true_or]
  | true => rw [h.abs_eq hv]

theorem run_bisect_opposite (hfg : ∀ x, Opposite (f x) (g x)) (rounds : ℤ) (a b : Float) :
    Id.run (bisect g rounds a b) = Id.run (bisect f rounds a b) := by
  rw [run_bisect, run_bisect]
  have hends : (Scalar.isFinite (g a) && Scalar.isFinite (g b)) =
      (Scalar.isFinite (f a) && Scalar.isFinite (f b)) := by
    show ((g a).isFinite && (g b).isFinite) = ((f a).isFinite && (f b).isFinite)
    rw [(hfg a).isFinite, (hfg b).isFinite]
  rw [hends]
  cases hfinite : Scalar.isFinite (f a) && Scalar.isFinite (f b) with
  | false => simp only [Bool.not_false, if_true]
  | true =>
    obtain ⟨ha, hb⟩ := (Bool.and_eq_true _ _).mp hfinite
    have hstart : Bracket.Opposes ⟨a, b, f a⟩ ⟨a, b, g a⟩ := ⟨rfl, rfl, hfg a, ha⟩
    have hrounds := hstart.rounds hfg rounds.toNat
    rw [equal_zero_opposite (hfg a) ha, largerMagnitude_opposite (hfg a) (hfg b) ha hb]
    generalize Id.run (Bracket.rounds f rounds.toNat ⟨a, b, f a⟩) = last at hrounds ⊢
    generalize Id.run (Bracket.rounds g rounds.toNat ⟨a, b, g a⟩) = last' at hrounds ⊢
    cases hrounds with
    | none => rw [Option.bind_none, Option.bind_none]
    | some hlast =>
      rw [Option.bind_some, Option.bind_some, hlast.middle, gives_up_opposite (hfg _)]

theorem run_signChanges_opposite (hfg : ∀ x, Opposite (f x) (g x)) (rounds : ℤ) (places : List Float) :
    Id.run (signChanges g rounds places) = Id.run (signChanges f rounds places) := by
  rw [run_signChanges_eq_flatMap, run_signChanges_eq_flatMap]
  refine List.flatMap_congr fun cell _ => ?_
  rw [ofPair_eq, ofPair_eq, callsForRoot_opposite (hfg cell.1) (hfg cell.2), run_bisect_opposite hfg]

/-! ### Answered searches -/

section Answered
variable {α : Type} [Scalar α] {f : α → Inquiry α} {rounds : ℤ}
  (reply : Question → Except EvalError Float)

theorem answered_rounds (n : ℕ) (b : Bracket α) : (Bracket.rounds f n b).answered reply =
    Id.run (Bracket.rounds (fun x => (f x).answered reply) n b) := by
  induction n generalizing b with
  | zero => rfl
  | succ n ih =>
    rw [run_rounds_succ, Bracket.rounds, Bracket.halve]
    simp only [Inquiry.answered_bind, Inquiry.answered_pure]
    cases b.half ((f b.middle).answered reply) with
    | none => rfl
    | some next => exact ih next

theorem answered_bisect (a b : α) : (bisect f rounds a b).answered reply =
    Id.run (bisect (fun x => (f x).answered reply) rounds a b) := by
  rw [run_bisect]
  unfold bisect
  simp only [Inquiry.answered_bind]
  split
  · rfl
  split
  · rfl
  rw [Inquiry.answered_bind, answered_rounds]
  cases Id.run (Bracket.rounds (fun x => (f x).answered reply) rounds.toNat
    ⟨a, b, (f a).answered reply⟩) with
  | none => rfl
  | some last =>
    simp only [Inquiry.answered_bind, Option.bind_some]
    split <;> rfl

theorem answered_signChangesFrom (a v : α) (places : List α) :
    (signChangesFrom f rounds a v places).answered reply =
      Id.run (signChangesFrom (fun x => (f x).answered reply) rounds a v places) := by
  induction places generalizing a v with
  | nil => rfl
  | cons b places ih =>
    have hbetween (w : α) : (between f rounds a v b w).answered reply =
        Id.run (between (fun x => (f x).answered reply) rounds a v b w) := by
      unfold between
      split
      · rw [Inquiry.answered_bind, answered_bisect]
        rfl
      · rfl
    rw [signChangesFrom, Inquiry.answered_bind, Inquiry.answered_bind, Inquiry.answered_bind, hbetween, ih]
    rfl

theorem answered_signChanges (places : List α) : (signChanges f rounds places).answered reply =
    Id.run (signChanges (fun x => (f x).answered reply) rounds places) := by
  cases places with
  | nil => rfl
  | cons a places =>
    rw [signChanges, signChanges, Inquiry.answered_bind, answered_signChangesFrom]
    rfl

end Answered

end Root

/-! ## Crossings -/

namespace Graph
open Binary64
variable {rounds : ℤ} {view : Viewport}

section Engines
variable {settings : Settings} {functions : FunctionTable} {engine : Engine}

/-- Where the difference of two curves was finite the first curve was, and it is so when it is sampled.
So no root is left out. -/
theorem places_curveCrossings (h : engine.Coherent settings functions) (line : Line)
    (g : Float → Inquiry Float) :
    (engine.run (curveCrossings line.graph.valueAt g rounds view)).1.map Point.x =
      (engine.run (Root.signChanges (difference line.graph.valueAt g) rounds view.xs)).1 := by
  have hlate := (h.run (Root.signChanges (difference line.graph.valueAt g) rounds view.xs)).1
  have hroots := hlate.gives_runUntil h (Root.signChanges (difference line.graph.valueAt g) rounds view.xs)
    rfl
  rw [curveCrossings, Engine.run_bind, Engine.run_bind, Engine.run_pure]
  generalize engine.run (Root.signChanges (difference line.graph.valueAt g) rounds view.xs) = found at *
  obtain ⟨roots, late⟩ := found
  have hsampled := hlate.gives_run (samples line.graph.valueAt roots)
  rw [List.filter_eq_self.mpr, places_of_samples hsampled]
  intro p hp
  obtain ⟨hroot, hlater⟩ := mem_samples hsampled hp
  obtain ⟨a, b, -, -, -, -, -, -, hbisect⟩ := Root.mem_signChanges hroots hroot
  obtain ⟨u, hu, hfinite⟩ := Root.isFinite_of_bisect hbisect
  obtain ⟨⟨y, hearlier, hy⟩, -⟩ := isFinite_of_difference hu hfinite
  rwa [hlate.eq_of_gives_until hlater hearlier fun early heq => line.completes_valueAt (heq ▸ hy)]

/-- The places where two curves cross, if no value is cut off. -/
theorem places_curveCrossings_of_completes (h : engine.Coherent settings functions) (line : Line)
    (g : Float → Inquiry Float)
    (hcompletes : engine.completes (curveCrossings line.graph.valueAt g rounds view) = true) :
    (engine.run (curveCrossings line.graph.valueAt g rounds view)).1.map Point.x =
      Id.run (Root.signChanges (fun x =>
        (line.graph.valueAt x).answered (Question.outcome settings functions) -
          (g x).answered (Question.outcome settings functions)) rounds view.xs) := by
  rw [curveCrossings, Engine.completes_bind, Bool.and_eq_true] at hcompletes
  rw [places_curveCrossings h, (h.run _).2.2 hcompletes.1, Root.answered_signChanges]
  simp only [difference, Inquiry.answered_bind, Inquiry.answered_pure]

end Engines

/-- A vertical line and another line are searched in one way. -/
theorem crossings_comm_of_vertical {a b : Line} (h : a.isVertical = true ∨ b.isVertical = true) :
    a.graph.crossings rounds view b.graph = b.graph.crossings rounds view a.graph := by
  rcases h with h | h
  · obtain ⟨place, ha⟩ := Line.exists_vertical h
    rw [ha]
    cases b.graph <;> rfl
  · obtain ⟨place, hb⟩ := Line.exists_vertical h
    rw [hb]
    cases a.graph <;> rfl

theorem crossings_of_curves {a b : Line} (ha : a.isVertical = false) (hb : b.isVertical = false) :
    a.graph.crossings rounds view b.graph =
      curveCrossings a.graph.valueAt b.graph.valueAt rounds view := by
  obtain ⟨base, ha⟩ := Line.exists_curve ha
  obtain ⟨base', hb⟩ := Line.exists_curve hb
  rw [ha, hb, crossings]

/-- Two lines cross at the same places in either order, on engines with the same settings and functions,
unless nesting cuts off a value that one of the two searches asks for. If one of the lines is vertical,
the two searches are the same on every engine. The crossings of two curves are all the roots that are
found for their difference. -/
theorem crossings_symmetric {settings : Settings} {functions : FunctionTable} {engine engine' : Engine}
    (h : Engine.Reachable settings functions engine) (h' : Engine.Reachable settings functions engine')
    (rounds : ℤ) (view : Viewport) (a b : Line) :
    let forth := a.graph.crossings rounds view b.graph
    let back := b.graph.crossings rounds view a.graph
    (engine.completes forth = true → engine'.completes back = true →
      (engine.run forth).1.length = (engine'.run back).1.length ∧
        (engine.run forth).1.map Point.x = (engine'.run back).1.map Point.x) ∧
    (a.isVertical = true ∨ b.isVertical = true → engine.run forth = engine.run back) ∧
    (a.isVertical = false → b.isVertical = false → (engine.run forth).1.map Point.x =
      (engine.run (Root.signChanges (difference a.graph.valueAt b.graph.valueAt) rounds view.xs)).1) := by
  intro forth back
  refine ⟨fun hforth hback => ?_, fun hvertical => ?_, fun ha hb => ?_⟩
  · have hplaces : (engine.run forth).1.map Point.x = (engine'.run back).1.map Point.x := by
      by_cases hcurves : a.isVertical = false ∧ b.isVertical = false
      · obtain ⟨ha, hb⟩ := hcurves
        rw [show forth = _ from crossings_of_curves ha hb] at hforth ⊢
        rw [show back = _ from crossings_of_curves hb ha] at hback ⊢
        rw [places_curveCrossings_of_completes h.coherent a _ hforth,
          places_curveCrossings_of_completes h'.coherent b _ hback]
        exact (Root.run_signChanges_opposite (fun x => opposite_sub _ _) rounds view.xs).symm
      · have hsame : forth = back :=
          crossings_comm_of_vertical (by simpa [or_iff_not_imp_left] using hcurves)
        rw [hsame] at hforth ⊢
        rw [(h.coherent.run back).2.2 hforth, (h'.coherent.run back).2.2 hback]
    exact ⟨by simpa only [List.length_map] using congrArg List.length hplaces, hplaces⟩
  · rw [show forth = back from crossings_comm_of_vertical hvertical]
  · rw [show forth = _ from crossings_of_curves ha hb]
    exact places_curveCrossings h.coherent a b.graph.valueAt

/-- A diagonal and a level line cross at the same place in either order, near which two rounds come. The
diagonal and a vertical line meet in one point. -/
theorem diagonal_crosses_in_either_order :
    found ((drawn "x").crossings 2 squareView (drawn "-0.25")) = [⟨-0.375, -0.375⟩] ∧
    plainEngine.completes ((drawn "x").crossings 2 squareView (drawn "-0.25")) = true ∧
    plainEngine.completes ((drawn "-0.25").crossings 2 squareView (drawn "x")) = true ∧
    (found ((drawn "-0.25").crossings 2 squareView (drawn "x"))).map Point.x = [-0.375] ∧
    plainEngine.run ((drawn "x=0.5").crossings 2 squareView (drawn "x")) =
      plainEngine.run ((drawn "x").crossings 2 squareView (drawn "x=0.5")) := by
  have hforth : found ((drawn "x").crossings 2 squareView (drawn "-0.25")) = [⟨-0.375, -0.375⟩] := by
    decide +kernel
  have hcompletes : plainEngine.completes ((drawn "x").crossings 2 squareView (drawn "-0.25")) = true := by
    decide +kernel
  have hcompletes' : plainEngine.completes ((drawn "-0.25").crossings 2 squareView (drawn "x")) = true := by
    decide +kernel
  have hsymmetric := crossings_symmetric reachable_plainEngine reachable_plainEngine 2 squareView
    (Line.read "x") (Line.read "-0.25")
  have hvertical := crossings_symmetric reachable_plainEngine reachable_plainEngine 2 squareView
    (Line.read "x=0.5") (Line.read "x")
  exact ⟨hforth, hcompletes, hcompletes',
    (hsymmetric.1 hcompletes hcompletes').2.symm.trans (congrArg (List.map Point.x) hforth),
    hvertical.2.1 (.inl (by decide))⟩

/-! ### Nesting -/

section Nesting
variable {engine : Engine} {i j : ℕ}

theorem run_limitedValue_none (value : Float → Inquiry Float) (x : Float) (engine : Engine) :
    engine.run (limitedValue none value x) = engine.run (value x) := by
  simp [limitedValue, limitedHeight, Limits.allow]

/-- The curve of a call behind `2 * i` signs. -/
def calledBehind (i : ℕ) (x : Float) : Inquiry Float :=
  limitedValue none (Inquiry.valueAt (negatedCall (2 * i))) x

theorem graph_negatedCall (i : ℕ) :
    (Line.read (negatedCall (2 * i))).graph = .curve none (Inquiry.valueAt (negatedCall (2 * i))) := by
  rw [read_line_negatedCall, Line.graph]

/-- Two such curves are level where the body is remembered, or is read for the first of them. -/
theorem run_difference_calledBehind (h : engine.Coherent Settings.default deepTable)
    (hread : engine.bodies.find? "f" ≠ none ∨ 5 * 120 + 5 + 2 * i ≤ 968) (hi : 2 * i ≤ 959)
    (hj : 2 * j ≤ 959) (x : Float) : ∃ later : Engine,
      engine.run (difference (calledBehind i) (calledBehind j) x) = (0.0, later) ∧
        later.Coherent Settings.default deepTable ∧ later.bodies.find? "f" ≠ none := by
  obtain ⟨middle, hfirst, hmiddle, hknown⟩ := h.run_negatedCall_of_read rfl (by decide) hi x hread
  obtain ⟨later, hsecond, hlater, hafter⟩ :=
    hmiddle.run_negatedCall_of_read rfl (by decide) hj x (.inl hknown)
  refine ⟨later, ?_, hlater, hafter⟩
  have hzero : euler - euler = 0.0 := by decide
  rw [difference, Engine.run_bind, Engine.run_bind, Engine.run_pure, calledBehind, calledBehind,
    run_limitedValue_none, run_limitedValue_none, hfirst, hsecond, iterate_neg_euler, iterate_neg_euler,
    hzero]

/-- They are not where the body cannot be read for the first, but then for the second. -/
theorem run_difference_calledBehind_of_deep (h : engine.Coherent Settings.default deepTable)
    (hunknown : engine.bodies.find? "f" = none) (hdeep : 968 < 5 * 120 + 5 + 2 * i) (hi : 2 * i ≤ 959)
    (hj : 5 * 120 + 5 + 2 * j ≤ 968) (x : Float) : ∃ later : Engine,
      engine.run (difference (calledBehind i) (calledBehind j) x) = (Binary64.nan, later) ∧
        later.Coherent Settings.default deepTable ∧ later.bodies.find? "f" ≠ none := by
  obtain ⟨middle, hfirst, hmiddle, hstill⟩ :=
    h.run_negatedCall_of_deep rfl (by decide) hi x hunknown hdeep
  obtain ⟨later, hsecond, hlater, hafter⟩ :=
    hmiddle.run_negatedCall_of_read rfl (by decide) (k := 2 * j) (by omega) x (.inr hj)
  refine ⟨later, ?_, hlater, hafter⟩
  have hnan : Binary64.nan - euler = Binary64.nan := by decide
  rw [difference, Engine.run_bind, Engine.run_bind, Engine.run_pure, calledBehind, calledBehind,
    run_limitedValue_none, run_limitedValue_none, hfirst, hsecond, iterate_neg_euler, hnan]

/-- A call by itself and the call behind 600 signs, as lines of a fresh engine. In the first order the body
is read in time, and the lines cross at the first sample. In the second the line behind the signs is cut off
there, and no crossing is left. -/
theorem call_alone_is_crossed_in_one_order :
    let engine := Engine.fresh Settings.default deepTable
    let alone := (Line.read (negatedCall (2 * 0))).graph
    let deep := (Line.read (negatedCall (2 * 300))).graph
    (engine.run (alone.crossings 2 twoSamples deep)).1 = [⟨-1.0, euler⟩] ∧
      (engine.run (deep.crossings 2 twoSamples alone)).1 = [] := by
  intro engine alone deep
  have hfresh : engine.Coherent Settings.default deepTable := Engine.coherent_fresh _ _
  have hxs : twoSamples.xs = [-1.0, 1.0] := by decide +kernel
  have hcross : ∀ i j rounds view, (Line.read (negatedCall (2 * i))).graph.crossings rounds view
      (Line.read (negatedCall (2 * j))).graph =
        curveCrossings (calledBehind i) (calledBehind j) rounds view := by
    intro i j rounds view
    rw [graph_negatedCall, graph_negatedCall]
    rfl
  constructor
  · obtain ⟨e₁, h₁, hc₁, hk₁⟩ := run_difference_calledBehind (i := 0) (j := 300) hfresh
      (.inr (by decide)) (by decide) (by decide) (-1.0)
    obtain ⟨e₂, h₂, hc₂, hk₂⟩ := run_difference_calledBehind (i := 0) (j := 300) hc₁ (.inl hk₁)
      (by decide) (by decide) 1.0
    obtain ⟨e₃, h₃, hc₃, hk₃⟩ := run_difference_calledBehind (i := 0) (j := 300) hc₂ (.inl hk₂)
      (by decide) (by decide) (-1.0)
    obtain ⟨e₄, h₄, hc₄, hk₄⟩ := run_difference_calledBehind (i := 0) (j := 300) hc₃ (.inl hk₃)
      (by decide) (by decide) 1.0
    obtain ⟨e₅, h₅, -⟩ := hc₄.run_negatedCall_of_read rfl (by decide) (k := 2 * 0) (by decide) (-1.0)
      (.inl hk₄)
    have hcalls : Root.callsForRoot (0.0 : Float) 0.0 = true := by decide
    have hfinite : (!(Scalar.isFinite (0.0 : Float) && Scalar.isFinite (0.0 : Float))) = false := by decide
    have hzero : Scalar.equal (0.0 : Float) (Scalar.ofInt 0) = true := by decide
    rw [show alone.crossings 2 twoSamples deep = _ from hcross 0 300 2 twoSamples]
    simp only [curveCrossings, hxs, Root.signChanges, Root.signChangesFrom, Root.between, Root.bisect,
      Engine.run_bind, Engine.run_pure, h₁, h₂, h₃, h₄, hcalls, hfinite, hzero, if_true,
      Bool.false_eq_true, if_false, Option.toList_some, List.append_nil]
    simp only [samples, List.mapM_cons, List.mapM_nil, Engine.run_bind, Engine.run_pure, calledBehind,
      run_limitedValue_none, h₅]
    decide +kernel
  · obtain ⟨e₁, h₁, hc₁, hk₁⟩ := run_difference_calledBehind_of_deep (i := 300) (j := 0) hfresh rfl
      (by decide) (by decide) (by decide) (-1.0)
    obtain ⟨e₂, h₂, hc₂, hk₂⟩ := run_difference_calledBehind (i := 300) (j := 0) hc₁ (.inl hk₁)
      (by decide) (by decide) 1.0
    have hcalls : Root.callsForRoot Binary64.nan 0.0 = false := by decide
    rw [show deep.crossings 2 twoSamples alone = _ from hcross 300 0 2 twoSamples]
    simp only [curveCrossings, hxs, Root.signChanges, Root.signChangesFrom, Root.between, Engine.run_bind,
      Engine.run_pure, h₁, h₂, hcalls, Bool.false_eq_true, if_false, List.append_nil]
    rfl

end Nesting

end Graph
end GraphCalc
