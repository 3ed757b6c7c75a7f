import GraphCalc.Plot.Root
import GraphCalc.Proofs.Eval.Results
import GraphCalc.Proofs.Number.Middle

/-! # The search for roots

Every root belongs to two neighbouring places whose values call for one. Bisection never leaves the
interval between them. This holds of every result that the search may have if the function need not have
the same value each time. Main statements:

* `mem_signChanges`: a root comes from a pair of neighbours;
* `of_bisect`: a root is the left end or the middle of the last bracket, and the function is finite there;
* `Bracket.rounds_preserves`: what one round preserves holds of the last bracket;
* `bisect_between`: on doubles the root lies between the ends, if twice the ends are finite;
* `callsForRoot_cases`: the first value is zero, or the two values have opposite signs;
* `run_signChanges_append`: where the function has one value at each place, the roots on a list are those
  that its neighbours give, in order.
-/

namespace GraphCalc.Root
set_option autoImplicit false

section Search
variable {α : Type} [Scalar α] {m : Type → Type} [Monad m] {R : Results m} {f : α → m α} {rounds : ℤ}
  {root : α} {roots : List α}

/-! ## Neighbours -/

theorem mem_between {a b v w : α} (h : R.Gives (between f rounds a v b w) roots) (hroot : root ∈ roots) :
    callsForRoot v w = true ∧ R.Gives (bisect f rounds a b) (some root) := by
  unfold between at h
  split at h
  · next hcalls =>
    obtain ⟨found, hbisect, h⟩ := R.of_bind h
    rw [R.of_pure h, Option.mem_toList] at hroot
    exact ⟨hcalls, hroot ▸ hbisect⟩
  · rw [R.of_pure h] at hroot
    cases hroot

theorem of_signChangesFrom {a b v : α} {places : List α}
    (h : R.Gives (signChangesFrom f rounds a v (b :: places)) roots) :
    ∃ w first rest, R.Gives (f b) w ∧ R.Gives (between f rounds a v b w) first ∧
      R.Gives (signChangesFrom f rounds b w places) rest ∧ roots = first ++ rest := by
  rw [signChangesFrom] at h
  obtain ⟨w, hw, h⟩ := R.of_bind h
  obtain ⟨first, hfirst, h⟩ := R.of_bind h
  obtain ⟨rest, hrest, h⟩ := R.of_bind h
  exact ⟨w, first, rest, hw, hfirst, hrest, R.of_pure h⟩

theorem mem_signChangesFrom {a v : α} {places : List α} (hv : R.Gives (f a) v)
    (h : R.Gives (signChangesFrom f rounds a v places) roots) (hroot : root ∈ roots) :
    ∃ b c u w, [b, c] <:+: a :: places ∧ R.Gives (f b) u ∧ R.Gives (f c) w ∧ callsForRoot u w = true ∧
      R.Gives (bisect f rounds b c) (some root) := by
  induction places generalizing a v roots with
  | nil =>
    rw [R.of_pure h] at hroot
    cases hroot
  | cons b places ih =>
    obtain ⟨w, first, rest, hw, hfirst, hrest, rfl⟩ := of_signChangesFrom h
    rcases List.mem_append.mp hroot with hroot | hroot
    · exact ⟨a, b, v, w, (List.prefix_append [a, b] places).isInfix, hv, hw, mem_between hfirst hroot⟩
    · obtain ⟨c, d, u, w', hpair, hfound⟩ := ih hw hrest hroot
      exact ⟨c, d, u, w', hpair.trans (List.suffix_cons a _).isInfix, hfound⟩

theorem of_signChanges {a : α} {places : List α} (h : R.Gives (signChanges f rounds (a :: places)) roots) :
    ∃ v, R.Gives (f a) v ∧ R.Gives (signChangesFrom f rounds a v places) roots := by
  rw [signChanges] at h
  exact R.of_bind h

theorem mem_signChanges {places : List α} (h : R.Gives (signChanges f rounds places) roots)
    (hroot : root ∈ roots) :
    ∃ b c u w, [b, c] <:+: places ∧ R.Gives (f b) u ∧ R.Gives (f c) w ∧ callsForRoot u w = true ∧
      R.Gives (bisect f rounds b c) (some root) := by
  cases places with
  | nil =>
    rw [R.of_pure h] at hroot
    cases hroot
  | cons a places =>
    obtain ⟨v, hv, h⟩ := of_signChanges h
    exact mem_signChangesFrom hv h hroot

/-! ## Bisection -/

/-- One round moves one end to the middle. -/
theorem Bracket.half_cases {b b' : Bracket α} {v : α} (h : b.half v = some b') :
    b' = { b with right := b.middle } ∨ b' = { b with left := b.middle, value := v } := by
  unfold Bracket.half at h
  split at h
  · cases h
  · split at h
    · exact .inl (Option.some.inj h).symm
    · exact .inr (Option.some.inj h).symm

theorem Bracket.rounds_preserves {P : Bracket α → Prop}
    (step : ∀ {b b' : Bracket α} {v : α}, P b → b.half v = some b' → P b') {n : ℕ} {b b' : Bracket α}
    (h : R.Gives (Bracket.rounds f n b) (some b')) (hb : P b) : P b' := by
  induction n generalizing b with
  | zero => rwa [← Option.some.inj (R.of_pure h)] at hb
  | succ n ih =>
    rw [Bracket.rounds] at h
    obtain ⟨next, hnext, h⟩ := R.of_bind h
    obtain ⟨v, -, hhalf⟩ := R.of_bind hnext
    cases next with
    | none => cases R.of_pure h
    | some c => exact ih h (step hb (R.of_pure hhalf).symm)

/-- A root is the left end, where the function is zero, or the middle of the last bracket, where it is
finite and not larger than at both ends. -/
theorem of_bisect {a b : α} (h : R.Gives (bisect f rounds a b) (some root)) :
    ∃ v w, R.Gives (f a) v ∧ R.Gives (f b) w ∧ Scalar.isFinite v = true ∧ Scalar.isFinite w = true ∧
      ((Scalar.equal v (Scalar.ofInt 0) = true ∧ root = a) ∨
        ∃ bracket u, R.Gives (Bracket.rounds f rounds.toNat ⟨a, b, v⟩) (some bracket) ∧
          root = bracket.middle ∧ R.Gives (f root) u ∧ Scalar.isFinite u = true ∧
          Scalar.less (largerMagnitude v w) (Scalar.abs u) = false) := by
  unfold bisect at h
  obtain ⟨v, hv, h⟩ := R.of_bind h
  obtain ⟨w, hw, h⟩ := R.of_bind h
  split at h
  · cases R.of_pure h
  next hfinite =>
  rw [Bool.not_eq_true, Bool.not_eq_false', Bool.and_eq_true] at hfinite
  refine ⟨v, w, hv, hw, hfinite.1, hfinite.2, ?_⟩
  split at h
  · next hzero => exact .inl ⟨hzero, Option.some.inj (R.of_pure h)⟩
  obtain ⟨last, hlast, h⟩ := R.of_bind h
  cases last with
  | none => cases R.of_pure h
  | some bracket =>
    obtain ⟨u, hu, h⟩ := R.of_bind h
    split at h
    · cases R.of_pure h
    next hroot =>
    obtain rfl := Option.some.inj (R.of_pure h)
    rw [Bool.not_eq_true, Bool.or_eq_false_iff, Bool.not_eq_false'] at hroot
    exact .inr ⟨bracket, u, hlast, rfl, hu, hroot⟩

theorem isFinite_of_bisect {a b : α} (h : R.Gives (bisect f rounds a b) (some root)) :
    ∃ u, R.Gives (f root) u ∧ Scalar.isFinite u = true := by
  obtain ⟨v, w, hv, -, hfinite, -, ⟨-, rfl⟩ | ⟨bracket, u, -, -, hu, hroot, -⟩⟩ := of_bisect h
  · exact ⟨v, hv, hfinite⟩
  · exact ⟨u, hu, hroot⟩

end Search

/-! ## Roots on doubles -/

section Doubles
open Binary64
variable {m : Type → Type} [Monad m] {R : Results m} {f : Float → m Float} {rounds : ℤ} {root : Float}

/-- A bracket lies in an interval. -/
structure Bracket.Within (lo hi : Float) (b : Bracket Float) : Prop where
  low : lo ≤ b.left
  ordered : b.left ≤ b.right
  high : b.right ≤ hi

theorem Bracket.Within.middle {lo hi : Float} {b : Bracket Float} (h : b.Within lo hi)
    (hlo : (lo + lo).isFinite = true) (hhi : (hi + hi).isFinite = true) :
    b.left ≤ b.middle ∧ b.middle ≤ b.right :=
  middle_between
    (isFinite_add_self_of_between hlo hhi h.low (le_trans_of h.ordered h.high))
    (isFinite_add_self_of_between hlo hhi (le_trans_of h.low h.ordered) h.high) h.ordered

theorem Bracket.Within.half {lo hi v : Float} {b b' : Bracket Float} (h : b.Within lo hi)
    (hlo : (lo + lo).isFinite = true) (hhi : (hi + hi).isFinite = true)
    (hb : b.half v = some b') : b'.Within lo hi := by
  obtain ⟨hleft, hright⟩ := h.middle hlo hhi
  rcases Bracket.half_cases hb with rfl | rfl
  · exact ⟨h.low, hleft, le_trans_of hright h.high⟩
  · exact ⟨le_trans_of h.low hleft, hright, h.high⟩

theorem bisect_between {a b : Float} (ha : (a + a).isFinite = true) (hb : (b + b).isFinite = true)
    (hle : a ≤ b) (h : R.Gives (bisect f rounds a b) (some root)) : a ≤ root ∧ root ≤ b := by
  have hself {v : Float} (hv : (v + v).isFinite = true) : v ≤ v :=
    (isNearest_value (isFinite_of_isFinite_add hv).1).le
      (isNearest_value (isFinite_of_isFinite_add hv).1) le_rfl
  obtain ⟨v, w, -, -, -, -, ⟨-, rfl⟩ | ⟨bracket, u, hrounds, rfl, -⟩⟩ := of_bisect h
  · exact ⟨hself ha, hle⟩
  -- every bracket lies in the first one, and so does its middle
  · have hwithin : bracket.Within a b :=
      Bracket.rounds_preserves (fun hc => hc.half ha hb) hrounds ⟨hself ha, hle, hself hb⟩
    obtain ⟨hleft, hright⟩ := hwithin.middle ha hb
    exact ⟨le_trans_of hwithin.low hleft, le_trans_of hright hwithin.high⟩

theorem callsForRoot_cases {v w : Float} (h : callsForRoot v w = true) :
    v.isFinite = true ∧ w.isFinite = true ∧
      (rank v = 0 ∨ (rank v < 0 ∧ 0 < rank w) ∨ (0 < rank v ∧ rank w < 0)) := by
  unfold callsForRoot at h
  rw [Bool.and_eq_true, Bool.and_eq_true, Bool.or_eq_true] at h
  obtain ⟨⟨hv, hw⟩, hzero | hneg⟩ := h
  · exact ⟨hv, hw, .inl (beq_iff.mp hzero).2.2⟩
  · exact ⟨hv, hw, .inr (opposite_of_mul_neg hv hw (lt_iff.mp (of_decide_eq_true hneg)).2.2)⟩

end Doubles

/-! ## Functions with one value at each place -/

section Exact
variable {α : Type} [Scalar α] {f : α → α} {rounds : ℤ} {root : α}

theorem run_rounds_succ (n : ℕ) (b : Bracket α) : Id.run (Bracket.rounds f (n + 1) b) =
    (b.half (f b.middle)).bind fun b => Id.run (Bracket.rounds f n b) := by
  have hhalve : Id.run (b.halve f) = b.half (f b.middle) := rfl
  rw [Bracket.rounds, Id.run_bind, hhalve]
  cases b.half (f b.middle) <;> rfl

theorem run_bisect (a b : α) : Id.run (bisect f rounds a b) =
    if !(Scalar.isFinite (f a) && Scalar.isFinite (f b)) then none
    else if Scalar.equal (f a) (Scalar.ofInt 0) then some a
    else (Id.run (Bracket.rounds f rounds.toNat ⟨a, b, f a⟩)).bind fun bracket =>
      if !Scalar.isFinite (f bracket.middle) ||
          Scalar.less (largerMagnitude (f a) (f b)) (Scalar.abs (f bracket.middle)) then none
      else some bracket.middle := by
  have hvalue : ∀ x, Id.run (f x) = f x := fun _ => rfl
  simp only [bisect, Id.run_bind, apply_ite Id.run, Id.run_pure, hvalue]
  cases Id.run (Bracket.rounds f rounds.toNat ⟨a, b, f a⟩) <;> rfl

/-- The roots that two neighbours give, one at most. -/
def ofPair (f : α → α) (rounds : ℤ) (a b : α) : List α := Id.run (between f rounds a (f a) b (f b))

theorem ofPair_eq (a b : α) : ofPair f rounds a b =
    if callsForRoot (f a) (f b) then (Id.run (bisect f rounds a b)).toList else [] := rfl

theorem mem_ofPair {a b : α} : root ∈ ofPair f rounds a b ↔
    callsForRoot (f a) (f b) = true ∧ Id.run (bisect f rounds a b) = some root := by
  rw [ofPair_eq]
  split
  · next hcalls => rw [Option.mem_toList, and_iff_right hcalls]
  · next hcalls => exact iff_of_false List.not_mem_nil fun h => hcalls h.1

theorem run_signChanges_cons_cons (a b : α) (rest : List α) :
    Id.run (signChanges f rounds (a :: b :: rest)) =
      ofPair f rounds a b ++ Id.run (signChanges f rounds (b :: rest)) := rfl

/-- The roots on a list are those before two neighbours, those that the two give, and those after. -/
theorem run_signChanges_append (before : List α) (a b : α) (after : List α) :
    Id.run (signChanges f rounds (before ++ a :: b :: after)) =
      Id.run (signChanges f rounds (before ++ [a])) ++
        (ofPair f rounds a b ++ Id.run (signChanges f rounds (b :: after))) := by
  induction before with
  | nil => exact run_signChanges_cons_cons a b after
  | cons c before ih =>
    cases before with
    | nil =>
      rw [List.nil_append] at ih
      simp only [List.cons_append, List.nil_append, run_signChanges_cons_cons c a, ih, List.append_assoc]
    | cons d before =>
      rw [List.cons_append, List.cons_append] at ih
      simp only [List.cons_append, run_signChanges_cons_cons c d, ih, List.append_assoc]

end Exact
end GraphCalc.Root
