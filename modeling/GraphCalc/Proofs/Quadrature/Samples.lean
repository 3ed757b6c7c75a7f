import GraphCalc.Eval.Quadrature
import Mathlib

/-! # Samples of an integral

Simpson's rule samples its integrand at the cuts between the parts, the ends included, and at no other
place. Main notions and statements:

* `cut`, `cuts`: the places of the samples, in order;
* `evenCount_eq`: there are two parts or more, an even number of them;
* `simpson_eq`: the rule as a weighted sum over the cuts;
* `simpson_defined_iff`: an integral is defined if and only if its integrand is so at all cuts.
-/

namespace GraphCalc.Quadrature
set_option autoImplicit false

variable {α : Type} [Scalar α] {ε : Type}

/-! ## Cuts -/

/-- The width of one part between `a` and `b`. -/
def partWidth (intervals : ℤ) (a b : α) : α := (b - a) / Scalar.ofInt (evenCount intervals)

def cut (intervals : ℤ) (a b : α) (i : ℕ) : α := abscissa a (partWidth intervals a b) i

/-- The places of the samples between `a` and `b`. There are none if the number of parts is beyond
the scalars. -/
def cuts (intervals : ℤ) (a b : α) : List α :=
  if Scalar.isFinite (Scalar.ofInt (evenCount intervals) : α) then
    (List.range (evenCount intervals + 1).toNat).map (cut intervals a b)
  else []

theorem evenCount_eq {n : ℤ} (h : 1 ≤ n) : ∃ m : ℕ, 0 < m ∧ evenCount n = (2 * m : ℕ) := by
  refine ⟨((n + 1) / 2).toNat, by omega, ?_⟩
  unfold evenCount
  split <;> omega

/-! ## The rule -/

/-- A sum or a sample that is neither undefined nor an error. -/
def Defined (r : Except ε (Option α)) : Prop := ∃ v, r = .ok (some v)

section Rule
variable {fault : GridError → ε} {f : α → Except ε (Option α)} {a b : α} {intervals : ℤ}

theorem simpson_eq (h : 1 ≤ intervals)
    (hfinite : Scalar.isFinite (Scalar.ofInt (evenCount intervals) : α) = true) :
    simpson fault intervals f a b =
      (weightedSum (fun i => f (cut intervals a b i)) (evenCount intervals).toNat
        (evenCount intervals + 1).toNat 0 (Scalar.ofInt 0)).map
          (Option.map fun total => total * partWidth intervals a b / Scalar.ofInt 3) := by
  obtain ⟨m, hm, hn⟩ := evenCount_eq h
  unfold simpson cut partWidth
  simp only [hfinite]
  rw [if_neg (by omega), Bool.not_true, if_neg Bool.false_ne_true]
  generalize (weightedSum _ _ _ _ _ : Except ε (Option α)) = r
  rcases r with e | total
  · rfl
  · cases total <;> rfl

theorem simpson_of_not_isFinite (h : 1 ≤ intervals)
    (hfinite : Scalar.isFinite (Scalar.ofInt (evenCount intervals) : α) = false) :
    simpson fault intervals f a b = .error (fault .tooManyIntervals) := by
  obtain ⟨m, hm, hn⟩ := evenCount_eq h
  unfold simpson
  simp only [hfinite]
  rw [if_neg (by omega), Bool.not_false, if_pos rfl]
  rfl

theorem weightedSum_defined_iff {sample : ℕ → Except ε (Option α)} {last count i : ℕ} {total : α} :
    Defined (weightedSum sample last count i total) ↔
      ∀ j, i ≤ j → j < i + count → Defined (sample j) := by
  induction count generalizing i total with
  | zero => exact iff_of_true ⟨total, rfl⟩ fun j hle hlt => absurd hlt (by omega)
  | succ count ih =>
    have hsplit : (∀ j, i ≤ j → j < i + (count + 1) → Defined (sample j)) ↔
        Defined (sample i) ∧ ∀ j, i + 1 ≤ j → j < i + 1 + count → Defined (sample j) := by
      refine ⟨fun h => ⟨h i le_rfl (by omega), fun j hle hlt => h j (by omega) (by omega)⟩,
        fun ⟨hfirst, hrest⟩ j hle hlt => ?_⟩
      rcases hle.eq_or_lt with rfl | hnext
      · exact hfirst
      · exact hrest j hnext (by omega)
    rw [hsplit]
    unfold weightedSum
    rcases hsample : sample i with e | y
    · exact iff_of_false (fun ⟨_, h⟩ => nomatch h) fun ⟨⟨_, h⟩, _⟩ => nomatch h
    · cases y with
      | none => exact iff_of_false (fun ⟨_, h⟩ => nomatch h) fun ⟨⟨_, h⟩, _⟩ => nomatch h
      | some y => exact ih.trans (and_iff_right ⟨y, rfl⟩).symm

theorem simpson_defined_iff (h : 1 ≤ intervals) :
    Defined (simpson fault intervals f a b) ↔
      Scalar.isFinite (Scalar.ofInt (evenCount intervals) : α) = true ∧
        ∀ x ∈ cuts intervals a b, Defined (f x) := by
  cases hfinite : Scalar.isFinite (Scalar.ofInt (evenCount intervals) : α) with
  | false =>
    rw [simpson_of_not_isFinite h hfinite]
    exact iff_of_false (fun ⟨_, h⟩ => nomatch h) fun ⟨h, _⟩ => nomatch h
  | true =>
    have hmap {r : Except ε (Option α)} {g : α → α} : Defined (r.map (Option.map g)) ↔ Defined r := by
      rcases r with e | v
      · exact iff_of_false (fun ⟨_, h⟩ => nomatch h) fun ⟨_, h⟩ => nomatch h
      · cases v with
        | none => exact iff_of_false (fun ⟨_, h⟩ => nomatch h) fun ⟨_, h⟩ => nomatch h
        | some v => exact iff_of_true ⟨g v, rfl⟩ ⟨v, rfl⟩
    rw [simpson_eq h hfinite, hmap, weightedSum_defined_iff, cuts, if_pos hfinite, and_iff_right rfl,
      List.forall_mem_map]
    simp only [List.mem_range, Nat.zero_le, Nat.zero_add, true_imp_iff]

end Rule
end GraphCalc.Quadrature
