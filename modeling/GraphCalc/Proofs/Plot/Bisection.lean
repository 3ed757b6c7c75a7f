import GraphCalc.Proofs.Plot.Roots

/-! # Exact bisection

Bisection on rationals, of a function that need not be continuous or monotone. Main notions and
statements:

* `Bracket.Keeps`: what is true of a bracket after a number of rounds;
* `Bracket.Keeps.half`, `Bracket.Keeps.rounds`: a round preserves it, and so do all rounds;
* `bisect_keeps_bracket`: a root is the middle of a bracket of known width, and it is refused only
  where the function is larger than at both ends of the interval.
-/

namespace GraphCalc.Root
set_option autoImplicit false

variable {f : ℚ → ℚ} {a b : ℚ}

/-! ## One round -/

/-- A bracket after a number of rounds from the interval between `a` and `b`: the function has the sign
of its value at `a` at the left end, and it is zero or has the other sign at the right end. -/
structure Bracket.Keeps (f : ℚ → ℚ) (a b : ℚ) (rounds : ℕ) (bracket : Bracket ℚ) : Prop where
  low : a ≤ bracket.left
  ordered : bracket.left < bracket.right
  high : bracket.right ≤ b
  width : bracket.right - bracket.left = (b - a) / 2 ^ rounds
  value : bracket.value = f bracket.left
  left_sign : 0 < f a * f bracket.left
  right_sign : f a * f bracket.right ≤ 0

theorem Bracket.middle_eq (bracket : Bracket ℚ) :
    bracket.middle = (bracket.left + bracket.right) / 2 := by
  show (bracket.left + bracket.right) / ((2 : ℤ) : ℚ) = _
  rw [Int.cast_ofNat]

theorem notPositive_iff {v : ℚ} : notPositive v = true ↔ v ≤ 0 := by
  unfold notPositive
  simp [le_iff_lt_or_eq]

theorem Bracket.half_eq (bracket : Bracket ℚ) (v : ℚ) : bracket.half v =
    some (if bracket.value * v ≤ 0 then { bracket with right := bracket.middle }
      else { bracket with left := bracket.middle, value := v }) := by
  have hsame : notPositive (bracket.value * v) = true ↔ bracket.value * v ≤ 0 := notPositive_iff
  unfold Bracket.half
  simp only [Scalar.isFinite_rat, Bool.not_true, Bool.false_eq_true, if_false]
  split
  · next h => rw [if_pos (hsame.mp h)]
  · next h => rw [if_neg fun hle => h (hsame.mpr hle)]

/-- Numbers of one sign have products of one sign with any third number. -/
theorem mul_nonpos_iff_of_mul_pos {u v w : ℚ} (h : 0 < u * v) : v * w ≤ 0 ↔ u * w ≤ 0 := by
  have hforth {p q : ℚ} (hpq : 0 < p * q) (hle : q * w ≤ 0) : p * w ≤ 0 := by
    have hq : 0 < q * q := mul_self_pos.mpr (right_ne_zero_of_mul hpq.ne')
    refine nonpos_of_mul_nonpos_left ?_ hq
    calc p * w * (q * q) = p * q * (q * w) := by ring
      _ ≤ 0 := mul_nonpos_of_nonneg_of_nonpos hpq.le hle
  exact ⟨hforth h, hforth (mul_comm u v ▸ h)⟩

theorem Bracket.Keeps.half {k : ℕ} {bracket : Bracket ℚ} (h : bracket.Keeps f a b k) :
    ∃ next, bracket.half (f bracket.middle) = some next ∧ next.Keeps f a b (k + 1) := by
  obtain ⟨hlow, hordered, hhigh, hwidth, hvalue, hleft, hright⟩ := h
  have hmiddle := bracket.middle_eq
  have hhalf : (b - a) / 2 ^ (k + 1) = (bracket.right - bracket.left) / 2 := by
    rw [hwidth, pow_succ, div_div]
  -- the value at the left end stands in for the one at `a`, whose sign it has
  have hsign : bracket.value * f bracket.middle ≤ 0 ↔ f a * f bracket.middle ≤ 0 :=
    mul_nonpos_iff_of_mul_pos (hvalue ▸ hleft)
  refine ⟨_, bracket.half_eq _, ?_⟩
  split
  · next hle =>
    refine ⟨hlow, ?_, ?_, ?_, hvalue, hleft, hsign.mp hle⟩ <;> dsimp only <;> linarith
  · next hgt =>
    have hpos : 0 < f a * f bracket.middle := not_le.mp fun hle => hgt (hsign.mpr hle)
    refine ⟨?_, ?_, hhigh, ?_, rfl, hpos, hright⟩ <;> dsimp only <;> linarith

/-! ## All rounds -/

theorem Bracket.Keeps.rounds {n k : ℕ} {bracket : Bracket ℚ} (h : bracket.Keeps f a b k) :
    ∃ last, Id.run (Bracket.rounds f n bracket) = some last ∧ last.Keeps f a b (k + n) := by
  induction n generalizing k bracket with
  | zero => exact ⟨bracket, rfl, h⟩
  | succ n ih =>
    obtain ⟨next, hnext, hkeeps⟩ := h.half
    obtain ⟨last, hlast, hend⟩ := ih hkeeps
    refine ⟨last, ?_, ?_⟩
    · rw [run_rounds_succ, hnext, Option.bind_some, hlast]
    · rwa [Nat.add_right_comm, Nat.add_assoc] at hend

/-! ## Roots -/

theorem largerMagnitude_eq (v w : ℚ) : largerMagnitude v w = max |v| |w| := by
  unfold largerMagnitude
  simp only [Scalar.less_rat, Scalar.abs_rat, decide_eq_true_eq]
  split
  · next h => rw [max_eq_right h.le]
  · next h => rw [max_eq_left (not_lt.mp h)]

/-- Between places where the function has opposite signs every round keeps such a bracket, and halves
it. The middle of the last one is the root, unless the function is larger there than at both places. -/
theorem bisect_keeps_bracket (hab : a < b) (hsigns : f a * f b < 0) (n : ℕ) :
    (∀ k ≤ n, ∃ bracket, Id.run (Bracket.rounds f k ⟨a, b, f a⟩) = some bracket ∧ bracket.Keeps f a b k) ∧
    ∃ last, Id.run (Bracket.rounds f n ⟨a, b, f a⟩) = some last ∧ last.Keeps f a b n ∧
      Id.run (bisect f n a b) = if |f a| < |f last.middle| ∧ |f b| < |f last.middle| then none
        else some last.middle := by
  have ha : f a ≠ 0 := fun h0 => by simp [h0] at hsigns
  have hstart : Bracket.Keeps f a b 0 ⟨a, b, f a⟩ :=
    ⟨le_rfl, hab, le_rfl, by simp, rfl, mul_self_pos.mpr ha, hsigns.le⟩
  have hrounds (k : ℕ) : ∃ bracket, Id.run (Bracket.rounds f k ⟨a, b, f a⟩) = some bracket ∧
      bracket.Keeps f a b k := by
    obtain ⟨last, hlast, hkeeps⟩ := hstart.rounds (n := k)
    exact ⟨last, hlast, by rwa [Nat.zero_add] at hkeeps⟩
  obtain ⟨last, hlast, hkeeps⟩ := hrounds n
  refine ⟨fun k _ => hrounds k, last, hlast, hkeeps, ?_⟩
  rw [run_bisect, Int.toNat_natCast, hlast, Option.bind_some]
  simp only [Scalar.isFinite_rat, Scalar.equal_rat, Scalar.less_rat, Scalar.abs_rat, Scalar.ofInt_rat,
    Int.cast_zero, Bool.and_self, Bool.not_true, Bool.false_or, Bool.false_eq_true, decide_eq_true_eq,
    if_false, ha, largerMagnitude_eq, max_lt_iff]

/-- A function that changes sign at one tenth without being zero anywhere. -/
def jump (x : ℚ) : ℚ := if x < 1 / 10 then -1 else 1

/-- Four rounds close in on the jump, though the function is not zero there. -/
theorem jump_is_bracketed : (0 : ℚ) < 1 ∧ jump 0 * jump 1 < 0 ∧
    (∃ bracket, Id.run (Bracket.rounds jump 2 ⟨0, 1, jump 0⟩) = some bracket ∧ bracket.Keeps jump 0 1 2) ∧
    ∃ last : Bracket ℚ, last.Keeps jump 0 1 4 ∧ last.middle = 3 / 32 := by
  have hlt : (0 : ℚ) < 1 := by decide
  have hsigns : jump 0 * jump 1 < 0 := by decide +kernel
  have hroot : Id.run (bisect jump (4 : ℕ) 0 1) = some (3 / 32) := by decide +kernel
  obtain ⟨hall, last, -, hkeeps, hbisect⟩ := bisect_keeps_bracket hlt hsigns 4
  refine ⟨hlt, hsigns, hall 2 (by decide), last, hkeeps, ?_⟩
  rw [hroot] at hbisect
  split at hbisect
  · cases hbisect
  · exact (Option.some.inj hbisect).symm

end GraphCalc.Root
