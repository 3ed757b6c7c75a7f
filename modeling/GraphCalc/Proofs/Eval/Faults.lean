import GraphCalc.Eval.Value

/-! # Which faults a computation can have

A computation either answers or has a fault. Here faults are followed through the steps of an
evaluation: sequencing, nesting, operators, and the samples of an integral. Main notions:

* `Faults allowed r`: every fault of `r` is an allowed one;
* `Faults.bind`: a sequence has the faults of its two parts;
* `Faults.nested`, `Faults.apply`, `Faults.sampleOf`: a nested step has the faults of what it goes on with;
  an operator divides by zero at most, and a sample does not even that;
* `faults_integral_or_grid`: an integral has the faults of its samples, and that of a missing grid;
* `faults_integral`: an integral has the faults of its samples, if its grid exists;
* `Expected`: the faults that a well-formed tree may have.
-/

namespace GraphCalc
set_option autoImplicit false

/-! ## Sequences -/

/-- Every fault of a computation is an allowed one. -/
def Faults {ε α : Type} (allowed : ε → Prop) (r : Except ε α) : Prop :=
  ∀ e, r = .error e → allowed e

section Sequences
variable {ε α β : Type} {allowed allowed' : ε → Prop}

theorem Faults.ok (a : α) : Faults allowed (.ok a) := by
  rintro e ⟨⟩

theorem Faults.error {e : ε} (h : allowed e) : Faults allowed (.error e : Except ε α) := by
  rintro e' ⟨⟩
  exact h

theorem Faults.mono {r : Except ε α} (h : Faults allowed r) (himp : ∀ e, allowed e → allowed' e) :
    Faults allowed' r := fun e he => himp e (h e he)

theorem Faults.bind {r : Except ε α} {f : α → Except ε β} (h : Faults allowed r)
    (hf : ∀ a, r = .ok a → Faults allowed (f a)) : Faults allowed (r >>= f) := by
  cases r with
  | error e => exact .error (h e rfl)
  | ok a => exact hf a rfl

end Sequences

/-! ## Quadrature -/

namespace Quadrature
variable {α ε : Type} [Scalar α] {allowed : ε → Prop}

theorem faults_weightedSum {sample : Nat → Except ε (Option α)} (h : ∀ i, Faults allowed (sample i))
    (last count i : Nat) (total : α) : Faults allowed (weightedSum sample last count i total) := by
  induction count generalizing i total with
  | zero => exact .ok _
  | succ count ih =>
    refine (h i).bind fun y _ => ?_
    cases y with
    | none => exact .ok _
    | some y => exact ih _ _

variable {fault : GridError → ε} {intervals : Int} {f : α → Except ε (Option α)}

section Grids
variable (hnone : evenCount intervals = 0 → allowed (fault .noIntervals))
  (hmany : Scalar.isFinite (Scalar.ofInt (evenCount intervals) : α) = false →
    allowed (fault .tooManyIntervals))
include hnone hmany

theorem faults_simpson (h : ∀ x, Faults allowed (f x)) (a b : α) :
    Faults allowed (simpson fault intervals f a b) := by
  unfold simpson
  dsimp only
  split
  · next hzero => exact .error (hnone hzero)
  split
  · next hlarge => exact .error (hmany (by simpa using hlarge))
  refine (faults_weightedSum (fun i => h _) _ _ _ _).bind fun total _ => ?_
  cases total <;> exact .ok _

/-- The faults of an integral are those of its samples, and that of a missing grid. -/
theorem faults_integral_or_grid (h : ∀ x, Faults allowed (f x)) (a b : α) :
    Faults allowed (integral fault intervals f a b) := by
  unfold integral
  split
  · exact .ok _
  split
  · exact .ok _
  split
  · exact (faults_simpson hnone hmany h b a).bind fun v _ => .ok _
  · exact faults_simpson hnone hmany h a b

end Grids

/-- The rule has a grid if the even count is neither zero nor beyond the largest scalar. -/
theorem faults_integral (hcount : evenCount intervals ≠ 0)
    (hfinite : Scalar.isFinite (Scalar.ofInt (evenCount intervals) : α) = true)
    (h : ∀ x, Faults allowed (f x)) (a b : α) :
    Faults allowed (integral fault intervals f a b) :=
  faults_integral_or_grid (fun hzero => absurd hzero hcount)
    (fun hlarge => absurd hfinite (by simp [hlarge])) h a b

end Quadrature

/-! ## Nesting -/

/-- With no limit of room a nested step has the faults of what it goes on with. -/
theorem Faults.nested {allowed : EvalError → Prop} {α : Type} {f : Room → Except EvalError α}
    (h : Faults allowed (f none)) : Faults allowed (Room.inside none >>= f) :=
  h

/-! ## Operators and samples -/

section Steps
variable {allowed : EvalError → Prop}

/-- An operator has no fault but a division by zero, unless it is an operator of no text. -/
theorem Faults.apply {operator : Operator}
    (hdivides : operator = .divide ∨ operator = .modulo → allowed .divisionByZero)
    (hother : ∀ symbol, operator = .other symbol → allowed (.unknownOperator symbol)) (a b : Float) :
    Faults allowed (operator.apply a b) := by
  cases operator with
  | add => exact .ok _
  | subtract => exact .ok _
  | multiply => exact .ok _
  | power => exact .ok _
  | divide =>
    unfold Operator.apply
    dsimp only
    split
    · exact .error (hdivides (.inl rfl))
    · exact .ok _
  | modulo =>
    unfold Operator.apply
    dsimp only
    split
    · exact .error (hdivides (.inr rfl))
    · exact .ok _
  | other symbol => exact .error (hother symbol rfl)

/-- A division by zero is no fault of a sample. -/
theorem Faults.sampleOf {allowed' : EvalError → Prop} {r : Except EvalError Float}
    (h : Faults allowed' r) (himp : ∀ e, e ≠ .divisionByZero → allowed' e → allowed e) :
    Faults allowed (sampleOf r) := by
  cases r with
  | ok y => exact .ok _
  | error e =>
    have hallowed := himp e
    cases e with
    | divisionByZero => exact .ok _
    | _ => exact .error (hallowed (by simp) (h _ rfl))

end Steps

/-! ## The faults of well-formed trees -/

/-- The faults that a well-formed tree may have where no nesting is too deep: a division by zero if it
divides outside integrands, and a call of a user function beyond the depth of calls. -/
def Expected (functions : FunctionTable) (divides : Prop) : EvalError → Prop
  | .divisionByZero => divides
  | .callDepth name => functions.defines name = true
  | _ => False

section Expectations
variable {functions : FunctionTable} {divides : Prop}

/-- An operator of texts has no fault but a division by zero, and has that one only if it divides. -/
theorem faults_apply {operator : Operator} (hknown : operator ∈ Operator.known)
    (hdivides : operator = .divide ∨ operator = .modulo → divides) (a b : Float) :
    Faults (Expected functions divides) (operator.apply a b) := by
  refine Faults.apply hdivides (fun symbol hother => ?_) a b
  subst hother
  simp [Operator.known] at hknown

theorem faults_sampleOf {r : Except EvalError Float} (h : Faults (Expected functions True) r) :
    Faults (Expected functions divides) (sampleOf r) := by
  refine h.sampleOf fun e hne hexpected => ?_
  cases e with
  | divisionByZero => exact absurd rfl hne
  | _ => exact hexpected

theorem Expected.mono {divides' : Prop} (himp : divides → divides') (e : EvalError)
    (h : Expected functions divides e) : Expected functions divides' e := by
  cases e with
  | divisionByZero => exact himp h
  | _ => exact h

end Expectations
end GraphCalc
