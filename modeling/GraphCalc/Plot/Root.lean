import GraphCalc.Number.Scalar

/-! # Roots

Roots are looked for between neighbouring samples of opposite sign and refined by bisection. The values
of the function are got by computations of any kind, one after the other. Main notions:

* `Bracket`: an interval that is halved, with the value at its left end;
* `Bracket.halve`: one round, which keeps the half where the sign changes;
* `bisect`: the refined root of an interval; none if a value on the way is not finite, or if the
  function is larger at the refined place than at both ends, as near a pole;
* `signChanges`: the roots found on a list of places, one at most for each pair of neighbours.
-/

namespace GraphCalc.Root
set_option autoImplicit false

variable {α : Type} [Scalar α] {m : Type → Type} [Monad m]

/-! ## Halving -/

/-- An interval with the value of the function at its left end. -/
structure Bracket (α : Type) where
  left : α
  right : α
  value : α
  deriving Repr

@[specialize] def Bracket.middle (b : Bracket α) : α := (b.left + b.right) / Scalar.ofInt 2

/-- Not positive. -/
@[specialize] def notPositive (v : α) : Bool :=
  Scalar.less v (Scalar.ofInt 0) || Scalar.equal v (Scalar.ofInt 0)

/-- The half of a bracket in which the sign changes, given the value in the middle: the left one if the
values at its ends have no common sign, else the right one. -/
@[specialize] def Bracket.half (b : Bracket α) (value : α) : Option (Bracket α) :=
  if !Scalar.isFinite value then none
  else if notPositive (b.value * value) then some { b with right := b.middle }
  else some { b with left := b.middle, value := value }

/-- One round. -/
@[specialize] def Bracket.halve (f : α → m α) (b : Bracket α) : m (Option (Bracket α)) :=
  return b.half (← f b.middle)

@[specialize] def Bracket.rounds (f : α → m α) : Nat → Bracket α → m (Option (Bracket α))
  | 0, b => return some b
  | n + 1, b => do
    match ← b.halve f with
    | none => return none
    | some b => Bracket.rounds f n b

/-! ## Refined roots -/

@[specialize] def largerMagnitude (v w : α) : α :=
  if Scalar.less (Scalar.abs v) (Scalar.abs w) then Scalar.abs w else Scalar.abs v

/-- The root between `a` and `b` after a number of rounds; a negative number counts as none. -/
@[specialize] def bisect (f : α → m α) (rounds : Int) (a b : α) : m (Option α) := do
  let atA ← f a
  let atB ← f b
  if !(Scalar.isFinite atA && Scalar.isFinite atB) then return none
  else if Scalar.equal atA (Scalar.ofInt 0) then return some a
  else
    match ← Bracket.rounds f rounds.toNat ⟨a, b, atA⟩ with
    | none => return none
    | some bracket =>
      let root := bracket.middle
      let atRoot ← f root
      if !Scalar.isFinite atRoot || Scalar.less (largerMagnitude atA atB) (Scalar.abs atRoot) then
        return none
      else return some root

/-! ## Roots on a grid -/

/-- Whether the values of neighbouring samples call for a root: the first is zero, or the signs are
opposite. -/
@[specialize] def callsForRoot (v w : α) : Bool :=
  Scalar.isFinite v && Scalar.isFinite w &&
    (Scalar.equal v (Scalar.ofInt 0) || Scalar.less (v * w) (Scalar.ofInt 0))

/-- The root that two neighbouring samples give, if any. -/
@[specialize] def between (f : α → m α) (rounds : Int) (a atA b atB : α) : m (List α) :=
  if callsForRoot atA atB then return (← bisect f rounds a b).toList else return []

/-- The roots on a list of places behind a sample. -/
@[specialize] def signChangesFrom (f : α → m α) (rounds : Int) (a atA : α) : List α → m (List α)
  | [] => return []
  | b :: places => do
    let atB ← f b
    let roots ← between f rounds a atA b atB
    return roots ++ (← signChangesFrom f rounds b atB places)

/-- The roots of a function found on a list of places. -/
@[specialize] def signChanges (f : α → m α) (rounds : Int) : List α → m (List α)
  | [] => return []
  | a :: places => do signChangesFrom f rounds a (← f a) places

end GraphCalc.Root
