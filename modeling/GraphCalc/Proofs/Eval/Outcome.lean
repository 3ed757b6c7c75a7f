import GraphCalc.Proofs.Eval.Memory
import GraphCalc.Proofs.Eval.WellFormed
import GraphCalc.Settings

/-! # How evaluation can end

What an engine remembers does not change its answers but for nesting, and the settings of an environment
always give integrals a grid. So on every engine that can be reached, a well-formed tree has a value or
an expected fault. Main notions and statements:

* `simpsonIntervals_ofEnvironment`: the settings of an environment have a positive even count of
  parts;
* `evaluate_wellFormed`: how the evaluation of a well-formed tree can end;
* `value_onesSum`: a sum nested beyond the room is refused, whatever it would be worth.
-/

namespace GraphCalc
set_option autoImplicit false

/-! ## The grid of integrals -/

section Count
open Quadrature

theorem count_pos (environment : Environment) (name : String) {usual : Int} (h : 0 < usual) :
    0 < Settings.count environment name usual := by
  unfold Settings.count
  split
  · split
    · next hpos => exact hpos
    · exact h
  · exact h

theorem evenCount_of_even {n : Int} (h : n % 2 = 0) : evenCount n = n := by
  rw [evenCount, if_pos h]

/-- The settings of an environment cut integrals into a positive even number of parts, which the
rule leaves as it is. -/
theorem simpsonIntervals_ofEnvironment (environment : Environment) :
    0 < (Settings.ofEnvironment environment).simpsonIntervals ∧
    evenCount (Settings.ofEnvironment environment).simpsonIntervals =
      (Settings.ofEnvironment environment).simpsonIntervals := by
  have hpos : 0 < Settings.count environment Settings.simpsonVariable
      Settings.default.simpsonIntervals := count_pos environment _ (by decide)
  unfold Settings.ofEnvironment
  dsimp only
  split
  · next heven => exact ⟨hpos, evenCount_of_even heven⟩
  · next hodd => exact ⟨by omega, evenCount_of_even (by omega)⟩

end Count

/-! ## Evaluation -/

/-- Evaluation of a well-formed tree over well-formed bodies, on any engine that can be reached under
the settings of an environment. It ends in a value, in a division by zero, in a call beyond the depth
of calls, or, if the room is limited, in nesting beyond the room, in the tree or in the text of a body.
A division by zero is possible only if a tree divides outside integrands; no integral lacks a grid. -/
theorem evaluate_wellFormed {environment : Environment} {functions : FunctionTable} {engine : Engine}
    (hreachable : Engine.Reachable (Settings.ofEnvironment environment) functions engine)
    (hcount : (Float.ofInt (Settings.ofEnvironment environment).simpsonIntervals).isFinite = true)
    (divides : Prop) (bindings : Bindings) {limit room : Room} (hlimit : Room.ofBodies.AtMost limit)
    (hroom : Room.ReadsIn limit room)
    (hbodies : ∀ name d, functions.find? name = some d →
      ∃ body, functions.readWithin limit d.body = .ok body ∧ body.WellFormed functions divides
        fun name => name = d.parameter ∨ (bindings.lookup name).isSome = true)
    {e : Expr}
    (he : e.WellFormed functions divides fun name => (bindings.lookup name).isSome = true) :
    (∃ v, (engine.evaluateWithin room e bindings).1 = .ok v) ∨
    (divides ∧ (engine.evaluateWithin room e bindings).1 = .error .divisionByZero) ∨
    (∃ name, functions.defines name = true ∧
      (engine.evaluateWithin room e bindings).1 = .error (.callDepth name)) ∨
    (room ≠ none ∧ ((engine.evaluateWithin room e bindings).1 = .error .tooDeep ∨
      ∃ p, (engine.evaluateWithin room e bindings).1 = .error (.unreadable (.tooDeep p)))) := by
  have hcoherent := hreachable.coherent
  obtain ⟨hpos, heven⟩ := simpsonIntervals_ofEnvironment environment
  have hends := (Engine.evaluation_settles room
    (hcoherent.functions_eq ▸ hcoherent.bodies.mono hlimit) hroom e bindings).2.2
  rw [Engine.outcome_eq hcoherent] at hends
  rcases hends with houtcome | ⟨hlimited, hcut⟩
  · have hsome : Quadrature.evenCount (Settings.ofEnvironment environment).simpsonIntervals ≠ 0 := by
      omega
    have hwell := @Expr.WellFormed.outcome
      (Engine.fresh (Settings.ofEnvironment environment) functions).calculus limit divides _ hsome
      (heven.symm ▸ hcount) bindings (fun _ h => h) hbodies e he
      (Settings.ofEnvironment environment).maxCallDepth.toNat
    rw [houtcome]
    exact hwell.imp_right fun h => h.imp_right .inl
  · refine .inr (.inr (.inr ⟨hlimited, ?_⟩))
    generalize (engine.evaluateWithin room e bindings).1 = outcome at hcut
    rcases outcome with fault | v
    · cases fault with
      | tooDeep => exact .inl rfl
      | unreadable fault =>
        cases fault with
        | tooDeep p => exact .inr ⟨p, rfl⟩
        | _ => cases hcut
      | _ => cases hcut
    · cases hcut

/-- The table of one function, `f(t) = t * t`. -/
def squareTable : FunctionTable := ⟨[⟨"f", "t", "t * t"⟩], by decide⟩

/-- The tree of `f(x) + int(1.0 / x, x, 1.0)`, which divides inside an integrand only. -/
def squareAndIntegral : Expr :=
  .binary .add (.call "f" [.var "x"])
    (.call "int" [.binary .divide (.number 1.0) (.var "x"), .var "x", .number 1.0])

/-- With no limit of room, at `x = 0` this tree has a value or is too deep in calls. -/
theorem evaluate_squareAndIntegral :
    (∃ v, ((Engine.fresh (Settings.ofEnvironment []) squareTable).evaluateWithin none
      squareAndIntegral [("x", 0.0)]).1 = .ok v) ∨
    ∃ name, ((Engine.fresh (Settings.ofEnvironment []) squareTable).evaluateWithin none
      squareAndIntegral [("x", 0.0)]).1 = .error (.callDepth name) := by
  have hbodies : ∀ name d, squareTable.find? name = some d →
      ∃ body, squareTable.readWithin none d.body = .ok body ∧ body.WellFormed squareTable False
        fun name => name = d.parameter ∨ (([("x", 0.0)] : Bindings).lookup name).isSome = true := by
    intro name d hfind
    obtain rfl : d = ⟨"f", "t", "t * t"⟩ := by
      simpa [squareTable] using List.mem_of_find?_eq_some hfind
    refine ⟨.binary .multiply (.var "t") (.var "t"), by cbv, ?_⟩
    exact .binary (by decide) (by simp) (.var (.inl (.inl rfl))) (.var (.inl (.inl rfl)))
  have htree : squareAndIntegral.WellFormed squareTable False fun name =>
      (([("x", 0.0)] : Bindings).lookup name).isSome = true := by
    have hfind : squareTable.find? "f" = some ⟨"f", "t", "t * t"⟩ := rfl
    refine .binary (by decide) (by simp) (.user hfind (.var (.inl rfl))) ?_
    refine .integral rfl ?_ (.var (.inl rfl)) .number
    exact .binary (by decide) (fun _ => trivial) .number (.var (.inl (.inl rfl)))
  have hfresh : Engine.Reachable (Settings.ofEnvironment []) squareTable _ := .fresh
  rcases evaluate_wellFormed hfresh (by decide) False [("x", 0.0)] (Room.atMost_none _)
    (Room.atMost_none _) hbodies htree with hvalue | ⟨hdivides, -⟩ | ⟨name, -, hcalls⟩ | ⟨hlimited, -⟩
  · exact .inl hvalue
  · exact hdivides.elim
  · exact .inr ⟨name, hcalls⟩
  · exact absurd rfl hlimited

/-! ## Nesting beyond the room -/

/-- The tree of `1.0 + 1.0 + …` with `n` additions, which nests to the left. -/
def onesSum : Nat → Expr
  | 0 => .number 1.0
  | n + 1 => .binary .add (onesSum n) (.number 1.0)

theorem wellFormed_onesSum (functions : FunctionTable) (scope : String → Prop) (n : Nat) :
    (onesSum n).WellFormed functions False scope := by
  induction n with
  | zero => exact .number
  | succ n ih => exact .binary (by decide) (by simp) ih .number

/-- A sum nested beyond the room is refused, whatever it would be worth. -/
theorem value_onesSum (c : Calculus) (enter? : Option (Entry Evaluation)) (bindings : Bindings) (n : Nat) :
    ∀ room, room ≤ n → (onesSum n).value c enter? (some room) bindings = throw .tooDeep := by
  induction n with
  | zero =>
    intro room hroom
    obtain rfl := Nat.le_zero.mp hroom
    rfl
  | succ n ih =>
    intro room hroom
    cases room with
    | zero => rfl
    | succ room =>
      rw [onesSum, Expr.value]
      show (do
        let a ← (onesSum n).value c enter? (some room) bindings
        let b ← (Expr.number 1.0).value c enter? (some room) bindings
        Operator.add.apply a b) = _
      rw [ih room (Nat.le_of_succ_le_succ hroom)]
      rfl

/-- A well-formed sum of 2500 ones is refused as nested too deeply, under the settings of an empty
environment and without user functions. -/
theorem deep_sum_is_refused :
    (Float.ofInt (Settings.ofEnvironment []).simpsonIntervals).isFinite = true ∧
    ((onesSum 2499).WellFormed FunctionTable.empty False fun name =>
      (([] : Bindings).lookup name).isSome = true) ∧
    ((Engine.fresh (Settings.ofEnvironment []) FunctionTable.empty).evaluateTree (onesSum 2499) []).1 =
      .error .tooDeep := by
  refine ⟨by decide, wellFormed_onesSum _ _ _, ?_⟩
  rw [Engine.evaluateTree, Engine.evaluateWithin, Engine.evaluation, Room.usual,
    value_onesSum _ _ _ _ _ (by decide)]
  rfl

end GraphCalc
