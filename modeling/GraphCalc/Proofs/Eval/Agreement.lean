import GraphCalc.Proofs.Eval.Memory

/-! # Evaluation reads free names only

An engine gives a tree one answer under all bindings that agree on its free names, be it a value or a
fault, and remembers the same bodies after it. The names that are free in a body count if the body can be
read. Main statement:

* `evaluate_of_agree`: evaluation under bindings that agree, on every engine that can be reached.
-/

namespace GraphCalc
set_option autoImplicit false

/-- On every engine that can be reached, evaluation of a tree under two lists of bindings that agree on
its free names has the same outcome, be it a value or a fault, and leaves the same engine. Free names of
bodies count if the body can be read within a limit that is not beyond what the room leaves for reading
a body. -/
theorem evaluate_of_agree {settings : Settings} {functions : FunctionTable} {engine : Engine}
    (hreachable : Engine.Reachable settings functions engine) {limit room : Room}
    (hlimit : Room.ofBodies.AtMost limit) (hroom : Room.ReadsIn limit room) (e : Expr)
    {bindings bindings' : Bindings} (h : bindings.Agree (e.Reads functions limit) bindings') :
    engine.evaluateWithin room e bindings = engine.evaluateWithin room e bindings' := by
  have hcoherent := hreachable.coherent
  obtain rfl := hcoherent.functions_eq
  have henter := (Parallel.lockstep engine.functions limit).enter (c := engine.calculus)
    (.refl engine.functions) rfl (fetches_lockstep (.refl engine.functions))
    engine.settings.maxCallDepth.toNat _ (.inl rfl)
  have hsame := ((Parallel.lockstep engine.functions limit).value (c := engine.calculus)
    (fun _ _ => rfl) rfl henter e (fun _ _ => trivial) ⟨rfl, hroom⟩ h engine.bodies
    (hcoherent.bodies.mono hlimit)).1
  have hrun : (engine.evaluation room bindings' e).run.run engine.bodies =
      (engine.evaluation room bindings e).run.run engine.bodies := hsame
  rw [Engine.evaluateWithin, Engine.evaluateWithin, hrun]

/-! ### A function that reads a name of its caller -/

/-- The table of `f(t) = g(t) + y` and `g(s) = s * t`, where `g` reads the parameter of its caller. -/
def nestedTable : FunctionTable := ⟨[⟨"f", "t", "g(t) + y"⟩, ⟨"g", "s", "s * t"⟩], by decide⟩

/-- The tree of `int(f(x), 0.0, u)`. -/
def nestedIntegral : Expr := .call "int" [.call "f" [.var "x"], .number 0.0, .var "u"]

/-- Of `x`, `y`, `s`, `t` and `u` only `y` and `u` are free: `x` is bound by the integral, `t` by `f`
and `s` by `g`. -/
theorem reads_nestedIntegral (name : String) :
    nestedIntegral.Reads nestedTable Room.ofBodies name ↔ name = "y" ∨ name = "u" := by
  have hbodyf : nestedTable.readWithin Room.ofBodies "g(t) + y" =
      .ok (.binary .add (.call "g" [.var "t"]) (.var "y")) := by cbv
  have hbodyg : nestedTable.readWithin Room.ofBodies "s * t" =
      .ok (.binary .multiply (.var "s") (.var "t")) := by cbv
  have hfindf : nestedTable.find? "f" = some ⟨"f", "t", "g(t) + y"⟩ := rfl
  have hfindg : nestedTable.find? "g" = some ⟨"g", "s", "s * t"⟩ := rfl
  rw [nestedIntegral, ← integralName, Expr.reads_integral_iff rfl, Expr.reads_user_iff hfindf]
  simp only [Expr.reads_user_iff hfindg, FunctionTable.Reads, hbodyf, hbodyg, Except.ok.injEq,
    exists_eq_left', Expr.reads_var_iff, Expr.reads_binary_iff, Expr.reads_number,
    integrationVariable]
  grind

/-- Bindings that differ in the order of names and in the values of `x` and `t`, which are not free,
give one outcome. -/
theorem evaluate_nestedIntegral :
    Room.ofBodies.AtMost Room.ofBodies ∧ Room.ReadsIn Room.ofBodies Room.usual ∧
    Bindings.Agree (nestedIntegral.Reads nestedTable Room.ofBodies)
      [("x", 1.0), ("y", 2.0), ("u", 3.0)] [("u", 3.0), ("t", 7.0), ("y", 2.0)] ∧
    (Engine.fresh Settings.default nestedTable).evaluateWithin Room.usual nestedIntegral
        [("x", 1.0), ("y", 2.0), ("u", 3.0)] =
      (Engine.fresh Settings.default nestedTable).evaluateWithin Room.usual nestedIntegral
        [("u", 3.0), ("t", 7.0), ("y", 2.0)] := by
  have hagree : Bindings.Agree (nestedIntegral.Reads nestedTable Room.ofBodies)
      [("x", 1.0), ("y", 2.0), ("u", 3.0)] [("u", 3.0), ("t", 7.0), ("y", 2.0)] := by
    intro name hname
    rcases (reads_nestedIntegral name).mp hname with rfl | rfl
    · rfl
    · rfl
  have hlimit : Room.ofBodies.AtMost Room.ofBodies := Room.readsIn_usual
  exact ⟨hlimit, Room.readsIn_usual, hagree,
    evaluate_of_agree .fresh hlimit Room.readsIn_usual nestedIntegral hagree⟩

end GraphCalc
