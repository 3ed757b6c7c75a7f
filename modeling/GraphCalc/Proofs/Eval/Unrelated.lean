import GraphCalc.Proofs.Eval.Inquiry

/-! # Unrelated definitions

A table of user functions decides which names are callable, so it decides how texts are read; it comes
before the built-in functions, and it is asked again whenever a body is entered. Still an evaluation
sees only the definitions of the names that it comes across. Main statements:

* `FunctionTable.find?_insert_of_ne`: putting one definition into a table leaves the others;
* `Engine.evaluateTree_of_shares`: a tree that calls only names that two tables share has one outcome
  under both, if as much is remembered;
* `Engine.reply_of_shares`: so has a text that calls only such names.
-/

namespace GraphCalc
open GraphCalc.Token
set_option autoImplicit false

/-! ## Changing one definition -/

theorem FunctionTable.find?_insert_of_ne (functions : FunctionTable) {d : Definition} {name : String}
    (hname : name ≠ d.name) : (functions.insert d).find? name = functions.find? name := by
  have hother : (d.name == name) = false := beq_eq_false_iff_ne.mpr hname.symm
  unfold insert
  split
  · dsimp only [find?, replacedBy]
    induction functions.entries with
    | nil => rfl
    | cons e entries ih =>
      rw [List.map_cons, List.find?_cons, List.find?_cons, ih]
      by_cases he : e.name = d.name
      · simp [he, hother]
      · simp [he]
  · simp [find?, List.find?_append, hother]

/-! ## Evaluation -/

namespace Engine
variable {names : String → Prop} {settings : Settings} {functions functions' : FunctionTable}
  {engine engine' : Engine}

/-- A tree that calls only shared names goes on alike under both tables: the tables say the same of every
name that is come across, and a body is read alike. -/
theorem evaluateTree_of_shares (h : functions.Shares names functions')
    (hengine : engine.Coherent settings functions) (hengine' : engine'.Coherent settings functions')
    (hbodies : engine'.bodies = engine.bodies) {e : Expr} (hheads : ∀ head ∈ e.heads, names head)
    (bindings : Bindings) :
    (engine'.evaluateTree e bindings).1 = (engine.evaluateTree e bindings).1 := by
  obtain rfl := hengine.functions_eq
  obtain rfl := hengine'.functions_eq
  have hsettings : engine'.settings = engine.settings :=
    hengine'.settings_eq.trans hengine.settings_eq.symm
  have hintervals : engine.calculus.simpsonIntervals = engine'.calculus.simpsonIntervals :=
    congrArg Settings.simpsonIntervals hsettings.symm
  have henter := (Parallel.lockstep engine.functions Room.ofBodies).enter (c := engine.calculus) h
    hintervals (fetches_lockstep h) engine.settings.maxCallDepth.toNat _ (.inl rfl)
  have hsame : (engine'.evaluation Room.usual bindings e).run.run engine.bodies =
      (engine.evaluation Room.usual bindings e).run.run engine.bodies := by
    rw [evaluation, hsettings]
    exact ((Parallel.lockstep engine.functions Room.ofBodies).value (c := engine.calculus) h.find?_eq
      hintervals henter e hheads ⟨rfl, Room.readsIn_usual⟩ (show bindings.Agree _ bindings from
        fun _ _ => rfl) engine.bodies hengine.bodies).1
  rw [evaluateTree, evaluateTree, evaluateWithin, evaluateWithin, hbodies, hsame]
  rfl

/-- A text that calls only shared names has one outcome under both tables, be it a value or a fault. -/
theorem reply_of_shares (h : functions.Shares names functions')
    (hengine : engine.Coherent settings functions) (hengine' : engine'.Coherent settings functions')
    (hbodies : engine'.bodies = engine.bodies) {source : String}
    (hsource : ∀ head ∈ calledIn source, names head) (bindings : Bindings) :
    (engine'.reply (.text source bindings)).1 = (engine.reply (.text source bindings)).1 ∧
      engine'.cutsOff (.text source bindings) = engine.cutsOff (.text source bindings) := by
  have hread : functions'.read source = functions.read source :=
    (h.readWithin_eq hsource Room.ofBodies).symm
  obtain ⟨hcompile, hafter, hkept⟩ := hengine.compile source
  obtain ⟨hcompile', hafter', hkept'⟩ := hengine'.compile source
  have hsame := hcompile'.trans (hread.trans hcompile.symm)
  have hheads {e : Expr} (he : functions.read source = .ok e) : ∀ head ∈ e.heads, names head :=
    fun head hhead => hsource head (heads_subset_of_readWithin he hhead)
  rw [← hcompile] at hheads
  rw [cutsOff, cutsOff, reply, evaluate, reply, evaluate]
  generalize engine.compile source = found at *
  generalize engine'.compile source = found' at *
  rcases found with ⟨e | e, engine₁⟩
  all_goals
    rcases found' with ⟨_, engine₁'⟩
    obtain rfl := hsame
  · exact ⟨rfl, rfl⟩
  · have houtcome := evaluateTree_of_shares h hafter hafter' (hkept'.trans (hbodies.trans hkept.symm))
      (hheads rfl) bindings
    exact ⟨houtcome, congrArg isCutOff houtcome⟩

end Engine
end GraphCalc
