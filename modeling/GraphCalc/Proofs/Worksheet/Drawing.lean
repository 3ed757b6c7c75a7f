import GraphCalc.Proofs.Eval.Substitution
import GraphCalc.Proofs.Line.Drawn
import GraphCalc.Proofs.Source.RenamedTree
import GraphCalc.Proofs.Worksheet.History

/-! # Drawing a defined function

A line that defines a function draws it, and so does a line that calls it at `x`. The first evaluates
the body with the parameter renamed in its text, the second binds the parameter and enters the body with
one call less. Main notions and statements:

* `Definition.Renames`: definitions whose parameter can be renamed to `x` in the text of the body;
* `drawn_outlasts`: the renamed body has the value of the body, unless the body runs out of calls;
* `outcome_callAtX`: the call binds the parameter and enters the body;
* `definition_draws_function`: on every worksheet, the two lines have the same height everywhere.
-/

namespace GraphCalc
open GraphCalc.Token
set_option autoImplicit false

/-! ## Definitions that can be renamed -/

/-- Renaming the parameter of a definition to `x` in the text of the body renames the variable and does
nothing else: it stands behind no digit and in no number, it is not free in an integrand, and no called
function looks for it. -/
structure Definition.Renames (functions : FunctionTable) (d : Definition) : Prop where
  behindDigit : NotBehindDigit d.parameter d.body.toList
  inNumber : NotInNumber d.parameter d.body.toList
  lost : ∀ body, functions.body d = .ok body → ¬ body.Loses functions Room.ofBodies d.parameter

/-- The text that the line of a definition draws. -/
def Definition.drawn (d : Definition) : String :=
  String.ofList (renameWord d.parameter.toList integrationVariable.toList d.body.toList)

/-! ## Values -/

section Values
variable {c : Calculus} {limit : Room} {d : Definition}

/-- The renamed body has the value that the body has where the parameter is bound besides `x`. -/
theorem value_renamed {body : Expr} (hlost : ¬ body.Loses c.functions limit d.parameter)
    (hparameter : d.parameter ≠ integrationVariable) (calls : ℕ) (x : Float) :
    c.outcome limit calls [(integrationVariable, x)]
        (body.mapVars (renamedName d.parameter integrationVariable)) =
      c.outcome limit calls [(d.parameter, x), (integrationVariable, x)] body := by
  have hagree : Bindings.Agree (· ≠ d.parameter) [(d.parameter, x), (integrationVariable, x)]
      [(integrationVariable, x)] := by
    intro name hname
    rw [List.lookup_cons, beq_eq_false_iff_ne.mpr hname]
  refine value_mapVars (Parallel.enters_same limit c calls) hparameter body hagree
    (.inr ⟨hlost, x, ?_, ?_⟩) <;> simp

theorem outcome_bound_twice (body : Expr) (calls : ℕ) (name : String) (x : Float) :
    c.outcome limit calls [(name, x), (name, x)] body = c.outcome limit calls [(name, x)] body := by
  refine value_congr none fun name' _ => ?_
  rw [List.lookup_cons]
  cases hsame : name' == name with
  | true => rw [List.lookup_cons, hsame]
  | false => rfl

end Values

section Texts
variable {functions : FunctionTable} {d : Definition}

/-- The drawn text reads as the renamed body, or is refused with the body. -/
theorem read_drawn (hword : IsWord d.parameter) (hparameter : functions.callable d.parameter = false)
    (hx : functions.callable "x" = false) (hne : d.parameter ≠ integrationVariable)
    (hrenames : d.Renames functions) :
    match functions.body d with
    | .ok body => functions.read d.drawn =
        .ok (body.mapVars (renamedName d.parameter integrationVariable))
    | .error _ => ∃ e, functions.read d.drawn = .error e := by
  have hread := read_renamed hword.isName hne hparameter hx fun t ht =>
    renamesWell_of_occurs hword.parts hrenames.behindDigit hrenames.inNumber ht
  rw [String.ofList_toList] at hread
  exact hread

/-- What the line of a definition draws reads as a tree that has the value of the body, where that does
not run out of calls; it is refused where the body is. -/
theorem drawn_outlasts {c : Calculus} (hc : c.functions = functions) (hword : IsWord d.parameter)
    (hparameter : functions.callable d.parameter = false) (hx : functions.callable "x" = false)
    (hrenames : d.parameter ≠ integrationVariable → d.Renames functions) :
    match functions.body d with
    | .ok body => ∃ e, functions.read d.drawn = .ok e ∧ ∀ (calls calls' : ℕ) (x : Float),
        calls ≤ calls' → Outlasts
          (c.outcome Room.ofBodies calls [(d.parameter, x), (integrationVariable, x)] body)
          (c.outcome Room.ofBodies calls' [(integrationVariable, x)] e)
    | .error _ => ∃ e, functions.read d.drawn = .error e := by
  subst hc
  by_cases hsame : d.parameter = integrationVariable
  · -- The text is drawn as it is.
    have hdrawn : c.functions.read d.drawn = c.functions.body d := by
      rw [Definition.drawn, hsame, renameWord, if_pos rfl, String.ofList_toList]
      rfl
    rw [hdrawn]
    cases hbody : c.functions.body d with
    | error e => exact ⟨e, rfl⟩
    | ok body =>
      refine ⟨body, rfl, fun calls calls' x hcalls => ?_⟩
      rw [hsame, outcome_bound_twice]
      exact c.outcome_outlasts _ hcalls _ body
  · have hread := read_drawn hword hparameter hx hsame (hrenames hsame)
    cases hbody : c.functions.body d with
    | error e =>
      rw [hbody] at hread
      exact hread
    | ok body =>
      rw [hbody] at hread
      refine ⟨_, hread, fun calls calls' x hcalls => ?_⟩
      rw [← value_renamed ((hrenames hsame).lost body hbody) hsame]
      exact c.outcome_outlasts _ hcalls _ _

/-- A call at `x` binds the parameter and enters the body with one call less. -/
theorem outcome_callAtX {c : Calculus} (hfind : c.functions.find? d.name = some d) (calls : ℕ)
    (x : Float) :
    c.outcome Room.ofBodies calls [(integrationVariable, x)] (.call d.name [.var "x"]) =
      match calls with
      | 0 => .error (.callDepth d.name)
      | calls + 1 => match c.functions.body d with
        | .error e => .error (.unreadable e)
        | .ok body =>
          c.outcome Room.ofBodies calls [(d.parameter, x), (integrationVariable, x)] body := by
  have hdefines : c.functions.defines d.name = true := by rw [FunctionTable.defines, hfind]; rfl
  rw [Calculus.outcome, Expr.value]
  simp only [Room.inside, pure_bind, hdefines, not_true, and_false, if_false, hfind]
  cases calls with
  | zero => rfl
  | succ calls =>
    rw [Calculus.enter?, Expr.value]
    show (c.functions.atHand Room.ofBodies d none >>= _) = _
    rw [FunctionTable.atHand]
    show ((c.functions.body d).mapError _ >>= _) = _
    cases c.functions.body d with
    | error e => rfl
    | ok body => rfl

/-- The drawn text is answered as the call is, but for the fault: either both have one value, or neither
has any. -/
theorem orUndefined_drawn {settings : Settings} (hname : IsWord d.name) (hword : IsWord d.parameter)
    (hfind : functions.find? d.name = some d) (hparameter : functions.callable d.parameter = false)
    (hx : functions.callable "x" = false)
    (hrenames : d.parameter ≠ integrationVariable → d.Renames functions) (x : Float)
    (hcalls : ∀ name, (Question.text (callAtX d.name) [(integrationVariable, x)]).outcome settings
      functions ≠ .error (.callDepth name)) :
    Inquiry.orUndefined ((Question.text d.drawn [(integrationVariable, x)]).outcome settings functions) =
      Inquiry.orUndefined
        ((Question.text (callAtX d.name) [(integrationVariable, x)]).outcome settings functions) := by
  have hcallable : functions.callable d.name = true := by
    simp [FunctionTable.callable, FunctionTable.defines, hfind]
  have hcall : functions.read (callAtX d.name) = .ok (.call d.name [.var "x"]) :=
    readTree_callAtX hname hcallable
  obtain ⟨c, hc, hfresh⟩ : ∃ c : Calculus, c.functions = functions ∧
      (Engine.fresh settings functions).calculus = c := ⟨_, rfl, rfl⟩
  have hfollows := drawn_outlasts hc hword hparameter hx hrenames
  have hentered := outcome_callAtX (c := c) (hc ▸ hfind) settings.maxCallDepth.toNat x
  rw [hc] at hentered
  rw [Question.outcome, Question.outcome, hcall]
  rw [Question.outcome, hcall] at hcalls
  dsimp only at hcalls ⊢
  rw [Engine.outcome, hfresh] at hcalls ⊢
  cases hdepth : settings.maxCallDepth.toNat with
  | zero =>
    rw [hdepth] at hentered hcalls
    exact absurd hentered (hcalls d.name)
  | succ calls =>
    rw [hdepth] at hentered hcalls
    dsimp only at hentered
    cases hbody : functions.body d with
    | error e =>
      rw [hbody] at hfollows hentered
      obtain ⟨e', hread⟩ := hfollows
      rw [hread, hentered]
      rfl
    | ok body =>
      rw [hbody] at hfollows hentered
      obtain ⟨tree, hread, hlasts⟩ := hfollows
      have hlast := (hlasts calls (calls + 1) x (by omega)).eq fun name hcut =>
        hcalls name (hentered.trans hcut)
      rw [hread, hentered]
      dsimp only
      rw [hlast, Engine.outcome, hfresh, hdepth]

end Texts

/-! ## Lines -/

/-- A line without limits has the height that its text has. -/
theorem Worksheet.Coherent.valueAt_eq_reply {settings : Settings} {lines : List String} {w : Worksheet}
    (h : w.Coherent settings lines) {source base : String}
    (hshape : (Line.read source).shape = .curve base) (hlimits : (Line.read source).limits = none)
    (x : Float) :
    (w.valueAt source x).1 =
      Inquiry.orUndefined (w.engine.reply (.text base [(integrationVariable, x)])).1 := by
  rw [h.valueAt_eq, Line.graph, hshape, hlimits]
  simp [Graph.valueAt, Graph.limitedValue, Graph.limitedHeight, Limits.allow, Inquiry.valueAt,
    Engine.run]

/-- On a worksheet that has been used in any way, the line of a definition that is in force and has no
limits draws the function: at each place its height is that of the call `f(x)` as a line, be it a value
or undefined. The parameter is not callable and can be renamed, the call does not run out of calls, and
nesting cuts neither evaluation off. -/
theorem definition_draws_function (settings : Settings) (lines : List String)
    (before : List Worksheet.Request) {line : String} {d : Definition} (x : Float) :
    let w := (Worksheet.ofLines settings lines).after before
    (Line.read line).definition = some d → (Line.read line).limits = none →
    w.definitions.find? d.name = some d → w.definitions.callable d.parameter = false →
    (d.parameter ≠ integrationVariable → d.Renames w.definitions) →
    (∀ name, (w.evaluate (callAtX d.name) [(integrationVariable, x)]).1 ≠ .error (.callDepth name)) →
    w.engine.cutsOff (.text (callAtX d.name) [(integrationVariable, x)]) = false →
    w.engine.cutsOff (.text d.drawn [(integrationVariable, x)]) = false →
    (w.valueAt line x).1 = (w.valueAt (callAtX d.name) x).1 := by
  intro w hdefinition hlimits hfind hparameter hrenames hcalls hcall hdrawn
  have hw := Worksheet.coherent_after (Worksheet.coherent_ofLines settings lines) before
  generalize Worksheet.lastLines before (Worksheet.tidy lines) = kept at hw
  rw [hw.definitions_eq] at hfind hparameter hrenames
  obtain ⟨hname, hword⟩ := isWord_of_definition hdefinition
  have hshape : (Line.read line).shape = .curve d.drawn := shape_of_definition hdefinition
  have hread := read_callAtX hname
  have hanswer := (hw.engine.reply (.text (callAtX d.name) [(integrationVariable, x)])).2.2 hcall
  rw [hw.valueAt_eq_reply hshape hlimits, hw.valueAt_eq_reply (by rw [hread]) (by rw [hread]), hanswer,
    (hw.engine.reply _).2.2 hdrawn]
  refine orUndefined_drawn hname hword hfind hparameter (callable_definitionsOf_x kept) hrenames x ?_
  exact fun name hname => hcalls name (hanswer.trans hname)

/-! ### Two functions with an integral -/

/-- A worksheet of one line, where integrals are cut into two parts. -/
def coarseSheet (line : String) : Worksheet :=
  .ofLines { Settings.default with simpsonIntervals := 2 } [line]

/-- A function whose parameter is the upper bound of an integral. -/
def integralUpTo : Definition := ⟨"f", "t", "t + int(x, x, t)"⟩

def integralUpToTokens : List Token :=
  [⟨.name, "t", 0⟩, ⟨.operator, "+", 2⟩, ⟨.name, "int", 4⟩, ⟨.opening, "(", 7⟩, ⟨.name, "x", 8⟩,
    ⟨.comma, ",", 9⟩, ⟨.name, "x", 11⟩, ⟨.comma, ",", 12⟩, ⟨.name, "t", 14⟩, ⟨.closing, ")", 15⟩]

theorem scan_integralUpTo : scan integralUpTo.body.toList = .ok ⟨integralUpToTokens, 16⟩ := by
  decide +kernel

theorem body_integralUpTo : FunctionTable.body ⟨[integralUpTo], by decide⟩ integralUpTo =
    .ok (.binary .add (.var "t") (.call integralName [.var "x", .var "x", .var "t"])) := by
  rw [FunctionTable.body, FunctionTable.read, Expr.read, Expr.readWithin, scan_integralUpTo]
  rfl

theorem renames_integralUpTo : integralUpTo.Renames ⟨[integralUpTo], by decide⟩ where
  behindDigit := notBehindDigit_of_scan scan_integralUpTo (by decide +kernel)
  inNumber := by
    have hall : ∀ t ∈ integralUpToTokens, t.isNumber = false := by decide
    intro t v ht hkind
    have hnumber := hall t (mem_of_occurs scan_integralUpTo ht)
    rw [Token.isNumber, hkind] at hnumber
    cases hnumber
  lost := by
    intro body hbody hloses
    obtain rfl := Except.ok.inj (body_integralUpTo.symm.trans hbody)
    cases hloses with
    | left h => cases h
    | right h =>
      cases h with
      | integrand _ h => simp [integralUpTo] at h
      | lower _ h => cases h
      | upper _ h => cases h
      | builtin _ known =>
        rw [builtin?_integralName] at known
        cases known

/-- The line draws the function, in whose integrand the parameter does not stand. -/
theorem integralUpTo_is_drawn :
    let line := "f(t) = t + int(x, x, t)"
    integralUpTo.Renames (coarseSheet line).definitions ∧
      ((coarseSheet line).valueAt line 3.0).1 = ((coarseSheet line).valueAt (callAtX "f") 3.0).1 := by
  intro line
  have hdefinitions : (coarseSheet line).definitions = ⟨[integralUpTo], by decide⟩ := by decide +kernel
  have hrenames : integralUpTo.Renames (coarseSheet line).definitions := by
    rw [hdefinitions]
    exact renames_integralUpTo
  have hvalue : ((coarseSheet line).evaluate (callAtX "f") [(integrationVariable, 3.0)]).1 =
      .ok 3.0 := by
    decide +kernel
  refine ⟨hrenames, definition_draws_function _ [line] [] 3.0 (d := integralUpTo) ?_ ?_ ?_ ?_ ?_ ?_ ?_ ?_⟩
  · decide +kernel
  · decide +kernel
  · decide +kernel
  · decide +kernel
  · exact fun _ => hrenames
  · intro name hname
    cases hvalue.symm.trans hname
  · exact Engine.cutsOff_of_reply_ok hvalue
  · decide +kernel

theorem scan_capturing : scan "int(t, 0, 1)".toList =
    .ok ⟨[⟨.name, "int", 0⟩, ⟨.opening, "(", 3⟩, ⟨.name, "t", 4⟩, ⟨.comma, ",", 5⟩,
      ⟨.number 0.0, "0", 7⟩, ⟨.comma, ",", 8⟩, ⟨.number 1.0, "1", 10⟩, ⟨.closing, ")", 11⟩], 12⟩ := by
  decide +kernel

/-- The line of a function whose parameter is free in an integrand draws another function: at `2` it has
the integral of `x`, and the function has the integral of `2`. -/
theorem captured_parameter_is_not_drawn :
    let line := "f(t) = int(t, 0, 1)"
    let d : Definition := ⟨"f", "t", "int(t, 0, 1)"⟩
    let w := coarseSheet line
    line ∈ w.lines ∧ (Line.read line).definition = some d ∧ (Line.read line).limits = none ∧
      w.definitions.find? "f" = some d ∧ w.definitions.callable "t" = false ∧
      NotBehindDigit "t" d.body.toList ∧
      (w.evaluate d.drawn [(integrationVariable, 2.0)]).1 = .ok 0.5 ∧
      (w.evaluate (callAtX "f") [(integrationVariable, 2.0)]).1 = .ok 2.0 ∧
      (w.valueAt line 2.0).1 ≠ (w.valueAt (callAtX "f") 2.0).1 := by
  intro line d w
  have hline : (w.valueAt line 2.0).1 = 0.5 := by decide +kernel
  have hcall : (w.valueAt (callAtX "f") 2.0).1 = 2.0 := by decide +kernel
  refine ⟨?_, ?_, ?_, ?_, ?_, notBehindDigit_of_scan scan_capturing (by decide +kernel), ?_, ?_, ?_⟩
  · decide +kernel
  · decide +kernel
  · decide +kernel
  · decide +kernel
  · decide +kernel
  · decide +kernel
  · decide +kernel
  · rw [hline, hcall]
    decide +kernel

end GraphCalc
