import GraphCalc.Proofs.Eval.Unrelated
import GraphCalc.Proofs.Line.Definition
import GraphCalc.Proofs.Source.Written
import GraphCalc.Proofs.Worksheet.History

/-! # Lines that define something else

A new line of a worksheet may define a function, and every other line is then read with one more
callable name. A line that does not come across the name keeps its values. Main notions and statements:

* `ofLine?_trimmed`: a line defines the same function with or without blanks at its ends;
* `definitionsOf_tidy_append`: a line that defines a function puts it into the table of a worksheet;
* `Engine.valueAt_of_shares`: the height of a line under two tables that share the names it comes across;
* `unrelated_definition_shows_in_nesting_only`: in engines and in worksheets.
-/

namespace GraphCalc
open GraphCalc.Text GraphCalc.Token
set_option autoImplicit false

/-! ## Called names -/

theorem Token.exists_mem_of_mem_heads {name : String} {ts : List Token} (h : name ∈ heads ts) :
    ∃ p, (⟨.name, name, p⟩ : Token) ∈ ts := by
  induction ts using heads.induct with
  | case1 head q text p rest ih =>
    rw [heads] at h
    rcases List.mem_cons.mp h with rfl | h
    · exact ⟨q, List.mem_cons_self⟩
    · obtain ⟨r, hr⟩ := ih h
      exact ⟨r, List.mem_cons_of_mem _ hr⟩
  | case2 t rest hother ih =>
    rw [heads] at h
    · obtain ⟨r, hr⟩ := ih h
      exact ⟨r, List.mem_cons_of_mem _ hr⟩
    · exact hother
  | case3 => cases h

/-- The characters of a called name are in the text. -/
theorem Token.subset_of_mem_calledIn {name text : String} (h : name ∈ calledIn text) :
    name.toList ⊆ text.toList := by
  unfold calledIn at h
  split at h
  · next stream hscan =>
    obtain ⟨p, hmem⟩ := exists_mem_of_mem_heads h
    obtain ⟨ts, us, htokens⟩ := List.append_of_mem hmem
    have hwritten := (scans_of_scan hscan).1.written
    rw [htokens] at hwritten
    obtain ⟨before, after, htext, -⟩ := hwritten.cut
    rw [htext]
    exact List.subset_append_of_subset_right _ (List.subset_append_left _ _)
  · cases h

/-! ## Tables of worksheets -/

theorem ofLine?_trimmed (line : String) :
    Definition.ofLine? (trimmed line) = Definition.ofLine? line := by
  rw [Definition.ofLine?, Definition.ofLine?, trimmed, String.toList_ofList, ofChars?_eq_unbraced?,
    ofChars?_eq_unbraced?, ofEquation?_trim]

theorem definitionsOf_append_singleton {lines : List String} {line : String} {d : Definition}
    (h : Definition.ofLine? line = some d) :
    Worksheet.definitionsOf (lines ++ [line]) = (Worksheet.definitionsOf lines).insert d := by
  have hline : [line].filterMap Definition.ofLine? = [d] := by simp [h]
  rw [Worksheet.definitionsOf, Worksheet.definitionsOf, List.filterMap_append, hline]
  exact List.foldl_concat _ _ _ _

/-- A line that defines a function is not blank, so it is kept at the end of the lines. -/
theorem definitionsOf_tidy_append {lines : List String} {line : String} {d : Definition}
    (htidy : Worksheet.tidy lines = lines) (h : Definition.ofLine? line = some d) :
    Worksheet.definitionsOf (Worksheet.tidy (lines ++ [line])) =
      (Worksheet.definitionsOf lines).insert d := by
  have hdefines : Definition.ofLine? (trimmed line) = some d := (ofLine?_trimmed line).trans h
  have hne : trimmed line ≠ "" := by
    intro hblank
    rw [hblank] at hdefines
    cases hdefines
  have hsplit : Worksheet.tidy (lines ++ [line]) = lines ++ [trimmed line] := by
    rw [Worksheet.tidy, List.map_append, List.filter_append, ← Worksheet.tidy, htidy]
    simp [hne]
  rw [hsplit, definitionsOf_append_singleton hdefines]

/-! ## Graphs -/

/-- The height of a line is found alike under two tables that share the names it comes across, if as
much is remembered. -/
theorem Engine.valueAt_of_shares {names : String → Prop} {settings : Settings}
    {functions functions' : FunctionTable} {engine engine' : Engine}
    (h : functions.Shares names functions') (hengine : engine.Coherent settings functions)
    (hengine' : engine'.Coherent settings functions') (hbodies : engine'.bodies = engine.bodies)
    {line : Line} (hbase : ∀ head ∈ calledIn line.base, names head) (x : Float) :
    (engine'.run (line.graph.valueAt x)).1 = (engine.run (line.graph.valueAt x)).1 ∧
      engine'.completes (line.graph.valueAt x) = engine.completes (line.graph.valueAt x) := by
  unfold Line.graph
  cases hshape : line.shape with
  | vertical place => exact ⟨rfl, rfl⟩
  | curve base =>
    rw [Line.base, hshape] at hbase
    obtain ⟨hreply, hcut⟩ := Engine.reply_of_shares h hengine hengine' hbodies hbase
      [(integrationVariable, x)]
    dsimp only [Graph.valueAt, Graph.limitedValue]
    split
    · simp [Inquiry.valueAt, Engine.run, Engine.completes, hreply, hcut]
    · exact ⟨rfl, rfl⟩

/-! ## Unrelated definitions -/

/-- Two tables that differ at most in the definition of one name share all other names, if no other
definition calls it. -/
theorem shares_of_ne {functions functions' : FunctionTable} {name : String}
    (hfind : ∀ head, head ≠ name → functions.find? head = functions'.find? head)
    (hbodies : ∀ head d, head ≠ name → functions.find? head = some d → name ∉ calledIn d.body) :
    functions.Shares (· ≠ name) functions' where
  find?_eq := hfind
  closed := fun head d hne hd _ hcalled heq => hbodies head d hne hd (heq ▸ hcalled)

/-- The definition of a name that stands in front of a bracket neither in a text nor in the body of any
other definition does not matter for the text. Fresh engines whose tables differ at most in this
definition, which may be in one of them, in both or in none, give the text one outcome under all bindings,
be it a value or a fault; so do engines that were asked anything before, unless nesting cuts the answer of
the fresh ones off. In a worksheet, used in any way, adding a line that defines the name leaves the height
of every other line as it is at every place, unless nesting cuts off what the line then asks for. -/
theorem unrelated_definition_shows_in_nesting_only :
    (∀ (settings : Settings) (start start' : FunctionTable) (before before' : List Engine.Request)
      (name source : String) (bindings : Bindings),
      let functions := Engine.lastTable before start
      let functions' := Engine.lastTable before' start'
      (∀ head, head ≠ name → functions.find? head = functions'.find? head) →
      name ∉ calledIn source →
      (∀ head d, head ≠ name → functions.find? head = some d → name ∉ calledIn d.body) →
      ((Engine.fresh settings functions).evaluate source bindings).1 =
        ((Engine.fresh settings functions').evaluate source bindings).1 ∧
      ((Engine.fresh settings functions).cutsOff (.text source bindings) = false →
        (((Engine.fresh settings start).after before).evaluate source bindings).1 =
          (((Engine.fresh settings start').after before').evaluate source bindings).1)) ∧
    ∀ (settings : Settings) (lines : List String) (before : List Worksheet.Request)
      (line source : String) (d : Definition) (x : Float),
      let w := (Worksheet.ofLines settings lines).after before
      Definition.ofLine? line = some d →
      d.name ∉ calledIn (Line.read source).base →
      (∀ head e, head ≠ d.name → w.definitions.find? head = some e → d.name ∉ calledIn e.body) →
      (w.add line).manages (.valueAt source x) = true →
      ((w.add line).valueAt source x).1 = (w.valueAt source x).1 := by
  constructor
  · intro settings start start' before before' name source bindings functions functions' hfind
      hsource hbodies
    have hshares := shares_of_ne hfind hbodies
    have hheads : ∀ head ∈ calledIn source, head ≠ name := fun head hhead heq => hsource (heq ▸ hhead)
    have hfresh := Engine.coherent_fresh settings functions
    have hfresh' := Engine.coherent_fresh settings functions'
    obtain ⟨hreply, hcut⟩ := Engine.reply_of_shares hshares hfresh hfresh' rfl hheads bindings
    refine ⟨hreply.symm, fun huncut => ?_⟩
    have hengine := Engine.coherent_after (Engine.coherent_fresh settings start) before
    have hengine' := Engine.coherent_after (Engine.coherent_fresh settings start') before'
    have hused : (((Engine.fresh settings start).after before).reply (.text source bindings)).1 =
        ((Engine.fresh settings functions).reply (.text source bindings)).1 :=
      hfresh.reply_eq hengine (Engine.extends_fresh _ _ _) huncut
    have hused' : (((Engine.fresh settings start').after before').reply (.text source bindings)).1 =
        ((Engine.fresh settings functions').reply (.text source bindings)).1 :=
      hfresh'.reply_eq hengine' (Engine.extends_fresh _ _ _) (hcut.trans huncut)
    exact hused.trans (hreply.symm.trans hused'.symm)
  · intro settings lines before line source d x w hline hsource hbodies hmanages
    have hw := Worksheet.coherent_after (Worksheet.coherent_ofLines settings lines) before
    generalize Worksheet.lastLines before (Worksheet.tidy lines) = kept at hw
    have hadd := hw.add line
    rw [hw.definitions_eq] at hbodies
    have htable := definitionsOf_tidy_append hw.tidy_eq hline
    have hshares := shares_of_ne
      (fun head hne => ((Worksheet.definitionsOf kept).find?_insert_of_ne hne).symm) hbodies
    have hengine := hadd.engine
    rw [htable] at hengine
    have hfresh := Engine.coherent_fresh settings (Worksheet.definitionsOf kept)
    obtain ⟨hvalue, hcompletes⟩ := Engine.valueAt_of_shares hshares hfresh hengine rfl
      (fun head hhead heq => hsource (heq ▸ hhead)) x
    rw [hadd.manages_valueAt] at hmanages
    rw [hadd.valueAt_eq, hw.valueAt_eq, hvalue]
    exact (hfresh.run_warm hw.engine (Engine.extends_fresh _ _ _) (hcompletes.symm.trans hmanages)).2.symm

/-- A new function `g` does not touch a line that calls `h`, in whose body it is not called. -/
theorem doubling_does_not_touch_successor :
    let w := Worksheet.ofLines Settings.default ["h(t) = t + 1", "y = h(x)"]
    let d : Definition := ⟨"g", "t", "2 * t"⟩
    Definition.ofLine? "g(t) = 2 * t" = some d ∧
      d.name ∉ calledIn (Line.read "y = h(x)").base ∧
      (∀ head e, head ≠ d.name → w.definitions.find? head = some e → d.name ∉ calledIn e.body) ∧
      (w.add "g(t) = 2 * t").manages (.valueAt "y = h(x)" 3.0) = true ∧
      ((w.add "g(t) = 2 * t").valueAt "y = h(x)" 3.0).1 = (w.valueAt "y = h(x)" 3.0).1 := by
  intro w d
  have hline : Definition.ofLine? "g(t) = 2 * t" = some d := by decide +kernel
  have hsource : d.name ∉ calledIn (Line.read "y = h(x)").base := by decide +kernel
  have hdefinitions : w.definitions = ⟨[⟨"h", "t", "t + 1"⟩], by decide⟩ := by decide +kernel
  have hbody : d.name ∉ calledIn "t + 1" := by decide +kernel
  have hbodies : ∀ head e, head ≠ d.name → w.definitions.find? head = some e →
      d.name ∉ calledIn e.body := by
    intro head e _ hfind
    rw [hdefinitions] at hfind
    obtain rfl := List.mem_singleton.mp (List.mem_of_find?_eq_some hfind)
    exact hbody
  have hmanages : (w.add "g(t) = 2 * t").manages (.valueAt "y = h(x)" 3.0) = true := by decide +kernel
  refine ⟨hline, hsource, hbodies, hmanages, ?_⟩
  exact unrelated_definition_shows_in_nesting_only.2 Settings.default _ [] _ _ d 3.0 hline hsource
    hbodies hmanages

/-- An engine has answered a call by itself when the definition of `g` is added to its table. A fresh table
is one with nothing remembered, so the call behind 600 signs, which it could answer before, is cut off. -/
theorem added_definition_is_noticed :
    let g : Definition := ⟨"g", "t", "2*t"⟩
    let used := (Engine.fresh Settings.default deepTable).after
      [.evaluate (.text (negatedCall 0) [(integrationVariable, 1.0)])]
    g.name ∉ calledIn (negatedCall 600) ∧
      (∀ head d, head ≠ g.name → deepTable.find? head = some d → g.name ∉ calledIn d.body) ∧
      (used.evaluate (negatedCall 600) [(integrationVariable, 1.0)]).1 = .ok euler ∧
      ∃ p, ((used.setFunctions (deepTable.insert g)).evaluate (negatedCall 600)
        [(integrationVariable, 1.0)]).1 = .error (.unreadable (.tooDeep p)) := by
  intro g used
  have hfind : deepTable.find? "f" = some (nestedConstant 120) := rfl
  have hcalls : 0 < Settings.default.maxCallDepth := by decide
  have hfresh := Engine.coherent_fresh Settings.default deepTable
  obtain ⟨-, hknown⟩ := hfresh.reply_negatedCall_of_read hfind hcalls (k := 0) (by decide) 1.0
    (.inr (by decide))
  have hused := (hfresh.reply (.text (negatedCall 0) [(integrationVariable, 1.0)])).1
  rw [← Engine.after_evaluate] at hknown hused
  refine ⟨fun h => ?_, ?_, ?_, ?_⟩
  · have hmem : 'g' ∈ (negatedCall 600).toList := subset_of_mem_calledIn h (by decide)
    exact absurd (mem_negatedCall hmem) (by decide)
  · intro head d _ hd hcalled
    obtain rfl := List.mem_singleton.mp (List.mem_of_find?_eq_some hd)
    have hmem : 'g' ∈ (nestedConstant 120).body.toList := subset_of_mem_calledIn hcalled (by decide)
    rw [nestedConstant, String.toList_ofList] at hmem
    exact absurd (mem_nested hmem) (by decide)
  · have heven : Neg.neg^[600] euler = euler := iterate_neg_euler 300
    rw [← heven]
    exact (hused.reply_negatedCall_of_read hfind hcalls (by decide) 1.0 (.inl hknown)).1
  · have hadded : (deepTable.insert g).find? "f" = some (nestedConstant 120) :=
      (deepTable.find?_insert_of_ne (by decide)).trans hfind
    obtain ⟨p, hdeep, -⟩ := (hused.setFunctions (deepTable.insert g)).reply_negatedCall_of_deep hadded
      hcalls (k := 600) (by decide) 1.0 rfl (by decide)
    exact ⟨p, hdeep⟩

end GraphCalc
